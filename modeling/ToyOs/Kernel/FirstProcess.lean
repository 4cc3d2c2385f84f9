import ToyOs.Kernel.Run
import ToyOs.Boot
import ToyOs.Fs.Ops
import ToyOs.LoadAgree

/-!
A machine that boots. With the smallest executable as init and empty files in
the image every step of `kmain` succeeds, so there are kernels for the
theorems about runs to speak of. The rules here are about memory, the open
files and the references to inodes; they say nothing about locks, whose
assertions are settled elsewhere.
-/
namespace ToyOs

open Bytes Prog Function List Multiset

variable {L : Layout} {F : List ℕ} {R : Multiset ℕ} {E : Panic → Prop} {k : Kernel} {N : Finset ℕ}
  {i c : ProcRef} {f : FileRef}

section Locks

variable {l : Lock} {Q : Unit → Kernel → Prop}

theorem wp_acquire_any (hE : ∀ e, ¬ e.Benign → E e)
    (hQ : ∀ cpu held, Q () { k with cpu := cpu, held := held }) : (acquire l).wp E Q k := by
  simp only [acquire, pushOff, wp_bind, wp_modify, wp_get, wp_assert]
  exact ⟨fun _ => hQ _ _, fun _ => hE _ (by simp [Panic.Benign])⟩

theorem wp_release_any (hE : ∀ e, ¬ e.Benign → E e)
    (hQ : ∀ cpu held, Q () { k with cpu := cpu, held := held }) : (release l).wp E Q k := by
  simp only [release, popOff, wp_bind, wp_modify, wp_get, wp_assert]
  refine ⟨fun _ => ⟨fun _ => ⟨fun _ => hQ _ _, fun _ => ?_⟩, fun _ => ?_⟩, fun _ => ?_⟩
  all_goals exact hE _ (by simp [Panic.Benign])

end Locks

/-- A process with nothing but the kernel entries in its address space. -/
structure Housed (L : Layout) (p : Process) (s : Ram) (T : Tree) (F : List ℕ) (R : Multiset ℕ) :
    Prop where
  space : AddrSpace L s T F R
  kernel : T.KernelOnly L p.trapframe
  root : T.root = p.pagetable

theorem wp_allocprocInit_memory (h : Pool L k.ram F R) (hlen : 5 ≤ F.length) (ht : Fs.Tidy k.fs N)
    (hroom : Fs.Room k.fs.refs Fs.rootino) {Q : Option ProcRef → Kernel → Prop}
    (hQ : ∀ p s T F' R' fs, Housed L p s T F' R' → F.length = F'.length + 5 →
      Q (some c) { k with
        ram := s, fs := fs, procs := update k.procs c p
        nextPid := (k.nextPid + 1) % usizeSize }) :
    (allocprocInit L c).wp E Q k := by
  simp only [allocprocInit, wp_bind, wp_get, wp_modify]
  rw [onFs, wp_zoom]
  refine Fs.wp_root ht (fun hno => absurd hroom hno) fun cwd fs _ => ?_
  simp only [wp_modifyProc]
  rw [onRam, wp_zoom]
  refine wp_kallocZeroed (L := L) h.free h.free_nodup (fun p hp => h.free_managed hp) ?_ ?_
  · rintro rfl
    exact absurd hlen (by decide)
  intro tf F₁ hd heq hfree
  subst heq
  have hcons : (↑(tf :: F₁) : Multiset ℕ) + R = ↑F₁ + ({tf} + R) := by
    rw [← cons_coe, ← singleton_add]
    abel
  have hpool : Pool L { mem := fill k.ram.mem tf pgSize 0, head := hd } F₁ ({tf} + R) :=
    ⟨hfree, hcons ▸ h.nodup, hcons ▸ h.managed⟩
  rw [length_cons] at hlen
  simp only [wp_bind, wp_modifyProc, update_self, update_idem]
  rw [onRam, wp_zoom]
  refine wp_procPagetable hpool (h.free_managed mem_cons_self) (fun _ _ _ hshort => by omega)
    fun s T F₂ hcarved hkernel _ hcount => ?_
  simp only [wp_bind, wp_modifyProc, update_self, update_idem]
  rw [onRam, wp_zoom]
  refine wp_kalloc hcarved.space.free ?_ fun ks F₃ hd₃ heq hfree₃ => ?_
  · rintro rfl
    rw [length_nil] at hcount
    omega
  subst heq
  simp only [wp_bind, wp_pure, wp_modifyProc, update_self, update_idem]
  refine hQ _ _ T F₃ ({ks} + ({tf} + R)) fs ⟨?_, hkernel, rfl⟩ ?_
  · refine Space.of_pool_eq hcarved.space ?_ hcarved.space.rep hfree₃
    rw [← pool_cons, add_left_comm T.mapped, ← add_assoc, add_right_comm T.tables]
  · simp only [length_cons] at hcount ⊢
    omega

theorem wp_allocproc_memory (hE : ∀ e, ¬ e.Benign → E e) (h : Pool L k.ram F R)
    (hlen : 5 ≤ F.length) (ht : Fs.Tidy k.fs N) (hroom : Fs.Room k.fs.refs Fs.rootino)
    (hfree : ∀ c, (k.procs c).state = .unused) {Q : Option ProcRef → Kernel → Prop}
    (hQ : ∀ c p s T F' R' fs cpu held, Housed L p s T F' R' → F.length = F'.length + 5 →
      Q (some c) { k with
        ram := s, fs := fs, procs := update k.procs c p
        nextPid := (k.nextPid + 1) % usizeSize, cpu := cpu, held := held }) :
    (allocproc L).wp E Q k := by
  simp only [allocproc, wp_bind]
  -- the first slot will do
  refine wp_firstSome (fun rest t => t = k ∧ rest ≠ []) ⟨rfl, by decide⟩ ?_ ?_
  · rintro t ⟨-, hne⟩
    exact absurd rfl hne
  · rintro c rest t - ⟨rfl, -⟩
    simp only [allocprocTry, wp_bind]
    refine wp_acquire_any hE fun cpu held => ?_
    simp only [wp_getProc, hfree c, ne_eq, not_true_eq_false, if_false, wp_bind, wp_pure]
    exact wp_allocprocInit_memory (k := { t with cpu := cpu, held := held }) h hlen ht hroom
      fun p s T F' R' fs => hQ c p s T F' R' fs cpu held

theorem wp_fileAlloc_any (hE : ∀ e, ¬ e.Benign → E e) {Q : Option FileRef → Kernel → Prop}
    (hnone : ∀ cpu held, (∀ f, (k.ftable f).refcnt ≠ 0) → Q none { k with cpu := cpu, held := held })
    (hsome : ∀ f cpu held, (k.ftable f).refcnt = 0 →
      Q (some f) { k with
        ftable := update k.ftable f { File.unused with refcnt := 1 }
        cpu := cpu, held := held }) :
    fileAlloc.wp E Q k := by
  simp only [fileAlloc, wp_bind]
  refine wp_acquire_any hE fun cpu held => ?_
  refine wp_firstSome (fun rest t => t = { k with cpu := cpu, held := held } ∧
    ∀ f, f ∉ rest → (k.ftable f).refcnt ≠ 0) ⟨rfl, ?_⟩ ?_ ?_
  · exact fun f hf => absurd (mem_finRange f) hf
  · rintro t ⟨rfl, hall⟩
    exact wp_release_any hE fun cpu' held' => hnone cpu' held' fun f => hall f not_mem_nil
  · rintro f rest t - ⟨rfl, hall⟩
    simp only [fileAllocTry, wp_bind, wp_get, wp_ite, wp_pure, wp_modifyFile]
    refine ⟨fun hfree => ?_, fun hbusy => ⟨trivial, fun g hg => ?_⟩⟩
    · exact wp_release_any hE fun cpu' held' => hsome f cpu' held' hfree
    · by_cases hgf : g = f
      · subst hgf
        exact hbusy
      · exact hall g (by simp [hgf, hg])

/-- A descriptor of the process refers to the console. -/
def Kernel.withConsole (k : Kernel) (i : ProcRef) (fd : Fin nofile) (g : FileRef) (r w : Bool) (cpu : Cpu)
    (held : Lock → Bool) : Kernel :=
  { k with
    procs := Function.update k.procs i { k.procs i with
      ofile := Function.update (k.procs i).ofile fd (some g) }
    ftable := Function.update k.ftable g { File.unused with
      refcnt := 1, readable := r, writable := w, kind := .device consoleMajor }
    cpu := cpu, held := held }

theorem wp_initFd_any {fd : Fin nofile} {r w : Bool} (hE : ∀ e, ¬ e.Benign → E e)
    (hfree : ∃ f, (k.ftable f).refcnt = 0) {Q : Unit → Kernel → Prop}
    (hQ : ∀ g cpu held, (k.ftable g).refcnt = 0 → Q () (k.withConsole i fd g r w cpu held)) :
    (initFd i fd r w).wp E Q k := by
  simp only [initFd, openConsole, wp_bind]
  refine wp_fileAlloc_any hE (fun cpu held hall => ?_) fun g cpu held hg => ?_
  · obtain ⟨f, hf⟩ := hfree
    exact absurd hf (hall f)
  simp only [wp_bind, wp_modifyFile, wp_pure, wp_expect, wp_modifyProc, update_self,
    update_idem]
  refine ⟨fun a ha => ?_, fun hnone => by simp at hnone⟩
  obtain rfl := Option.some.inj ha
  exact hQ g cpu held hg

/-- The standard input of a process is the console. -/
structure ReadsConsole (i : ProcRef) (f : FileRef) (k : Kernel) : Prop where
  fd : (k.procs i).ofile stdin = some f
  live : (k.ftable f).refcnt ≠ 0
  readable : (k.ftable f).readable = true
  kind : (k.ftable f).kind = .device consoleMajor

theorem readsConsole_stdin {w : Bool} {cpu : Cpu} {held : Lock → Bool} :
    ReadsConsole i f (k.withConsole i stdin f true w cpu held) := by
  constructor <;> simp [Kernel.withConsole]

/-- Opening another descriptor leaves the standard input alone. -/
theorem ReadsConsole.withConsole {fd : Fin nofile} {g : FileRef} {r w : Bool} {cpu : Cpu}
    {held : Lock → Bool} (h : ReadsConsole i f k) (hfd : stdin ≠ fd) (hg : (k.ftable g).refcnt = 0) :
    ReadsConsole i f (k.withConsole i fd g r w cpu held) := by
  have hne : f ≠ g := by
    rintro rfl
    exact h.live hg
  constructor
  · simp only [Kernel.withConsole, update_self, update_of_ne hfd]
    exact h.fd
  · simpa only [Kernel.withConsole, update_of_ne hne] using h.live
  · simpa only [Kernel.withConsole, update_of_ne hne] using h.readable
  · simpa only [Kernel.withConsole, update_of_ne hne] using h.kind

/-- The smallest executable has an empty table of headers behind its own. -/
theorem loadElf_bare (L : Layout) (pt : ℕ) : ∃ e : Ehdr, e.phoff = 64 ∧ e.phnum = 0 ∧
    loadElf L pt (bareElf 64) = loadElfTable L pt (bareElf 64) e := by
  have hlen : ¬ (bareElf 64).length < ehdrSize := by decide +kernel
  have hacc : (Ehdr.ofBytes ((bareElf 64).take ehdrSize)).accepted = true := by decide +kernel
  refine ⟨Ehdr.ofBytes ((bareElf 64).take ehdrSize), by decide +kernel, by decide +kernel, ?_⟩
  rw [loadElf, if_neg hlen, if_pos hacc]

theorem wp_loadElf_bare {s : Ram} {T : Tree} {tf : ℕ} (h : AddrSpace L s T F R)
    (hko : T.KernelOnly L tf) (hlen : 3 ≤ F.length) {Q : Option LoadedImage → Ram → Prop}
    (hQ : ∀ image s', Q (some image) s') :
    (loadElf L T.root (bareElf 64)).wp E Q s := by
  obtain ⟨e, hoff, hnum, heq⟩ := loadElf_bare L T.root
  have hend : ¬ (bareElf 64).length < 64 := by decide +kernel
  have hfree : isValid (T.pte (vpn userStack)) = false := by
    rw [vpn_userStack, hko.rest _ (by decide) (by decide)]
    decide
  rw [heq, loadElfTable, hoff, hnum, Nat.zero_mul]
  simp only [wp_bind, wp_addUsize, Nat.add_zero, if_neg hend, loadElfHeaders, wp_pure, wp_pageRoundUp, loadStack]
  refine ⟨fun _ => ⟨fun _ => ?_, fun hover => absurd hover (by decide)⟩,
    fun hover => absurd hover (by decide)⟩
  refine wp_kallocZeroed_taken h ?_ fun pa F₁ s₁ htaken _ => ?_
  · rintro rfl
    exact absurd hlen (by decide)
  simp only [wp_bind]
  refine htaken.wp_map (by decide) (by decide) (fun _ => stack_user)
    (fun hover => absurd hover (by decide)) ?_ fun s₂ _ _ _ _ _ _ _ _ => hQ _ s₂
  rintro s₂ T₂ F₂ - (hshort | hv)
  · have := T.need_le (vpn userStack)
    omega
  · rw [hfree] at hv
    exact absurd hv (by decide)

/-- `userinit` runs to its end for the smallest executable. -/
theorem wp_userinit_memory {s : Ram} {fs : Fs.State} {uart : List UInt8} {b : Bool}
    (hE : ∀ e, ¬ e.Benign → E e) (h : Pool L s F R) (hlen : 8 ≤ F.length) (ht : Fs.Tidy fs N)
    (hroom : Fs.Room fs.refs Fs.rootino) {Q : ProcRef → Kernel → Prop}
    (hQ : ∀ i f k, ReadsConsole i f k → Q i k) :
    (userinit L (bareElf 64)).wp E Q (Kernel.initial s fs uart b) := by
  simp only [userinit, wp_bind]
  refine wp_allocproc_memory (k := Kernel.initial s fs uart b) hE h (by omega) ht hroom (fun _ => rfl)
    fun i p s₁ T F₁ R₁ fs₁ cpu held hp hleft => ?_
  simp only [wp_expect, wp_modify, wp_getProc]
  refine ⟨fun a heq => ?_, fun hnone => by simp at hnone⟩
  obtain rfl := Option.some.inj heq
  simp only [update_self]
  rw [onRam, wp_zoom, ← hp.root]
  refine wp_loadElf_bare hp.space hp.kernel (by omega) fun image s₂ => ?_
  refine ⟨fun a heq => ?_, fun hnone => by simp at hnone⟩
  simp only [wp_modifyProc, wp_setReg, update_self, update_idem]
  refine wp_initFd_any hE ⟨⟨0, by decide⟩, rfl⟩ fun f cpu₀ held₀ _ => ?_
  obtain ⟨f₁, hf₁, -⟩ := Fin.exists_ne_and_ne_of_two_lt f f (by decide : 2 < nfile)
  refine wp_initFd_any hE ⟨f₁, ?_⟩ fun g cpu₁ held₁ hg => ?_
  · simp only [Kernel.withConsole, update_of_ne hf₁]
    rfl
  obtain ⟨f₂, hf₂, hg₂⟩ := Fin.exists_ne_and_ne_of_two_lt f g (by decide : 2 < nfile)
  refine wp_initFd_any hE ⟨f₂, ?_⟩ fun g' cpu₂ held₂ hg' => ?_
  · simp only [Kernel.withConsole, update_of_ne hg₂, update_of_ne hf₂]
    rfl
  refine wp_release_any hE fun cpu₃ held₃ => hQ i f _ ?_
  refine ReadsConsole.withConsole ?_ (by decide : stdin ≠ stderr) hg'
  exact readsConsole_stdin.withConsole (by decide) hg

/-- Memory when `userinit` starts: the tables of the kernel are taken from the
free list. -/
theorem exists_kernelTable (K : KernelLayout) {r : Ram} (hr : r.head = 0)
    (hroom : 80 ≤ managedCount K.toLayout) :
    ∃ pt r' F R, (kallocInit K.toLayout >>= fun _ => kvmmake K) r = .ok (pt, r') ∧
      Pool K.toLayout r' F R ∧ 8 ≤ F.length := by
  have hwp : (kallocInit K.toLayout).wp (fun _ => False) (fun _ s => ∃ F, Pool K.toLayout s F 0 ∧
      (↑F : Multiset ℕ) = managedPages K.toLayout) r :=
    wp_kallocInit hr fun s F hpool hF => ⟨F, hpool, hF⟩
  obtain ⟨⟨⟩, s, hinit, F, hpool, hF⟩ := exists_ok hwp
  have hlen : F.length = managedCount K.toLayout := by
    rw [← coe_card, hF, card_managedPages]
  obtain ⟨root, s₁, s', F', hrun, -, -, htable, heq, hcard⟩ := kvmmake_run K hpool.free hpool.free_nodup
    (fun p hp => hpool.free_managed hp) (by omega)
  have hsum := congrArg Multiset.card heq
  rw [card_add, coe_card, coe_card] at hsum
  have hpages : (↑F' : Multiset ℕ) + tablesAt s'.mem root = ↑F := by rw [add_comm, heq]
  refine ⟨root, s', F', tablesAt s'.mem root, ?_, ⟨htable.free, ?_, fun p hp => ?_⟩, by omega⟩
  · rw [bind_ok hinit]
    exact hrun
  · rw [hpages]
    exact coe_nodup.mpr hpool.free_nodup
  · rw [hpages] at hp
    exact hpool.free_managed hp

/-- A machine with little in it. -/
def smallMachine : Machine where
  layout := smallKernel
  entry := ⟨0, 0, 0⟩
  embedded := Fs.emptyImage
  initElf := bareElf 64

theorem exists_boot : ∃ i f k, Boots smallMachine i k ∧ ReadsConsole i f k := by
  obtain ⟨pt, r, F, R, hram, hpool, hlen⟩ := exists_kernelTable smallMachine.layout
    (r := ⟨fun _ => 0, 0⟩) rfl (by decide)
  have hinit : wp (Fs.init Fs.emptyImage) (fun _ => False)
      (fun _ t => ∃ N, Fs.Initial Fs.emptyImage t N fun _ => none) Fs.blank :=
    Fs.wp_init (fun h => absurd Fs.emptyImage_empty h) fun N t ht => ⟨N, ht⟩
  obtain ⟨⟨⟩, fs, hfs, N, hi⟩ := exists_ok hinit
  have hroom : Fs.Room fs.refs Fs.rootino :=
    Fs.room_of_free (r := Fs.rootPlaceholder) (by rw [hi.booting.refs]) Fs.rootino
  have hlocks : (userinit smallLayout (bareElf 64)).wp (fun e => e.Benign) (fun i k => Started [] i k)
      (Kernel.initial r fs [] false) :=
    wp_userinit (fun _ h => h) (Fs.resting_init hfs) fun i k hk => hk
  have hmemory : (userinit smallLayout (bareElf 64)).wp (fun e => ¬ e.Benign)
      (fun i k => ∃ f, ReadsConsole i f k) (Kernel.initial r fs [] false) :=
    wp_userinit_memory (fun _ h => h) hpool hlen hi.booting.tidy hroom fun i f k hk => ⟨f, hk⟩
  obtain ⟨i, k, hrun, -, f, hf⟩ := exists_ok_and hlocks hmemory fun _ h => not_not_intro h
  exact ⟨i, f, k, ⟨⟨fun _ => 0, 0⟩, r, pt, Fs.blank, fs, [], false, rfl, hram, hfs, hrun⟩, hf⟩

end ToyOs
