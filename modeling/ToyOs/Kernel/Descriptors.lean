import ToyOs.Kernel.Steady

/-!
Descriptors. `fdalloc` takes the lowest free entry of the table of the caller;
`dup`, `close`, `pipe` and `open` move references between descriptors, files
and the call that is running. Each rule says which state a call leaves, and
that the kernel is steady there.
-/
namespace ToyOs

open Bytes Prog Function List

variable {x : List FileRef} {y : Option PipeRef} {k : Kernel} {E : Panic → Prop} {i : ProcRef}
  {f : FileRef} {fd : Fin nofile} {tf : ℕ} {Q : Result → Kernel → Prop}

/-- The free entry that `fdalloc` takes. -/
structure Lowest (o : Fin nofile → Option FileRef) (fd : Fin nofile) : Prop where
  free : o fd = none
  below : ∀ e, e < fd → o e ≠ none

@[simp] theorem wp_getReg {reg : ℕ} {Q : ℕ → Kernel → Prop} :
    (onRam (getReg tf reg)).wp E Q k ↔ Q (load 8 k.ram.mem (tf + reg)) k := Iff.rfl

theorem Steady.running (h : Steady [] x y (some i) k) : (k.procs i).state = .running :=
  (h.tables.running i).mpr rfl

/-- A kernel with one descriptor changed. -/
def Kernel.setFd (k : Kernel) (i : ProcRef) (fd : Fin nofile) (v : Option FileRef) : Kernel :=
  { k with procs := Function.update k.procs i ((k.procs i).setFd fd v) }

@[simp] theorem wp_clearFd {Q : Unit → Kernel → Prop} :
    (clearFd i fd).wp E Q k ↔ Q () (k.setFd i fd none) := Iff.rfl

theorem setFd_ofile {v : Option FileRef} (e : Fin nofile) :
    ((k.setFd i fd v).procs i).ofile e = if e = fd then v else (k.procs i).ofile e := by
  simp only [Kernel.setFd, update_self, Process.setFd_ofile]

/-- A reference in flight goes to a free descriptor. -/
theorem Steady.link (h : Steady [] (f :: x) y (some i) k) (hfree : (k.procs i).ofile fd = none) :
    Steady [] x y (some i) (k.setFd i fd (some f)) :=
  ⟨h.hart, h.tables.own (h.tables.accounts.link hfree) h.running rfl, h.fs⟩

theorem Steady.unlink (h : Steady [] x y (some i) k) (hfd : (k.procs i).ofile fd = some f) :
    Steady [] (f :: x) y (some i) (k.setFd i fd none) :=
  ⟨h.hart, h.tables.own (h.tables.accounts.unlink hfd) h.running rfl, h.fs⟩

theorem setFd_clear (hfree : (k.procs i).ofile fd = none) :
    (k.setFd i fd (some f)).setFd i fd none = k := by
  have hp : ((k.procs i).setFd fd (some f)).setFd fd none = k.procs i := by
    simp only [Process.setFd, update_idem]
    rw [← hfree, update_eq_self]
  simp only [Kernel.setFd, update_self, update_idem, hp, update_eq_self]

theorem setFd_comm {e : Fin nofile} {v v' : Option FileRef} (hne : e ≠ fd) :
    (k.setFd i fd v).setFd i e v' = (k.setFd i e v').setFd i fd v := by
  simp only [Kernel.setFd, Process.setFd, update_self, update_idem,
    update_comm hne]

theorem setFd_obs {v : Option FileRef} : (k.setFd i fd v).obs = k.obs := by
  simp only [Kernel.obs, Kernel.setFd, Obs.mk.injEq, true_and, and_true]
  exact life_update rfl

theorem wp_fdalloc {Q : Option (Fin nofile) → Kernel → Prop}
    (hnone : (∀ fd, (k.procs i).ofile fd ≠ none) → Q none k)
    (hsome : ∀ fd, Lowest (k.procs i).ofile fd → Q (some fd) (k.setFd i fd (some f))) :
    (fdalloc i f).wp E Q k := by
  unfold fdalloc
  refine wp_firstSome (fun rest t => t = k ∧ ∀ e, e ∉ rest → (k.procs i).ofile e ≠ none)
    ⟨rfl, fun e he => absurd (mem_finRange e) he⟩ ?_ ?_
  · rintro t ⟨rfl, hall⟩
    exact hnone fun fd => hall fd not_mem_nil
  · rintro fd rest t hsuf ⟨rfl, hall⟩
    simp only [fdallocTry, wp_bind, wp_getProc, wp_ite, wp_modifyProc, wp_pure]
    refine ⟨fun hfree => hsome fd ⟨hfree, fun e he => hall e fun hmem => ?_⟩, fun hused => ⟨trivial, ?_⟩⟩
    · have hsorted := (pairwise_lt_finRange nofile).sublist hsuf.sublist
      rcases mem_cons.mp hmem with rfl | hmem
      · exact lt_irrefl e he
      · exact lt_asymm he ((pairwise_cons.mp hsorted).1 e hmem)
    · intro e he
      by_cases heq : e = fd
      · rwa [heq]
      · exact hall e fun hmem => (mem_cons.mp hmem).elim heq he

/-- The file behind a register that holds a descriptor. -/
theorem Process.fdFile_eq_some {p : Process} {n : ℕ} (h : p.fdFile n = some f) :
    ∃ fd : Fin nofile, fd = n ∧ p.ofile fd = some f := by
  unfold Process.fdFile at h
  split_ifs at h with hn
  exact ⟨⟨n, hn⟩, rfl, h⟩

theorem wp_sysDup (h : Steady [] [] none (some i) k)
    (herr : (∀ f, (k.procs i).fdFile (load 8 k.ram.mem (tf + tfA0)) = some f →
      ∀ fd, (k.procs i).ofile fd ≠ none) → Q Result.err k)
    (hret : ∀ f fd c held, (k.procs i).fdFile (load 8 k.ram.mem (tf + tfA0)) = some f →
      Lowest (k.procs i).ofile fd →
      Steady [] [] none (some i) { k.setFd i fd (some f) with
        ftable := update k.ftable f { k.ftable f with refcnt := (k.ftable f).refcnt + 1 }
        cpu := c, held := held } →
      Q (Result.ret fd) { k.setFd i fd (some f) with
        ftable := update k.ftable f { k.ftable f with refcnt := (k.ftable f).refcnt + 1 }
        cpu := c, held := held }) :
    (sysDup tf).wp E Q k := by
  simp only [sysDup, wp_bind]
  refine wp_myproc h.hart ?_
  simp only [wp_getProc, wp_getReg]
  cases hf : (k.procs i).fdFile (load 8 k.ram.mem (tf + tfA0)) with
  | none => exact herr fun f hf' => absurd (hf ▸ hf') (by simp)
  | some f =>
    obtain ⟨e, -, hopen⟩ := Process.fdFile_eq_some hf
    have hpos : 0 < (k.ftable f).refcnt := h.tables.accounts.refcnt_pos hopen
    simp only [wp_bind]
    refine wp_fdalloc (fun hfull => herr fun _ _ => hfull) fun fd hlow => ?_
    simp only [wp_bind]
    refine wp_fileDup (k := k.setFd i fd (some f)) h.hart not_mem_nil hpos fun c held hh => ?_
    exact hret f fd c held hf hlow ((h.dup hh).link hlow.free)

theorem wp_sysClose (hE : ∀ e, e.Benign → E e) (h : Steady [] [] none (some i) k)
    (herr : (k.procs i).fdFile (load 8 k.ram.mem (tf + tfA0)) = none → Q Result.err k)
    (hret : ∀ f (fd : Fin nofile) k', fd = load 8 k.ram.mem (tf + tfA0) → (k.procs i).ofile fd = some f →
      Steady [] [] none (some i) k' → Closing f (k.setFd i fd none) k' → Q (Result.ret 0) k') :
    (sysClose tf).wp E Q k := by
  simp only [sysClose, wp_bind]
  refine wp_myproc h.hart ?_
  simp only [wp_getProc, wp_getReg]
  generalize load 8 k.ram.mem (tf + tfA0) = n at *
  by_cases hn : n < nofile
  · rw [dif_pos hn]
    cases hf : (k.procs i).ofile ⟨n, hn⟩ with
    | none => exact herr (by rw [Process.fdFile, dif_pos hn, hf])
    | some f =>
      simp only [wp_bind, clearFd, wp_modifyProc]
      exact wp_fileClose (fun _ => hE) (h.unlink hf) fun k' h' hc => hret f ⟨n, hn⟩ k' rfl hf h' hc
  · rw [dif_neg hn]
    exact herr (by rw [Process.fdFile, dif_neg hn])

section Pipe

variable {cur : Option ProcRef} {c : Cpu} {held : Lock → Bool} {p : PipeRef} {r w : FileRef}

theorem Steady.perm {ls : List Lock} {x' : List FileRef} (h : Steady ls x y cur k) (hx : x.Perm x') :
    Steady ls x' y cur k :=
  ⟨h.hart, h.tables.set (h.tables.accounts.perm hx) h.tables.parked fun _ _ _ _ hw => hw, h.fs⟩

/-- The state of a pipe that was just taken. -/
def Pipe.taken (q : Pipe) : Pipe :=
  { q with used := true, nread := 0, nwrite := 0, readopen := true, writeopen := true }

theorem Steady.allocPipe (h : Steady [] x none cur k) (hh : Hart [] cur c held)
    (hp : (k.pipes p).used = false) :
    Steady [] x (some p) cur { k with
      pipes := update k.pipes p (k.pipes p).taken, cpu := c, held := held } :=
  ⟨hh, h.tables.setPipe (h.tables.accounts.allocPipe hp ⟨rfl, rfl, rfl⟩) (h.tables.accounts.no_end hp),
    h.fs⟩

theorem Steady.freePipe {q : Pipe} (h : Steady [] x (some p) cur k) (hh : Hart [] cur c held)
    (hq : q.used = false ∧ q.readopen = false ∧ q.writeopen = false) :
    Steady [] x none cur { k with pipes := update k.pipes p q, cpu := c, held := held } :=
  ⟨hh, h.tables.setPipe (h.tables.accounts.freePipe hq) (fun f => h.tables.accounts.new f p rfl), h.fs⟩

theorem Steady.makeEnds (h : Steady [] x (some p) cur k) (hrw : r ≠ w)
    (hr : (k.ftable r).refcnt = 1 ∧ (k.ftable r).kind = .none)
    (hw : (k.ftable w).refcnt = 1 ∧ (k.ftable w).kind = .none) :
    Steady [] x none cur { k with
      ftable := update (update k.ftable r ⟨1, true, false, .pipe p⟩) w
        ⟨1, false, true, .pipe p⟩ } := by
  refine ⟨h.hart, h.tables.set (h.tables.accounts.makeEnds hrw hr hw) ?_ fun _ _ _ _ hw => hw, h.fs⟩
  intro j hj
  apply (h.tables.parked j hj).files
  intro fd a q _ hkind
  have har : a ≠ r := by
    rintro rfl
    rw [hr.2] at hkind
    exact FileKind.noConfusion hkind
  have haw : a ≠ w := by
    rintro rfl
    rw [hw.2] at hkind
    exact FileKind.noConfusion hkind
  simp only [update_of_ne haw, update_of_ne har]
  exact ⟨hkind, trivial⟩

/-- What a call that failed leaves of what it has touched: nothing that was in
use has changed, and nothing else is in use. -/
structure Undone (k k' : Kernel) : Prop where
  procs : ∀ j, ∃ st, k'.procs j = { k.procs j with state := st }
  lives : k'.obs.lives = k.obs.lives
  rest : k'.input = k.input ∧ k'.nextPid = k.nextPid ∧ k'.initproc = k.initproc
  files : ∀ g, 0 < (k.ftable g).refcnt ∨ 0 < (k'.ftable g).refcnt → k'.ftable g = k.ftable g
  pipes : ∀ q, (k.pipes q).used = true ∨ (k'.pipes q).used = true → k'.pipes q = k.pipes q
  fs : k'.fs = k.fs

/-- Files and pipes as a call found them, but for two files and a pipe that
were not in use. -/
structure Aside (r w : FileRef) (p : PipeRef) (k k' : Kernel) : Prop where
  procs : ∀ j, ∃ st, k'.procs j = { k.procs j with state := st }
  lives : k'.obs.lives = k.obs.lives
  rest : k'.input = k.input ∧ k'.nextPid = k.nextPid ∧ k'.initproc = k.initproc
  files : ∀ g, g ≠ r → g ≠ w → k'.ftable g = k.ftable g
  pipes : ∀ q, q ≠ p → k'.pipes q = k.pipes q
  fs : k'.fs = k.fs

/-- Once the two files and the pipe are given back nothing is left. -/
theorem Aside.undone {k' : Kernel} (h : Aside r w p k k')
    (hr : (k.ftable r).refcnt = 0 ∧ (k'.ftable r).refcnt = 0)
    (hw : (k.ftable w).refcnt = 0 ∧ (k'.ftable w).refcnt = 0)
    (hp : (k.pipes p).used = false ∧ (k'.pipes p).used = false) : Undone k k' := by
  refine ⟨h.procs, h.lives, h.rest, fun g hg => ?_, fun q hq => ?_, h.fs⟩
  · by_cases hgr : g = r
    · subst hgr
      omega
    · by_cases hgw : g = w
      · subst hgw
        omega
      · exact h.files g hgr hgw
  · by_cases hqp : q = p
    · subst hqp
      simp [hp] at hq
    · exact h.pipes q hqp

theorem Aside.close {k₁ k₂ : Kernel} {a : FileRef} (h : Aside r w p k k₁) (hc : Closing a k₁ k₂)
    (ha : a = r ∨ a = w) (hkind : (k₁.ftable a).kind = .none ∨ (k₁.ftable a).kind = .pipe p) :
    Aside r w p k k₂ := by
  have hother : ∀ g, g ≠ r → g ≠ w → g ≠ a := by
    rintro g hr hw rfl
    exact ha.elim hr hw
  refine ⟨fun j => ?_, ?_, ?_, fun g hr hw => ?_, fun q hq => ?_, ?_⟩
  · obtain ⟨st, hst⟩ := h.procs j
    obtain ⟨st', hst'⟩ := hc.procs j
    exact ⟨st', by rw [hst', hst]⟩
  · rw [hc.obs, h.lives]
  · have hin : k₂.input = k₁.input := congrArg Obs.input hc.obs
    have hpid : k₂.nextPid = k₁.nextPid := congrArg Obs.nextPid hc.obs
    have hinit : k₂.initproc = k₁.initproc := congrArg Obs.initproc hc.obs
    rw [hin, hpid, hinit]
    exact h.rest
  · rw [hc.ftable, update_of_ne (hother g hr hw), h.files g hr hw]
  · rw [hc.pipes, ← h.pipes q hq]
    unfold File.dropPipes
    rcases hkind with hkind | hkind
    · rw [hkind]
    · rw [hkind]
      split_ifs
      · exact update_of_ne hq _ _
      · rfl
  · have hfs := hc.fs
    have hpure : (k₁.ftable a).dropInode = pure () := by
      unfold File.dropInode
      rcases hkind with hkind | hkind <;> rw [hkind]
    rw [hpure] at hfs
    exact (congrArg Prod.snd (Except.ok.inj hfs)).symm.trans h.fs

theorem wp_closeEnds {k₁ : Kernel} (hE : ∀ e, e.Benign → E e)
    (h : Steady [] [r, w] none (some i) k₁) (ha : Aside r w p k k₁) (hrw : r ≠ w)
    (hr : k₁.ftable r = ⟨1, true, false, .pipe p⟩) (hw : k₁.ftable w = ⟨1, false, true, .pipe p⟩)
    (hr0 : (k.ftable r).refcnt = 0) (hw0 : (k.ftable w).refcnt = 0) (hp0 : (k.pipes p).used = false)
    (hQ : ∀ k', Steady [] [] none (some i) k' → Undone k k' → Q Result.err k') :
    (closeEnds r w).wp E Q k₁ := by
  simp only [closeEnds, wp_bind]
  refine wp_fileClose (fun _ => hE) h fun k₂ h₂ hc₂ => ?_
  refine wp_fileClose (fun _ => hE) h₂ fun k₃ h₃ hc₃ => ?_
  have hw₂ : k₂.ftable w = ⟨1, false, true, .pipe p⟩ := by
    rw [hc₂.ftable, update_of_ne hrw.symm, hw]
  have hp₂ : k₂.pipes p = (k₁.pipes p).closeEnd false := by
    rw [hc₂.pipes, hr]
    simp only [File.dropPipes, if_true, update_self]
  have hp₃ : k₃.pipes p = ((k₁.pipes p).closeEnd false).closeEnd true := by
    rw [hc₃.pipes, hw₂, ← hp₂]
    simp only [File.dropPipes, if_true, update_self]
  have ha₂ := ha.close hc₂ (Or.inl rfl) (Or.inr (by rw [hr]))
  have ha₃ := ha₂.close hc₃ (Or.inr rfl) (Or.inr (by rw [hw₂]))
  refine hQ k₃ h₃ (ha₃.undone ⟨hr0, ?_⟩ ⟨hw0, ?_⟩ ⟨hp0, ?_⟩)
  · rw [hc₃.ftable, update_of_ne hrw, hc₂.ftable, update_self, hr]
    rfl
  · rw [hc₃.ftable, update_self, hw₂]
    rfl
  · rw [hp₃]
    simp [Pipe.closeEnd_used, Pipe.closeEnd_readopen]

/-- A new pipe with a descriptor for each end. -/
structure Piped (i : ProcRef) (va : ℕ) (p : PipeRef) (r w : FileRef) (rfd wfd : Fin nofile)
    (k k' : Kernel) : Prop where
  pipe : (k.pipes p).used = false
  files : (k.ftable r).refcnt = 0 ∧ (k.ftable w).refcnt = 0 ∧ r ≠ w
  readFd : Lowest (k.procs i).ofile rfd
  writeFd : Lowest ((k.setFd i rfd (some r)).procs i).ofile wfd
  copied : copyout (k.procs i).pagetable va (fdBytes rfd ++ fdBytes wfd) k.ram = .ok (some (), k'.ram)
  eq : ∃ c held, k' = { (k.setFd i rfd (some r)).setFd i wfd (some w) with
    pipes := Function.update k.pipes p (k.pipes p).taken
    ftable := Function.update (Function.update k.ftable r ⟨1, true, false, .pipe p⟩) w
      ⟨1, false, true, .pipe p⟩
    ram := k'.ram, cpu := c, held := held }

theorem wp_sysPipeFds {k₁ : Kernel} {va : ℕ} {c : Cpu} {held : Lock → Bool}
    (hE : ∀ e, e.Benign → E e) (h : Steady [] [r, w] none (some i) k₁) (hrw : r ≠ w)
    (hr0 : (k.ftable r).refcnt = 0) (hw0 : (k.ftable w).refcnt = 0) (hp0 : (k.pipes p).used = false)
    (hk₁ : k₁ = { k with
      pipes := update k.pipes p (k.pipes p).taken
      ftable := update (update k.ftable r ⟨1, true, false, .pipe p⟩) w
        ⟨1, false, true, .pipe p⟩
      cpu := c, held := held })
    (herr : ∀ k', Steady [] [] none (some i) k' → Undone k k' → Q Result.err k')
    (hret : ∀ rfd wfd k', Steady [] [] none (some i) k' → Piped i va p r w rfd wfd k k' →
      Q (Result.ret 0) k') :
    (sysPipeFds i va r w).wp E Q k₁ := by
  have haside : ∀ ram, Aside r w p k { k₁ with ram := ram } := by
    intro ram
    subst hk₁
    refine ⟨fun j => ⟨_, rfl⟩, rfl, ⟨rfl, rfl, rfl⟩, fun g hr hw => ?_, fun q hq => ?_, rfl⟩
    · simp only [update_of_ne hw, update_of_ne hr]
    · simp only [update_of_ne hq]
  have hr : k₁.ftable r = ⟨1, true, false, .pipe p⟩ := by
    subst hk₁
    simp only [update_of_ne hrw, update_self]
  have hw : k₁.ftable w = ⟨1, false, true, .pipe p⟩ := by
    subst hk₁
    simp only [update_self]
  -- Whatever memory holds by then, the ends are closed.
  have hundo : ∀ ram, (closeEnds r w).wp E Q { k₁ with ram := ram } := fun ram =>
    wp_closeEnds hE (h.ram ram) (haside ram) hrw hr hw hr0 hw0 hp0 herr
  have hprocs : k₁.procs = k.procs := by rw [hk₁]
  simp only [sysPipeFds, wp_bind]
  refine wp_fdalloc (fun _ => hundo k₁.ram) fun rfd hrfd => ?_
  simp only [wp_bind]
  refine wp_fdalloc (fun _ => ?_) fun wfd hwfd => ?_
  · simp only [wp_bind, wp_clearFd, setFd_clear hrfd.free]
    exact hundo k₁.ram
  · simp only [wp_bind, wp_getProc]
    have hfree := hwfd.free
    have hne : rfd ≠ wfd := by
      rintro rfl
      rw [setFd_ofile, if_pos rfl] at hfree
      exact absurd hfree (by simp)
    rw [setFd_ofile, if_neg hne.symm] at hfree
    have h' := (h.link hrfd.free).link hwfd.free
    refine wp_run (wp_onRam hE mild_copyout fun o ram hrun => ?_)
    cases o with
    | none =>
      have hclear : (({ k₁ with ram := ram }.setFd i rfd (some r)).setFd i wfd (some w)).setFd i rfd none
          = { k₁ with ram := ram }.setFd i wfd (some w) := by
        rw [setFd_comm hne, setFd_clear (k := { k₁ with ram := ram }) hrfd.free]
      have hback : ({ k₁ with ram := ram }.setFd i wfd (some w)).setFd i wfd none =
          { k₁ with ram := ram } := setFd_clear hfree
      simp only [wp_bind, wp_clearFd]
      show (closeEnds r w).wp E Q (((({ k₁ with ram := ram }.setFd i rfd (some r)).setFd i wfd
        (some w)).setFd i rfd none).setFd i wfd none)
      rw [hclear, hback]
      exact hundo ram
    | some _ =>
      refine hret rfd wfd _ (h'.ram ram) ⟨hp0, ⟨hr0, hw0, hrw⟩, hprocs ▸ hrfd, ?_, ?_, ?_⟩
      · subst hk₁
        exact hwfd
      · subst hk₁
        have hcopy := (onRam_ok hrun).1
        simpa [Kernel.setFd, Process.setFd] using hcopy
      · subst hk₁
        exact ⟨c, held, rfl⟩

theorem wp_freeTaken (h : Steady [] [] (some p) (some i) k)
    (hQ : ∀ q c held, q.used = false →
      Steady [] [] none (some i) { k with
        pipes := update k.pipes p q, cpu := c, held := held } →
      Q Result.err { k with pipes := update k.pipes p q, cpu := c, held := held }) :
    (pipeFreeAllocated p).wp E (fun _ k' => (pure Result.err : KernelM Result).wp E Q k') k :=
  wp_pipeFreeAllocated h.hart fun c held hh =>
    hQ _ c held rfl (h.freePipe hh ⟨rfl, rfl, rfl⟩)

theorem wp_sysPipe (hE : ∀ e, e.Benign → E e) (h : Steady [] [] none (some i) k)
    (herr : ∀ k', Steady [] [] none (some i) k' → Undone k k' → Q Result.err k')
    (hret : ∀ p r w rfd wfd k', Steady [] [] none (some i) k' →
      Piped i (load 8 k.ram.mem (tf + tfA0)) p r w rfd wfd k k' → Q (Result.ret 0) k') :
    (sysPipe tf).wp E Q k := by
  have hsame : ∀ c held, Undone k { k with cpu := c, held := held } := fun c held =>
    ⟨fun j => ⟨_, rfl⟩, rfl, ⟨rfl, rfl, rfl⟩, fun _ _ => rfl, fun _ _ => rfl, rfl⟩
  simp only [sysPipe, wp_bind]
  refine wp_myproc h.hart ?_
  simp only [wp_getReg]
  generalize load 8 k.ram.mem (tf + tfA0) = va at *
  refine wp_pipeAlloc h.hart (fun c held hh => herr _ ⟨hh, h.tables, h.fs⟩ (hsame c held)) ?_
  intro p c held hh hp
  have h₁ := h.allocPipe hh hp
  simp only [wp_bind]
  refine wp_fileAlloc hh not_mem_nil (fun c₂ held₂ hh₂ => ?_) fun r c₂ held₂ hh₂ hr => ?_
  · simp only [wp_bind]
    refine wp_freeTaken (k := { k with
      pipes := update k.pipes p (k.pipes p).taken, cpu := c₂, held := held₂ })
      ⟨hh₂, h₁.tables, h₁.fs⟩ fun q c₃ held₃ hq h₃ => herr _ h₃ ?_
    refine ⟨fun j => ⟨_, rfl⟩, rfl, ⟨rfl, rfl, rfl⟩, fun _ _ => rfl, fun s hs => ?_, rfl⟩
    by_cases hsp : s = p
    · subst hsp
      simp [hp, hq] at hs
    · simp only [update_of_ne hsp]
  · have h₂ := h₁.alloc hh₂ hr
    simp only [wp_bind]
    refine wp_fileAlloc hh₂ not_mem_nil (fun c₃ held₃ hh₃ => ?_) fun w c₃ held₃ hh₃ hw => ?_
    · simp only [wp_bind]
      refine wp_fileClose (k := { k with
        pipes := update k.pipes p (k.pipes p).taken
        ftable := update k.ftable r { File.unused with refcnt := 1 }
        cpu := c₃, held := held₃ }) (fun _ => hE) ⟨hh₃, h₂.tables, h₂.fs⟩ fun k₃ h₃ hc₃ => ?_
      refine wp_freeTaken h₃ fun q c₄ held₄ hq h₄ => herr _ h₄ ?_
      have ha : Aside r r p k { k with
          pipes := update k.pipes p (k.pipes p).taken
          ftable := update k.ftable r { File.unused with refcnt := 1 }
          cpu := c₃, held := held₃ } := by
        refine ⟨fun j => ⟨_, rfl⟩, rfl, ⟨rfl, rfl, rfl⟩, fun g hg _ => ?_, fun s hs => ?_, rfl⟩
        · simp only [update_of_ne hg]
        · simp only [update_of_ne hs]
      have ha₃ := ha.close hc₃ (Or.inl rfl) (Or.inl (by simp only [update_self]; rfl))
      have hgone : (k₃.ftable r).refcnt = 0 := by
        rw [hc₃.ftable]
        simp only [update_self]
        rfl
      have ha₄ : Aside r r p k { k₃ with
          pipes := update k₃.pipes p q, cpu := c₄, held := held₄ } := by
        refine ⟨ha₃.procs, ha₃.lives, ha₃.rest, ha₃.files, fun s hs => ?_, ha₃.fs⟩
        exact (update_of_ne hs _ _).trans (ha₃.pipes s hs)
      exact ha₄.undone ⟨hr, hgone⟩ ⟨hr, hgone⟩ ⟨hp, by simp only [update_self, hq]⟩
    · dsimp only at hr hw
      have hrw : r ≠ w := by
        rintro rfl
        rw [update_self] at hw
        exact absurd hw Nat.one_ne_zero
      rw [update_of_ne hrw.symm] at hw
      simp only [wp_bind, wp_modifyFile]
      have hends := ((h₂.alloc hh₃ (f := w) (by simpa [update_of_ne hrw.symm] using hw)).perm
        (List.Perm.swap r w [])).makeEnds hrw ⟨by simp [update_of_ne hrw], by
          simp [update_of_ne hrw, File.unused]⟩ ⟨by simp, by simp [File.unused]⟩
      have hfiles : update (update (update (update k.ftable r
            { File.unused with refcnt := 1 }) w { File.unused with refcnt := 1 }) r
            ⟨1, true, false, .pipe p⟩) w ⟨1, false, true, .pipe p⟩ =
          update (update k.ftable r ⟨1, true, false, .pipe p⟩) w
            ⟨1, false, true, .pipe p⟩ := by
        funext g
        simp only [update_apply]
        split_ifs <;> rfl
      dsimp only at hends
      rw [hfiles] at hends
      simp only [update_of_ne hrw, update_of_ne hrw.symm, update_self]
      rw [hfiles]
      exact wp_sysPipeFds hE hends hrw hr hw hp rfl herr fun rfd wfd k' => hret p r w rfd wfd k'

end Pipe

end ToyOs
