import ToyOs.Kernel.Exit

/-!
Waiting for children. `wait` looks for a zombie child and frees its slot; when
all children are alive the caller sleeps, and a zombie whose status cannot be
copied out makes the call fail with the lock of `wait` still held.
-/
namespace ToyOs

open Bytes Prog Function List

variable {L : Layout} {x : List FileRef} {y : Option PipeRef} {cur : Option ProcRef} {k : Kernel}
  {E : Panic → Prop} {i c : ProcRef} {va : ℕ} {Q : Outcome ℤ → Kernel → Prop}

theorem wp_onRam_run {α : Type} (hE : ∀ e, e.Benign → E e) {m : RamM α} (hm : Mild m)
    {Q : α → Kernel → Prop} (hQ : ∀ a r, m k.ram = .ok (a, r) → Q a { k with ram := r }) :
    (onRam m).wp E Q k := by
  apply wp_run
  refine wp_onRam hE hm fun a r hrun => hQ a r ?_
  exact (onRam_ok hrun).1

/-- A process without descriptors has nothing to close. -/
theorem wp_freeprocFiles (hfd : ∀ fd, (k.procs c).ofile fd = none) {Q : Unit → Kernel → Prop}
    (hQ : Q () k) : (freeprocFiles c).wp E Q k := by
  unfold freeprocFiles
  refine wp_post (wp_forEach (fun _ t => t = k) rfl ?_) fun _ t ht => ht ▸ hQ
  rintro fd rest t - rfl
  simp only [wp_bind, wp_getProc, hfd fd, wp_pure]

/-- A step on memory that is taken or left out before the rest. -/
theorem wp_onRam_if {α : Type} {b : Prop} [Decidable b] (hE : ∀ e, e.Benign → E e) {m : RamM Unit}
    (hm : Mild m) {rest : KernelM α} {Q : α → Kernel → Prop}
    (hrest : ∀ r, (if b then m else pure ()) k.ram = .ok ((), r) → rest.wp E Q { k with ram := r }) :
    (if b then onRam m >>= fun _ => rest else rest).wp E Q k := by
  rw [wp_ite, wp_bind]
  refine ⟨fun hb => wp_onRam_run hE hm fun _ r hrun => hrest r ?_, fun hb => hrest k.ram ?_⟩
  · rw [if_pos hb]
    exact hrun
  · rw [if_neg hb]
    rfl

/-- What `freeproc` does to memory. -/
def freePages (L : Layout) (p : Process) : RamM Unit :=
  (if p.trapframe ≠ 0 then kfree L p.trapframe else pure ()) >>= fun _ =>
  (if p.pagetable ≠ 0 then procFreepagetable L p.pagetable p.sz else pure ()) >>= fun _ =>
  if p.kstack ≠ 0 then kfree L p.kstack else pure ()

theorem wp_freeproc (hE : ∀ e, e.Benign → E e) (hheld : k.held (.proc c) = true)
    (hfd : ∀ fd, (k.procs c).ofile fd = none) (hfs : Fs.Resting k.fs)
    {Q : Unit → Kernel → Prop}
    (hQ : ∀ r s, freePages L (k.procs c) k.ram = .ok ((), r) → Fs.Resting s →
      Q () { k with ram := r, fs := s, procs := update k.procs c (k.procs c).reset }) :
    (freeproc L c).wp E Q k := by
  simp only [freeproc, wp_bind, wp_get, wp_assert, hheld, true_implies,
    reduceCtorEq, false_implies, and_true]
  refine wp_onRam_if hE mild_kfree fun r1 h1 => ?_
  refine wp_onRam_if hE mild_procFreepagetable fun r2 h2 => ?_
  refine wp_onRam_if hE mild_kfree fun r3 h3 => ?_
  simp only [wp_bind]
  apply wp_freeprocFiles
  · exact hfd
  apply wp_onFs hE Fs.calm_iput
  · exact hfs
  intro _ s hs
  simp only [wp_modifyProc]
  refine hQ r3 s ?_ hs
  rw [freePages, bind_ok h1, bind_ok h2]
  exact h3

/-- The running process frees the slot of a process of its own that has no
descriptors. -/
theorem Tables.discard {P : ProcRef → Process} {Ft : FileRef → File} {Pi : PipeRef → Pipe}
    {In : Input} {p : Process} (h : Tables x y (some i) P Ft Pi In) (hci : c ≠ i)
    (hdead : (P c).state.status ≠ .alive) (hparent : ∀ q, (P c).parent = some q → q = i)
    (hofile : p.ofile = (P c).ofile) (hstate : p.state = .unused) (hp : p.parent = none) :
    Tables x y (some i) (update P c p) Ft Pi In := by
  refine h.replace (h.accounts.congr (ofile_update hofile)) (fun _ _ => Iff.rfl) ?_ ?_ ?_ ?_ ?_ ?_
  · intro j ch hs hch hw
    cases ch with
    | proc q =>
      have hqj := h.waiter hs hch
      have hq : (P c).parent ≠ some q := by
        intro hpar
        have hrun := (h.running i).mpr rfl
        rw [← hqj, hparent q hpar, hrun] at hs
        cases hs
      obtain ⟨⟨d, hd, hds⟩, hz⟩ := hw
      refine ⟨⟨d, ?_⟩, fun d' hd' => ?_⟩
      · have hdc : d ≠ c := by
          rintro rfl
          exact hq hd
        simp only [update_of_ne hdc]
        exact ⟨hd, hds⟩
      · by_cases hdc : d' = c
        · subst hdc
          simp only [update_self, Process.life, hp] at hd'
          cases hd'
        · simp only [update_of_ne hdc] at hd' ⊢
          exact hz d' hd'
    | pipeRead q => exact hw
    | pipeWrite q => exact hw
    | input => exact hw
  · constructor
    · intro hr
      rw [hstate] at hr
      cases hr
    · intro hi
      exact absurd (Option.some.inj hi).symm hci
  · simp [hstate]
  · simp [hstate]
  · intro _ fd
    rw [hofile]
    exact h.idle c hdead fd
  · exact fun _ => hp

/-- The zombie child that the scan of `wait` meets first. -/
structure FirstZombie (i c : ProcRef) (k : Kernel) : Prop where
  zombie : (k.procs c).state = .zombie
  parent : (k.procs c).parent = some i
  first : ∀ j, j < c → (k.procs j).parent = some i → (k.procs j).state ≠ .zombie

theorem FirstZombie.unique {c' : ProcRef} (h : FirstZombie i c k) (h' : FirstZombie i c' k) :
    c = c' := by
  rcases lt_trichotomy c c' with hlt | heq | hgt
  · exact absurd h.zombie (h'.first c hlt h.parent)
  · exact heq
  · exact absurd h'.zombie (h.first c' hgt h'.parent)

/-- The status of the zombie is copied out, unless the address is null. -/
def StatusStored (i c : ProcRef) (va : ℕ) (k : Kernel) (r : Ram) : Prop :=
  va = 0 ∧ r = k.ram ∨
    copyout (k.procs i).pagetable va (statusBytes (k.procs c).xstate) k.ram = .ok (some (), r)

/-- A zombie child was reaped. -/
structure Reaped (i c : ProcRef) (va : ℕ) (k k' : Kernel) : Prop extends FirstZombie i c k where
  memory : ∃ L r, StatusStored i c va k r ∧ freePages L (k.procs c) r = .ok ((), k'.ram)
  procs : k'.procs = Function.update k.procs c (k.procs c).reset
  ftable : k'.ftable = k.ftable
  pipes : k'.pipes = k.pipes
  input : k'.input = k.input
  nextPid : k'.nextPid = k.nextPid
  initproc : k'.initproc = k.initproc

/-- The status of the zombie cannot be copied out. -/
structure Unreapable (i c : ProcRef) (va : ℕ) (k : Kernel) : Prop extends FirstZombie i c k where
  asked : va ≠ 0
  failed : ∃ r, copyout (k.procs i).pagetable va (statusBytes (k.procs c).xstate) k.ram = .ok (none, r)

theorem wp_reap (hE : ∀ e, e.Benign → E e) (h : Steady [.proc c, .wait] [] none (some i) k)
    (hf : FirstZombie i c k) {Q : ℤ → Kernel → Prop}
    (hbad : ∀ r cpu held, Unreapable i c va k → Hart [.wait] (some i) cpu held →
      Q (-1) { k with ram := r, cpu := cpu, held := held })
    (hgood : ∀ k', Steady [] [] none (some i) k' → Reaped i c va k k' → Q (k.procs c).pid k') :
    (reap L i c va).wp E Q k := by
  have hci : c ≠ i := by
    rintro rfl
    have hrun := (h.tables.running c).mpr rfl
    rw [hf.zombie] at hrun
    cases hrun
  have hdead : (k.procs c).state.status ≠ .alive := by
    rw [hf.zombie]
    exact Status.noConfusion
  have hfree : ∀ r, StatusStored i c va k r → Prog.wp (do
        freeproc L c
        release (.proc c)
        release .wait
        pure ((k.procs c).pid : ℤ)) E Q { k with ram := r } := by
    intro r hstored
    simp only [wp_bind]
    have hheld : k.held (.proc c) = true := (h.hart.held _).mpr (mem_cons_self ..)
    refine wp_freeproc (k := { k with ram := r }) hE hheld (h.tables.idle c hdead) h.fs fun r' s hr' hs => ?_
    apply wp_release
    · exact h.hart
    · exact mem_cons_self ..
    intro c1 h1 hh1
    rw [erase_cons_head] at hh1
    refine wp_release hh1 (mem_cons_self ..) fun c2 h2 hh2 => ?_
    rw [erase_cons_head] at hh2
    rw [wp_pure]
    refine hgood _ ⟨hh2, ?_, hs⟩ ⟨hf, ⟨L, r, hstored, hr'⟩, rfl, rfl, rfl, rfl, rfl, rfl⟩
    refine h.tables.discard hci hdead (fun q hq => ?_) rfl rfl rfl
    exact Option.some.inj (hq.symm.trans hf.parent)
  simp only [reap, wp_bind, wp_getProc, wp_ite]
  constructor
  · intro hva
    refine wp_onRam_run hE mild_copyout fun a r hrun => ?_
    cases a with
    | none =>
      simp only [wp_bind]
      refine wp_release (k := { k with ram := r }) h.hart (mem_cons_self ..) fun c1 h1 hh1 => ?_
      rw [erase_cons_head] at hh1
      exact hbad r c1 h1 ⟨hf, hva, r, hrun⟩ hh1
    | some u => exact hfree r (.inr hrun)
  · intro hva
    simp only [wp_pure]
    exact hfree k.ram (.inl ⟨not_not.mp hva, rfl⟩)

theorem wp_waitScan {rest : List ProcRef} {b : Bool} (hh : Hart [.wait] (some i) k.cpu k.held)
    {Q : ℤ ⊕ Bool → Kernel → Prop}
    (hnone : ∀ b' cpu held, Hart [.wait] (some i) cpu held →
      (b' = true ↔ b = true ∨ ∃ j ∈ rest, (k.procs j).parent = some i) →
      (∀ j ∈ rest, (k.procs j).parent = some i → (k.procs j).state ≠ .zombie) →
      Q (.inr b') { k with cpu := cpu, held := held })
    (hreap : ∀ pre c post cpu held, rest = pre ++ c :: post →
      (∀ j ∈ pre, (k.procs j).parent = some i → (k.procs j).state ≠ .zombie) →
      Hart [.proc c, .wait] (some i) cpu held →
      (k.procs c).parent = some i → (k.procs c).state = .zombie →
      (reap L i c va).wp E (fun r => Q (.inl r)) { k with cpu := cpu, held := held }) :
    (waitScan L i va rest b).wp E Q k := by
  induction rest generalizing k b with
  | nil =>
    exact hnone b k.cpu k.held hh (by simp) fun j hj => absurd hj not_mem_nil
  | cons c rest ih =>
    simp only [waitScan, wp_bind]
    refine wp_acquire hh (by simp) fun cpu held hh1 => ?_
    simp only [wp_getProc, wp_ite, wp_bind]
    refine ⟨fun hpar => ⟨fun hz => ?_, fun hz => ?_⟩, fun hpar => ?_⟩
    · simp only [wp_pure]
      exact hreap [] c rest cpu held rfl (fun j hj => absurd hj not_mem_nil) hh1 hpar hz
    · refine wp_release hh1 (mem_cons_self ..) fun cpu' held' hh2 => ?_
      rw [erase_cons_head] at hh2
      refine ih hh2 (fun b' cpu'' held'' hh3 hb hzs => ?_) fun pre d post cpu'' held'' hd hpre =>
        hreap (c :: pre) d post cpu'' held'' (congrArg (List.cons c) hd)
          (forall_mem_cons.mpr ⟨fun _ => hz, hpre⟩)
      refine hnone b' cpu'' held'' hh3 ?_ fun j hj hpj => ?_
      · rw [hb]
        exact ⟨fun _ => .inr ⟨c, mem_cons_self .., hpar⟩, fun _ => .inl rfl⟩
      · rcases mem_cons.mp hj with rfl | hj
        · exact hz
        · exact hzs j hj hpj
    · refine wp_release hh1 (mem_cons_self ..) fun cpu' held' hh2 => ?_
      rw [erase_cons_head] at hh2
      refine ih hh2 (fun b' cpu'' held'' hh3 hb hzs => ?_) fun pre d post cpu'' held'' hd hpre =>
        hreap (c :: pre) d post cpu'' held'' (congrArg (List.cons c) hd)
          (forall_mem_cons.mpr ⟨fun hpc => absurd hpc hpar, hpre⟩)
      refine hnone b' cpu'' held'' hh3 ?_ fun j hj hpj => ?_
      · rw [hb]
        simp only [mem_cons, exists_eq_or_imp, hpar, false_or]
      · rcases mem_cons.mp hj with rfl | hj
        · exact absurd hpj hpar
        · exact hzs j hj hpj

/-- The whole scan meets the zombie child in the lowest slot. -/
theorem wp_waitScan_all (hh : Hart [.wait] (some i) k.cpu k.held) {Q : ℤ ⊕ Bool → Kernel → Prop}
    (hnone : ∀ b cpu held, Hart [.wait] (some i) cpu held →
      (b = true ↔ ∃ j, (k.procs j).parent = some i) →
      (∀ j, (k.procs j).parent = some i → (k.procs j).state ≠ .zombie) →
      Q (.inr b) { k with cpu := cpu, held := held })
    (hreap : ∀ c cpu held, FirstZombie i c k → Hart [.proc c, .wait] (some i) cpu held →
      (reap L i c va).wp E (fun r => Q (.inl r)) { k with cpu := cpu, held := held }) :
    (waitScan L i va procRefs false).wp E Q k := by
  refine wp_waitScan hh (fun b cpu held hh hb hz => ?_)
    fun pre c post cpu held hsplit hpre hh hpar hz => hreap c cpu held ⟨hz, hpar, fun j hj => ?_⟩ hh
  · simp only [procRefs, mem_finRange, true_and, true_implies, Bool.false_eq_true,
      false_or] at hb hz
    exact hnone b cpu held hh hb hz
  · have hmem : j ∈ pre ++ c :: post := hsplit ▸ mem_finRange j
    have hsorted : (pre ++ c :: post).Pairwise (· < ·) := hsplit ▸ pairwise_lt_finRange nproc
    apply hpre
    rcases mem_append.mp hmem with hmem | hmem
    · exact hmem
    · rcases mem_cons.mp hmem with rfl | hmem
      · exact absurd hj (lt_irrefl _)
      · have hlt := (pairwise_cons.mp (pairwise_append.mp hsorted).2.1).1 j hmem
        exact absurd hj (not_lt.mpr (le_of_lt hlt))

theorem wp_waitLoop (hE : ∀ e, e.Benign → E e) (h : Steady [.wait] [] none (some i) k)
    (hbad : ∀ c r cpu held, Unreapable i c va k → Hart [.wait] (some i) cpu held →
      Q (.done (-1)) { k with ram := r, cpu := cpu, held := held })
    (hgood : ∀ c k', Steady [] [] none (some i) k' → Reaped i c va k k' →
      Q (.done (k.procs c).pid) k')
    (hnone : ∀ cpu held, (∀ j, (k.procs j).parent ≠ some i) → Hart [] (some i) cpu held →
      Q (.done (-1)) { k with cpu := cpu, held := held })
    (hsleep : ∀ p b cpu held,
      p = { k.procs i with
        chan := some (.proc i), state := .sleeping, cont := .wait va, intena := b } →
      Steady [] [] none none { k with
        procs := update k.procs i p, cpu := cpu, held := held } →
      Q .blocked { k with procs := update k.procs i p, cpu := cpu, held := held }) :
    (waitLoop L i va).wp E Q k := by
  simp only [waitLoop, wp_bind]
  refine wp_waitScan_all h.hart (fun b cpu held hh hb hz => ?_) fun c cpu held hf hh => ?_
  · cases b with
    | false =>
      simp only [wp_bind]
      refine wp_release hh (mem_cons_self ..) fun cpu' held' hh' => ?_
      rw [erase_cons_head] at hh'
      refine hnone cpu' held' (fun j hj => ?_) hh'
      exact absurd (hb.mpr ⟨j, hj⟩) Bool.false_ne_true
    | true =>
      obtain ⟨j, hj⟩ := hb.mp rfl
      have hrun := (h.tables.running i).mpr rfl
      simp only [wp_bind, wp_pure]
      refine wp_sleep hh (by simp) fun cpu' held' b' hh' => ?_
      refine hsleep _ b' cpu' held' rfl ⟨hh', ?_, h.fs⟩
      refine h.tables.leave rfl ?_ trivial (.inr ⟨rfl, rfl, .proc i, rfl, ⟨j, hj, fun hun => ?_⟩, ?_⟩)
      · simp [Process.life, hrun, ProcState.status]
      · have horphan := h.tables.orphan j (by
          cases hs : (k.procs j).state <;> simp_all [Process.life, ProcState.status])
        have hpar : (k.procs j).parent = some i := hj
        rw [horphan] at hpar
        cases hpar
      · intro j' hj' hzomb
        refine hz j' hj' ?_
        cases hs : (k.procs j').state <;> simp_all [Process.life, ProcState.status]
  · have hsteady : Steady [.proc c, .wait] [] none (some i) { k with cpu := cpu, held := held } :=
      ⟨hh, h.tables, h.fs⟩
    refine wp_reap hE hsteady ⟨hf.zombie, hf.parent, hf.first⟩
      (fun r cpu' held' hun hh' => ?_) fun k' hk' hr => ?_
    · exact hbad c r cpu' held' ⟨hf, hun.asked, hun.failed⟩ hh'
    · refine hgood c k' hk' ?_
      exact ⟨hf, hr.memory, hr.procs, hr.ftable, hr.pipes, hr.input, hr.nextPid, hr.initproc⟩

/-- A status that cannot be copied out makes `wait` fail with its lock held. -/
theorem wp_waitLoop_stuck (hh : Hart [.wait] (some i) k.cpu k.held) (hun : Unreapable i c va k)
    (hQ : ∀ r cpu held, Hart [.wait] (some i) cpu held →
      Q (.done (-1)) { k with ram := r, cpu := cpu, held := held }) :
    (waitLoop L i va).wp E Q k := by
  simp only [waitLoop, wp_bind]
  refine wp_waitScan_all hh (fun b cpu held hh' hb hz => ?_) fun c' cpu held hf hh' => ?_
  · exact absurd hun.zombie (hz c hun.parent)
  · obtain rfl := hun.toFirstZombie.unique hf
    obtain ⟨r, hr⟩ := hun.failed
    simp only [reap, wp_bind, wp_getProc, wp_ite]
    refine ⟨fun _ => ?_, fun hva => absurd hun.asked hva⟩
    rw [onRam, wp_zoom]
    apply wp_of_ok hr
    simp only [wp_bind]
    apply wp_release (k := { k with ram := r, cpu := cpu, held := held }) hh' (mem_cons_self ..)
    intro cpu' held' hh''
    rw [erase_cons_head] at hh''
    exact hQ r cpu' held' hh''

end ToyOs
