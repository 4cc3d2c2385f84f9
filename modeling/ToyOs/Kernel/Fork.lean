import ToyOs.Kernel.Wait

/-!
New processes. `allocproc` takes an unused slot and gives it back when memory
runs out; `fork` fills it with a copy of the caller. The descriptors of the
child are references of their own to the files of the parent.
-/
namespace ToyOs

open Bytes Prog Function List

variable {L : Layout} {x : List FileRef} {y : Option PipeRef} {cur : Option ProcRef} {k : Kernel}
  {E : Panic → Prop} {i c : ProcRef} {p : Process} {Q : Option ProcRef → Kernel → Prop}

@[simp] theorem wp_setReg {tf reg v : ℕ} {Q : Unit → Kernel → Prop} :
    (onRam (setReg tf reg v)).wp E Q k ↔
      Q () { k with ram := k.ram.setWord (tf + reg) v } := Iff.rfl

/-- The life of an unused slot. -/
def Life.empty : Life := ⟨.unused, 0, none, 0⟩

/-- A slot that `allocproc` has filled. -/
structure Fresh (pid : ℕ) (p : Process) : Prop where
  life : p.life = ⟨.used, pid, none, 0⟩
  cont : p.cont = .forkret
  ofile : p.ofile = fun _ => none

/-- A slot that was given back. -/
structure Vacant (p : Process) : Prop where
  state : p.state = .unused
  life : p.life = Life.empty
  ofile : p.ofile = fun _ => none

theorem vacant_reset (h : p.ofile = fun _ => none) : Vacant p.reset := ⟨rfl, rfl, h⟩

/-- The slot of a process that is being made is given back. -/
theorem wp_giveBack (hE : ∀ e, e.Benign → E e) (hh : Hart [.proc c] cur k.cpu k.held)
    (hfd : (k.procs c).ofile = fun _ => none) (hfs : Fs.Resting k.fs)
    {α : Type} {a : α} {Q : α → Kernel → Prop}
    (hQ : ∀ p r s cpu held, Vacant p → Fs.Resting s → Hart [] cur cpu held →
      Q a { k with
        ram := r, fs := s, procs := update k.procs c p, cpu := cpu, held := held }) :
    Prog.wp (do
      freeproc L c
      release (.proc c)
      pure a) E Q k := by
  simp only [wp_bind, wp_pure]
  have hheld : k.held (.proc c) = true := (hh.held _).mpr (mem_singleton_self _)
  refine wp_freeproc hE hheld (fun fd => congrFun hfd fd) hfs fun r s _ hs => ?_
  apply wp_release
  · exact hh
  · exact mem_singleton_self _
  · intro cpu held hh'
    rw [erase_cons_head] at hh'
    exact hQ _ r s cpu held (vacant_reset hfd) hs hh'

theorem wp_allocprocInit (hE : ∀ e, e.Benign → E e) (hh : Hart [.proc c] cur k.cpu k.held)
    (hfs : Fs.Resting k.fs)
    (hfail : ∀ p r s cpu held, Vacant p → Fs.Resting s → Hart [] cur cpu held →
      Q none { k with
        ram := r, fs := s, procs := update k.procs c p
        nextPid := (k.nextPid + 1) % usizeSize, cpu := cpu, held := held })
    (hsome : ∀ p r s, Fresh k.nextPid p → Fs.Resting s →
      Q (some c) { k with
        ram := r, fs := s, procs := update k.procs c p
        nextPid := (k.nextPid + 1) % usizeSize }) :
    (allocprocInit L c).wp E Q k := by
  -- the slot is vacated from whatever point memory runs out at
  have hback : ∀ q r s, q.ofile = (fun _ => none) → Fs.Resting s →
      (allocprocFail L c).wp E Q { k with
        ram := r, fs := s, procs := update k.procs c q
        nextPid := (k.nextPid + 1) % usizeSize } := by
    intro q r s hq hs
    apply wp_giveBack hE
    · exact hh
    · simp only [update_self]
      exact hq
    · exact hs
    · intro p r' s' cpu held hp hs' hh'
      simp only [update_idem]
      exact hfail p r' s' cpu held hp hs' hh'
  simp only [allocprocInit, wp_bind, wp_get, wp_modify]
  apply wp_onFs hE Fs.calm_root
  · exact hfs
  intro cwd s hs
  simp only [wp_modifyProc]
  refine wp_onRam hE mild_kallocZeroed fun a r1 => ?_
  cases a with
  | none => exact hback _ r1 s rfl hs
  | some trapframe =>
    simp only [wp_bind, wp_modifyProc, update_self, update_idem]
    refine wp_onRam hE mild_procPagetable fun a r2 => ?_
    cases a with
    | none => exact hback _ r2 s rfl hs
    | some pagetable =>
      simp only [wp_bind, wp_modifyProc, update_self, update_idem]
      refine wp_onRam hE mild_kalloc fun a r3 => ?_
      cases a with
      | none => exact hback _ r3 s rfl hs
      | some kstack =>
        simp only [wp_bind, wp_pure, wp_modifyProc, update_self,
          update_idem]
        exact hsome _ r3 s ⟨rfl, rfl, rfl⟩ hs

theorem wp_allocproc (hE : ∀ e, e.Benign → E e) (hh : Hart [] cur k.cpu k.held)
    (hfs : Fs.Resting k.fs)
    (hnone : ∀ cpu held, (∀ c, (k.procs c).state ≠ .unused) → Hart [] cur cpu held →
      Q none { k with cpu := cpu, held := held })
    (hfail : ∀ c p r s cpu held, (k.procs c).state = .unused → Vacant p →
      Fs.Resting s → Hart [] cur cpu held →
      Q none { k with
        ram := r, fs := s, procs := update k.procs c p
        nextPid := (k.nextPid + 1) % usizeSize, cpu := cpu, held := held })
    (hsome : ∀ c p r s cpu held, (k.procs c).state = .unused → Fresh k.nextPid p →
      Fs.Resting s → Hart [.proc c] cur cpu held →
      Q (some c) { k with
        ram := r, fs := s, procs := update k.procs c p
        nextPid := (k.nextPid + 1) % usizeSize, cpu := cpu, held := held }) :
    (allocproc L).wp E Q k := by
  simp only [allocproc, wp_bind]
  refine wp_firstSome (fun rest t => Hart [] cur t.cpu t.held ∧
    (∀ c, c ∉ rest → (k.procs c).state ≠ .unused) ∧
    t = { k with cpu := t.cpu, held := t.held }) ⟨hh, ?_, rfl⟩ ?_ ?_
  · exact fun c hc => absurd (mem_finRange c) hc
  · rintro t ⟨ht, hused, heq⟩
    rw [heq]
    exact hnone t.cpu t.held (fun c => hused c not_mem_nil) ht
  · rintro c rest t - ⟨ht, hused, heq⟩
    simp only [allocprocTry, wp_bind]
    refine wp_acquire ht not_mem_nil fun cpu held hh1 => ?_
    simp only [wp_getProc, wp_ite, wp_bind, wp_pure]
    have hprocs : t.procs = k.procs := by rw [heq]
    refine ⟨fun hc => ?_, fun hunused => ?_⟩
    · refine wp_release hh1 (mem_singleton_self _) fun cpu' held' hh2 => ?_
      rw [erase_cons_head] at hh2
      rw [hprocs] at hc
      refine ⟨hh2, fun d hd => ?_, ?_⟩
      · by_cases hdc : d = c
        · rwa [hdc]
        · exact hused d (by simp [hdc, hd])
      · rw [heq]
    · rw [hprocs, not_not] at hunused
      rw [heq]
      apply wp_allocprocInit hE
      · exact hh1
      · exact hfs
      · intro p r s cpu' held' hp hs hh'
        exact hfail c p r s cpu' held' hunused hp hs hh'
      · intro p r s hp hs
        exact hsome c p r s cpu held hunused hp hs hh1

/-- A child was made. -/
structure Forked (i c : ProcRef) (k k' : Kernel) : Prop where
  free : (k.procs c).state = .unused
  others : ∀ j, j ≠ c → k'.procs j = k.procs j
  life : (k'.procs c).life = ⟨.alive, k.nextPid, some i, 0⟩
  cont : (k'.procs c).cont = .forkret
  ofile : (k'.procs c).ofile = (k.procs i).ofile
  files : ∀ f, ∃ n, k'.ftable f = { k.ftable f with refcnt := n }
  pipes : k'.pipes = k.pipes
  input : k'.input = k.input
  nextPid : k'.nextPid = (k.nextPid + 1) % usizeSize
  initproc : k'.initproc = k.initproc

/-- A call of `fork` found no slot, or took one and gave it back for want of
memory. -/
structure Unforked (k k' : Kernel) : Prop where
  cause : (∀ c, (k.procs c).state ≠ .unused) ∧ k'.procs = k.procs ∧ k'.nextPid = k.nextPid ∨
    ∃ c p, (k.procs c).state = .unused ∧ Vacant p ∧ k'.procs = Function.update k.procs c p ∧
      k'.nextPid = (k.nextPid + 1) % usizeSize
  ftable : k'.ftable = k.ftable
  pipes : k'.pipes = k.pipes
  input : k'.input = k.input
  initproc : k'.initproc = k.initproc

section Child

variable {P : ProcRef → Process} {Ft : FileRef → File} {Pi : PipeRef → Pipe} {In : Input}

/-- An unused slot is filled with a process that can run. -/
theorem Tables.spawn (h : Tables x y (some i) P Ft Pi In) (hfree : (P c).state = .unused)
    (hstate : p.state = .runnable) (hcont : p.cont = .forkret) (hparent : p.parent = some i)
    (hofile : p.ofile = fun _ => none) :
    Tables x y (some i) (update P c p) Ft Pi In := by
  have hci : c ≠ i := by
    rintro rfl
    have hrun := (h.running c).mpr rfl
    rw [hfree] at hrun
    cases hrun
  have hnone : (P c).ofile = fun _ => none := by
    funext fd
    refine h.idle c ?_ fd
    rw [hfree]
    exact Status.noConfusion
  refine h.replace (h.accounts.congr (ofile_update ?_)) (fun _ _ => Iff.rfl) ?_ ?_ ?_ ?_ ?_ ?_
  · rw [hofile, hnone]
  · intro j ch hs hch hw
    cases ch with
    | proc q =>
      obtain ⟨⟨d, hd, hds⟩, hz⟩ := hw
      have hdc : d ≠ c := by
        rintro rfl
        have hun : (P d).life.status = .unused := congrArg ProcState.status hfree
        exact hds hun
      refine ⟨⟨d, ?_⟩, fun d' hd' => ?_⟩
      · simp only [update_of_ne hdc]
        exact ⟨hd, hds⟩
      · by_cases hdc' : d' = c
        · subst hdc'
          simp [Process.life, hstate, ProcState.status]
        · simp only [update_of_ne hdc'] at hd' ⊢
          exact hz d' hd'
    | pipeRead q => exact hw
    | pipeWrite q => exact hw
    | input => exact hw
  · constructor
    · intro hr
      rw [hstate] at hr
      cases hr
    · intro hi
      exact absurd (Option.some.inj hi).symm hci
  · simp [hstate]
  · intro _
    simp [Parked, hcont]
  · intro hne
    rw [hstate] at hne
    exact absurd rfl hne
  · simp [hstate]

/-- A process that has not run yet gets one more descriptor. -/
theorem Tables.grant {f : FileRef} {fd : Fin nofile} (h : Tables (f :: x) y cur P Ft Pi In)
    (hstate : (P c).state = .runnable) (hcont : (P c).cont = .forkret)
    (hfree : (P c).ofile fd = none) :
    Tables x y cur (update P c ((P c).setFd fd (some f))) Ft Pi In := by
  have hrun : ((P c).setFd fd (some f)).state = .running ↔ cur = some c := h.running c
  refine h.replace (h.accounts.link hfree) (fun _ _ => Iff.rfl) ?_ hrun ?_ ?_ ?_ ?_
  · have hlife : ((P c).setFd fd (some f)).life = (P c).life := rfl
    rw [life_update hlife]
    exact fun _ _ _ _ hw => hw
  · intro hs
    exact absurd (hstate.symm.trans hs) ProcState.noConfusion
  · intro _
    simp [Parked, Process.setFd, hcont]
  · intro hne
    exact absurd (congrArg ProcState.status hstate) hne
  · intro hu
    exact absurd (hstate.symm.trans hu) ProcState.noConfusion

/-- A process that has not run yet inherits a descriptor. -/
theorem Tables.inherit {f : FileRef} {fd : Fin nofile} (h : Tables x y cur P Ft Pi In)
    (hstate : (P c).state = .runnable) (hcont : (P c).cont = .forkret)
    (hfree : (P c).ofile fd = none) :
    Tables x y cur (update P c ((P c).setFd fd (some f)))
      (update Ft f { Ft f with refcnt := (Ft f).refcnt + 1 }) Pi In :=
  Tables.grant (h.setFile h.accounts.dup fun _ _ _ _ hkind => ⟨hkind, rfl⟩) hstate hcont hfree

end Child

/-- The descriptors of the parent that come before the rest. -/
def inherited (o : Fin nofile → Option FileRef) (rest : List (Fin nofile)) :
    Fin nofile → Option FileRef := fun fd => if fd ∈ rest then none else o fd

theorem inherited_all (o : Fin nofile → Option FileRef) : inherited o fds = fun _ => none :=
  funext fun fd => if_pos (mem_finRange fd)

theorem inherited_nil (o : Fin nofile → Option FileRef) : inherited o [] = o :=
  funext fun _ => if_neg not_mem_nil

theorem inherited_cons {o : Fin nofile → Option FileRef} {fd : Fin nofile}
    {rest : List (Fin nofile)} (hfd : fd ∉ rest) :
    inherited o rest = update (inherited o (fd :: rest)) fd (o fd) := by
  funext e
  by_cases he : e = fd
  · subst he
    rw [update_self]
    exact if_neg hfd
  · rw [update_of_ne he]
    simp only [inherited, mem_cons, he, false_or]

/-- The child gets the descriptors of the parent. The tables are those with the
child ready to run. -/
theorem wp_forkFiles {q : Process} (hci : c ≠ i) (hh : Hart [.proc c] (some i) k.cpu k.held)
    (hq : k.procs c = q) (hcont : q.cont = .forkret) (hnone : q.ofile = fun _ => none)
    (htab : Tables [] none (some i) (update k.procs c { q with state := .runnable })
      k.ftable k.pipes k.input) {Q : Unit → Kernel → Prop}
    (hQ : ∀ Ft cpu held, Hart [.proc c] (some i) cpu held →
      (∀ f, ∃ n, Ft f = { k.ftable f with refcnt := n }) →
      Tables [] none (some i) (update k.procs c
        { q with state := .runnable, ofile := (k.procs i).ofile }) Ft k.pipes k.input →
      Q () { k with
        procs := update k.procs c { q with ofile := (k.procs i).ofile }
        ftable := Ft, cpu := cpu, held := held }) :
    (forkFiles i c).wp E Q k := by
  let child (rest : List (Fin nofile)) : Process :=
    { q with ofile := inherited (k.procs i).ofile rest }
  let I (rest : List (Fin nofile)) (t : Kernel) : Prop :=
    Hart [.proc c] (some i) t.cpu t.held ∧
    (∀ f, ∃ n, t.ftable f = { k.ftable f with refcnt := n }) ∧
    Tables [] none (some i) (update k.procs c { child rest with state := .runnable })
      t.ftable k.pipes k.input ∧
    t = { k with
      procs := update k.procs c (child rest)
      ftable := t.ftable, cpu := t.cpu, held := t.held }
  unfold forkFiles
  refine wp_post (wp_forEach I ?_ ?_) ?_
  · have hchild : child fds = q := by
      simp only [child, inherited_all, ← hnone]
    refine ⟨hh, fun f => ⟨_, rfl⟩, ?_, ?_⟩
    · rw [hchild]
      exact htab
    · rw [hchild, ← hq, update_eq_self]
  · rintro fd rest t hsuf ⟨ht, hfiles, htabs, heq⟩
    have hfd : fd ∉ rest :=
      (nodup_cons.mp ((nodup_finRange nofile).sublist hsuf.sublist)).1
    have hparent : t.procs i = k.procs i := by
      rw [heq]
      exact update_of_ne hci.symm ..
    have hchild : t.procs c = child (fd :: rest) := by
      rw [heq]
      exact update_self ..
    have hnext : child rest = (child (fd :: rest)).setFd fd ((k.procs i).ofile fd) := by
      simp only [child, Process.setFd, inherited_cons hfd]
    simp only [wp_bind, wp_getProc, hparent]
    cases hof : (k.procs i).ofile fd with
    | none =>
      have hsame : child rest = child (fd :: rest) := by
        rw [hnext, hof]
        simp only [child, Process.setFd]
        congr 1
        exact update_eq_self_iff.mpr (if_pos (mem_cons_self ..)).symm
      simp only [wp_pure]
      refine ⟨ht, hfiles, ?_, ?_⟩
      · rw [hsame]
        exact htabs
      · rw [hsame]
        exact heq
    | some f =>
      simp only [wp_bind]
      have hpos : 0 < (t.ftable f).refcnt := by
        apply htabs.accounts.refcnt_pos (i := i)
        rw [update_of_ne hci.symm]
        exact hof
      refine wp_fileDup ht (by simp) hpos fun cpu held hh' => ?_
      simp only [wp_modifyProc]
      refine ⟨hh', fun g => ?_, ?_, ?_⟩
      · by_cases hg : g = f
        · subst hg
          obtain ⟨n, hn⟩ := hfiles g
          refine ⟨n + 1, ?_⟩
          simp only [update_self, hn]
        · obtain ⟨n, hn⟩ := hfiles g
          refine ⟨n, ?_⟩
          simp only [update_of_ne hg, hn]
      · have hin := @Tables.inherit _ _ _ _ _ _ _ _ f fd htabs (by rw [update_self])
          (by rw [update_self]; exact hcont)
          (by rw [update_self]; exact if_pos (mem_cons_self ..))
        rw [update_self, update_idem] at hin
        rw [hnext, hof]
        exact hin
      · rw [hchild, hnext, hof]
        rw [heq]
        simp only [update_idem]
        rfl
  · rintro - t ⟨ht, hfiles, htabs, heq⟩
    have hchild : child [] = { q with ofile := (k.procs i).ofile } := by
      simp only [child, inherited_nil]
    rw [hchild] at htabs heq
    rw [heq]
    exact hQ t.ftable t.cpu t.held ht hfiles htabs

/-- An unused slot that was given back is as good as before. -/
theorem Tables.vacate {P : ProcRef → Process} {Ft : FileRef → File} {Pi : PipeRef → Pipe}
    {In : Input} (h : Tables x y (some i) P Ft Pi In) (hfree : (P c).state = .unused)
    (hp : Vacant p) : Tables x y (some i) (update P c p) Ft Pi In := by
  have hdead : (P c).state.status ≠ .alive := by
    rw [hfree]
    exact Status.noConfusion
  apply h.discard
  · rintro rfl
    have hrun := (h.running c).mpr rfl
    rw [hfree] at hrun
    cases hrun
  · exact hdead
  · intro q hq
    rw [h.orphan c hfree] at hq
    cases hq
  · rw [hp.ofile]
    exact (funext (h.idle c hdead)).symm
  · exact hp.state
  · exact congrArg Life.parent hp.life

theorem wp_fork (hE : ∀ e, e.Benign → E e) (h : Steady [] [] none (some i) k)
    {Q : Option ℕ → Kernel → Prop}
    (hnone : ∀ k', Steady [] [] none (some i) k' → Unforked k k' → Q none k')
    (hsome : ∀ c k', Steady [] [] none (some i) k' → Forked i c k k' → Q (some k.nextPid) k') :
    (fork L).wp E Q k := by
  simp only [fork, wp_bind]
  refine wp_myproc h.hart ?_
  have hfail : ∀ c p r s cpu held, (k.procs c).state = .unused → Vacant p →
      Fs.Resting s → Hart [] (some i) cpu held →
      Q none { k with
        ram := r, fs := s, procs := update k.procs c p
        nextPid := (k.nextPid + 1) % usizeSize, cpu := cpu, held := held } := by
    intro c p r s cpu held hfree hp hs hh
    refine hnone _ ⟨hh, h.tables.vacate hfree hp, hs⟩ ?_
    exact ⟨.inr ⟨c, p, hfree, hp, rfl, rfl⟩, rfl, rfl, rfl, rfl⟩
  refine wp_allocproc hE h.hart h.fs (fun cpu held hused hh => ?_) hfail
    fun c p r s cpu held hfree hp hs hh => ?_
  · exact hnone _ ⟨hh, h.tables, h.fs⟩ ⟨.inl ⟨hused, rfl, rfl⟩, rfl, rfl, rfl, rfl⟩
  have hci : c ≠ i := by
    rintro rfl
    have hrun := (h.tables.running c).mpr rfl
    rw [hfree] at hrun
    cases hrun
  have hpid : p.pid = k.nextPid := congrArg Life.pid hp.life
  -- the slot is given back from whatever point memory runs out at
  have hback : ∀ q r', q.ofile = (fun _ => none) →
      (forkFail L c).wp E Q { k with
        ram := r', fs := s, procs := update k.procs c q
        nextPid := (k.nextPid + 1) % usizeSize, cpu := cpu, held := held } := by
    intro q r' hq
    apply wp_giveBack hE
    · exact hh
    · simp only [update_self]
      exact hq
    · exact hs
    · intro p' r'' s' cpu' held' hp' hs' hh'
      simp only [update_idem]
      exact hfail c p' r'' s' cpu' held' hfree hp' hs' hh'
  simp only [wp_bind, wp_modifyProc, wp_getProc, update_self, update_idem,
    update_of_ne hci.symm]
  refine wp_onRam hE mild_uvmcopy fun a r1 => ?_
  cases a with
  | none => exact hback _ r1 hp.ofile
  | some _ =>
    simp only [wp_bind, wp_modifyProc, update_self, update_idem]
    refine wp_onRam hE (keeps_modify_true) fun _ r2 => ?_
    refine wp_onRam hE mild_setReg fun _ r3 => ?_
    refine wp_onRam hE mild_uvmcopyStack fun a r4 => ?_
    cases a with
    | none => exact hback _ r4 hp.ofile
    | some _ =>
      simp only [wp_bind, wp_modifyProc, update_self, update_idem]
      apply wp_forkFiles hci
      · exact hh
      · exact update_self ..
      · rfl
      · exact hp.ofile
      · simp only [update_idem]
        exact h.tables.spawn hfree rfl rfl rfl hp.ofile
      · intro Ft cpu' held' hh' hfiles htabs
        simp only [update_idem, update_of_ne hci.symm] at htabs ⊢
        apply wp_onFs hE Fs.calm_idup
        · exact hs
        intro cwd s' hs'
        simp only [update_self, update_idem]
        apply wp_release
        · exact hh'
        · exact mem_singleton_self _
        intro cpu'' held'' hh''
        rw [erase_cons_head] at hh''
        rw [wp_pure, hpid]
        refine hsome c _ ⟨hh'', ?_, hs'⟩ ⟨hfree, fun j hj => ?_, ?_, ?_, ?_, hfiles, rfl, rfl, rfl, rfl⟩
        · have hcwd := htabs.refit (i := c) (p := { p with
              parent := some i, sz := (k.procs i).sz, cont := .forkret, state := .runnable
              ofile := (k.procs i).ofile, cwd := cwd })
            (by rw [update_self]) (by rw [update_self]; rfl)
            (by rw [update_self]) (by rw [update_self])
            (by rw [update_self])
          rw [update_idem] at hcwd
          rw [← hpid]
          exact hcwd
        · exact update_of_ne hj ..
        · simp only [update_self]
          have hx := congrArg Life.xstate hp.life
          simp only [Process.life] at hx
          simp only [Process.life, ProcState.status, hx]
        · simp only [update_self]
        · simp only [update_self]

end ToyOs
