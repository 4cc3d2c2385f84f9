import ToyOs.Kernel.Descriptors

/-!
The end of a process. `exit` closes the descriptors of the process, hands its
children to init, wakes its parent and leaves a zombie. Whoever waits for a
child that can be reaped has been woken by then.
-/
namespace ToyOs

open Prog Function List

variable {x : List FileRef} {y : Option PipeRef} {cur : Option ProcRef} {k : Kernel}
  {E : Panic → Prop} {i : ProcRef} {Q : Unit → Kernel → Prop} {Ft : FileRef → File}
  {Pi : PipeRef → Pipe} {In : Input}

/-- A file from which references were dropped. -/
def File.Lost (g g' : File) : Prop := g' = File.unused ∨ ∃ n, g' = { g with refcnt := n }

theorem File.Lost.refl (g : File) : g.Lost g := .inr ⟨g.refcnt, rfl⟩

theorem File.Lost.dropRef {g g' : File} (h : g.Lost g') : g.Lost g'.dropRef := by
  unfold File.dropRef
  split_ifs
  · exact .inl rfl
  · rcases h with rfl | ⟨n, rfl⟩
    · exact .inl rfl
    · exact .inr ⟨_, rfl⟩

/-- The descriptors of a process are closed. -/
structure Shut (i : ProcRef) (k k' : Kernel) : Prop where
  obs : k'.obs = k.obs
  own : ∀ fd, (k'.procs i).ofile fd = none
  others : ∀ j, j ≠ i → (k'.procs j).ofile = (k.procs j).ofile
  files : ∀ f, (k.ftable f).Lost (k'.ftable f)
  ram : k'.ram = k.ram
  procs : ∀ j, ∃ st o, k'.procs j = { k.procs j with state := st, ofile := o }

theorem File.Lost.ofInode {g g' : File} (h : g.Lost g') (hg : g'.OfInode) : g.OfInode := by
  rcases h with rfl | ⟨n, rfl⟩
  · obtain ⟨ip, off, append, hkind⟩ := hg
    exact absurd hkind FileKind.noConfusion
  · exact hg

theorem wp_closeOpenFiles (hE : (∃ f, (k.ftable f).OfInode) → ∀ e, e.Benign → E e)
    (h : Steady [] [] none (some i) k)
    (hQ : ∀ k', Steady [] [] none (some i) k' → Shut i k k' → Q () k') :
    (closeOpenFiles i).wp E Q k := by
  -- the descriptors before the rest are closed
  let I (rest : List (Fin nofile)) (t : Kernel) : Prop := Steady [] [] none (some i) t ∧
    t.obs = k.obs ∧ (∀ fd, fd ∉ rest → (t.procs i).ofile fd = none) ∧
    (∀ j, j ≠ i → (t.procs j).ofile = (k.procs j).ofile) ∧
    (∀ f, (k.ftable f).Lost (t.ftable f)) ∧ t.ram = k.ram ∧
    ∀ j, ∃ st o, t.procs j = { k.procs j with state := st, ofile := o }
  unfold closeOpenFiles
  refine wp_post (wp_forEach I ?_ ?_) ?_
  · exact ⟨h, rfl, fun fd hfd => absurd (mem_finRange fd) hfd, fun _ _ => rfl,
      fun f => File.Lost.refl _, rfl, fun j => ⟨_, _, rfl⟩⟩
  · rintro fd rest t - ⟨ht, hobs, hown, hothers, hfiles, hram, hprocs⟩
    simp only [wp_bind, wp_getProc]
    cases hfd : (t.procs i).ofile fd with
    | none =>
      refine ⟨ht, hobs, fun e he => ?_, hothers, hfiles, hram, hprocs⟩
      by_cases hef : e = fd
      · rw [hef, hfd]
      · exact hown e fun hmem => (mem_cons.mp hmem).elim hef he
    | some f =>
      simp only [wp_bind, wp_modifyProc]
      have hE' : ((t.setFd i fd none).ftable f).OfInode → ∀ e, e.Benign → E e :=
        fun hf => hE ⟨f, (hfiles f).ofInode hf⟩
      refine wp_fileClose (k := t.setFd i fd none) hE' (ht.unlink hfd) fun k' hk' hc => ?_
      refine ⟨hk', ?_, fun e he => ?_, fun j hj => ?_, fun g => ?_, ?_, fun j => ?_⟩
      · rw [hc.obs, setFd_obs, hobs]
      · rw [hc.ofile, setFd_ofile]
        split_ifs with hef
        · rfl
        · exact hown e fun hmem => (mem_cons.mp hmem).elim hef he
      · rw [hc.ofile, ← hothers j hj]
        exact congrArg Process.ofile (update_of_ne hj _ _)
      · rw [hc.ftable]
        by_cases hg : g = f
        · subst hg
          rw [update_self]
          exact (hfiles g).dropRef
        · rw [update_of_ne hg]
          exact hfiles g
      · rw [hc.ram]
        exact hram
      · obtain ⟨st, hst⟩ := hc.procs j
        obtain ⟨st', o, hj⟩ := hprocs j
        rw [hst]
        by_cases hji : j = i
        · subst hji
          simp only [Kernel.setFd, Process.setFd, update_self, hj]
          exact ⟨_, _, rfl⟩
        · simp only [Kernel.setFd, update_of_ne hji, hj]
          exact ⟨_, _, rfl⟩
  · rintro - t ⟨ht, hobs, hown, hothers, hfiles, hram, hprocs⟩
    exact hQ t ht ⟨hobs, fun fd => hown fd not_mem_nil, hothers, hfiles, hram, hprocs⟩

/-- Who sleeps on a process waits for its own children. -/
theorem Tables.waiter {P : ProcRef → Process} {j q : ProcRef} (h : Tables x y cur P Ft Pi In)
    (hs : (P j).state = .sleeping) (hch : (P j).chan = some (.proc q)) : q = j := by
  have hcont := (h.chan j hs).symm.trans hch
  cases hc : (P j).cont with
  | wait va =>
    rw [hc] at hcont
    exact (Chan.proc.inj (Option.some.inj hcont)).symm
  | forkret =>
    rw [hc] at hcont
    cases hcont
  | yield =>
    rw [hc] at hcont
    cases hcont
  | pipeRead p cap buf =>
    rw [hc] at hcont
    cases hcont
  | pipeWrite p src n =>
    rw [hc] at hcont
    cases hcont
  | consoleRead got cap buf =>
    rw [hc] at hcont
    cases hcont

/-- A process whose parent goes away becomes a child of init. -/
def Process.adopt (parent init : ProcRef) (p : Process) : Process :=
  if p.parent = some parent then { p with parent := some init } else p

section Adopt

variable {parent init : ProcRef} {p : Process}

theorem adopt_of_ne (h : p.parent ≠ some parent) : p.adopt parent init = p := if_neg h

theorem adopt_eq : ∃ q, p.adopt parent init = { p with parent := q } := by
  unfold Process.adopt
  split_ifs
  · exact ⟨_, rfl⟩
  · exact ⟨p.parent, rfl⟩

theorem wp_reparentLoop {rest : List ProcRef} {need : Bool} (hnd : rest.Nodup)
    (hh : Hart [.wait] cur k.cpu k.held) {Q : Bool → Kernel → Prop}
    (hQ : ∀ b c h, Hart [.wait] cur c h →
      (b = false → need = false ∧ ∀ j ∈ rest, (k.procs j).parent ≠ some parent) →
      Q b { k with
        procs := fun j => if j ∈ rest then (k.procs j).adopt parent init else k.procs j
        cpu := c, held := h }) :
    (reparentLoop parent init rest need).wp E Q k := by
  induction rest generalizing k need with
  | nil =>
    have hnil := hQ need k.cpu k.held hh fun hb => ⟨hb, fun j hj => absurd hj not_mem_nil⟩
    simp only [not_mem_nil, if_false] at hnil
    exact hnil
  | cons child rest ih =>
    obtain ⟨hmem, hnd'⟩ := nodup_cons.mp hnd
    simp only [reparentLoop, wp_bind]
    refine wp_acquire hh (by simp) fun c h hh1 => ?_
    simp only [wp_getProc, wp_ite, wp_bind, wp_modifyProc]
    -- the state of the loop after the child is done
    have hprocs : (fun j => if j ∈ rest then
          (update k.procs child ((k.procs child).adopt parent init) j).adopt parent init
          else update k.procs child ((k.procs child).adopt parent init) j) =
        fun j => if j ∈ child :: rest then (k.procs j).adopt parent init else k.procs j := by
      funext j
      by_cases hj : j = child
      · subst hj
        simp [hmem]
      · simp [hj]
    constructor
    · intro hparent
      refine wp_release hh1 (mem_cons_self ..) fun c' h' hh2 => ?_
      rw [erase_cons_head] at hh2
      refine ih hnd' hh2 fun b c'' h'' hh3 hb => ?_
      have hchild : { k.procs child with parent := some init } =
          (k.procs child).adopt parent init := (if_pos hparent).symm
      have hres := hQ b c'' h'' hh3 fun hf => absurd (hb hf).1 Bool.noConfusion
      rw [← hprocs, ← hchild] at hres
      exact hres
    · intro hparent
      refine wp_release hh1 (mem_cons_self ..) fun c' h' hh2 => ?_
      rw [erase_cons_head] at hh2
      refine ih hnd' hh2 fun b c'' h'' hh3 hb => ?_
      have hres := hQ b c'' h'' hh3 fun hf => ⟨(hb hf).1, fun j hj => ?_⟩
      · rw [← hprocs, adopt_of_ne hparent, update_eq_self] at hres
        exact hres
      · rcases mem_cons.mp hj with rfl | hj
        · exact hparent
        · exact (hb hf).2 j hj

/-- The children of the process go to init, and init is woken if there are any. -/
theorem wp_reparent (hh : Hart [.wait] cur k.cpu k.held)
    (hkeep : ∀ c h, Hart [.wait] cur c h →
      (∀ init, k.initproc = some init → parent ≠ init → ∀ j, (k.procs j).parent ≠ some parent) →
      Q () { k with cpu := c, held := h })
    (hadopt : ∀ init c h, Hart [.wait] cur c h → k.initproc = some init → parent ≠ init →
      Q () { k with
        procs := fun j => wakeProc (some (.proc init)) ((k.procs j).adopt parent init)
        cpu := c, held := h }) :
    (reparent parent).wp E Q k := by
  simp only [reparent, wp_bind, wp_get]
  cases hinit : k.initproc with
  | none => exact hkeep k.cpu k.held hh fun init hi => absurd hi (by simp [hinit])
  | some init =>
    simp only [wp_ite, wp_pure, wp_bind]
    refine ⟨fun heq => hkeep k.cpu k.held hh fun a ha hne => ?_, fun hne => ?_⟩
    · rw [hinit] at ha
      exact absurd (heq.trans (Option.some.inj ha)) hne
    · refine wp_reparentLoop (nodup_finRange nproc) hh fun b c h hh1 hb => ?_
      simp only [mem_finRange, if_true]
      constructor
      · intro _
        exact wp_wakeup hh1 (by simp) fun c' h' hh2 => hadopt init c' h' hh2 hinit hne
      · intro hb'
        have hnone := (hb (Bool.eq_false_iff.mpr hb')).2
        simp only [mem_finRange, true_implies] at hnone
        have hprocs : (fun j => (k.procs j).adopt parent init) = k.procs :=
          funext fun j => adopt_of_ne (hnone j)
        rw [hprocs]
        exact hkeep c h hh1 fun _ _ _ => hnone

theorem adopt_state : (p.adopt parent init).state = p.state := by
  obtain ⟨q, hq⟩ := @adopt_eq parent init p
  rw [hq]

theorem adopt_ofile : (p.adopt parent init).ofile = p.ofile := by
  obtain ⟨q, hq⟩ := @adopt_eq parent init p
  rw [hq]

theorem adopt_chan : (p.adopt parent init).chan = p.chan := by
  obtain ⟨q, hq⟩ := @adopt_eq parent init p
  rw [hq]

theorem adopt_cont : (p.adopt parent init).cont = p.cont := by
  obtain ⟨q, hq⟩ := @adopt_eq parent init p
  rw [hq]

theorem adopt_parent_of_ne {q : ProcRef} (hne : q ≠ parent) (hinit : q ≠ init) :
    (p.adopt parent init).parent = some q ↔ p.parent = some q := by
  unfold Process.adopt
  split_ifs with hp
  · constructor
    · intro h
      exact absurd (Option.some.inj h).symm hinit
    · intro h
      exact absurd (Option.some.inj (h.symm.trans hp)) hne
  · rfl

theorem Tables.adopt {P : ProcRef → Process} (h : Tables x y (some parent) P Ft Pi In) :
    Tables x y (some parent) (fun j => wakeProc (some (.proc init)) ((P j).adopt parent init))
      Ft Pi In := by
  have hsleep : ∀ j, (wakeProc (some (.proc init)) ((P j).adopt parent init)).state = .sleeping →
      (P j).state = .sleeping ∧ (P j).chan ≠ some (.proc init) := by
    intro j hj
    rw [wakeProc_sleeping, adopt_state, adopt_chan] at hj
    exact hj
  constructor
  · exact h.accounts.congr fun j => by rw [wakeProc_ofile, adopt_ofile]
  · intro j hj
    rw [wakeProc_chan, wakeProc_cont, adopt_chan, adopt_cont]
    exact h.chan j (hsleep j hj).1
  · intro j hj
    obtain ⟨hs, hne⟩ := hsleep j hj
    obtain ⟨ch, hch, hw⟩ := h.asleep j hs
    refine ⟨ch, by rw [wakeProc_chan, adopt_chan, hch], ?_⟩
    cases ch with
    | proc q =>
      -- the sleeper waits for its own children, and it is neither init nor the running process
      have hqinit : q ≠ init := by
        rintro rfl
        exact hne hch
      have hqj : q = j := h.waiter hs hch
      have hqparent : q ≠ parent := by
        rintro rfl
        have hrun := (h.running q).mpr rfl
        rw [← hqj, hrun] at hs
        cases hs
      have hparent : ∀ c, (wakeProc (some (.proc init)) ((P c).adopt parent init)).life.parent =
          some q ↔ (P c).life.parent = some q := by
        intro c
        rw [wakeProc_life]
        exact adopt_parent_of_ne hqparent hqinit
      have hstatus : ∀ c, (wakeProc (some (.proc init)) ((P c).adopt parent init)).life.status =
          (P c).life.status := by
        intro c
        rw [wakeProc_life]
        exact congrArg ProcState.status adopt_state
      obtain ⟨⟨c, hc, hcs⟩, hz⟩ := hw
      refine ⟨⟨c, (hparent c).mpr hc, ?_⟩, fun c' hc' => ?_⟩
      · rw [hstatus]
        exact hcs
      · rw [hstatus]
        exact hz c' ((hparent c').mp hc')
    | pipeRead q => exact hw
    | pipeWrite q => exact hw
    | input => exact hw
  · intro j hj
    refine (h.parked j ?_).congr (by rw [wakeProc_cont, adopt_cont]) (by rw [wakeProc_ofile, adopt_ofile])
    have hwait := wakeProc_waiting hj
    rwa [adopt_state] at hwait
  · intro j hj fd
    rw [wakeProc_ofile, adopt_ofile]
    refine h.idle j (fun hs => hj ?_) fd
    have hlife := congrArg Life.status (@wakeProc_life ((P j).adopt parent init) (some (.proc init)))
    exact hlife.trans ((congrArg ProcState.status adopt_state).trans hs)
  · intro j hj
    rw [wakeProc_unused, adopt_state] at hj
    have hnone := h.orphan j hj
    have hsame : (P j).adopt parent init = P j := adopt_of_ne (by simp [hnone])
    rw [hsame]
    exact (congrArg Life.parent wakeProc_life).trans hnone
  · intro j
    rw [wakeProc_running, adopt_state]
    exact h.running j

end Adopt

/-- The running process wakes its parent and becomes a zombie. -/
theorem Tables.exit {P : ProcRef → Process} {p : Process} (h : Tables x y (some i) P Ft Pi In)
    (hown : ∀ fd, (P i).ofile fd = none) (hofile : p.ofile = (P i).ofile)
    (hstate : p.state = .zombie) (hparent : p.parent = (P i).parent) :
    Tables x y none
      (update (fun j => wakeProc ((P i).parent.map Chan.proc) (P j)) i p) Ft Pi In := by
  have hwake : Tables x y (some i) (fun j => wakeProc ((P i).parent.map Chan.proc) (P j)) Ft Pi In :=
    h.wake h.accounts h.parked fun _ _ hw => hw
  refine hwake.replace (hwake.accounts.congr (ofile_update ?_)) ?_ ?_ ?_ ?_ ?_ ?_ ?_
  · rw [hofile, wakeProc_ofile]
  · exact fun j hj => ⟨fun hn => absurd hn.symm (Option.some_ne_none j),
      fun hs => absurd (Option.some.inj hs).symm hj⟩
  · intro j ch hs hch hw
    cases ch with
    | proc q =>
      obtain ⟨⟨c, hc, hcs⟩, hz⟩ := hw
      simp only [wakeProc_life] at hc hcs hz
      -- the parent of the zombie is not asleep any more
      have hne : (P i).parent ≠ some q := by
        intro hpar
        rw [wakeProc_sleeping, hpar] at hs
        rw [wakeProc_chan] at hch
        exact hs.2 hch
      constructor
      · refine ⟨c, ?_⟩
        by_cases hci : c = i
        · exact absurd (hci ▸ hc) hne
        · simp only [update_of_ne hci, wakeProc_life]
          exact ⟨hc, hcs⟩
      · intro c' hc'
        by_cases hci : c' = i
        · subst hci
          simp only [update_self] at hc'
          exact absurd (hparent.symm.trans hc') hne
        · simp only [update_of_ne hci, wakeProc_life] at hc' ⊢
          exact hz c' hc'
    | pipeRead q => exact hw
    | pipeWrite q => exact hw
    | input => exact hw
  · simp [hstate]
  · simp [hstate]
  · simp [hstate]
  · intro _ fd
    rw [hofile, hown]
  · simp [hstate]

/-- The life of a process once `parent` has handed its children to init. -/
def Life.adopt (parent : ProcRef) (init : Option ProcRef) (l : Life) : Life :=
  if init ≠ none ∧ init ≠ some parent ∧ l.parent = some parent then { l with parent := init } else l

theorem Life.adopt_status {parent : ProcRef} {init : Option ProcRef} {l : Life} :
    (l.adopt parent init).status = l.status := by
  unfold Life.adopt
  split_ifs <;> rfl

/-- What `exit` leaves. -/
structure Exited (i : ProcRef) (code : ℤ) (k k' : Kernel) : Prop where
  own : k'.obs.lives i =
    { (k.obs.lives i).adopt i k.initproc with status := .zombie, xstate := code }
  others : ∀ j, j ≠ i → k'.obs.lives j = (k.obs.lives j).adopt i k.initproc
  input : k'.input = k.input
  contents : k'.obs.contents = k.obs.contents
  nextPid : k'.nextPid = k.nextPid
  initproc : k'.initproc = k.initproc
  closed : ∀ fd, (k'.procs i).ofile fd = none
  ofile : ∀ j, j ≠ i → (k'.procs j).ofile = (k.procs j).ofile
  files : ∀ f, (k.ftable f).Lost (k'.ftable f)
  ram : k'.ram = k.ram
  cont : ∀ j, j ≠ i → (k'.procs j).cont = (k.procs j).cont
  holdings : ∀ j, (k'.procs j).holdings = (k.procs j).holdings

theorem adopt_life {parent init : ProcRef} {p : Process} (hne : parent ≠ init) :
    (p.adopt parent init).life = p.life.adopt parent (some init) := by
  unfold Process.adopt Life.adopt
  by_cases hp : p.parent = some parent
  · rw [if_pos hp, if_pos ⟨Option.some_ne_none init, fun h => hne (Option.some.inj h).symm, hp⟩]
    rfl
  · rw [if_neg hp, if_neg fun h => hp h.2.2]

/-- The end of `exit`, after the children are taken care of. -/
theorem wp_exit_end {P : ProcRef → Process} {c : Cpu} {held : Lock → Bool} {code : ℤ}
    (hh : Hart [.wait] (some i) c held)
    (hQ : ∀ p c' held', p.ofile = (P i).ofile → p.state = .zombie → p.parent = (P i).parent →
      p.life = { (P i).life with status := .zombie, xstate := code } →
      p.holdings = (P i).holdings → Hart [] none c' held' →
      Q () { k with
        procs := update (fun j => wakeProc ((P i).parent.map Chan.proc) (P j)) i p
        cpu := c', held := held' }) :
    Prog.wp (do
      let p ← getProc i
      wakeup (p.parent.map Chan.proc)
      acquire (.proc i)
      modifyProc i fun p => { p with xstate := code, state := .zombie }
      release .wait
      sched i .yield) E Q { k with procs := P, cpu := c, held := held } := by
  simp only [wp_bind, wp_getProc]
  refine wp_wakeup hh (by simp) fun c1 h1 hh1 => ?_
  refine wp_acquire hh1 (by simp) fun c2 h2 hh2 => ?_
  simp only [wp_modifyProc]
  refine wp_release hh2 (by simp) fun c3 h3 hh3 => ?_
  have herase : [Lock.proc i, Lock.wait].erase .wait = [.proc i] := by simp
  rw [herase] at hh3
  refine wp_sched hh3 (by simp) fun c4 h4 hh4 => ?_
  simp only [update_self, update_idem]
  obtain ⟨st, hst⟩ := @wakeProc_state ((P i).parent.map Chan.proc) (P i)
  refine hQ _ c4 h4 ?_ rfl ?_ ?_ ?_ hh4
  · simp only [hst]
  · simp only [hst]
  · rw [hst]
    rfl
  · rw [hst]
    rfl

theorem wp_exit (hE : (∃ f, (k.ftable f).OfInode) → ∀ e, e.Benign → E e)
    (h : Steady [] [] none (some i) k) {code : ℤ}
    (hQ : ∀ k', Steady [] [] none none k' → Exited i code k k' → Q () k') :
    (exit code).wp E Q k := by
  rw [exit, wp_bind]
  refine wp_myproc h.hart ?_
  rw [wp_bind]
  refine wp_closeOpenFiles hE h fun k₁ h₁ hs => ?_
  rw [wp_bind]
  refine wp_acquire h₁.hart not_mem_nil fun c1 held1 hh1 => ?_
  rw [wp_bind]
  have hinit : k₁.initproc = k.initproc := congrArg Obs.initproc hs.obs
  have hlives : ∀ j, (k₁.procs j).life = k.obs.lives j := congrFun (congrArg Obs.lives hs.obs)
  -- both ways through `reparent` end in a table of this kind
  have hend : ∀ (P : ProcRef → Process) c held, Hart [.wait] (some i) c held →
      Tables [] none (some i) P k₁.ftable k₁.pipes k₁.input →
      (∀ j, (P j).life = (k.obs.lives j).adopt i k.initproc) →
      (∀ j, (P j).ofile = (k₁.procs j).ofile) →
      (∀ j, ∃ st q, P j = { k₁.procs j with state := st, parent := q }) →
      Prog.wp (do
        let p ← getProc i
        wakeup (p.parent.map Chan.proc)
        acquire (.proc i)
        modifyProc i fun p => { p with xstate := code, state := .zombie }
        release .wait
        sched i .yield) E Q { k₁ with procs := P, cpu := c, held := held } := by
    intro P c held hh htab hlife hofile hP
    have hkeep : ∀ j, (P j).cont = (k.procs j).cont ∧ (P j).holdings = (k.procs j).holdings := by
      intro j
      obtain ⟨st, q, hj⟩ := hP j
      obtain ⟨st', o, hj'⟩ := hs.procs j
      rw [hj, hj']
      exact ⟨rfl, rfl⟩
    have hown : ∀ fd, (P i).ofile fd = none := fun fd => by rw [hofile, hs.own]
    refine wp_exit_end hh fun p c' held' hpo hps hpp hpl hph hh' => ?_
    let P' : ProcRef → Process :=
      update (fun j => wakeProc ((P i).parent.map Chan.proc) (P j)) i p
    refine hQ _ ⟨hh', htab.exit hown hpo hps hpp, h₁.fs⟩ ?_
    have hcontents : k₁.obs.contents = k.obs.contents := congrArg Obs.contents hs.obs
    refine ⟨?_, fun j hj => ?_, congrArg Obs.input hs.obs, hcontents, congrArg Obs.nextPid hs.obs,
      hinit, fun fd => ?_, fun j hj => ?_, hs.files, hs.ram, fun j hj => ?_, fun j => ?_⟩
    · change (P' i).life = _
      rw [show P' i = p from update_self .., hpl, hlife]
    · change (P' j).life = _
      rw [show P' j = _ from update_of_ne hj .., wakeProc_life, hlife]
    · change (P' i).ofile fd = none
      rw [show P' i = p from update_self .., hpo, hown]
    · change (P' j).ofile = _
      rw [show P' j = _ from update_of_ne hj .., wakeProc_ofile, hofile, hs.others j hj]
    · change (P' j).cont = _
      rw [show P' j = _ from update_of_ne hj .., wakeProc_cont, (hkeep j).1]
    · change (P' j).holdings = _
      by_cases hj : j = i
      · subst hj
        rw [show P' j = p from update_self .., hph, (hkeep j).2]
      · rw [show P' j = _ from update_of_ne hj .., wakeProc_holdings, (hkeep j).2]
  refine wp_reparent hh1 (fun c held hh hkeep => ?_) fun init c held hh hi hne => ?_
  · refine hend k₁.procs c held hh h₁.tables (fun j => ?_) (fun _ => rfl) fun j => ⟨_, _, rfl⟩
    rw [hlives, Life.adopt, if_neg]
    rintro ⟨hsome, hother, hpar⟩
    obtain ⟨init, hi⟩ := Option.ne_none_iff_exists'.mp hsome
    refine hkeep init (hinit.trans hi) ?_ j ((congrArg Life.parent (hlives j)).trans hpar)
    rintro rfl
    exact hother hi
  · refine hend _ c held hh h₁.tables.adopt (fun j => ?_) (fun j => ?_) fun j => ?_
    · rw [wakeProc_life, adopt_life hne, hlives, ← hinit, hi]
    · rw [wakeProc_ofile, adopt_ofile]
    · obtain ⟨st, hst⟩ := @wakeProc_state (some (.proc init)) ((k₁.procs j).adopt i init)
      obtain ⟨q, hq⟩ := @adopt_eq i init (k₁.procs j)
      rw [hst, hq]
      exact ⟨_, _, rfl⟩

end ToyOs
