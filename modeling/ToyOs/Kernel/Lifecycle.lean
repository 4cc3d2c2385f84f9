import ToyOs.Kernel.Lives

/-!
The process table follows the family. Each step of the kernel changes the
lives of processes as its event says, so in every run the table is what the
events have made of the first process.
-/
namespace ToyOs

open Bytes Function List

variable {M : Machine} {k k' : Kernel} {es : List Event} {e : Event} {i init : ProcRef}
  {cont : Cont}

section Steps

variable {r : Result}

/-- What a step does to the lives. -/
structure LifeStep (init : ProcRef) (k : Kernel) (e : Event) (k' : Kernel) : Prop where
  fits : e.Fits k.obs.lives
  lives : k'.obs.lives = e.lives init k.obs.lives
  initproc : k'.initproc = k.initproc
  fresh : ∀ i c pid, e = .forked i c pid → pid = k.nextPid ∧ k'.nextPid = (pid + 1) % usizeSize
  nextPid : k'.nextPid = k.nextPid ∨ k'.nextPid = (k.nextPid + 1) % usizeSize

/-- The event is none of `fork`, `exit` and `wait`. -/
def Event.Still : Event → Prop
  | .forked .. | .exited .. | .reaped .. => False
  | _ => True

theorem LifeStep.same (he : e.Still) (hl : k'.obs.lives = k.obs.lives) (hi : k'.initproc = k.initproc)
    (hn : k'.nextPid = k.nextPid) : LifeStep init k e k' := by
  cases e with
  | forked | exited | reaped => exact he.elim
  | _ => exact ⟨trivial, hl, hi, fun _ _ _ he => Event.noConfusion he, .inl hn⟩

theorem lives_congr (h : k'.procs = k.procs) : k'.obs.lives = k.obs.lives := by
  simp only [Kernel.obs, h]

theorem Woken.lifeStep {k₀ : Kernel} (h : Woken k₀ k') (hp : k₀.procs = k.procs)
    (hi : k₀.initproc = k.initproc) (hn : k₀.nextPid = k.nextPid) (he : e.Still) :
    LifeStep init k e k' :=
  .same he (h.lives.trans (lives_congr hp)) (h.initproc.trans hi) (h.nextPid.trans hn)

theorem Dozing.lifeStep {k₀ : Kernel} (h : Dozing i cont k₀ k') (hp : k₀.procs = k.procs)
    (hi : k₀.initproc = k.initproc) (hn : k₀.nextPid = k.nextPid)
    (hrun : (k.procs i).state.status = .alive) (he : e.Still) : LifeStep init k e k' := by
  obtain ⟨ch, b, hw⟩ := h.woken
  refine .same he (hw.lives.trans ?_) (hw.initproc.trans hi) (hw.nextPid.trans hn)
  change (fun j => (update k₀.procs i _ j).life) = _
  rw [hp]
  refine life_update ?_
  simp only [Process.life, hrun]
  rfl

theorem Reaped.lifeStep {c : ProcRef} {va : ℕ} (h : Reaped i c va k k')
    (hrun : (k.procs i).state.status = .alive) :
    LifeStep init k (.reaped i c (k.procs c).pid (k.procs c).xstate) k' := by
  refine ⟨⟨hrun, ?_⟩, ?_, h.initproc, fun _ _ _ he => Event.noConfusion he, .inl h.nextPid⟩
  · change Life.mk _ _ _ _ = _
    rw [h.zombie, h.parent]
    rfl
  · funext j
    change (k'.procs j).life = _
    rw [h.procs]
    simp only [Event.lives, update_apply]
    split_ifs <;> rfl

theorem Local.lifeStep (h : Local i k k') : LifeStep init k .silent k' := by
  refine .same trivial ?_ h.initproc h.nextPid
  funext j
  change (k'.procs j).life = (k.procs j).life
  by_cases hj : j = i
  · rw [hj, h.life]
  · rw [h.others j hj]

theorem Forked.lifeStep {c : ProcRef} (h : Forked i c k k') (hrun : (k.procs i).state.status = .alive) :
    LifeStep init k (.forked i c k.nextPid) k' := by
  refine ⟨⟨hrun, ?_⟩, ?_, h.initproc, ?_, .inr h.nextPid⟩
  · exact congrArg ProcState.status h.free
  · funext j
    change (k'.procs j).life = _
    simp only [Event.lives]
    by_cases hj : j = c
    · rw [hj, update_self, h.life]
    · rw [update_of_ne hj, h.others j hj]
      rfl
  · rintro i' c' pid he
    cases he
    exact ⟨rfl, h.nextPid⟩

theorem Unforked.lifeStep (h : Unforked k k') (hk : Kin init k.obs.lives) :
    LifeStep init k .silent k' := by
  rcases h.cause with ⟨-, hsame, hn⟩ | ⟨c, p, hfree, hp, heq, hn⟩
  · exact .same trivial (lives_congr hsame) h.initproc hn
  · refine ⟨trivial, ?_, h.initproc, fun _ _ _ he => Event.noConfusion he, .inr hn⟩
    refine (lives_congr (k := { k with procs := update k.procs c p }) heq).trans (life_update ?_)
    rw [hp.life]
    exact (hk.vacant c (congrArg ProcState.status hfree)).symm

theorem Exited.lifeStep {code : ℤ} (h : Exited i code k k') (hinit : k.initproc = some init)
    (hrun : (k.procs i).state.status = .alive) : LifeStep init k (.exited i code) k' := by
  refine ⟨hrun, ?_, h.initproc, fun _ _ _ he => Event.noConfusion he, .inl h.nextPid⟩
  funext j
  simp only [Event.lives]
  by_cases hj : j = i
  · rw [hj, if_pos rfl, h.own, hinit]
  · rw [if_neg hj, h.others j hj, hinit]

theorem Effect.lifeStep (he : Effect i k r e k') (hinit : k.initproc = some init)
    (hk : Kin init k.obs.lives) (hrun : (k.procs i).state.status = .alive) : LifeStep init k e k' := by
  cases he with
  | quiet hv hl => exact hl.lifeStep
  | undone hnum hn => exact .same trivial hn.lives hn.rest.2.2 hn.rest.2.1
  | opened hnum ho =>
    refine .same trivial ((lives_congr ho.procs).trans ?_) ho.initproc ho.nextPid
    rw [setFd_obs]
  | dupped hnum hf hd =>
    obtain ⟨c, held, heq⟩ := hd.eq
    subst heq
    refine .same trivial ((lives_congr (k := k.setFd i _ _) rfl).trans ?_) rfl rfl
    rw [setFd_obs]
  | closed hnum harg hfd hc =>
    have hobs := hc.obs.trans setFd_obs
    exact .same trivial (congrArg Obs.lives hobs) (congrArg Obs.initproc hobs)
      (congrArg Obs.nextPid hobs)
  | piped hnum hp =>
    obtain ⟨c, held, heq⟩ := hp.eq
    rw [heq]
    refine .same trivial ((lives_congr (k := (k.setFd i _ _).setFd i _ _) rfl).trans ?_) rfl rfl
    rw [setFd_obs, setFd_obs]
  | forked hnum hf => exact hf.lifeStep hrun
  | unforked hnum hn => exact hn.lifeStep hk
  | exited hnum hx => exact hx.lifeStep hinit hrun

theorem Resumed.lifeStep (he : Resumed i k cont r e k') (hrun : (k.procs i).state.status = .alive) :
    LifeStep init k e k' := by
  cases he with
  | childless hnone htf hl => exact hl.lifeStep
  | reaped hr => exact hr.lifeStep hrun
  | waiting hd => exact hd.lifeStep rfl rfl rfl hrun trivial
  | pipeGot hcap hend hg hcopy => exact .same trivial hg.woken.lives hg.woken.initproc hg.woken.nextPid
  | pipeDry hcap hend hd => exact hd.dozing.lifeStep rfl rfl rfl hrun trivial
  | pipePut hend hn hp => exact hp.woken.lifeStep rfl rfl rfl trivial
  | pipeShut hend hshut hw => exact hw.lifeStep rfl rfl rfl trivial
  | pipeFull hend hf => exact hf.dozing.lifeStep rfl rfl rfl hrun trivial
  | lineGot hcap hg hcopy => exact .same trivial hg.woken.lives hg.woken.initproc hg.woken.nextPid
  | lineDry hcap hd => exact hd.dozing.lifeStep rfl rfl rfl hrun trivial

theorem SameTables.lives (h : SameTables k k') : k'.obs.lives = k.obs.lives := by
  simp only [Kernel.obs, h.procs]

theorem LifeStep.congr {k₁ k₂ : Kernel} (h : LifeStep init k₁ e k₂) (hl : k₁.obs.lives = k.obs.lives)
    (hi : k₁.initproc = k.initproc) (hn : k₁.nextPid = k.nextPid) (h₂ : SameTables k₂ k') :
    LifeStep init k e k' := by
  obtain ⟨hfits, hlives, hip, hfresh, hnext⟩ := h
  rw [hl] at hfits hlives
  rw [hn] at hnext
  refine ⟨hfits, h₂.lives.trans hlives, h₂.initproc.trans (hip.trans hi), ?_, ?_⟩
  · intro i c pid he
    rw [h₂.nextPid, ← hn]
    exact hfresh i c pid he
  · rw [h₂.nextPid]
    exact hnext

theorem Sound.alive (h : Sound k) (hcur : k.cpu.proc = some i) : (k.procs i).state.status = .alive := by
  rw [(h.steady.tables.running i).mpr hcur]
  rfl

/-- A transfer is made by a process that lives. -/
theorem Proceeds.alive {k₁ : Kernel} (h : Proceeds i cont k k₁) (hk : Sound k) :
    (k.procs i).state.status = .alive ∧ (k₁.procs i).state.status = .alive := by
  cases h with
  | begun hcur hb => exact ⟨hk.alive hcur, hk.alive hcur⟩
  | goesOn hcur hstate hcont hs hram =>
    rw [hs.procs, hstate]
    simp only [Kernel.goesOn, update_self]
    exact ⟨rfl, rfl⟩

/-- A step of the kernel is a step of the family. -/
theorem Change.lifeStep (hc : Change k e k') (h : Sound k) (hinit : k.initproc = some init)
    (hk : Kin init k.obs.lives) : LifeStep init k e k' := by
  cases hc with
  | idle hs => exact .same trivial hs.lives hs.initproc hs.nextPid
  | received hr hw => exact .same trivial hw.lives hw.initproc hw.nextPid
  | @yielded i b _ hcur hs =>
    refine .same trivial (hs.lives.trans (life_update ?_)) hs.initproc hs.nextPid
    simp only [Process.life, h.alive hcur]
    rfl
  | called hcur he hend => exact (he.lifeStep hinit hk (h.alive hcur)).congr rfl rfl rfl hend.same
  | killed hcur hs hx =>
    refine LifeStep.congr (hx.lifeStep (hs.initproc.trans hinit) ?_) hs.lives hs.initproc hs.nextPid (.refl _)
    rw [hs.procs]
    exact h.alive hcur
  | @entered i _ hcur hstate hcont hs =>
    refine .same trivial (hs.lives.trans (life_update ?_)) hs.initproc hs.nextPid
    simp only [Process.life, ProcState.status, hstate]
  | @moved i _ _ _ hm =>
    obtain ⟨hp, he, hend⟩ := hm
    obtain ⟨halive, halive₁⟩ := hp.alive h
    obtain ⟨st, ch, hs⟩ := hp.same
    have hst : st.status = .alive := by
      rw [hs.procs] at halive₁
      simpa only [update_self] using halive₁
    refine (he.lifeStep halive₁).congr (hs.lives.trans (life_update ?_)) hs.initproc hs.nextPid hend.same
    simp only [Process.life, halive, hst]

end Steps

section Runs

/-- The table is what the events have made of the first process. -/
theorem History.lives (h : History M es k) : ∃ init, k.initproc = some init ∧
    k.obs.lives = livesOf init es ∧ Kin init k.obs.lives := by
  induction h with
  | @boot i k hb =>
    have hs := hb.started
    have hfirst : k.obs.lives = firstLives i := by
      funext j
      change (k.procs j).life = _
      by_cases hj : j = i
      · rw [hj, hs.life, firstLives, update_self]
      · rw [hs.others j hj, firstLives, update_of_ne hj]
        rfl
    refine ⟨i, hs.initproc, hfirst, ?_⟩
    rw [hfirst]
    exact kin_first
  | step hr hs hc ih =>
    obtain ⟨init, hinit, hlives, hk⟩ := ih
    have hstep := hc.lifeStep hr.sound hinit hk
    refine ⟨init, hstep.initproc.trans hinit, ?_, ?_⟩
    · rw [hstep.lives, hlives, livesOf, livesOf, foldl_append]
      rfl
    · rw [hstep.lives]
      exact hk.step hstep.fits

/-- As long as the numbers of processes have not run out they only grow. -/
theorem History.numbered (h : History M es k) (hlen : es.length + 2 < usizeSize) :
    k.nextPid ≤ es.length + 2 ∧ ∀ init, k.initproc = some init → Numbered init k.nextPid k.obs.lives := by
  induction h with
  | boot hb =>
    have hs := hb.started
    refine ⟨hs.nextPid.le, fun init hinit => ?_⟩
    obtain ⟨init', hinit', hlives, -⟩ := (History.boot hb).lives
    rw [hinit] at hinit'
    obtain rfl := Option.some.inj hinit'
    rw [hlives, hs.nextPid]
    exact numbered_first
  | @step es e k k' hr hs hc ih =>
    rw [length_append, length_singleton] at hlen
    obtain ⟨hle, hnum⟩ := ih (by omega)
    obtain ⟨init, hinit, -, hk⟩ := hr.lives
    have hstep := hc.lifeStep hr.sound hinit hk
    have hmod : (k.nextPid + 1) % usizeSize = k.nextPid + 1 := Nat.mod_eq_of_lt (by omega)
    have hnext := hstep.nextPid
    rw [hmod] at hnext
    refine ⟨?_, fun init' hinit' => ?_⟩
    · rw [length_append, length_singleton]
      omega
    · rw [hstep.initproc, hinit] at hinit'
      obtain rfl := Option.some.inj hinit'
      have hfresh : ∀ i c pid, e = .forked i c pid → pid = k.nextPid :=
        fun i c pid he => (hstep.fresh i c pid he).1
      rw [hstep.lives]
      refine ((hnum init hinit).step hk hstep.fits hfresh).mono ?_
      cases e with
      | forked i c pid =>
        obtain ⟨rfl, hn⟩ := hstep.fresh i c pid rfl
        rw [hn, hmod]
        exact le_refl _
      | _ =>
        change k.nextPid ≤ _
        omega

end Runs

section Results

variable {r : Result} {c j : ProcRef} {pid va : ℕ}

/-- The event gives its process the number of another one. -/
def Event.Gives (i : ProcRef) (pid : ℕ) (e : Event) : Prop :=
  ∃ c, e = .forked i c pid ∨ ∃ code, e = .reaped i c pid code

theorem Reaped.trapframe (h : Reaped i c va k k') (hrun : (k.procs i).state.status = .alive) :
    (k'.procs i).trapframe = (k.procs i).trapframe := by
  have hne : i ≠ c := by
    rintro rfl
    rw [h.zombie] at hrun
    cases hrun
  rw [h.procs, update_of_ne hne]

theorem Effect.gives (he : Effect i k r e k') (hrun : (k.procs i).state.status = .alive)
    (hg : e.Gives j pid) :
    j = i ∧ r = Result.ret pid ∧ (k'.procs i).trapframe = (k.procs i).trapframe := by
  obtain ⟨c, rfl | ⟨code, rfl⟩⟩ := hg
  · cases he with
    | forked hnum hf =>
      have hne : i ≠ c := by
        rintro rfl
        rw [hf.free] at hrun
        cases hrun
      rw [hf.others i hne]
      exact ⟨rfl, rfl, rfl⟩
  · cases he

theorem Resumed.gives (he : Resumed i k cont r e k') (hrun : (k.procs i).state.status = .alive)
    (hg : e.Gives j pid) :
    j = i ∧ r = Result.ret pid ∧ (k'.procs i).trapframe = (k.procs i).trapframe := by
  obtain ⟨c, rfl | ⟨code, rfl⟩⟩ := hg
  · cases he
  · cases he with
    | reaped hr => exact ⟨rfl, rfl, hr.trapframe hrun⟩

/-- The number is what the call returns. -/
theorem Change.gives (hc : Change k e k') (h : Sound k) (hg : e.Gives j pid) :
    load 8 k'.ram.mem ((k.procs j).trapframe + tfA0) = pid % 2 ^ 64 := by
  have hval : ∀ {r : Result} {k₂ : Kernel}, Ends j r k k₂ k' → r = Result.ret pid →
      (k₂.procs j).trapframe = (k.procs j).trapframe →
      load 8 k'.ram.mem ((k.procs j).trapframe + tfA0) = pid % 2 ^ 64 := by
    intro r k₂ hend hr htf
    rw [← hend.same.procs] at htf
    rw [hend.returned pid hr htf]
    omega
  cases hc with
  | called hcur he hend =>
    obtain ⟨rfl, hr, htf⟩ := he.gives (h.alive hcur) hg
    exact hval hend hr htf
  | moved hm =>
    obtain ⟨hp, he, hend⟩ := hm
    obtain ⟨rfl, hr, htf⟩ := he.gives (hp.alive h).2 hg
    obtain ⟨st, ch, hs⟩ := hp.same
    refine hval hend hr (htf.trans ?_)
    simp only [hs.procs, update_self]
  | _ => obtain ⟨c, he | ⟨code, he⟩⟩ := hg <;> cases he

/-- What a call of `fork` comes to: a child in a free slot, or a failure that
leaves every life as it was. -/
inductive ForkStep (i : ProcRef) (k k' : Kernel) : Prop
  | child {c : ProcRef} (hc : Change k (.forked i c k.nextPid) k')
      (hret : load 8 k'.ram.mem ((k.procs i).trapframe + tfA0) = k.nextPid % 2 ^ 64)
  | failed (hc : Change k .silent k') (hfull : (∀ c, (k.procs c).state ≠ .unused) ∨
        k'.nextPid = (k.nextPid + 1) % usizeSize)
      (hret : load 8 k'.ram.mem ((k.procs i).trapframe + tfA0) = 2 ^ 64 - 1)

/-- What a piece of a call of `wait` comes to: the status of the zombie child in
the lowest slot is stored and its pages are freed, or there is none and the
process sleeps, or it has no child. -/
inductive WaitStep (i : ProcRef) (va : ℕ) (k k' : Kernel) : Prop
  | reaped {c : ProcRef} {k₁ : Kernel} {L : Layout} {r s : Ram} (hz : FirstZombie i c k)
      (hc : Change k (.reaped i c (k.procs c).pid (k.procs c).xstate) k')
      (hp : Proceeds i (.wait va) k k₁) (hstored : StatusStored i c va k₁ r)
      (hfreed : freePages L (k.procs c) r = .ok ((), s))
      (hmem : AgreeOff {(k.procs i).trapframe} s.mem k'.ram.mem)
      (hret : load 8 k'.ram.mem ((k.procs i).trapframe + tfA0) = (k.procs c).pid % 2 ^ 64)
  | asleep (hc : Change k .silent k') (h : Asleep i (.wait va) k')
  | childless (hc : Change k .silent k') (hnone : ∀ j, (k.procs j).parent ≠ some i)
      (hret : load 8 k'.ram.mem ((k.procs i).trapframe + tfA0) = 2 ^ 64 - 1)

/-- A call that fails returns -1. -/
theorem Ends.failed {k₂ : Kernel} (h : Ends i Result.err k k₂ k')
    (htf : (k₂.procs i).trapframe = (k.procs i).trapframe) :
    load 8 k'.ram.mem ((k.procs i).trapframe + tfA0) = 2 ^ 64 - 1 := by
  rw [← h.same.procs] at htf
  exact h.returned _ rfl htf

theorem Inert.sysno {v : SyscallResult} (h : Inert i k v) :
    k.sysno i ≠ some .fork ∧ k.sysno i ≠ some .exit := by
  cases h with
  | barred hnum hio => rcases hio with rfl | rfl <;> simp [hnum]
  | failed hnum => rcases hnum with hnum | hnum | hnum <;> simp [hnum]
  | getpid hnum => simp [hnum]
  | other h => constructor <;> rintro hnum <;> simp [hnum] at h

theorem CallStep.fork {regs : Regs} {pc : ℕ} (hs : CallStep i regs pc k k') (h : Sound k)
    (hcur : k.cpu.proc = some i) (hnum : (k.calling i regs pc).sysno i = some .fork) :
    ForkStep i k k' := by
  cases hs with
  | transfer hb => cases hb <;> simp_all
  | effect he hend =>
    have hc : Change k _ k' := .called hcur he hend
    cases he with
    | forked hnum' hf => exact .child hc (hc.gives h ⟨_, .inl rfl⟩)
    | unforked hnum' hn =>
      have hrun := (h.steady.tables.running i).mpr hcur
      rcases hn.cause with ⟨hused, hprocs, -⟩ | ⟨c, p, hfree, -, hprocs, hnext⟩
      · refine .failed hc (.inl hused) (hend.failed ?_)
        rw [hprocs]
        rfl
      · refine .failed hc (.inr (hend.same.nextPid.trans hnext)) (hend.failed ?_)
        have hne : i ≠ c := by
          rintro rfl
          cases hrun.symm.trans hfree
        rw [hprocs, update_of_ne hne]
        rfl
    | quiet hv => exact absurd hnum hv.sysno.1
    | undone hnum' => rcases hnum' with hnum' | hnum' <;> cases hnum.symm.trans hnum'
    | opened hnum' | dupped hnum' | closed hnum' | piped hnum' | exited hnum' =>
      cases hnum.symm.trans hnum'

theorem CallStep.exit {regs : Regs} {pc : ℕ} (hs : CallStep i regs pc k k')
    (hcur : k.cpu.proc = some i) (hnum : (k.calling i regs pc).sysno i = some .exit) :
    Change k (.exited i (toI32 ((k.calling i regs pc).arg i tfA0))) k' := by
  cases hs with
  | transfer hb => cases hb <;> simp_all
  | effect he hend =>
    cases he with
    | exited hnum' hx => exact .called hcur (.exited hnum' hx) hend
    | quiet hv => exact absurd hnum hv.sysno.2
    | undone hnum' => rcases hnum' with hnum' | hnum' <;> cases hnum.symm.trans hnum'
    | opened hnum' | dupped hnum' | closed hnum' | piped hnum' | forked hnum' | unforked hnum' =>
      cases hnum.symm.trans hnum'

/-- The zombies and the parents are those of before the piece of the call. -/
theorem Proceeds.family {k₁ : Kernel} (h : Proceeds i cont k k₁) (j : ProcRef) :
    ∃ st ch, k₁.procs j = { k.procs j with state := st, chan := ch } ∧
      (st = .zombie ↔ (k.procs j).state = .zombie) := by
  cases h with
  | begun hcur hb => exact ⟨_, _, rfl, Iff.rfl⟩
  | goesOn hcur hstate hcont hs hram =>
    rw [hs.procs, Kernel.goesOn]
    by_cases hj : j = i
    · subst hj
      exact ⟨.running, none, update_self .., by simp [hstate]⟩
    · exact ⟨_, _, update_of_ne hj .., Iff.rfl⟩

theorem TransferStep.wait {va : ℕ} (hs : TransferStep M i (.wait va) k k') (h : Sound k) :
    WaitStep i va k k' := by
  obtain ⟨e, htr⟩ := hs.transferred h ⟨nofun, nofun⟩
  have hc : Change k e k' := .moved htr
  obtain @⟨_, k₁, _, hp, he, hend⟩ := htr
  have hparent : ∀ j, (k₁.procs j).parent = (k.procs j).parent := fun j => by
    obtain ⟨st, ch, hj, -⟩ := hp.family j
    rw [hj]
  have hzombie : ∀ j, (k₁.procs j).state = .zombie ↔ (k.procs j).state = .zombie := fun j => by
    obtain ⟨st, ch, hj, hst⟩ := hp.family j
    rw [hj]
    exact hst
  have htf : (k₁.procs i).trapframe = (k.procs i).trapframe := by
    obtain ⟨st, ch, hj, -⟩ := hp.family i
    rw [hj]
  cases he with
  | @reaped c _ _ hr =>
    obtain ⟨L, r, hstored, hfreed⟩ := hr.memory
    have hret := hc.gives h ⟨c, .inr ⟨_, rfl⟩⟩
    have hmem := hend.memory ((hr.trapframe (hp.alive h).2).trans htf)
    obtain ⟨st, ch, hchild, -⟩ := hp.family c
    rw [hchild] at hc hret hfreed
    refine .reaped ⟨(hzombie c).mp hr.zombie, hparent c ▸ hr.parent, fun j hj hpar hzj => ?_⟩ hc hp hstored
      hfreed hmem hret
    exact hr.first j hj ((hparent j).trans hpar) ((hzombie j).mpr hzj)
  | waiting hd => exact .asleep hc (hend.asleep hd)
  | childless hnone htf' hl =>
    exact .childless hc (fun j hj => hnone j ((hparent j).trans hj)) (hend.failed (htf'.trans htf))

/-- The processes form a tree. As long as the run is shorter than the numbers
there are, no two processes have the same number, a parent has a smaller one,
and every process descends from init. -/
theorem family_tree (h : History M es k) (hlen : es.length + 2 < usizeSize) :
    (∀ i j, (k.procs i).state ≠ .unused → (k.procs j).state ≠ .unused →
      (k.procs i).pid = (k.procs j).pid → i = j) ∧
    (∀ i, (k.procs i).state ≠ .unused → (k.procs i).pid < k.nextPid) ∧
    (∀ j p, (k.procs j).parent = some p → (k.procs p).pid < (k.procs j).pid) ∧
    ∀ j, (k.procs j).state ≠ .unused → ∃ init, k.initproc = some init ∧
      Relation.ReflTransGen (fun a b => (k.procs a).parent = some b) j init := by
  obtain ⟨init, hinit, -, hk⟩ := h.lives
  have hnum := (h.numbered hlen).2 init hinit
  have hused : ∀ {j}, (k.procs j).state ≠ .unused → (k.obs.lives j).status ≠ .unused :=
    fun hj hst => hj (ProcState.eq_unused hst)
  refine ⟨fun i j hi hj => hnum.distinct i j (hused hi) (hused hj), fun i hi => hnum.below i (hused hi),
    fun j p hp => ?_, fun j hj => ⟨init, hinit, hnum.descends hk j (hused hj)⟩⟩
  refine hnum.older j p (fun hst => ?_) hp
  have hempty : (k.obs.lives j).parent = none := by
    rw [hk.vacant j hst]
    rfl
  have hparent : (k.obs.lives j).parent = some p := hp
  rw [hempty] at hparent
  cases hparent

theorem family_tree_boot : ∃ i k, Boots smallMachine i k ∧ (k.procs i).pid < k.nextPid := by
  obtain ⟨i, -, k, hboots, -⟩ := exists_boot
  refine ⟨i, k, hboots, (family_tree (.boot hboots) (by decide)).2.1 i ?_⟩
  rw [hboots.started.state]
  exact ProcState.noConfusion

end Results

end ToyOs
