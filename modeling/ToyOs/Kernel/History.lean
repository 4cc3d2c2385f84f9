import ToyOs.Kernel.Run

/-!
Runs with what happened in them. A history lists the events of a run from boot
on, one for each step; every reachable kernel has one. The events say which
transfers have not come to their end, and these are the ones that processes
will go on with.
-/
namespace ToyOs

open Bytes Function

variable {M : Machine} {k k' : Kernel} {es : List Event} {e : Event} {i : ProcRef}

/-- The kernel is reached by a run with the events `es`. -/
inductive History (M : Machine) : List Event → Kernel → Prop
  | boot {i : ProcRef} {k : Kernel} (h : Boots M i k) : History M [] k
  | step {es : List Event} {e : Event} {k k' : Kernel} (h : History M es k) (hs : Step M k k')
      (hc : Change k e k') : History M (es ++ [e]) k'

theorem History.reachable (h : History M es k) : Reachable M k := by
  induction h with
  | boot h => exact .boot h
  | step _ hs _ ih => exact .step ih hs

theorem History.sound (h : History M es k) : Sound k := h.reachable.sound

theorem Reachable.history (h : Reachable M k) : ∃ es, History M es k := by
  induction h with
  | boot h => exact ⟨[], .boot h⟩
  | step hr hs ih =>
    obtain ⟨es, hes⟩ := ih
    obtain ⟨-, e, hc⟩ := hr.sound.step hs
    exact ⟨es ++ [e], .step hes hs hc⟩

section Jobs

variable {cur : Option ProcRef} {r : Result} {j : ProcRef} {q q' : Process}

/-- A transfer that a process is in the middle of: a write to a pipe with the
number of bytes that are stored, or a read of the console with those it has. -/
inductive Job
  | write (p : PipeRef) (src : List UInt8) (n : ℕ)
  | read (got : List UInt8) (cap : ℕ)
  deriving DecidableEq

def Cont.job : Cont → Option Job
  | .pipeWrite p src n => some (.write p src n)
  | .consoleRead got cap _ => some (.read got cap)
  | _ => none

def Process.job (q : Process) : Option Job :=
  if q.state.status = .alive then q.cont.job else none

/-- The transfer that a process that does not run will go on with. -/
def Kernel.parkedJob (k : Kernel) (i : ProcRef) : Option Job :=
  if k.cpu.proc = some i then none else (k.procs i).job

/-- The transfer of a process after an event. -/
def Event.job (i : ProcRef) (o : Option Job) : Event → Option Job
  | .put j p src _ m => if j = i then (if m < src.length then some (.write p src m) else none) else o
  | .refused j _ => if j = i then none else o
  | .lineGot j _ _ _ _ => if j = i then none else o
  | .lineDry j cap _ more => if j = i then some (.read more cap) else o
  | _ => o

/-- The transfer that a process has not finished, by the events. -/
def pendingJob (i : ProcRef) (es : List Event) : Option Job := es.foldl (fun o e => e.job i o) none

theorem job_congr (hlife : q'.life = q.life) (hcont : q'.cont = q.cont) : q'.job = q.job := by
  have hstatus : q'.state.status = q.state.status := congrArg Life.status hlife
  simp only [Process.job, hstatus, hcont]

theorem job_of_status (h : q.state.status ≠ .alive) : q.job = none := if_neg h

theorem job_forkret (h : q.cont = .forkret) : q.job = none := by
  simp only [Process.job, h, Cont.job, ite_self]

theorem parkedJob_of_runnable (hcur : k.cpu.proc = none) (hstate : (k.procs i).state = .runnable) :
    k.parkedJob i = (k.procs i).cont.job := by
  simp only [Kernel.parkedJob, hcur, Process.job, hstate, ProcState.status, reduceCtorEq, if_false,
    if_true]

theorem Woken.job (h : Woken k k') (j : ProcRef) : (k'.procs j).job = (k.procs j).job := by
  obtain ⟨st, hst⟩ := h.procs j
  apply job_congr (congrFun h.lives j)
  rw [hst]

theorem Dozing.job_other {cont : Cont} (h : Dozing i cont k k') (hj : j ≠ i) :
    (k'.procs j).job = (k.procs j).job := by
  obtain ⟨ch, b, hw⟩ := h.woken
  rw [hw.job j]
  simp only [update_of_ne hj]

theorem Dozing.job_self {cont : Cont} (h : Dozing i cont k k') : (k'.procs i).job = cont.job := by
  obtain ⟨ch, b, hw⟩ := h.woken
  rw [hw.job i]
  simp only [update_self, Process.job, ProcState.status, if_true]

theorem Reaped.job_other {c : ProcRef} {va : ℕ} (h : Reaped i c va k k') (j : ProcRef) :
    (k'.procs j).job = (k.procs j).job := by
  rw [h.procs]
  by_cases hj : j = c
  · subst hj
    have hz : (k.procs j).state.status ≠ .alive := by
      rw [h.zombie]
      decide
    have hreset : (k.procs j).reset.state.status ≠ .alive := Status.noConfusion
    rw [update_self, job_of_status hz, job_of_status hreset]
  · rw [update_of_ne hj]

/-- The other processes stay in the middle of their transfers. -/
theorem Exited.job_other {code : ℤ} (h : Exited i code k k') (hj : j ≠ i) :
    (k'.procs j).job = (k.procs j).job := by
  have hstatus : (k'.procs j).state.status = (k.procs j).state.status := by
    have hlife := congrArg Life.status (h.others j hj)
    rw [Life.adopt_status] at hlife
    exact hlife
  simp only [Process.job, hstatus, h.cont j hj]

theorem Exited.job_self {code : ℤ} (h : Exited i code k k') : (k'.procs i).job = none := by
  have hstatus : (k'.procs i).state.status = .zombie := congrArg Life.status h.own
  refine job_of_status ?_
  rw [hstatus]
  decide

theorem Effect.job_other (he : Effect i k r e k') (hj : j ≠ i) :
    (k'.procs j).job = (k.procs j).job := by
  cases he with
  | quiet hv hl => rw [hl.others j hj]
  | undone hnum hn =>
    obtain ⟨st, hst⟩ := hn.procs j
    apply job_congr (congrFun hn.lives j)
    rw [hst]
  | opened hnum ho =>
    rw [ho.procs]
    simp only [Kernel.setFd, update_of_ne hj]
  | dupped hnum hf hd =>
    obtain ⟨c, held, heq⟩ := hd.eq
    rw [heq]
    simp only [Kernel.setFd, update_of_ne hj]
  | closed hnum harg hfd hc =>
    obtain ⟨st, hst⟩ := hc.procs j
    apply job_congr (congrFun (congrArg Obs.lives (hc.obs.trans setFd_obs)) j)
    rw [hst]
    simp only [Kernel.setFd, update_of_ne hj]
  | piped hnum hp =>
    obtain ⟨c, held, heq⟩ := hp.eq
    rw [heq]
    simp only [Kernel.setFd, update_of_ne hj]
  | @forked c _ hnum hf =>
    by_cases hjc : j = c
    · subst hjc
      rw [job_forkret hf.cont]
      refine (job_of_status ?_).symm
      rw [hf.free]
      decide
    · rw [hf.others j hjc]
  | unforked hnum hn =>
    rcases hn.cause with ⟨-, hsame, -⟩ | ⟨c, p, hfree, hp, heq, -⟩
    · rw [hsame]
    · rw [heq]
      by_cases hjc : j = c
      · subst hjc
        rw [update_self, job_of_status (by rw [hp.state]; decide),
          job_of_status (by rw [hfree]; decide)]
      · rw [update_of_ne hjc]
  | exited hnum hx => exact hx.job_other hj

theorem Resumed.job_other {cont : Cont} (he : Resumed i k cont r e k') (hj : j ≠ i) :
    (k'.procs j).job = (k.procs j).job := by
  cases he with
  | childless hnone htf hl => rw [hl.others j hj]
  | reaped hr => exact hr.job_other j
  | waiting hd => exact hd.job_other hj
  | pipeGot hcap hend hg hcopy => exact hg.woken.job j
  | pipeDry hcap hend hd => exact hd.dozing.job_other hj
  | pipePut hend hn hp => exact hp.woken.job j
  | pipeShut hend hshut hw => exact hw.job j
  | pipeFull hend hf => exact hf.dozing.job_other hj
  | lineGot hcap hg hcopy => exact hg.woken.job j
  | lineDry hcap hd => exact hd.dozing.job_other hj

/-- The events of a transfer are about the process that makes it. -/
theorem Resumed.event_other {cont : Cont} (he : Resumed i k cont r e k') (hj : j ≠ i)
    (o : Option Job) : e.job j o = o := by
  cases he with
  | pipePut | pipeFull | pipeShut | lineGot | lineDry => exact if_neg hj.symm
  | _ => rfl

theorem Effect.event (he : Effect i k r e k') (o : Option Job) : e.job j o = o := by
  cases he <;> rfl

/-- A call that returns has finished its transfer, and one that sleeps goes on
with what is left of it. -/
theorem Resumed.job_self {cont : Cont} {o : Option Job} (he : Resumed i k cont r e k')
    (ho : o = none ∨ o = cont.job) :
    (if r.cur i = some i then none else (k'.procs i).job) = e.job i o := by
  cases he with
  | childless | reaped | pipeGot =>
    obtain rfl := (or_self_iff.mp ho : o = none)
    exact if_pos rfl
  | waiting hd =>
    obtain rfl := (or_self_iff.mp ho : o = none)
    exact hd.job_self
  | pipeDry hcap hend hd =>
    obtain rfl := (or_self_iff.mp ho : o = none)
    exact hd.dozing.job_self
  | lineGot hcap hg hcopy => simp [Event.job, Outcome.cur]
  | pipePut hend hn hp => simp [Event.job, Outcome.cur]
  | pipeShut hend hshut hw => simp [Event.job, Outcome.cur]
  | pipeFull hend hf =>
    simp only [Event.job, if_true, if_pos hf.lt]
    exact hf.dozing.job_self
  | lineDry hcap hd =>
    simp only [Event.job, if_true]
    exact hd.dozing.job_self

/-- A transfer starts, or goes on with what is left of it. -/
theorem Proceeds.job {cont : Cont} {k₁ : Kernel} (h : Proceeds i cont k k₁) :
    k.parkedJob i = none ∨ k.parkedJob i = cont.job := by
  cases h with
  | begun hcur hb => exact .inl (if_pos hcur)
  | goesOn hcur hstate hcont hs hram => exact .inr (hcont ▸ parkedJob_of_runnable hcur hstate)

theorem Change.job (hc : Change k e k') (j : ProcRef) :
    k'.parkedJob j = e.job j (k.parkedJob j) := by
  have hcur_ne : ∀ {i : ProcRef} {r : Result}, j ≠ i → r.cur i ≠ some j := by
    intro i r hj hr
    cases r with
    | blocked => cases hr
    | done v => exact hj (Option.some.inj hr).symm
  cases hc with
  | idle hs hcur' =>
    simp only [Kernel.parkedJob, hcur', hs.procs]
    rfl
  | received hr hw hcur' =>
    simp only [Kernel.parkedJob, hcur', hw.job j]
    rfl
  | @yielded i b _ hcur hs hcur' =>
    simp only [Kernel.parkedJob, hcur', hs.procs, hcur, reduceCtorEq, if_false, Option.some.injEq]
    by_cases hj : j = i
    · subst hj
      simp only [update_self, Process.job, Cont.job, ite_self, if_true, Event.job]
    · rw [update_of_ne hj, if_neg (Ne.symm hj)]
      rfl
  | @called i _ _ r e k₂ _ hcur he hend =>
    simp only [Kernel.parkedJob, hend.cur, hcur, hend.same.procs, Option.some.injEq, he.event]
    by_cases hj : j = i
    · subst hj
      rw [if_pos rfl]
      cases he with
      | exited hnum hx => exact (if_neg nofun).trans hx.job_self
      | _ => exact if_pos rfl
    · rw [if_neg (hcur_ne hj), if_neg (Ne.symm hj), he.job_other hj]
      rfl
  | @killed i k₁ _ hcur h₁ hx hcur' =>
    simp only [Kernel.parkedJob, hcur', hcur, reduceCtorEq, if_false, Option.some.injEq]
    by_cases hj : j = i
    · subst hj
      rw [if_pos rfl, hx.job_self]
      rfl
    · rw [if_neg (Ne.symm hj), hx.job_other hj, h₁.procs]
      rfl
  | @entered i _ hcur hstate hcont hs hcur' =>
    simp only [Kernel.parkedJob, hcur', hcur, hs.procs, reduceCtorEq, if_false, Option.some.injEq]
    by_cases hj : j = i
    · subst hj
      have hnone : (k.procs j).job = none := by
        rcases hcont with hc | hc
        · simp only [Process.job, hc, Cont.job, ite_self]
        · simp only [Process.job, hc, Cont.job, ite_self]
      rw [if_pos rfl, hnone]
      rfl
    · rw [if_neg (Ne.symm hj), update_of_ne hj]
      rfl
  | @moved i cont e _ hm =>
    obtain ⟨hp, he, hend⟩ := hm
    by_cases hj : j = i
    · subst hj
      rw [← he.job_self hp.job]
      simp only [Kernel.parkedJob, hend.cur, hend.same.procs]
    · have hcur : k.cpu.proc ≠ some j := by
        cases hp with
        | begun hcur hb => exact fun h => hj (Option.some.inj (h.symm.trans hcur))
        | goesOn hcur => exact fun h => nomatch h.symm.trans hcur
      obtain ⟨st, ch, hs⟩ := hp.same
      simp only [Kernel.parkedJob, hend.cur, if_neg (hcur_ne hj), if_neg hcur, he.event_other hj,
        hend.same.procs, he.job_other hj, hs.procs, update_of_ne hj]

theorem History.job (h : History M es k) (j : ProcRef) : k.parkedJob j = pendingJob j es := by
  induction h with
  | @boot i k hb =>
    have hs := hb.started
    have hnone : (k.procs j).job = none := by
      by_cases hj : j = i
      · rw [hj, job_forkret hs.cont]
      · rw [hs.others j hj]
        rfl
    simp only [Kernel.parkedJob, hnone, ite_self]
    rfl
  | step hr hs hc ih =>
    rw [hc.job j, ih, pendingJob, pendingJob, List.foldl_append]
    rfl

end Jobs

section Returns

variable {tf : ℕ} {o : Option Unit} {bytes : List UInt8}

theorem Woken.trapframe (h : Woken k k') (i : ProcRef) :
    (k'.procs i).trapframe = (k.procs i).trapframe := by
  obtain ⟨st, hst⟩ := h.procs i
  rw [hst]

/-- A read returns the number of bytes once they were copied out, and otherwise
fails. -/
theorem Returned.read (h : Returned i tf (.done (readResult o bytes)) k')
    (htf : (k'.procs i).trapframe = tf) :
    load 8 k'.ram.mem (tf + tfA0) = if o.isSome then bytes.length % 2 ^ 64 else 2 ^ 64 - 1 := by
  cases o with
  | none => exact h _ rfl htf
  | some u =>
    rw [h _ rfl htf, Option.isSome_some, if_pos rfl]
    omega

/-- A piece of a read has copied the bytes out to `va`, if that was allowed, and
then written to nothing but the trap frame. -/
def CopiedOut (i : ProcRef) (cont : Cont) (va : ℕ) (bytes : List UInt8) (c : Bool) (k k' : Kernel) : Prop :=
  ∃ k₁ o r, Proceeds i cont k k₁ ∧ copyout (k.procs i).pagetable va bytes k₁.ram = .ok (o, r) ∧
    o.isSome = c ∧ AgreeOff {(k.procs i).trapframe} r.mem k'.ram.mem

theorem Ends.copiedOut {cont : Cont} {res : Result} {k₁ k₂ : Kernel} {va : ℕ} {r : Ram}
    (h : Ends i res k { k₂ with ram := r } k') (hp : Proceeds i cont k k₁)
    (hcopy : copyout (k₁.procs i).pagetable va bytes k₁.ram = .ok (o, r))
    (htf : (k₂.procs i).trapframe = (k₁.procs i).trapframe) :
    CopiedOut i cont va bytes o.isSome k k' := by
  obtain ⟨st, ch, hs⟩ := hp.same
  simp only [hs.procs, update_self] at hcopy htf
  exact ⟨k₁, o, r, hp, hcopy, rfl, h.memory htf⟩

/-- The process sleeps in the middle of its call. -/
structure Asleep (i : ProcRef) (cont : Cont) (k : Kernel) : Prop where
  cur : k.cpu.proc = none
  state : (k.procs i).state = .sleeping
  cont : (k.procs i).cont = cont

theorem Ends.asleep {cont : Cont} {k₁ k₂ : Kernel} (h : Ends i .blocked k k₂ k')
    (hd : Dozing i cont k₁ k₂) : Asleep i cont k' := by
  refine ⟨h.cur, ?_, ?_⟩
  · rw [h.same.procs]
    exact hd.asleep
  · obtain ⟨ch, b, hw⟩ := hd.woken
    obtain ⟨st, hst⟩ := hw.procs i
    rw [h.same.procs, hst]
    simp only [update_self]

end Returns

end ToyOs
