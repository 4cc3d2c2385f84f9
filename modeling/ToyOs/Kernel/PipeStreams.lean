import ToyOs.Kernel.FirstProcess
import ToyOs.Kernel.History
import ToyOs.Lib.Stream

/-!
Pipes as streams. From the call that makes a pipe to the closing of its last
end, the bytes that reads have taken are those that writes have stored, in
their order, but for the bytes the pipe still holds. A write goes on where it
stopped, ends early only when nobody can read, and a read delivers nothing
only when nobody can write any more.
-/
namespace ToyOs

open Bytes Stream Function List

variable {M : Machine} {k k' : Kernel} {es : List Event} {e : Event} {p : PipeRef} {i : ProcRef}

def Event.opens (p : PipeRef) : Event → Bool
  | .piped _ q => q = p
  | _ => false

/-- The bytes that an event adds to the pipe. -/
def Event.stored (p : PipeRef) : Event → List UInt8
  | .put _ q src n m => if q = p then (src.take m).drop n else []
  | _ => []

/-- The bytes that an event takes from the pipe. -/
def Event.taken (p : PipeRef) : Event → List UInt8
  | .got _ q _ bytes _ => if q = p then bytes else []
  | _ => []

/-- The step of the stream of a pipe that is in use afterwards. -/
structure Flows (p : PipeRef) (e : Event) (Pi Pi' : PipeRef → Pipe) : Prop extends
    Moves (Event.opens p) (Event.stored p) (Event.taken p) e (Pi p).queue (Pi' p).queue where
  used : e.opens p = false → (Pi p).used = true

variable {Pi Pi' : PipeRef → Pipe}

theorem queue_contents {q q' : Pipe} (h : q'.contents = q.contents) : q'.queue = q.queue := by
  have hd : q'.data = q.data := congrArg Contents.data h
  have hr : q'.nread = q.nread := congrArg Contents.nread h
  have hw : q'.nwrite = q.nwrite := congrArg Contents.nwrite h
  simp only [Pipe.queue, hd, hr, hw]

/-- Nothing happens to the bytes of the pipe. -/
theorem Flows.kept (he : e.opens p = false) (hin : e.stored p = []) (hout : e.taken p = [])
    (hc : (Pi' p).contents = (Pi p).contents) (hu : (Pi p).used = true) : Flows p e Pi Pi' := by
  refine ⟨⟨fun ho => ?_, fun _ => ?_⟩, fun _ => hu⟩
  · rw [he] at ho
    cases ho
  · rw [hin, hout, queue_contents hc, append_nil, nil_append]

theorem Flows.same (he : e.opens p = false) (hin : e.stored p = []) (hout : e.taken p = [])
    (hp : Pi' p = Pi p) (hu : (Pi' p).used = true) : Flows p e Pi Pi' :=
  .kept he hin hout (by rw [hp]) (by rw [← hp]; exact hu)

section Transfers

variable {cap n m : ℕ} {src got : List UInt8} {q : PipeRef} {c : Bool}

theorem PipeGot.flows (h : PipeGot q cap got k k') (hb : k.Buffers) (hu : (k'.pipes p).used = true) :
    Flows p (.got i q cap got c) k.pipes k'.pipes := by
  have hpipes : k'.pipes = update k.pipes q ((k.pipes q).take got.length) := h.woken.pipes
  rw [hpipes] at hu ⊢
  by_cases hqp : q = p
  · subst hqp
    rw [update_self] at hu
    have hlen : got.length ≤ (k.pipes q).nwrite - (k.pipes q).nread := by
      rw [h.front, ← Pipe.queue_length]
      exact length_take_le' ..
    have htake : (k.pipes q).queue.take got.length = got := by
      conv_rhs => rw [h.front]
      rw [h.front, length_take, take_eq_take_iff]
      omega
    refine ⟨⟨fun ho => absurd ho (by simp [Event.opens]), fun _ => ?_⟩, fun _ => hu⟩
    simp only [Event.stored, Event.taken, if_true, append_nil, update_self]
    have hsplit := Pipe.take_queue (hb.pipes q hu) hlen
    rwa [htake] at hsplit
  · refine .same rfl rfl (if_neg hqp) (update_of_ne (Ne.symm hqp) ..) ?_
    exact hu

theorem Stored.flows (hst : Stored (Pi q) ((src.take m).drop n) (Pi' q))
    (hw : Pi' = update Pi q (Pi' q)) (hu : (Pi' p).used = true) :
    Flows p (.put i q src n m) Pi Pi' := by
  by_cases hqp : q = p
  · subst hqp
    rw [hst.used] at hu
    refine ⟨⟨fun ho => absurd ho (by simp [Event.opens]), fun _ => ?_⟩, fun _ => hu⟩
    simp only [Event.stored, Event.taken, if_true, nil_append]
    exact hst.queue.symm
  · have hp : Pi' p = Pi p := by
      rw [hw, update_of_ne (Ne.symm hqp)]
    exact .same rfl (if_neg hqp) rfl hp hu

theorem PipePut.flows (h : PipePut q src n k k') (hu : (k'.pipes p).used = true) :
    Flows p (.put i q src n src.length) k.pipes k'.pipes := by
  refine Stored.flows ?_ h.woken.pipes hu
  rw [take_length]
  exact h.stored

theorem PipeFull.flows (h : PipeFull i q src n m k k') (hu : (k'.pipes p).used = true) :
    Flows p (.put i q src n m) k.pipes k'.pipes :=
  Stored.flows h.stored h.dozing.pipes hu

theorem Piped.flows {va : ℕ} {r w : FileRef} {rfd wfd : Fin nofile} (h : Piped i va q r w rfd wfd k k')
    (hu : (k'.pipes p).used = true) : Flows p (.piped i q) k.pipes k'.pipes := by
  obtain ⟨c, held, heq⟩ := h.eq
  have hpipes : k'.pipes = update k.pipes q (k.pipes q).taken := by
    rw [heq]
  rw [hpipes] at hu ⊢
  by_cases hqp : q = p
  · subst hqp
    have ho : Event.opens q (.piped i q) = true := by simp [Event.opens]
    refine ⟨⟨fun _ => ?_, fun hn => ?_⟩, fun hn => ?_⟩
    · rw [update_self]
      exact Ring.slice_self ..
    · rw [ho] at hn
      cases hn
    · rw [ho] at hn
      cases hn
  · have ho : Event.opens p (.piped i q) = false := by simp [Event.opens, hqp]
    exact .same ho rfl rfl (update_of_ne (Ne.symm hqp) ..) hu

end Transfers

section Steps

variable {cur cur' : Option ProcRef} {r : Result}

theorem Effect.flows (he : Effect i k r e k')
    (h : Tables [] none cur k.procs k.ftable k.pipes k.input)
    (h' : Tables [] none cur' k'.procs k'.ftable k'.pipes k'.input)
    (hu : (k'.pipes p).used = true) : Flows p e k.pipes k'.pipes := by
  cases he with
  | quiet hv hl => exact .same rfl rfl rfl (by rw [hl.pipes]) hu
  | undone hnum hn => exact .same rfl rfl rfl (hn.pipes p (.inr hu)) hu
  | opened hnum ho => exact .same rfl rfl rfl (by rw [ho.pipes]) hu
  | dupped hnum hf hd =>
    obtain ⟨c, held, heq⟩ := hd.eq
    exact .same rfl rfl rfl (by rw [heq]; rfl) hu
  | closed hnum harg hfd hc =>
    have hcontents : k'.obs.contents = k.obs.contents := congrArg Obs.contents (hc.obs.trans setFd_obs)
    exact .kept rfl rfl rfl (congrFun hcontents p) (used_of_lost h h' hc.lost hu)
  | piped hnum hp => exact hp.flows hu
  | forked hnum hf => exact .same rfl rfl rfl (by rw [hf.pipes]) hu
  | unforked hnum hn => exact .same rfl rfl rfl (by rw [hn.pipes]) hu
  | exited hnum hx => exact .kept rfl rfl rfl (congrFun hx.contents p) (used_of_lost h h' hx.files hu)

theorem Resumed.flows {cont : Cont} (he : Resumed i k cont r e k') (hb : k.Buffers)
    (hu : (k'.pipes p).used = true) : Flows p e k.pipes k'.pipes := by
  cases he with
  | childless hnone htf hl => exact .same rfl rfl rfl (by rw [hl.pipes]) hu
  | reaped hr => exact .same rfl rfl rfl (by rw [hr.pipes]) hu
  | waiting hd => exact .same rfl rfl rfl (by rw [hd.pipes]) hu
  | pipeGot hcap hend hg hcopy => exact hg.flows hb hu
  | pipeDry hcap hend hd => exact .same rfl rfl rfl (by rw [hd.dozing.pipes]) hu
  | pipePut hend hn hp => exact hp.flows hu
  | pipeShut hend hshut hw => exact .same rfl rfl rfl (by rw [hw.pipes]) hu
  | pipeFull hend hf => exact hf.flows hu
  | lineGot hcap hg hcopy =>
    have hpipes := hg.woken.pipes
    exact .same rfl rfl rfl (by rw [hpipes]) hu
  | lineDry hcap hd =>
    have hpipes := hd.dozing.pipes
    exact .same rfl rfl rfl (by rw [hpipes]) hu

/-- The bytes of a pipe in a step of the kernel. -/
theorem Change.flows (hc : Change k e k') (h : Sound k) (h' : Sound k')
    (hu : (k'.pipes p).used = true) : Flows p e k.pipes k'.pipes := by
  have ht' := h'.steady.tables
  cases hc with
  | idle hs => exact .same rfl rfl rfl (by rw [hs.pipes]) hu
  | received hr hw => exact .same rfl rfl rfl (by rw [hw.pipes]) hu
  | yielded hcur hs => exact .same rfl rfl rfl (by rw [hs.pipes]) hu
  | called hcur he hend =>
    have hs := hend.same
    rw [hs.procs, hs.ftable, hs.pipes, hs.input] at ht'
    rw [hs.pipes] at hu ⊢
    exact he.flows (by exact h.steady.tables) ht' hu
  | killed hcur hs hx =>
    have ht := h.steady.tables
    rw [← hs.procs, ← hs.ftable, ← hs.pipes, ← hs.input] at ht
    rw [← hs.pipes]
    exact .kept rfl rfl rfl (congrFun hx.contents p) (used_of_lost ht ht' hx.files hu)
  | entered hcur hstate hcont hs => exact .same rfl rfl rfl (by rw [hs.pipes]) hu
  | moved hm =>
    obtain ⟨hp, he, hend⟩ := hm
    obtain ⟨st, ch, hs⟩ := hp.same
    rw [hend.same.pipes] at hu ⊢
    have hpipes := hs.pipes
    rw [show k.pipes = _ from hpipes.symm]
    exact he.flows (hs.buffers ⟨h.buffers.input, h.buffers.pipes⟩) hu

end Steps

section Results

variable {cap n m : ℕ} {src bytes : List UInt8} {c : Bool}

/-- A write starts anew or goes on where it stopped. -/
theorem Proceeds.stored {k₁ : Kernel} (h : Proceeds i (.pipeWrite p src n) k k₁) (hk : Sound k) :
    n < src.length ∧
      (n = 0 ∧ k.parkedJob i = none ∨ k.parkedJob i = some (.write p src n)) := by
  cases h with
  | begun hcur hb =>
    cases hb with
    | pipeWrite hnum hf hkind hw hlen hsrc => exact ⟨ioLength_pos hlen, .inl ⟨rfl, if_pos hcur⟩⟩
  | goesOn hcur hstate hcont hs hram =>
    have hparked := hk.steady.tables.parked i (.inr hstate)
    simp only [Parked, hcont] at hparked
    refine ⟨hparked.1, .inr ?_⟩
    rw [parkedJob_of_runnable hcur hstate, hcont]
    rfl

/-- A piece of a write stores bytes or fails, and it sleeps if bytes are left. -/
theorem TransferStep.put (hs : TransferStep M i (.pipeWrite p src n) k k') (h : Sound k) :
    Change k (.put i p src n src.length) k' ∨ Change k (.refused i p) k' ∨
    ∃ m, Change k (.put i p src n m) k' ∧ (k'.pipes p).nwrite = (k'.pipes p).nread + pipesize ∧
      Asleep i (.pipeWrite p src m) k' := by
  obtain ⟨e, htr⟩ := hs.transferred h ⟨nofun, nofun⟩
  obtain ⟨hp, he, hend⟩ := htr
  cases he with
  | pipePut hends hle hput => exact .inl (.moved ⟨hp, .pipePut hends hle hput, hend⟩)
  | pipeShut hends hshut hw => exact .inr (.inl (.moved ⟨hp, .pipeShut hends hshut hw, hend⟩))
  | pipeFull hends hf =>
    refine .inr (.inr ⟨_, .moved ⟨hp, .pipeFull hends hf, hend⟩, ?_, hend.asleep hf.dozing⟩)
    rw [hend.same.pipes]
    exact hf.full

/-- A piece of a read takes bytes, or finds none and sleeps. -/
theorem TransferStep.got {va : ℕ} (hs : TransferStep M i (.pipeRead p cap va) k k') (h : Sound k) :
    (∃ bytes c, Change k (.got i p cap bytes c) k' ∧
      CopiedOut i (.pipeRead p cap va) va bytes c k k') ∨ Change k .silent k' ∧
      (k.pipes p).queue = [] ∧ (k.pipes p).writeopen = true ∧ Asleep i (.pipeRead p cap va) k' := by
  obtain ⟨e, htr⟩ := hs.transferred h ⟨nofun, nofun⟩
  obtain ⟨hp, he, hend⟩ := htr
  obtain ⟨st, ch, hsame⟩ := hp.same
  cases he with
  | pipeGot hcap hends hg hcopy =>
    exact .inl ⟨_, _, .moved ⟨hp, .pipeGot hcap hends hg hcopy, hend⟩,
      hend.copiedOut hp hcopy (hg.woken.trapframe i)⟩
  | pipeDry hcap hends hd =>
    refine .inr ⟨.moved ⟨hp, .pipeDry hcap hends hd, hend⟩, ?_, ?_, hend.asleep hd.dozing⟩
    · have hempty := hd.empty
      rw [hsame.pipes] at hempty
      rw [Pipe.queue, hempty]
      exact Ring.slice_self ..
    · rw [← hd.writeopen, hsame.pipes]

end Results

end ToyOs
