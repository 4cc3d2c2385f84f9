import ToyOs.Kernel.FirstProcess
import ToyOs.Kernel.History

/-!
The console as a line editor. The input buffer stands for the line that the
events of the run make of the received bytes, and a read hands out its bytes:
up to a newline, up to the size of the buffer, or up to an end of file, which
an empty read consumes. A read that has to wait goes on where it stopped.
-/
namespace ToyOs

open Bytes List

variable {M : Machine} {k k' : Kernel} {es : List Event} {e : Event} {i : ProcRef}

/-- What an event does to the line. -/
def Event.line (l : Line) : Event → Line
  | .received bytes => bytes.foldl Line.receive l
  | .lineGot _ cap had _ _ =>
    match readLine cap had l.queue with
    | .done _ rest => { l with queue := rest }
    | .blocked _ => { l with queue := [] }
  | .lineDry _ _ _ _ => { l with queue := [] }
  | _ => l

/-- The line after the events of a run. -/
def lineOf (es : List Event) : Line := es.foldl Event.line ⟨[], []⟩

section Reads

variable {cap : ℕ} {had q bytes rest more : List UInt8}

/-- A read waits when it could take all of the queue and may take more. -/
theorem readLine_blocked (h : readLine cap had q = .blocked more) :
    more = had ++ q ∧ more.length < cap ∧ newline ∉ q ∧ eof ∉ q := by
  induction q generalizing had with
  | nil =>
    simp only [readLine] at h
    split_ifs at h with hfull
    cases h
    exact ⟨(append_nil _).symm, by omega, not_mem_nil, not_mem_nil⟩
  | cons c q ih =>
    simp only [readLine] at h
    split_ifs at h with hfull heof hnil hnl
    obtain ⟨hmore, hlt, hline, hend⟩ := ih h
    refine ⟨by rw [hmore, append_assoc]; rfl, hlt, ?_, ?_⟩
    · exact not_mem_cons_of_ne_of_not_mem (Ne.symm hnl) hline
    · exact not_mem_cons_of_ne_of_not_mem (Ne.symm heof) hend

end Reads

section Steps

variable {cap buf : ℕ} {had bytes more : List UInt8} {c : Bool} {r : Result}

theorem LineGot.line_eq (h : LineGot cap had bytes k k') :
    k'.input.line = (Event.lineGot i cap had bytes c).line k.input.line := by
  simp only [Event.line, h.line]
  rw [← h.drained.edit]

theorem LineDry.line_eq (h : LineDry i cap buf had more k k') :
    k'.input.line = (Event.lineDry i cap had more).line k.input.line := by
  have hempty : k'.input.line.queue = [] := by
    rw [Input.line, h.empty]
    exact Ring.slice_self ..
  simp only [Event.line]
  rw [← h.drained.edit, ← hempty]

theorem Effect.input (he : Effect i k r e k') : k'.input = k.input := by
  cases he with
  | quiet hv hl => exact hl.input
  | undone hnum hn => exact hn.rest.1
  | opened hnum ho => exact ho.input
  | dupped hnum hf hd =>
    obtain ⟨cpu, held, heq⟩ := hd.eq
    rw [heq]
    rfl
  | closed hnum harg hfd hc => exact congrArg Obs.input (hc.obs.trans setFd_obs)
  | piped hnum hp =>
    obtain ⟨cpu, held, heq⟩ := hp.eq
    rw [heq]
    rfl
  | forked hnum hf => exact hf.input
  | unforked hnum hn => exact hn.input
  | exited hnum hx => exact hx.input

theorem Effect.line (he : Effect i k r e k') (l : Line) : e.line l = l := by
  cases he <;> rfl

/-- Transfers change the line as their events say. -/
theorem Resumed.line {cont : Cont} (he : Resumed i k cont r e k') :
    k'.input.line = e.line k.input.line := by
  have hsame : k'.input = k.input → e.line k.input.line = k.input.line →
      k'.input.line = e.line k.input.line := by
    intro hin hline
    rw [hin, hline]
  cases he with
  | childless hnone htf hl => exact hsame hl.input rfl
  | reaped hr => exact hsame hr.input rfl
  | waiting hd => exact hsame hd.input rfl
  | pipeGot hcap hend hg hcopy => exact hsame hg.woken.input rfl
  | pipeDry hcap hend hd => exact hsame hd.dozing.input rfl
  | pipePut hend hn hp => exact hsame hp.woken.input rfl
  | pipeShut hend hshut hw => exact hsame hw.input rfl
  | pipeFull hend hf => exact hsame hf.dozing.input rfl
  | lineGot hcap hg hcopy => exact hg.line_eq
  | lineDry hcap hd => exact hd.line_eq

theorem Change.line (hc : Change k e k') : k'.input.line = e.line k.input.line := by
  cases hc with
  | idle hs => rw [hs.input]; rfl
  | received hr hw => exact hr.line
  | yielded hcur hs => rw [hs.input]; rfl
  | called hcur he hend =>
    rw [hend.same.input, he.input, he.line]
    rfl
  | killed hcur h₁ hx => rw [hx.input, h₁.input]; rfl
  | entered hcur hstate hcont hs => rw [hs.input]; rfl
  | moved hm =>
    obtain ⟨hp, he, hend⟩ := hm
    obtain ⟨st, ch, hs⟩ := hp.same
    rw [hend.same.input, he.line, hs.input]

/-- The buffer holds the line that the events have made. -/
theorem History.line (h : History M es k) : k.input.line = lineOf es := by
  induction h with
  | boot hb =>
    rw [hb.started.input]
    rfl
  | step hr hs hc ih =>
    rw [hc.line, ih, lineOf, lineOf, foldl_append]
    rfl

end Steps

section Results

variable {cap : ℕ} {had bytes more : List UInt8} {c : Bool}

/-- The read starts here, or goes on with what it has. -/
def GoesOn (cap : ℕ) (had : List UInt8) (o : Option Job) : Prop :=
  had = [] ∧ o = none ∨ o = some (.read had cap)

/-- A piece of a read goes on with what the read has. -/
theorem Proceeds.gathered {k₁ : Kernel} {va : ℕ} (h : Proceeds i (.consoleRead had cap va) k k₁) :
    GoesOn cap had (k.parkedJob i) := by
  cases h with
  | begun hcur hb =>
    cases hb
    exact .inl ⟨rfl, if_pos hcur⟩
  | goesOn hcur hstate hcont hs hram =>
    refine .inr ?_
    rw [parkedJob_of_runnable hcur hstate, hcont]
    rfl

/-- A read that has to wait keeps all that was there. -/
theorem Change.of_lineDry (hc : Change k (.lineDry i cap had more) k') :
    GoesOn cap had (k.parkedJob i) ∧ readLine cap had k.input.line.queue = .blocked more := by
  cases hc with
  | called hcur he => cases he
  | moved hm =>
    obtain ⟨hp, he, hend⟩ := hm
    cases he with
    | lineDry hcap hd =>
      obtain ⟨st, ch, hs⟩ := hp.same
      refine ⟨hp.gathered, ?_⟩
      rw [← show _ = k.input from hs.input]
      exact hd.line

/-- A read that waits has part of a line. -/
def Job.InLine : Job → Prop
  | .read got cap => got.length < cap ∧ newline ∉ got ∧ eof ∉ got
  | .write .. => True

theorem GoesOn.inLine {o : Option Job} (h : GoesOn cap had o) (ho : ∀ j, o = some j → j.InLine) :
    newline ∉ had ∧ eof ∉ had := by
  rcases h with ⟨rfl, -⟩ | hjob
  · exact ⟨not_mem_nil, not_mem_nil⟩
  · exact (ho _ hjob).2

theorem Change.inLine (hc : Change k e k') (h : ∀ i j, k.parkedJob i = some j → j.InLine) :
    ∀ i j, k'.parkedJob i = some j → j.InLine := by
  intro i j hj
  rw [hc.job i] at hj
  cases e with
  | put i' p src n m =>
    simp only [Event.job] at hj
    split_ifs at hj with hi hm
    · cases hj
      exact trivial
    · exact h i j hj
  | refused i' p | lineGot i' cap had bytes c =>
    simp only [Event.job] at hj
    split_ifs at hj with hi
    exact h i j hj
  | lineDry i' cap had more =>
    simp only [Event.job] at hj
    split_ifs at hj with hi
    · cases hj
      obtain ⟨hgo, hread⟩ := hc.of_lineDry
      obtain ⟨rfl, hlt, hnl, heof⟩ := readLine_blocked hread
      obtain ⟨hnl', heof'⟩ := hgo.inLine (h i')
      simp only [Job.InLine, mem_append, not_or]
      exact ⟨hlt, ⟨hnl', hnl⟩, heof', heof⟩
    · exact h i j hj
  | _ => exact h i j hj

theorem History.inLine (h : History M es k) : ∀ i j, k.parkedJob i = some j → j.InLine := by
  induction h with
  | boot hb =>
    intro i j hj
    rw [(History.boot hb).job i] at hj
    cases hj
  | step hr hs hc ih => exact hc.inLine ih

/-- A piece of a read is done or waits. -/
theorem TransferStep.line {va : ℕ} (hs : TransferStep M i (.consoleRead had cap va) k k') (h : Sound k) :
    (∃ bytes c, Change k (.lineGot i cap had bytes c) k' ∧
      CopiedOut i (.consoleRead had cap va) va bytes c k k') ∨
    ∃ more, Change k (.lineDry i cap had more) k' ∧ Asleep i (.consoleRead more cap va) k' := by
  obtain ⟨e, htr⟩ := hs.transferred h ⟨nofun, nofun⟩
  obtain ⟨hp, he, hend⟩ := htr
  cases he with
  | lineGot hcap hg hcopy =>
    exact .inl ⟨_, _, .moved ⟨hp, .lineGot hcap hg hcopy, hend⟩,
      hend.copiedOut hp hcopy (hg.woken.trapframe i)⟩
  | lineDry hcap hd => exact .inr ⟨_, .moved ⟨hp, .lineDry hcap hd, hend⟩, hend.asleep hd.dozing⟩

end Results

end ToyOs
