import Mathlib.Data.List.Basic

/-!
Streams along a trace. The events of a trace may put items into a queue, take
items from its front or open it anew. If every step moves items in this way,
what was put in since the queue was opened last is what was taken out, followed
by what the queue holds.
-/
namespace Stream

open List

variable {ε α : Type*} (opens : ε → Bool) (ins outs : ε → List α)

variable {opens} {es : List ε} {e : ε}

/-- One step of a queue. -/
structure Moves (opens : ε → Bool) (ins outs : ε → List α) (e : ε) (q q' : List α) : Prop where
  opened : opens e = true → q' = []
  moved : opens e = false → q ++ ins e = outs e ++ q'

variable {ins outs} {q q' : List α}

end Stream
