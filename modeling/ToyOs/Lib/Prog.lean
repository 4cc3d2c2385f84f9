import Mathlib.Logic.Function.Basic
import Mathlib.Data.List.Basic

/-!
Sequential programs over an explicit state that may stop with a panic.
The weakest precondition carries one predicate for the final value and state
and a second one for the panic, so one rule set serves both partial
correctness (every panic is allowed) and absence of panics (none is).
Loops over a list have rules of their own, with an invariant indexed by the
part of the list that is still to be done.
-/

/-- A program runs to a value and a new state, or panics. -/
def Prog (ε σ α : Type) : Type := σ → Except ε (α × σ)

namespace Prog

variable {ε σ τ α β ι : Type} {Q : α → σ → Prop} {l : List ι} {E' : ε → Prop}

instance : Monad (Prog ε σ) where
  pure a := fun s => .ok (a, s)
  bind m f := fun s =>
    match m s with
    | .ok (a, s') => f a s'
    | .error e => .error e

theorem bind_ok {m : Prog ε σ α} {f : α → Prog ε σ β} {s s' : σ} {a : α}
    (h : m s = .ok (a, s')) : (m >>= f) s = f a s' := by
  simp only [bind, h]

theorem pure_bind {a : α} {f : α → Prog ε σ β} : (pure a : Prog ε σ α) >>= f = f a := rfl

theorem bind_pure {m : Prog ε σ α} : m >>= pure = m := by
  funext s
  simp only [bind]
  cases m s <;> rfl

theorem bind_unit {m : Prog ε σ Unit} : (m >>= fun _ => pure ()) = m := bind_pure

theorem bind_assoc {γ : Type} {m : Prog ε σ α} {f : α → Prog ε σ β} {g : β → Prog ε σ γ} :
    m >>= f >>= g = m >>= fun a => f a >>= g := by
  funext s
  simp only [bind]
  cases m s <;> rfl

/-- Stop with a panic. -/
def panic (e : ε) : Prog ε σ α := fun _ => .error e

def get : Prog ε σ σ := fun s => .ok (s, s)

def modify (f : σ → σ) : Prog ε σ Unit := fun s => .ok ((), f s)

/-- Panic unless the condition holds. -/
def assert (e : ε) (b : Bool) : Prog ε σ Unit := if b then pure () else panic e

/-- Unwrap an optional value; a missing one is a panic. -/
def expect (e : ε) : Option α → Prog ε σ α
  | some a => pure a
  | none => panic e

/-- Run a program on one component of a larger state. -/
def zoom (view : σ → τ) (put : τ → σ → σ) (m : Prog ε τ α) : Prog ε σ α := fun s =>
  match m (view s) with
  | .ok (a, t) => .ok (a, put t s)
  | .error e => .error e

/-- Run the body for every element of the list, in order. -/
def forEach : List ι → (ι → Prog ε σ Unit) → Prog ε σ Unit
  | [], _ => pure ()
  | i :: rest, body => do
    body i
    forEach rest body

theorem forEach_cons (i : ι) (rest : List ι) (body : ι → Prog ε σ Unit) :
    forEach (i :: rest) body = (body i >>= fun _ => forEach rest body) := by
  rw [forEach]

/-- Run the body along the list until it yields a value. -/
def firstSome : List ι → (ι → Prog ε σ (Option α)) → Prog ε σ (Option α)
  | [], _ => pure none
  | i :: rest, body => do
    match ← body i with
    | some a => pure (some a)
    | none => firstSome rest body

/-- The value and state satisfy `Q`, and a panic satisfies `E`. -/
def wp (m : Prog ε σ α) (E : ε → Prop) (Q : α → σ → Prop) (s : σ) : Prop :=
  match m s with
  | .ok (a, s') => Q a s'
  | .error e => E e

section Rules

variable {E : ε → Prop} {s : σ}

@[simp] theorem wp_pure {a : α} :
    wp (pure a) E Q s ↔ Q a s := Iff.rfl

@[simp] theorem wp_bind {m : Prog ε σ α} {f : α → Prog ε σ β} {Q : β → σ → Prop} :
    wp (m >>= f) E Q s ↔ wp m E (fun a s' => wp (f a) E Q s') s := by
  cases hm : m s with
  | ok r => simp only [wp, bind, hm]
  | error e => simp only [wp, bind, hm]

@[simp] theorem wp_panic {e : ε} :
    wp (panic e : Prog ε σ α) E Q s ↔ E e := Iff.rfl

@[simp] theorem wp_get {Q : σ → σ → Prop} : wp get E Q s ↔ Q s s := Iff.rfl

@[simp] theorem wp_modify {f : σ → σ} {Q : Unit → σ → Prop} :
    wp (modify f) E Q s ↔ Q () (f s) := Iff.rfl

@[simp] theorem wp_assert {e : ε} {b : Bool} {Q : Unit → σ → Prop} :
    wp (assert e b) E Q s ↔ (b = true → Q () s) ∧ (b = false → E e) := by
  cases b <;> simp [assert]

@[simp] theorem wp_expect {e : ε} {o : Option α} :
    wp (expect e o) E Q s ↔ (∀ a, o = some a → Q a s) ∧ (o = none → E e) := by
  cases o <;> simp [expect]

@[simp] theorem wp_zoom {view : σ → τ} {put : τ → σ → σ} {m : Prog ε τ α} :
    wp (zoom view put m) E Q s ↔ wp m E (fun a t => Q a (put t s)) (view s) := by
  unfold wp zoom
  cases m (view s) with
  | ok r => rfl
  | error e => rfl

theorem wp_ite {c : Prop} [Decidable c] {m n : Prog ε σ α} :
    wp (if c then m else n) E Q s ↔ (c → wp m E Q s) ∧ (¬ c → wp n E Q s) := by
  by_cases h : c <;> simp [h]

theorem wp_mono {m : Prog ε σ α} {Q Q' : α → σ → Prop} (h : wp m E Q s) (hE : ∀ e, E e → E' e)
    (hQ : ∀ a s', Q a s' → Q' a s') :
    wp m E' Q' s := by
  unfold wp at *
  cases hm : m s with
  | ok r =>
    rw [hm] at h
    exact hQ _ _ h
  | error e =>
    rw [hm] at h
    exact hE _ h

/-- Weaken the postcondition of a run that does not panic more than before. -/
theorem wp_post {m : Prog ε σ α} {Q Q' : α → σ → Prop}
    (h : wp m E Q s) (hQ : ∀ a s', Q a s' → Q' a s') : wp m E Q' s :=
  wp_mono h (fun _ he => he) hQ

theorem wp_trivial {m : Prog ε σ α} (hE : ∀ e, E e) (hQ : ∀ a s', Q a s') :
    wp m E Q s := by
  unfold wp
  cases m s with
  | ok r => exact hQ _ _
  | error e => exact hE e

/-- What a weakest precondition says of a run that returned. -/
theorem wp_ok {m : Prog ε σ α} {a : α} {s' : σ} (h : wp m E Q s) (hm : m s = .ok (a, s')) :
    Q a s' := by
  unfold wp at h
  rw [hm] at h
  exact h

/-- A run that panics does so with an allowed panic. -/
theorem wp_error {m : Prog ε σ α} {e : ε} (h : wp m E Q s) (hm : m s = .error e) : E e := by
  unfold wp at h
  rw [hm] at h
  exact h

/-- The postcondition may use that the run returned what it speaks of. -/
theorem wp_run {m : Prog ε σ α} (h : wp m E (fun a s' => m s = .ok (a, s') → Q a s') s) :
    wp m E Q s := by
  unfold wp at *
  cases hm : m s with
  | ok r =>
    rw [hm] at h
    exact h rfl
  | error e =>
    rw [hm] at h
    exact h

theorem wp_of_ok {m : Prog ε σ α} {a : α} {s' : σ} (hm : m s = .ok (a, s')) (h : Q a s') :
    wp m E Q s := by
  unfold wp
  rw [hm]
  exact h

/-- Without allowed panics the program returns. -/
theorem exists_ok {m : Prog ε σ α} (h : wp m (fun _ => False) Q s) :
    ∃ a s', m s = .ok (a, s') ∧ Q a s' := by
  unfold wp at h
  cases hm : m s with
  | ok r =>
    rw [hm] at h
    exact ⟨r.1, r.2, rfl, h⟩
  | error e =>
    rw [hm] at h
    exact h.elim

/-- Two views of a program that allow no panic in common. -/
theorem exists_ok_and {m : Prog ε σ α} {Q Q' : α → σ → Prop} (h : wp m E Q s) (h' : wp m E' Q' s)
    (hE : ∀ e, E e → ¬ E' e) :
    ∃ a s', m s = .ok (a, s') ∧ Q a s' ∧ Q' a s' := by
  unfold wp at *
  cases hm : m s with
  | ok r =>
    rw [hm] at h h'
    exact ⟨r.1, r.2, rfl, h, h'⟩
  | error e =>
    rw [hm] at h h'
    exact absurd h' (hE e h)

/-- A program that cannot return panics. -/
theorem exists_error {m : Prog ε σ α} (h : wp m E (fun _ _ => False) s) :
    ∃ e, m s = .error e ∧ E e := by
  unfold wp at h
  cases hm : m s with
  | ok r =>
    rw [hm] at h
    exact h.elim
  | error e =>
    rw [hm] at h
    exact ⟨e, rfl, h⟩

/-- A loop keeps an invariant that is indexed by the rest of the list. -/
theorem wp_forEach {body : ι → Prog ε σ Unit} (I : List ι → σ → Prop) (h0 : I l s)
    (hstep : ∀ i rest t, (i :: rest) <:+ l → I (i :: rest) t →
      wp (body i) E (fun _ t' => I rest t') t) :
    wp (forEach l body) E (fun _ t => I [] t) s := by
  induction l generalizing s with
  | nil => exact h0
  | cons i rest ih =>
    simp only [forEach, wp_bind]
    refine wp_post (hstep i rest s (List.suffix_refl _) h0) ?_
    intro _ t ht
    exact ih ht fun j rest' u hsuf => hstep j rest' u (hsuf.trans (List.suffix_cons i rest))

/-- A search loop: every element before the last one tried yields nothing. -/
theorem wp_firstSome {body : ι → Prog ε σ (Option α)} {Q : Option α → σ → Prop}
    (I : List ι → σ → Prop) (h0 : I l s) (hnil : ∀ t, I [] t → Q none t)
    (hstep : ∀ i rest t, (i :: rest) <:+ l → I (i :: rest) t →
      wp (body i) E (fun r t' => match r with
        | some a => Q (some a) t'
        | none => I rest t') t) :
    wp (firstSome l body) E Q s := by
  induction l generalizing s with
  | nil => exact hnil s h0
  | cons i rest ih =>
    simp only [firstSome, wp_bind]
    refine wp_post (hstep i rest s (List.suffix_refl _) h0) ?_
    intro r t ht
    cases r with
    | some a => exact ht
    | none =>
      exact ih ht fun j rest' u hsuf => hstep j rest' u (hsuf.trans (List.suffix_cons i rest))

end Rules

section Keeps

variable {E : ε → Prop} {I : σ → Prop}

/-- Started in the invariant, the program ends in it or panics as allowed. -/
def Keeps (E : ε → Prop) (I : σ → Prop) (m : Prog ε σ α) : Prop :=
  ∀ s, I s → wp m E (fun _ s' => I s') s

theorem keeps_pure {a : α} : Keeps E I (pure a : Prog ε σ α) := fun _ hs => hs

theorem keeps_bind {m : Prog ε σ α} {f : α → Prog ε σ β} (hm : Keeps E I m)
    (hf : ∀ a, Keeps E I (f a)) : Keeps E I (m >>= f) := by
  intro s hs
  rw [wp_bind]
  exact wp_post (hm s hs) fun a s' => hf a s'

/-- Two ways to go on, after `none` and after `some`. -/
theorem keeps_option {m : Prog ε σ (Option α)} {f : Option α → Prog ε σ β} (hm : Keeps E I m)
    (hnone : Keeps E I (f none)) (hsome : ∀ a, Keeps E I (f (some a))) : Keeps E I (m >>= f) := by
  refine keeps_bind hm fun o => ?_
  cases o with
  | none => exact hnone
  | some a => exact hsome a

theorem keeps_panic {e : ε} (he : E e) : Keeps E I (panic e : Prog ε σ α) :=
  fun _ _ => he

theorem keeps_get : Keeps E I (get : Prog ε σ σ) := fun _ hs => hs

theorem keeps_modify {f : σ → σ} (hf : ∀ s, I s → I (f s)) : Keeps E I (modify f) := hf

theorem keeps_modify_true {f : σ → σ} : Keeps E (fun _ => True) (modify f) :=
  fun _ _ => trivial

theorem keeps_assert {e : ε} {b : Bool} (he : E e) :
    Keeps E I (assert e b : Prog ε σ Unit) := by
  cases b with
  | false => exact keeps_panic he
  | true => exact keeps_pure

theorem keeps_expect {e : ε} {o : Option α} (he : E e) :
    Keeps E I (expect e o : Prog ε σ α) := by
  cases o with
  | none => exact keeps_panic he
  | some a => exact keeps_pure

theorem keeps_ite {c : Prop} [Decidable c] {m n : Prog ε σ α} (hm : Keeps E I m)
    (hn : Keeps E I n) : Keeps E I (if c then m else n) := by
  split
  · exact hm
  · exact hn

theorem keeps_forEach {body : ι → Prog ε σ Unit} (h : ∀ i, Keeps E I (body i)) :
    Keeps E I (forEach l body) := by
  induction l with
  | nil => exact keeps_pure
  | cons i rest ih => exact keeps_bind (h i) fun _ => ih

theorem keeps_firstSome {body : ι → Prog ε σ (Option α)} (h : ∀ i, Keeps E I (body i)) :
    Keeps E I (firstSome l body) := by
  induction l with
  | nil => exact keeps_pure
  | cons i rest ih =>
    refine keeps_bind (h i) fun r => ?_
    cases r with
    | some a => exact keeps_pure
    | none => exact ih

/-- On a component that no invariant constrains, any outcome is possible. -/
theorem wp_of_keeps {m : Prog ε σ α} {s : σ} (h : Keeps E I m) (hs : I s) (hE : ∀ e, E e → E' e)
    (hQ : ∀ a s', I s' → Q a s') : wp m E' Q s :=
  wp_mono (h s hs) hE hQ

end Keeps

end Prog
