import Mathlib.Logic.Function.Basic
import Mathlib.Data.List.Range

/-!
A ring buffer with cursors that only grow: cursor `j` stands at slot `j % n`.
The elements between two cursors form a list, and as long as the cursors are at
most `n` apart, storing at the upper one leaves that list alone.
-/
namespace Ring

open List Nat

variable {α : Type} {n a b c : ℕ} {buf : ℕ → α}

/-- The elements between two cursors. -/
def slice (n : ℕ) (buf : ℕ → α) (a b : ℕ) : List α :=
  (List.range' a (b - a)).map fun j => buf (j % n)

@[simp] theorem slice_length : (slice n buf a b).length = b - a := by
  rw [slice, length_map, length_range']

@[simp] theorem slice_self : slice n buf a a = [] := by
  rw [slice, Nat.sub_self]
  rfl

theorem slice_eq_nil (h : b ≤ a) : slice n buf a b = [] := by
  rw [slice, Nat.sub_eq_zero_of_le h]
  rfl

theorem slice_pop (h : a < b) : slice n buf a b = buf (a % n) :: slice n buf (a + 1) b := by
  obtain ⟨d, rfl⟩ := Nat.exists_eq_add_of_lt h
  rw [slice, slice, show a + d + 1 - a = d + 1 by omega, show a + d + 1 - (a + 1) = d by omega,
    range'_succ, map_cons]

theorem slice_append (h : a ≤ b) (h' : b ≤ c) :
    slice n buf a b ++ slice n buf b c = slice n buf a c := by
  rw [slice, slice, slice, ← map_append]
  obtain ⟨d, rfl⟩ := Nat.exists_eq_add_of_le h
  obtain ⟨e, rfl⟩ := Nat.exists_eq_add_of_le h'
  rw [show a + d - a = d by omega, show a + d + e - (a + d) = e by omega,
    show a + d + e - a = d + e by omega, ← range'_append_1]

theorem slice_push (h : a ≤ b) : slice n buf a (b + 1) = slice n buf a b ++ [buf (b % n)] := by
  rw [← slice_append h (le_succ b), slice_pop (lt_succ_self b), slice_self]

theorem slice_dropLast : (slice n buf a b).dropLast = slice n buf a (b - 1) := by
  rcases Nat.lt_or_ge a b with h | h
  · obtain ⟨d, rfl⟩ := Nat.exists_eq_add_of_lt h
    rw [slice_push (Nat.le_add_right a d), dropLast_concat, Nat.add_sub_cancel]
  · rw [slice_eq_nil h, slice_eq_nil (by omega)]
    rfl

/-- A store at a cursor that is not in between. -/
theorem slice_update {v : α} (h : c < a + n) (h' : b ≤ c) :
    slice n (Function.update buf (c % n) v) a b = slice n buf a b := by
  apply map_congr_left
  intro j hj
  rw [mem_range'_1] at hj
  apply Function.update_of_ne
  intro heq
  have hdiv := div_add_mod j n
  have hdiv' := div_add_mod c n
  rcases lt_trichotomy (j / n) (c / n) with hlt | heq' | hgt
  · have := mul_le_mul_left n (succ_le_of_lt hlt)
    rw [mul_succ] at this
    omega
  · rw [heq'] at hdiv
    omega
  · have := mul_le_mul_left n (succ_le_of_lt hgt)
    rw [mul_succ] at this
    omega

end Ring
