import Mathlib.Algebra.BigOperators.Group.Finset.Basic
import Mathlib.Algebra.Order.BigOperators.Group.Multiset
import Mathlib.Data.Multiset.AddSub
import Mathlib.Data.Multiset.UnionInter
import Mathlib.Algebra.BigOperators.Group.Finset.Piecewise

/-!
Finite sums of counts and of collections, as used for accounting: what a
sum becomes when the family changes at one index, and what it means for a
sum of collections to have no repetition.
-/
namespace Sums

open Finset Multiset

variable {ι M α : Type*} [DecidableEq ι] [AddCommMonoid M]

/-- Changing one term trades the old term for the new one. -/
theorem sum_update_add (S : Finset ι) (f : ι → M) (i : ι) (hi : i ∈ S) (b : M) :
    ∑ x ∈ S, Function.update f i b x + f i = ∑ x ∈ S, f x + b := by
  rw [sum_update_of_mem hi, ← add_sum_erase S f hi, sdiff_singleton_eq_erase]
  rw [add_comm b, add_assoc, add_comm (f i), add_assoc, add_comm b]

/-- Changing the family of arguments at one index. -/
theorem sum_comp_update_add (S : Finset ι) (g : α → M) (f : ι → α) (i : ι) (hi : i ∈ S) (b : α) :
    ∑ x ∈ S, g (Function.update f i b x) + g (f i) = ∑ x ∈ S, g (f x) + g b := by
  have hcomp : (fun x => g (Function.update f i b x)) =
      Function.update (fun x => g (f x)) i (g b) := by
    funext x
    by_cases hx : x = i
    · subst hx
      simp
    · simp [hx]
  rw [hcomp]
  exact sum_update_add S (fun x => g (f x)) i hi (g b)

/-- In a sum without repetition an element has one source. -/
theorem eq_of_mem_of_nodup_sum {S : Finset ι} {f : ι → Multiset α}
    (h : (∑ x ∈ S, f x).Nodup) {i j : ι} (hi : i ∈ S) (hj : j ∈ S) {a : α}
    (ha : a ∈ f i) (ha' : a ∈ f j) : i = j := by
  by_contra hne
  rw [← add_sum_erase S f hi] at h
  have hdisj := (nodup_add.mp h).2.2
  have hmem : a ∈ ∑ x ∈ S.erase i, f x :=
    mem_sum.mpr ⟨j, mem_erase.mpr ⟨Ne.symm hne, hj⟩, ha'⟩
  exact disjoint_left.mp hdisj ha hmem

end Sums
