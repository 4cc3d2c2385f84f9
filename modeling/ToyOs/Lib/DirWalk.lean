import ToyOs.Lib.DirTree
import Mathlib.Algebra.Order.BigOperators.Group.Finset

/-!
Resolution of names in a directory tree: one step looks a name up in the
entries of a directory, a walk follows a list of names. In a tree a name has
one entry at most. A node added under a fresh name keeps every walk, and the
walks that it adds are those through its entry.
-/
namespace DirTree

open Finset List

variable {ι ν : Type} [DecidableEq ν] (G : Graph ι ν) {names : List ν}

/-- The node that a name stands for in a directory. -/
def find (d : ι) (name : ν) : Option ι :=
  (G d).bind fun es => (es.find? fun e => e.name = name).map Entry.node

/-- Follow a list of names. -/
def walk : ι → List ν → Option ι
  | d, [] => some d
  | d, name :: rest => (find G d name).bind fun n => walk n rest

variable {G} {d n : ι} {name : ν}

theorem walk_append (d : ι) (xs ys : List ν) :
    walk G d (xs ++ ys) = (walk G d xs).bind fun n => walk G n ys := by
  induction xs generalizing d with
  | nil => rfl
  | cons x xs ih =>
    simp only [cons_append, walk]
    cases find G d x with
    | none => rfl
    | some n => exact ih n

theorem walk_concat (d : ι) (xs : List ν) (x : ν) :
    walk G d (xs ++ [x]) = (walk G d xs).bind fun n => find G n x := by
  rw [walk_append]
  congr 1
  funext n
  simp [walk]

/-- What is found is an entry of the directory. -/
theorem exists_of_find (h : find G d name = some n) :
    ∃ es, G d = some es ∧ ⟨name, n⟩ ∈ es := by
  obtain ⟨es, hes, hfind⟩ := Option.bind_eq_some_iff.mp h
  obtain ⟨e, he, rfl⟩ := Option.map_eq_some_iff.mp hfind
  have hname : e.name = name := by simpa using List.find?_some he
  refine ⟨es, hes, ?_⟩
  rw [← hname]
  exact mem_of_find?_eq_some he

/-- With distinct keys, all elements of a key are the first one. -/
theorem filter_eq_find {α : Type} {f : α → ν} {l : List α} (h : (l.map f).Nodup) (x : ν) :
    (l.filter fun a => f a = x) = (l.find? fun a => f a = x).toList := by
  induction l with
  | nil => rfl
  | cons a l ih =>
    rw [List.map_cons, List.nodup_cons] at h
    by_cases hx : f a = x
    · have hrest : (l.filter fun b => f b = x) = [] := by
        rw [List.filter_eq_nil_iff]
        intro b hb heq
        have hfb : f b = f a := by
          rw [hx]
          simpa using heq
        exact h.1 (hfb ▸ List.mem_map_of_mem hb)
      simp [hx, hrest]
    · simpa [hx] using ih h.2

variable [DecidableEq ι] {root : ι} {dot dotdot : ν} {N : Finset ι} {link link' : ι → ℤ}
  {G' : Graph ι ν} {es : List (Entry ι ν)}

namespace Tree

variable (h : Tree G root dot dotdot N link)
include h

theorem find_mem (hd : d ∈ N) (hf : find G d name = some n) : n ∈ N := by
  obtain ⟨es, hes, hmem⟩ := exists_of_find hf
  exact h.closed d hd n (mem_named hes hmem)

theorem walk_mem (hd : d ∈ N) (hw : walk G d names = some n) : n ∈ N := by
  induction names generalizing d with
  | nil =>
    obtain rfl := Option.some.inj hw
    exact hd
  | cons x xs ih =>
    obtain ⟨m, hm, hw⟩ := Option.bind_eq_some_iff.mp hw
    exact ih (h.find_mem hd hm) hw

omit [DecidableEq ν] in
/-- At most two entries of a directory and one more name a node. -/
theorem link_le {m : ι} (hm : m ∈ N) : link m ≤ 2 * (N.card : ℤ) + 1 := by
  have hsplit : ∀ a ∈ N, (named G a).count m ≤ 2 + (kids G a).count m := by
    intro a _
    have hlist : named G a = (named G a).take 2 ++ kids G a := by
      rw [kids, map_drop]
      exact (take_append_drop 2 (named G a)).symm
    have hcount := congrArg (List.count m) hlist
    rw [count_append] at hcount
    have htake : ((named G a).take 2).count m ≤ 2 :=
      count_le_length.trans (length_take_le 2 _)
    omega
  have hsum : ∑ a ∈ N, (named G a).count m ≤ 2 * N.card + 1 :=
    calc ∑ a ∈ N, (named G a).count m
        ≤ ∑ a ∈ N, (2 + (kids G a).count m) := sum_le_sum hsplit
      _ = 2 * N.card + ∑ a ∈ N, (kids G a).count m := by
          rw [sum_add_distrib, sum_const_nat fun _ _ => rfl, Nat.mul_comm]
      _ ≤ 2 * N.card + 1 := by
          rw [h.once m hm]
          split <;> omega
  rw [h.links m hm]
  exact_mod_cast hsum

omit [DecidableEq ν] in
/-- A directory has two entries more than it has children, which are distinct. -/
theorem length_le {d : ι} (hd : d ∈ N) {es : List (Entry ι ν)} (hes : G d = some es) :
    es.length ≤ N.card + 2 := by
  have hnodup : (kids G d).Nodup := by
    rw [nodup_iff_count_le_one]
    intro m
    by_cases hm : m ∈ N
    · have hone := h.once m hm
      have hle : (kids G d).count m ≤ ∑ a ∈ N, (kids G a).count m :=
        single_le_sum (f := fun a => (kids G a).count m) (fun _ _ => Nat.zero_le _) hd
      split at hone <;> omega
    · have hnot : m ∉ kids G d := fun hmem => by
        rw [kids, map_drop] at hmem
        exact hm (h.closed d hd m (mem_of_mem_drop hmem))
      rw [count_eq_zero.mpr hnot]
      omega
  have hsub : (kids G d).toFinset ⊆ N := by
    intro m hm
    rw [mem_toFinset, kids, map_drop] at hm
    exact h.closed d hd m (mem_of_mem_drop hm)
  have hcard := card_le_card hsub
  rw [toFinset_card_of_nodup hnodup, kids, hes, length_map, length_drop] at hcard
  simp only [Option.getD_some] at hcard
  omega

end Tree

namespace Adds

variable (ha : Adds G dot dotdot N link d n es name G' link')
include ha

/-- The new entry is found, and every other lookup is as before. -/
theorem find_eq {m : ι} {x : ν} (hm : m ∈ N) :
    find G' m x = if m = d ∧ x = name then some n else find G m x := by
  by_cases hmd : m = d
  · subst hmd
    rw [find, ha.dir', Option.bind_some, List.find?_append]
    by_cases hx : x = name
    · have hnone : (es.find? fun e => e.name = x) = none := by
        rw [List.find?_eq_none]
        intro e he hname
        exact ha.name_fresh (mem_map.mpr ⟨e, he, by simpa [hx] using hname⟩)
      rw [hnone, if_pos ⟨rfl, hx⟩]
      simp [hx]
    · rw [if_neg fun hc => hx hc.2, find, ha.dir, Option.bind_some]
      simp [Ne.symm hx]
  · rw [if_neg fun hc => hmd hc.1, find, find, ha.other m hm hmd]

theorem find_old {m y : ι} {x : ν} (hm : m ∈ N)
    (hf : find G m x = some y) : find G' m x = some y := by
  rw [ha.find_eq hm, if_neg, hf]
  rintro ⟨rfl, rfl⟩
  obtain ⟨es', hes', hmem⟩ := exists_of_find hf
  obtain rfl := Option.some.inj (ha.dir.symm.trans hes')
  exact ha.name_fresh (mem_map.mpr ⟨_, hmem, rfl⟩)

/-- Every walk from the old tree is kept. -/
theorem walk_old (h : Tree G root dot dotdot N link) {a b : ι} (hmem : a ∈ N)
    (hw : walk G a names = some b) : walk G' a names = some b := by
  induction names generalizing a with
  | nil => exact hw
  | cons x xs ih =>
    obtain ⟨m, hm, hw⟩ := Option.bind_eq_some_iff.mp hw
    rw [walk, ha.find_old hmem hm]
    exact ih (h.find_mem hmem hm) hw

/-- A walk that is new goes through the new entry. -/
theorem walk_new (h : Tree G root dot dotdot N link) {a b : ι} (hmem : a ∈ N)
    (hw : walk G' a names = some b) :
    walk G a names = some b ∨ ∃ front back, names = front ++ name :: back ∧
      walk G a front = some d ∧ walk G' n back = some b := by
  induction names generalizing a with
  | nil => exact Or.inl hw
  | cons x xs ih =>
    obtain ⟨m, hm, hw⟩ := Option.bind_eq_some_iff.mp hw
    rw [ha.find_eq hmem] at hm
    split at hm
    · rename_i hnew
      obtain rfl := Option.some.inj hm
      obtain ⟨rfl, rfl⟩ := hnew
      exact Or.inr ⟨[], xs, rfl, rfl, hw⟩
    · rcases ih (h.find_mem hmem hm) hw with hold | ⟨front, back, rfl, hfront, hback⟩
      · left
        rw [walk, hm]
        exact hold
      · refine Or.inr ⟨x :: front, back, rfl, ?_, hback⟩
        rw [walk, hm]
        exact hfront

end Adds

end DirTree
