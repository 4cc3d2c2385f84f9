import ToyOs.Tables

/-!
What a store into a page table in memory does to its lookups. The tables are
pages at any aligned addresses, all different; above level 0 there are links
only. A page is linked as a level-1 or a level-0 table, or a level-0 entry is
written, and every other lookup stays as it was.
-/
namespace ToyOs

open Bytes Function Multiset

section Words

variable {m : Store} {p q t i j w : ℕ}

/-- A word of a page after a store into a page. -/
theorem load_store_page (hq : q % pgSize = 0) (ht : t % pgSize = 0) (hi : i < 512) (hj : j < 512)
    (hw : w < 2 ^ 64) :
    load 8 (store 8 m (t + 8 * i) w) (q + 8 * j) =
      if q = t ∧ j = i then w else load 8 m (q + 8 * j) := by
  split_ifs with h
  · obtain ⟨rfl, rfl⟩ := h
    rw [load_store_same]
    exact Nat.mod_eq_of_lt (by simpa using hw)
  · refine load_store_of_disjoint _ _ _ _ _ _ ?_
    unfold pgSize at *
    omega

/-- A word of a page after a page was cleared. -/
theorem load_fill_page (hq : q % pgSize = 0) (hp : p % pgSize = 0) (hj : j < 512) :
    load 8 (fill m p pgSize 0) (q + 8 * j) = if q = p then 0 else load 8 m (q + 8 * j) := by
  split_ifs with h
  · subst h
    exact load_fill_zero 8 m q pgSize _ (by omega) (by unfold pgSize; omega)
  · refine load_congr 8 _ _ _ fun x h1 h2 => fill_outside ?_
    unfold pgSize at *
    omega

/-- A word of a page after page `p` was cleared and linked into table `t`. -/
theorem load_linked (hq : q % pgSize = 0) (hp : p % pgSize = 0) (ht : t % pgSize = 0) (hi : i < 512)
    (hj : j < 512) (hlow : p < 2 ^ 56) :
    load 8 (linked m p (t + 8 * i)) (q + 8 * j) =
      if q = t ∧ j = i then tableWord p else if q = p then 0 else load 8 m (q + 8 * j) := by
  unfold linked
  rw [load_store_page hq ht hi hj (tableWord_lt hlow), load_fill_page hq hp hj]

theorem childOf_tableWord (hp : p % pgSize = 0) (hlow : p < 2 ^ 56) :
    childOf (tableWord p) = some p := by
  unfold childOf
  rw [if_pos ⟨isValid_tableWord p, isLeaf_tableWord p⟩, ptePa_tableWord hp hlow]

theorem childOf_zero : childOf 0 = none := rfl

end Words

/-- There are links only above level 0. -/
structure LinksOnly (m : Store) (root : ℕ) : Prop where
  level2 : ∀ i, i < 512 → isLeaf (load 8 m (root + 8 * i)) = false
  level1 : ∀ q, q < 2 ^ 18 → ∀ t, l1At m root (q / 512) = some t →
    isLeaf (load 8 m (t + 8 * (q % 512))) = false

/-- A page table in memory beside the free list, all pages different. -/
structure TableAt (L : Layout) (s : Ram) (root : ℕ) (F : List ℕ) : Prop where
  aligned : root % pgSize = 0
  links : LinksOnly s.mem root
  free : FreeList s.mem s.head F
  managed : ∀ p ∈ F, Managed L p
  nodup : (tablesAt s.mem root + ↑F).Nodup

/-- The tables in memory as a tree. -/
def treeAt (m : Store) (root : ℕ) : Tree := ⟨root, l1At m root, l0At m root, pteAt m root⟩

namespace TableAt

variable {L : Layout} {s : Ram} {root : ℕ} {F : List ℕ}

theorem distinct (h : TableAt L s root F) : (treeAt s.mem root).Distinct :=
  Tree.distinct_of_nodup (nodup_add.mp h.nodup).1

theorem table_aligned (h : TableAt L s root F) {p : ℕ} (hp : p ∈ tablesAt s.mem root) :
    p % pgSize = 0 := tablesAt_aligned h.aligned hp

theorem not_free (h : TableAt L s root F) {p : ℕ} (hp : p ∈ tablesAt s.mem root) : p ∉ F :=
  fun hF => disjoint_left.mp (nodup_add.mp h.nodup).2.2 hp (mem_coe.mpr hF)

theorem l1_mem {m : Store} {i t : ℕ} (hi : i < 512) (h : l1At m root i = some t) :
    t ∈ tablesAt m root := mem_tablesAt.mpr (Or.inr (Or.inl ⟨i, hi, h⟩))

theorem l0_mem {m : Store} {q u : ℕ} (hq : q < 2 ^ 18) (h : l0At m root q = some u) :
    u ∈ tablesAt m root := mem_tablesAt.mpr (Or.inr (Or.inr ⟨q, hq, h⟩))

theorem root_mem {m : Store} : root ∈ tablesAt m root := mem_tablesAt.mpr (Or.inl rfl)

end TableAt

/-- The free list depends on the first words of its pages. -/
theorem FreeList.congr_load {m m' : Store} {hd : ℕ} {F : List ℕ} (h : FreeList m hd F)
    (hm : ∀ p ∈ F, load 8 m' p = load 8 m p) : FreeList m' hd F := by
  induction h with
  | nil => exact .nil
  | cons hp hrest ih =>
    refine .cons hp ?_
    rw [hm _ List.mem_cons_self]
    exact ih fun p hmem => hm p (List.mem_cons_of_mem _ hmem)

section Lookups

variable {m : Store} {root p : ℕ}

theorem l0At_of_l1At {q t : ℕ} (ht : l1At m root (q / 512) = some t) :
    l0At m root q = childOf (load 8 m (t + 8 * (q % 512))) := by
  unfold l0At
  rw [ht, Option.bind_some]

theorem l0At_none {q : ℕ} (h : l1At m root (q / 512) = none) : l0At m root q = none := by
  unfold l0At
  rw [h, Option.bind_none]

theorem pteAt_of_l0At {k u : ℕ} (hu : l0At m root (k / 512) = some u) :
    pteAt m root k = load 8 m (u + 8 * (k % 512)) := by
  unfold pteAt
  rw [hu]

theorem pteAt_none {k : ℕ} (h : l0At m root (k / 512) = none) : pteAt m root k = 0 := by
  unfold pteAt
  rw [h]

/-- What the lookups are after some of them changed. -/
structure Lookups (m' : Store) (root : ℕ) (l1 l0 : ℕ → Option ℕ) (pte : ℕ → ℕ) : Prop where
  l1 : ∀ i, i < 512 → l1At m' root i = l1 i
  l0 : ∀ q, q < 2 ^ 18 → l0At m' root q = l0 q
  pte : ∀ k, k < 2 ^ 27 → pteAt m' root k = pte k

theorem Lookups.tables {m' : Store} {l1 l0 : ℕ → Option ℕ} {pte : ℕ → ℕ}
    (h : Lookups m' root l1 l0 pte) : tablesAt m' root = (⟨root, l1, l0, pte⟩ : Tree).tables := by
  have h1 : ∑ i ∈ rootSlots, pageOf (l1At m' root i) = ∑ i ∈ rootSlots, pageOf (l1 i) :=
    Finset.sum_congr rfl fun i hi => by rw [h.l1 i (mem_rootSlots.mp hi)]
  have h0 : ∑ q ∈ l1Slots, pageOf (l0At m' root q) = ∑ q ∈ l1Slots, pageOf (l0 q) :=
    Finset.sum_congr rfl fun q hq => by rw [h.l0 q (mem_l1Slots.mp hq)]
  unfold tablesAt Tree.tables
  rw [h1, h0]

variable (hd : (treeAt m root).Distinct) (hroot : root % pgSize = 0)
include hd hroot

theorem lookups_link1 (hp : p % pgSize = 0) (hlow : p < 2 ^ 56) (hnew : p ∉ tablesAt m root) {i : ℕ}
    (hi : i < 512) (hnone : l1At m root i = none) :
    Lookups (linked m p (root + 8 * i)) root (update (l1At m root) i (some p))
      (l0At m root) (pteAt m root) := by
  have hne : ∀ t ∈ tablesAt m root, t ≠ p := fun t ht heq => hnew (heq ▸ ht)
  have hword : ∀ t ∈ tablesAt m root, t ≠ root → ∀ j, j < 512 →
      load 8 (linked m p (root + 8 * i)) (t + 8 * j) = load 8 m (t + 8 * j) := by
    intro t ht htr j hj
    rw [load_linked (tablesAt_aligned hroot ht) hp hroot hi hj hlow, if_neg fun h => htr h.1,
      if_neg (hne t ht)]
  have h1 : ∀ j, j < 512 → l1At (linked m p (root + 8 * i)) root j =
      update (l1At m root) i (some p) j := by
    intro j hj
    unfold l1At
    rw [load_linked hroot hp hroot hi hj hlow]
    by_cases hji : j = i
    · subst hji
      rw [if_pos ⟨rfl, rfl⟩, update_self, childOf_tableWord hp hlow]
    · rw [if_neg fun h => hji h.2, if_neg (hne root TableAt.root_mem), update_of_ne hji]
  have h0 : ∀ q, q < 2 ^ 18 → l0At (linked m p (root + 8 * i)) root q = l0At m root q := by
    intro q hq
    by_cases hqi : q / 512 = i
    · have ht : l1At (linked m p (root + 8 * i)) root (q / 512) = some p := by
        rw [h1 _ (by omega), hqi, update_self]
      rw [l0At_of_l1At ht, load_linked hp hp hroot hi (by omega) hlow,
        if_neg fun h => (hne root TableAt.root_mem) h.1.symm, if_pos rfl, l0At_none (by rw [hqi, hnone])]
      rfl
    · have hsame : l1At (linked m p (root + 8 * i)) root (q / 512) = l1At m root (q / 512) := by
        rw [h1 _ (by omega), update_of_ne hqi]
      cases ht : l1At m root (q / 512) with
      | none => rw [l0At_none ht, l0At_none (hsame.trans ht)]
      | some t =>
        rw [l0At_of_l1At ht, l0At_of_l1At (hsame.trans ht),
          hword t (TableAt.l1_mem (by omega) ht) (hd.root_l1 _ t (by omega) ht) _ (by omega)]
  refine ⟨h1, h0, fun k hk => ?_⟩
  have hsame := h0 (k / 512) (by omega)
  cases hu : l0At m root (k / 512) with
  | none => rw [pteAt_none hu, pteAt_none (hsame.trans hu)]
  | some u =>
    rw [pteAt_of_l0At hu, pteAt_of_l0At (hsame.trans hu),
      hword u (TableAt.l0_mem (by omega) hu) (hd.root_l0 _ u (by omega) hu) _ (by omega)]

theorem lookups_link0 (hp : p % pgSize = 0) (hlow : p < 2 ^ 56) (hnew : p ∉ tablesAt m root)
    {q t : ℕ} (hq : q < 2 ^ 18) (ht : l1At m root (q / 512) = some t) (hnone : l0At m root q = none) :
    Lookups (linked m p (t + 8 * (q % 512))) root (l1At m root)
      (update (l0At m root) q (some p)) (pteAt m root) := by
  have hne : ∀ t ∈ tablesAt m root, t ≠ p := fun t ht heq => hnew (heq ▸ ht)
  have htm := TableAt.l1_mem (by omega) ht
  have hta := tablesAt_aligned hroot htm
  have hword : ∀ r ∈ tablesAt m root, r ≠ t → ∀ j, j < 512 →
      load 8 (linked m p (t + 8 * (q % 512))) (r + 8 * j) = load 8 m (r + 8 * j) := by
    intro r hr hrt j hj
    rw [load_linked (tablesAt_aligned hroot hr) hp hta (by omega) hj hlow, if_neg fun h => hrt h.1,
      if_neg (hne r hr)]
  have h1 : ∀ j, j < 512 → l1At (linked m p (t + 8 * (q % 512))) root j = l1At m root j :=
    fun j hj => congrArg childOf
      (hword root TableAt.root_mem (Ne.symm (hd.root_l1 _ t (by omega) ht)) j hj)
  have h0 : ∀ r, r < 2 ^ 18 → l0At (linked m p (t + 8 * (q % 512))) root r =
      update (l0At m root) q (some p) r := by
    intro r hr
    have hsame := h1 (r / 512) (by omega)
    cases ht' : l1At m root (r / 512) with
    | none =>
      have hrq : r ≠ q := by
        rintro rfl
        rw [ht] at ht'
        cases ht'
      rw [l0At_none (hsame.trans ht'), update_of_ne hrq, l0At_none ht']
    | some t' =>
      have ht'm := TableAt.l1_mem (by omega) ht'
      rw [l0At_of_l1At (hsame.trans ht'),
        load_linked (tablesAt_aligned hroot ht'm) hp hta (by omega) (by omega) hlow]
      by_cases hrq : r = q
      · subst hrq
        rw [ht] at ht'
        rw [if_pos ⟨(Option.some.inj ht').symm, rfl⟩, update_self, childOf_tableWord hp hlow]
      · rw [if_neg, if_neg (hne t' ht'm), update_of_ne hrq, l0At_of_l1At ht']
        rintro ⟨rfl, hmod⟩
        have := hd.l1_inj _ _ t' (by omega) (by omega) ht' ht
        omega
  refine ⟨h1, h0, fun k hk => ?_⟩
  have hsame := h0 (k / 512) (by omega)
  by_cases hkq : k / 512 = q
  · have hu : l0At (linked m p (t + 8 * (q % 512))) root (k / 512) = some p := by
      rw [hsame, hkq, update_self]
    rw [pteAt_of_l0At hu, load_linked hp hp hta (by omega) (by omega) hlow,
      if_neg fun h => hne t htm h.1.symm, if_pos rfl, pteAt_none (by rw [hkq, hnone])]
  · rw [update_of_ne hkq] at hsame
    cases hu : l0At m root (k / 512) with
    | none => rw [pteAt_none hu, pteAt_none (hsame.trans hu)]
    | some u =>
      rw [pteAt_of_l0At hu, pteAt_of_l0At (hsame.trans hu),
        hword u (TableAt.l0_mem (by omega) hu)
          (Ne.symm (hd.l1_l0 _ t _ u (by omega) ht (by omega) hu)) _ (by omega)]

theorem lookups_set {k u w : ℕ} (hk : k < 2 ^ 27) (hu : l0At m root (k / 512) = some u)
    (hw : w < 2 ^ 64) :
    Lookups (store 8 m (u + 8 * (k % 512)) w) root (l1At m root) (l0At m root)
      (update (pteAt m root) k w) := by
  have hum := TableAt.l0_mem (by omega) hu
  have hua := tablesAt_aligned hroot hum
  have hword : ∀ r ∈ tablesAt m root, r ≠ u → ∀ j, j < 512 →
      load 8 (store 8 m (u + 8 * (k % 512)) w) (r + 8 * j) = load 8 m (r + 8 * j) := by
    intro r hr hru j hj
    rw [load_store_page (tablesAt_aligned hroot hr) hua (by omega) hj hw, if_neg fun h => hru h.1]
  have h1 : ∀ j, j < 512 → l1At (store 8 m (u + 8 * (k % 512)) w) root j = l1At m root j :=
    fun j hj => congrArg childOf
      (hword root TableAt.root_mem (Ne.symm (hd.root_l0 _ u (by omega) hu)) j hj)
  have h0 : ∀ q, q < 2 ^ 18 → l0At (store 8 m (u + 8 * (k % 512)) w) root q = l0At m root q := by
    intro q hq
    have hsame := h1 (q / 512) (by omega)
    cases ht : l1At m root (q / 512) with
    | none => rw [l0At_none ht, l0At_none (hsame.trans ht)]
    | some t =>
      rw [l0At_of_l1At ht, l0At_of_l1At (hsame.trans ht), hword t (TableAt.l1_mem (by omega) ht)
        (hd.l1_l0 _ t _ u (by omega) ht (by omega) hu) _ (by omega)]
  refine ⟨h1, h0, fun k' hk' => ?_⟩
  have hsame := h0 (k' / 512) (by omega)
  cases hu' : l0At m root (k' / 512) with
  | none =>
    have hne : k' ≠ k := by
      rintro rfl
      rw [hu] at hu'
      cases hu'
    rw [pteAt_none (hsame.trans hu'), update_of_ne hne, pteAt_none hu']
  | some u' =>
    rw [pteAt_of_l0At (hsame.trans hu'), load_store_page
      (tablesAt_aligned hroot (TableAt.l0_mem (by omega) hu')) hua (by omega) (by omega) hw]
    by_cases hkk : k' = k
    · subst hkk
      rw [hu] at hu'
      rw [if_pos ⟨(Option.some.inj hu').symm, rfl⟩, update_self]
    · rw [if_neg, update_of_ne hkk, pteAt_of_l0At hu']
      rintro ⟨rfl, hmod⟩
      have := hd.l0_inj _ _ u' (by omega) (by omega) hu' hu
      omega

end Lookups

end ToyOs
