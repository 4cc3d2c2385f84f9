import ToyOs.Unmap

/-!
Page tables as memory holds them. `pteAt` follows the three levels the way
the hardware does, `tablesAt` and `mappedAt` collect the pages of an address
space. A tree that represents memory agrees with them, so statements about
memory need not mention a tree.
-/
namespace ToyOs

open Bytes Prog Multiset

/-- The table a valid word that is no leaf points to. -/
def childOf (w : ℕ) : Option ℕ := if isValid w ∧ isLeaf w = false then some (ptePa w) else none

/-- The level-1 table with index `i`. -/
def l1At (m : Store) (root i : ℕ) : Option ℕ := childOf (load 8 m (root + 8 * i))

/-- The level-0 table with index `q` of 18 bits. -/
def l0At (m : Store) (root q : ℕ) : Option ℕ :=
  (l1At m root (q / 512)).bind fun t => childOf (load 8 m (t + 8 * (q % 512)))

/-- The level-0 entry of a virtual page, 0 when there is no table for it. -/
def pteAt (m : Store) (root k : ℕ) : ℕ :=
  match l0At m root (k / 512) with
  | none => 0
  | some u => load 8 m (u + 8 * (k % 512))

/-- The pages of the tables. -/
def tablesAt (m : Store) (root : ℕ) : Multiset ℕ :=
  {root} + ∑ i ∈ rootSlots, pageOf (l1At m root i) + ∑ q ∈ l1Slots, pageOf (l0At m root q)

section Lookup

variable {m m' : Store} {root : ℕ}

theorem childOf_aligned {w t : ℕ} (h : childOf w = some t) : t % pgSize = 0 := by
  unfold childOf at h
  split_ifs at h
  obtain rfl := Option.some.inj h
  exact ptePa_aligned w

theorem mem_tablesAt {p : ℕ} :
    p ∈ tablesAt m root ↔ p = root ∨ (∃ i, i < 512 ∧ l1At m root i = some p) ∨
      (∃ q, q < 2 ^ 18 ∧ l0At m root q = some p) := by
  unfold tablesAt
  simp only [mem_add, mem_singleton, mem_sum, mem_rootSlots,
    mem_l1Slots, mem_pageOf, or_assoc]

theorem tablesAt_aligned {p : ℕ} (hroot : root % pgSize = 0) (hp : p ∈ tablesAt m root) :
    p % pgSize = 0 := by
  rcases mem_tablesAt.mp hp with rfl | ⟨i, -, hi⟩ | ⟨q, -, hq⟩
  · exact hroot
  · exact childOf_aligned hi
  · obtain ⟨t, -, ht⟩ := Option.bind_eq_some_iff.mp hq
    exact childOf_aligned ht

/-- The words of the tables are the same. -/
def SameWords (m m' : Store) (root : ℕ) : Prop :=
  ∀ p ∈ tablesAt m root, ∀ i, i < 512 → load 8 m' (p + 8 * i) = load 8 m (p + 8 * i)

theorem sameWords_of_bytes
    (h : ∀ p ∈ tablesAt m root, ∀ j, j < pgSize → m' (p + j) = m (p + j)) : SameWords m m' root := by
  intro p hp i hi
  refine load_congr 8 _ _ _ fun x h1 h2 => ?_
  have := h p hp (x - p) (by unfold pgSize; omega)
  rwa [show p + (x - p) = x by omega] at this

namespace SameWords

variable (h : SameWords m m' root)
include h

theorem l1At {i : ℕ} (hi : i < 512) : l1At m' root i = ToyOs.l1At m root i :=
  congrArg childOf (h root (mem_tablesAt.mpr (Or.inl rfl)) i hi)

theorem l0At {q : ℕ} (hq : q < 2 ^ 18) : l0At m' root q = ToyOs.l0At m root q := by
  unfold ToyOs.l0At
  rw [h.l1At (by omega)]
  cases ht : ToyOs.l1At m root (q / 512) with
  | none => rfl
  | some t =>
    exact congrArg childOf
      (h t (mem_tablesAt.mpr (Or.inr (Or.inl ⟨q / 512, by omega, ht⟩))) _ (by omega))

/-- The lookup depends on the tables only. -/
theorem pteAt {k : ℕ} (hk : k < 2 ^ 27) : pteAt m' root k = ToyOs.pteAt m root k := by
  unfold ToyOs.pteAt
  rw [h.l0At (by omega)]
  cases hu : ToyOs.l0At m root (k / 512) with
  | none => rfl
  | some u => exact h u (mem_tablesAt.mpr (Or.inr (Or.inr ⟨k / 512, by omega, hu⟩))) _ (by omega)

theorem tablesAt : tablesAt m' root = ToyOs.tablesAt m root := by
  have h1 : ∑ i ∈ rootSlots, pageOf (ToyOs.l1At m' root i) =
      ∑ i ∈ rootSlots, pageOf (ToyOs.l1At m root i) :=
    Finset.sum_congr rfl fun i hi => by rw [h.l1At (mem_rootSlots.mp hi)]
  have h0 : ∑ q ∈ l1Slots, pageOf (ToyOs.l0At m' root q) =
      ∑ q ∈ l1Slots, pageOf (ToyOs.l0At m root q) :=
    Finset.sum_congr rfl fun q hq => by rw [h.l0At (mem_l1Slots.mp hq)]
  unfold ToyOs.tablesAt
  rw [h1, h0]

end SameWords

theorem walkLevels_cons (va level pt : ℕ) (rest : List ℕ) (s : Ram) :
    walkLevels va false (level :: rest) pt s =
      match childOf (load 8 s.mem (pt + 8 * ((va >>> (12 + 9 * level)) &&& 0x1ff))) with
      | none => .ok (none, s)
      | some t => walkLevels va false rest t s := by
  generalize hw : load 8 s.mem (pt + 8 * ((va >>> (12 + 9 * level)) &&& 0x1ff)) = w
  have hread : loadPte (pt + 8 * ((va >>> (12 + 9 * level)) &&& 0x1ff)) s = .ok (w, s) := by
    rw [← hw]
    rfl
  rw [walkLevels, bind_ok hread]
  cases hv : isValid w with
  | false => simp [childOf, hv, pure]
  | true =>
    cases hl : isLeaf w with
    | true => simp [childOf, hv, hl, pure]
    | false => simp [childOf, hv, hl]

/-- A walk without allocation reads the entry of any table in memory. -/
theorem walk_at (root va : ℕ) (s : Ram) :
    walk root va false s =
      .ok ((l0At s.mem root (vpn va / 512)).map fun u => u + 8 * (vpn va % 512), s) := by
  have hlevels : walkLevels va false [2, 1] root s = .ok (l0At s.mem root (vpn va / 512), s) := by
    rw [walkLevels_cons, index_level2]
    unfold l0At l1At
    cases childOf (load 8 s.mem (root + 8 * (vpn va / 512 / 512))) with
    | none => rfl
    | some t =>
      rw [Option.bind_some]
      simp only [walkLevels_cons, index_level1]
      cases childOf (load 8 s.mem (t + 8 * (vpn va / 512 % 512))) <;> rfl
  unfold walk
  rw [bind_ok hlevels, index_level0]
  cases l0At s.mem root (vpn va / 512) <;> rfl

end Lookup

section Agreement

variable {L : Layout} {m : Store} {T : Tree}

theorem childOf_linkWord {o : Option ℕ} (h : ∀ t, o = some t → Managed L t) :
    childOf (linkWord o) = o := by
  cases o with
  | none => rfl
  | some t =>
    have ht := h t rfl
    unfold childOf linkWord
    rw [if_pos ⟨isValid_tableWord t, isLeaf_tableWord t⟩,
      ptePa_tableWord ht.aligned (by have := ht.lt; omega)]

theorem Rep.l1At (h : Rep m T) (hT : ∀ p ∈ T.tables, Managed L p) {i : ℕ} (hi : i < 512) :
    l1At m T.root i = T.l1 i := by
  unfold ToyOs.l1At
  rw [h.root_entry i hi]
  exact childOf_linkWord (L := L) fun t ht => hT t (Tree.l1_mem hi ht)

theorem Rep.l0At (h : Rep m T) (hT : ∀ p ∈ T.tables, Managed L p) {q : ℕ} (hq : q < 2 ^ 18) :
    l0At m T.root q = T.l0 q := by
  unfold ToyOs.l0At
  rw [h.l1At hT (by omega)]
  cases ht : T.l1 (q / 512) with
  | none => rw [Option.bind_none, h.l0_none q hq ht]
  | some t =>
    rw [Option.bind_some, h.l1_entry q hq t ht]
    exact childOf_linkWord (L := L) fun u hu => hT u (Tree.l0_mem hq hu)

theorem Rep.pteAt (h : Rep m T) (hT : ∀ p ∈ T.tables, Managed L p) {k : ℕ} (hk : k < 2 ^ 27) :
    pteAt m T.root k = T.pte k := by
  unfold ToyOs.pteAt
  rw [h.l0At hT (by omega)]
  cases hu : T.l0 (k / 512) with
  | none => exact (h.pte_none k hk hu).symm
  | some u => exact h.l0_entry k hk u hu

theorem Rep.tablesAt (h : Rep m T) (hT : ∀ p ∈ T.tables, Managed L p) :
    tablesAt m T.root = T.tables := by
  unfold ToyOs.tablesAt Tree.tables
  congr 1
  · congr 1
    exact Finset.sum_congr rfl fun i hi => by rw [h.l1At hT (mem_rootSlots.mp hi)]
  · exact Finset.sum_congr rfl fun q hq => by rw [h.l0At hT (mem_l1Slots.mp hq)]

end Agreement

end ToyOs
