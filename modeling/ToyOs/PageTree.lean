import ToyOs.Vm
import ToyOs.Lib.Sums
import Mathlib.Data.Nat.Bitwise

/-!
The three-level page table as a tree. `Tree` lists the table pages and the
level-0 entries of one address space; `Rep` says that memory holds exactly
this tree. `Space` joins a tree to the free list and to a frame of further
pages, all different, and is what the operations on page tables keep.
-/
namespace ToyOs

open Bytes Multiset Nat

section Words

variable {pa flags : ℕ}

private theorem shiftLeft_and_low (x mask : ℕ) (h : mask < 1024) : (x <<< 10) &&& mask = 0 := by
  apply Nat.eq_of_testBit_eq
  intro i
  simp only [Nat.testBit_and, Nat.testBit_shiftLeft, Nat.zero_testBit]
  by_cases hi : 10 ≤ i
  · have hmask : mask.testBit i = false :=
      Nat.testBit_lt_two_pow
        (lt_of_lt_of_le h (Nat.pow_le_pow_right (by decide : 0 < 2) hi))
    simp [hmask]
  · simp [hi]

private theorem word_and_low (x g mask : ℕ) (h : mask < 1024) :
    ((x <<< 10) ||| g) &&& mask = g &&& mask := by
  rw [and_or_distrib_right, shiftLeft_and_low x mask h, zero_or]

private theorem ptePa_word (t g : ℕ) (h : t % pgSize = 0) (h' : t < 2 ^ 56) (hg : g < 1024) :
    ptePa (((t >>> 12) <<< 10) ||| g) = t := by
  have hshift : (((t >>> 12) <<< 10) ||| g) >>> 10 = t >>> 12 := by
    rw [shiftRight_or_distrib, shiftLeft_shiftRight,
      shiftRight_eq_zero g 10 (by simpa using hg), or_zero]
  have hmask : (1 <<< 44 - 1 : ℕ) = 2 ^ 44 - 1 := by decide
  unfold ptePa
  rw [hshift, hmask, and_two_pow_sub_one_eq_mod, shiftRight_eq_div_pow, shiftLeft_eq]
  unfold pgSize at h
  omega

theorem leafWord_eq (pa flags : ℕ) :
    leafWord pa flags = ((pa >>> 12) <<< 10) ||| (flags ||| 193) := by
  simp only [leafWord, Nat.or_assoc]
  rfl

private theorem flags_lt {flags : ℕ} (h : flags < 1024) : flags ||| 193 < 1024 :=
  or_lt_two_pow (n := 10) h (by decide)

theorem isValid_tableWord (t : ℕ) : isValid (tableWord t) = true := by
  unfold isValid tableWord
  rw [word_and_low _ _ _ (by decide)]
  decide

theorem isLeaf_tableWord (t : ℕ) : isLeaf (tableWord t) = false := by
  unfold isLeaf
  rw [isValid_tableWord]
  unfold tableWord
  rw [word_and_low _ _ _ (by decide)]
  decide

theorem ptePa_tableWord {t : ℕ} (h : t % pgSize = 0) (h' : t < 2 ^ 56) :
    ptePa (tableWord t) = t := ptePa_word t pteV h h' (by decide)

theorem tableWord_lt {t : ℕ} (h' : t < 2 ^ 56) : tableWord t < 2 ^ 64 := by
  unfold tableWord
  refine or_lt_two_pow ?_ (by decide)
  rw [shiftRight_eq_div_pow, shiftLeft_eq]
  omega

theorem leafWord_lt (h : pa < 2 ^ 60) (hf : flags < 2 ^ 64) :
    leafWord pa flags < 2 ^ 64 := by
  rw [leafWord_eq]
  refine or_lt_two_pow ?_ (or_lt_two_pow hf (by decide))
  rw [shiftRight_eq_div_pow, shiftLeft_eq]
  omega

theorem ptePa_leafWord (h : pa % pgSize = 0) (h' : pa < 2 ^ 56) (hf : flags < 1024) :
    ptePa (leafWord pa flags) = pa := by
  rw [leafWord_eq]
  exact ptePa_word pa _ h h' (flags_lt hf)

theorem leafWord_and {pa flags mask : ℕ} (hm : mask < 1024) :
    leafWord pa flags &&& mask = (flags ||| 193) &&& mask := by
  rw [leafWord_eq, word_and_low _ _ _ hm]

theorem pteFlags_leafWord (h : flags < 1024) :
    pteFlags (leafWord pa flags) = flags ||| pteV ||| pteA ||| pteD := by
  have hlow : flags ||| 193 < 2 ^ 10 := Nat.or_lt_two_pow h (by decide)
  have hmask : ∀ x, x &&& 0x3ff = x % 2 ^ 10 := fun x => Nat.and_two_pow_sub_one_eq_mod x 10
  unfold pteFlags
  rw [leafWord_and (by decide), hmask, Nat.mod_eq_of_lt hlow, Nat.or_assoc, Nat.or_assoc]
  rfl

theorem isValid_leafWord (pa flags : ℕ) : isValid (leafWord pa flags) = true := by
  unfold isValid
  rw [leafWord_and (by decide)]
  have hodd : (flags ||| 193) &&& 1 = 1 := by
    rw [and_or_distrib_right]
    apply eq_of_testBit_eq
    intro i
    simp only [testBit_or, testBit_and]
    cases i with
    | zero => simp
    | succ i => simp [testBit_succ]
  simp [pteV, hodd]

/-- A leaf word is a leaf exactly when it grants some access. -/
theorem isLeaf_leafWord (pa flags : ℕ) :
    isLeaf (leafWord pa flags) = (flags &&& (pteR ||| pteW ||| pteX) != 0) := by
  unfold isLeaf
  rw [isValid_leafWord, leafWord_and (by decide), and_or_distrib_right]
  have hlow : 193 &&& (pteR ||| pteW ||| pteX) = 0 := by decide
  rw [hlow, or_zero, Bool.true_and]

theorem isValid_zero : isValid 0 = false := rfl

theorem ptePa_aligned (w : ℕ) : ptePa w % pgSize = 0 := by
  unfold ptePa
  rw [shiftLeft_eq]
  exact mul_mod_left _ _

theorem isValid_of_isLeaf {w : ℕ} (h : isLeaf w = true) : isValid w = true := by
  unfold isLeaf at h
  exact (Bool.and_eq_true _ _ ▸ h).1

end Words

/-- The 27-bit page index that the three levels of a walk split. -/
def vpn (va : ℕ) : ℕ := va / pgSize % 2 ^ 27

theorem vpn_lt (va : ℕ) : vpn va < 2 ^ 27 := mod_lt _ (by decide)

private theorem and_511 (x : ℕ) : x &&& 0x1ff = x % 512 :=
  and_two_pow_sub_one_eq_mod x 9

theorem index_level2 (va : ℕ) : (va >>> (12 + 9 * 2)) &&& 0x1ff = vpn va / 512 / 512 := by
  rw [and_511, shiftRight_eq_div_pow]
  unfold vpn pgSize
  omega

theorem index_level1 (va : ℕ) : (va >>> (12 + 9 * 1)) &&& 0x1ff = vpn va / 512 % 512 := by
  rw [and_511, shiftRight_eq_div_pow]
  unfold vpn pgSize
  omega

theorem index_level0 (va : ℕ) : (va >>> 12) &&& 0x1ff = vpn va % 512 := by
  rw [and_511, shiftRight_eq_div_pow]
  unfold vpn pgSize
  omega

/-- The table pages of an address space and its level-0 entries. The tables
of level 1 are indexed by 9 bits, those of level 0 by 18. -/
structure Tree where
  root : ℕ
  l1 : ℕ → Option ℕ
  l0 : ℕ → Option ℕ
  pte : ℕ → ℕ

variable {T : Tree}

/-- The word that links a table, or 0. -/
def linkWord : Option ℕ → ℕ
  | none => 0
  | some t => tableWord t

/-- Memory holds the tree. -/
structure Rep (m : Store) (T : Tree) : Prop where
  root_entry : ∀ i, i < 512 → load 8 m (T.root + 8 * i) = linkWord (T.l1 i)
  l1_entry : ∀ q, q < 2 ^ 18 → ∀ t, T.l1 (q / 512) = some t →
    load 8 m (t + 8 * (q % 512)) = linkWord (T.l0 q)
  l0_entry : ∀ k, k < 2 ^ 27 → ∀ u, T.l0 (k / 512) = some u →
    load 8 m (u + 8 * (k % 512)) = T.pte k
  l0_none : ∀ q, q < 2 ^ 18 → T.l1 (q / 512) = none → T.l0 q = none
  pte_none : ∀ k, k < 2 ^ 27 → T.l0 (k / 512) = none → T.pte k = 0

def pageOf : Option ℕ → Multiset ℕ
  | none => 0
  | some t => {t}

/-- Indices of the entries of the root. -/
@[irreducible] def rootSlots : Finset ℕ := Finset.range 512

/-- Indices of the entries of all level-1 tables. -/
@[irreducible] def l1Slots : Finset ℕ := Finset.range (2 ^ 18)

theorem mem_rootSlots {i : ℕ} : i ∈ rootSlots ↔ i < 512 := by
  unfold rootSlots
  exact Finset.mem_range

theorem mem_l1Slots {q : ℕ} : q ∈ l1Slots ↔ q < 2 ^ 18 := by
  unfold l1Slots
  exact Finset.mem_range

/-- All table pages. -/
def Tree.tables (T : Tree) : Multiset ℕ :=
  {T.root} + ∑ i ∈ rootSlots, pageOf (T.l1 i) + ∑ q ∈ l1Slots, pageOf (T.l0 q)

@[simp]
theorem pageOf_none : pageOf none = 0 := rfl

@[simp]
theorem pageOf_some (t : ℕ) : pageOf (some t) = {t} := rfl

theorem mem_pageOf {p : ℕ} {o : Option ℕ} : p ∈ pageOf o ↔ o = some p := by
  cases o with
  | none => simp [pageOf]
  | some t => simp [pageOf, eq_comm]

theorem Tree.mem_tables {p : ℕ} :
    p ∈ T.tables ↔ p = T.root ∨ (∃ i, i < 512 ∧ T.l1 i = some p) ∨
      (∃ q, q < 2 ^ 18 ∧ T.l0 q = some p) := by
  simp only [Tree.tables, mem_add, mem_singleton, mem_sum,
    mem_rootSlots, mem_l1Slots, mem_pageOf, or_assoc]

theorem Tree.root_mem (T : Tree) : T.root ∈ T.tables := Tree.mem_tables.mpr (Or.inl rfl)

theorem Tree.l1_mem {i t : ℕ} (hi : i < 512) (h : T.l1 i = some t) : t ∈ T.tables :=
  Tree.mem_tables.mpr (Or.inr (Or.inl ⟨i, hi, h⟩))

theorem Tree.l0_mem {q u : ℕ} (hq : q < 2 ^ 18) (h : T.l0 q = some u) :
    u ∈ T.tables := Tree.mem_tables.mpr (Or.inr (Or.inr ⟨q, hq, h⟩))

/-- The tables of a tree without repeated pages are told apart. -/
structure Tree.Distinct (T : Tree) : Prop where
  root_l1 : ∀ i t, i < 512 → T.l1 i = some t → t ≠ T.root
  root_l0 : ∀ q u, q < 2 ^ 18 → T.l0 q = some u → u ≠ T.root
  l1_l0 : ∀ i t q u, i < 512 → T.l1 i = some t → q < 2 ^ 18 → T.l0 q = some u → t ≠ u
  l1_inj : ∀ i j t, i < 512 → j < 512 → T.l1 i = some t → T.l1 j = some t → i = j
  l0_inj : ∀ q r u, q < 2 ^ 18 → r < 2 ^ 18 → T.l0 q = some u → T.l0 r = some u → q = r

theorem Tree.distinct_of_nodup (h : T.tables.Nodup) : T.Distinct := by
  obtain ⟨h1, h0, hd⟩ := nodup_add.mp h
  obtain ⟨-, h1', hr⟩ := nodup_add.mp h1
  have hl1 : ∀ i t, i < 512 → T.l1 i = some t → t ∈ ∑ i ∈ rootSlots, pageOf (T.l1 i) :=
    fun i t hi ht => mem_sum.mpr ⟨i, mem_rootSlots.mpr hi, mem_pageOf.mpr ht⟩
  have hl0 : ∀ q u, q < 2 ^ 18 → T.l0 q = some u →
      u ∈ ∑ q ∈ l1Slots, pageOf (T.l0 q) :=
    fun q u hq hu => mem_sum.mpr ⟨q, mem_l1Slots.mpr hq, mem_pageOf.mpr hu⟩
  refine ⟨?_, ?_, ?_, ?_, ?_⟩
  · intro i t hi ht heq
    exact disjoint_left.mp hr (mem_singleton.mpr heq) (hl1 i t hi ht)
  · intro q u hq hu heq
    refine disjoint_left.mp hd ?_ (hl0 q u hq hu)
    exact mem_add.mpr (Or.inl (mem_singleton.mpr heq))
  · intro i t q u hi ht hq hu heq
    subst heq
    exact disjoint_left.mp hd (mem_add.mpr (Or.inr (hl1 i t hi ht)))
      (hl0 q t hq hu)
  · intro i j t hi hj ht ht'
    exact Sums.eq_of_mem_of_nodup_sum h1' (mem_rootSlots.mpr hi) (mem_rootSlots.mpr hj)
      (mem_pageOf.mpr ht) (mem_pageOf.mpr ht')
  · intro q r u hq hr hu hu'
    exact Sums.eq_of_mem_of_nodup_sum h0 (mem_l1Slots.mpr hq) (mem_l1Slots.mpr hr)
      (mem_pageOf.mpr hu) (mem_pageOf.mpr hu')

variable {L : Layout}

/-- The tree does not depend on memory outside its tables. -/
theorem Rep.congr {m m' : Store} {P : Multiset ℕ} (h : Rep m T) (hm : AgreeOff P m m')
    (hP : ∀ p ∈ P, Managed L p) (hT : ∀ p ∈ T.tables, Managed L p) (hd : ∀ p ∈ T.tables, p ∉ P) :
    Rep m' T := by
  have hload : ∀ p, p ∈ T.tables → ∀ i, i < 512 → load 8 m' (p + 8 * i) = load 8 m (p + 8 * i) := by
    intro p hp i hi
    exact hm.load (hT p hp) hP (hd p hp) (by omega) (by unfold pgSize; omega)
  refine ⟨?_, ?_, ?_, h.l0_none, h.pte_none⟩
  · intro i hi
    rw [hload _ T.root_mem i hi]
    exact h.root_entry i hi
  · intro q hq t ht
    rw [hload t (Tree.l1_mem (by omega) ht) _ (by omega)]
    exact h.l1_entry q hq t ht
  · intro k hk u hu
    rw [hload u (Tree.l0_mem (by omega) hu) _ (by omega)]
    exact h.l0_entry k hk u hu

end ToyOs
