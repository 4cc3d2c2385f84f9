import ToyOs.PageTree

/-!
What `walk` and `mappages` do to a page-table tree. The free list, the
tables and a frame of other pages stay apart: a missing table is taken from
the free list, cleared and linked, and only the tables and the free pages
change in memory.
-/
namespace ToyOs

open Bytes Prog Function List Multiset Finset

/-- A tree in memory beside the free list and a frame `R` of other pages. -/
structure Space (L : Layout) (s : Ram) (T : Tree) (F : List ℕ) (R : Multiset ℕ) : Prop where
  rep : Rep s.mem T
  free : FreeList s.mem s.head F
  nodup : (T.tables + ↑F + R).Nodup
  managed : ∀ p ∈ T.tables + ↑F + R, Managed L p

namespace Space

variable {L : Layout} {s : Ram} {T : Tree} {F : List ℕ} {R : Multiset ℕ}

theorem table_managed (h : Space L s T F R) {p : ℕ} (hp : p ∈ T.tables) : Managed L p :=
  h.managed p (mem_add.mpr (Or.inl (mem_add.mpr (Or.inl hp))))

theorem free_managed (h : Space L s T F R) {p : ℕ} (hp : p ∈ F) : Managed L p :=
  h.managed p (mem_add.mpr (Or.inl (mem_add.mpr (Or.inr hp))))

theorem frame_managed (h : Space L s T F R) {p : ℕ} (hp : p ∈ R) : Managed L p :=
  h.managed p (mem_add.mpr (Or.inr hp))

theorem pool_nodup (h : Space L s T F R) : (T.tables + ↑F).Nodup :=
  (nodup_add.mp h.nodup).1

theorem distinct (h : Space L s T F R) : T.Distinct :=
  Tree.distinct_of_nodup (nodup_add.mp h.pool_nodup).1

theorem free_nodup (h : Space L s T F R) : F.Nodup :=
  coe_nodup.mp (nodup_add.mp h.pool_nodup).2.1

theorem table_not_free (h : Space L s T F R) {p : ℕ} (hp : p ∈ T.tables) : p ∉ F :=
  fun hf => disjoint_left.mp (nodup_add.mp h.pool_nodup).2.2 hp hf

theorem table_not_frame (h : Space L s T F R) {p : ℕ} (hp : p ∈ T.tables) : p ∉ R :=
  fun hr => disjoint_left.mp (nodup_add.mp h.nodup).2.2
    (mem_add.mpr (Or.inl hp)) hr

theorem free_not_frame (h : Space L s T F R) {p : ℕ} (hp : p ∈ F) : p ∉ R :=
  fun hr => disjoint_left.mp (nodup_add.mp h.nodup).2.2
    (mem_add.mpr (Or.inr hp)) hr

/-- The pool of tables and free pages is all that an operation may change. -/
theorem pool_managed (h : Space L s T F R) : ∀ p ∈ T.tables + (↑F : Multiset ℕ), Managed L p :=
  fun p hp => h.managed p (mem_add.mpr (Or.inl hp))

/-- Trade pages between the tree, the free list and the frame. -/
theorem of_pool_eq (h : Space L s T F R) {s' : Ram} {T' : Tree} {F' : List ℕ} {R' : Multiset ℕ}
    (hpool : T'.tables + ↑F' + R' = T.tables + ↑F + R) (hrep : Rep s'.mem T')
    (hfree : FreeList s'.mem s'.head F') : Space L s' T' F' R' where
  rep := hrep
  free := hfree
  nodup := hpool ▸ h.nodup
  managed := fun p hp => h.managed p (hpool ▸ hp)

end Space

/-- A tree may only grow by tables from the free list. -/
structure Grow (T T' : Tree) (F F' : List ℕ) : Prop where
  root : T'.root = T.root
  pte : T'.pte = T.pte
  pool : T'.tables + (↑F' : Multiset ℕ) = T.tables + ↑F

theorem Grow.refl (T : Tree) (F : List ℕ) : Grow T T F F := ⟨rfl, rfl, rfl⟩

theorem Grow.trans {T T' T'' : Tree} {F F' F'' : List ℕ} (h : Grow T T' F F')
    (h' : Grow T' T'' F' F'') : Grow T T'' F F'' :=
  ⟨h'.root.trans h.root, h'.pte.trans h.pte, h'.pool.trans h.pool⟩

def Tree.addL1 (T : Tree) (i p : ℕ) : Tree := { T with l1 := Function.update T.l1 i (some p) }

def Tree.addL0 (T : Tree) (q p : ℕ) : Tree := { T with l0 := Function.update T.l0 q (some p) }

def Tree.setPte (T : Tree) (k w : ℕ) : Tree := { T with pte := Function.update T.pte k w }

theorem Tree.tables_addL1 {T : Tree} {i p : ℕ} (hi : i < 512) (hn : T.l1 i = none) :
    (T.addL1 i p).tables = T.tables + {p} := by
  have h := Sums.sum_comp_update_add rootSlots pageOf T.l1 i (mem_rootSlots.mpr hi) (some p)
  simp only [hn, pageOf_none, pageOf_some, add_zero] at h
  simp only [Tree.tables, Tree.addL1, h]
  rw [← add_assoc, add_right_comm]

theorem Tree.tables_addL0 {T : Tree} {q p : ℕ} (hq : q < 2 ^ 18) (hn : T.l0 q = none) :
    (T.addL0 q p).tables = T.tables + {p} := by
  have h := Sums.sum_comp_update_add l1Slots pageOf T.l0 q (mem_l1Slots.mpr hq) (some p)
  simp only [hn, pageOf_none, pageOf_some, add_zero] at h
  simp only [Tree.tables, Tree.addL0, h]
  rw [← add_assoc]

theorem Tree.tables_setPte (T : Tree) (k w : ℕ) : (T.setPte k w).tables = T.tables := rfl

/-- The tables that the entries `V` need and the tree does not have. -/
def Tree.lack (T : Tree) (V : Finset ℕ) : ℕ :=
  {i ∈ V.image (· / 512 / 512) | T.l1 i = none}.card + {q ∈ V.image (· / 512) | T.l0 q = none}.card

/-- The pages it takes to map pages at the entries `V`. -/
def Tree.need (T : Tree) (V : Finset ℕ) : ℕ := V.card + T.lack V

/-- The tables of `T'` are those of `T` and the missing ones for the entries `V`. -/
structure Tree.Tabled (T : Tree) (V : Finset ℕ) (T' : Tree) : Prop where
  l1 : ∀ i, T'.l1 i = none ↔ T.l1 i = none ∧ i ∉ V.image (· / 512 / 512)
  l0 : ∀ q, T'.l0 q = none ↔ T.l0 q = none ∧ q ∉ V.image (· / 512)

section Tables

variable {T T' T'' : Tree} {V W : Finset ℕ} {k : ℕ}

theorem card_filter_union (A B : Finset ℕ) (p : ℕ → Prop) [DecidablePred p] :
    {x ∈ A ∪ B | p x}.card = {x ∈ A | p x}.card + {x ∈ B | p x ∧ x ∉ A}.card := by
  have hsplit : {x ∈ A ∪ B | p x} = {x ∈ A | p x} ∪ {x ∈ B | p x ∧ x ∉ A} := by
    ext x
    simp only [Finset.mem_filter, Finset.mem_union]
    tauto
  rw [hsplit, Finset.card_union_of_disjoint]
  rw [Finset.disjoint_left]
  simp only [Finset.mem_filter]
  tauto

theorem Tree.Tabled.lack_union (h : T.Tabled V T') : T.lack (V ∪ W) = T.lack V + T'.lack W := by
  unfold Tree.lack
  simp only [image_union, card_filter_union, h.l1, h.l0]
  omega

theorem Tree.Tabled.trans (h : T.Tabled V T') (h' : T'.Tabled W T'') : T.Tabled (V ∪ W) T'' where
  l1 i := by
    rw [h'.l1, h.l1, Finset.image_union, Finset.mem_union]
    tauto
  l0 q := by
    rw [h'.l0, h.l0, Finset.image_union, Finset.mem_union]
    tauto

theorem Tree.Tabled.refl (T : Tree) : T.Tabled ∅ T := ⟨by simp, by simp⟩

theorem Tree.lack_mono (T : Tree) (h : V ⊆ W) : T.lack V ≤ T.lack W :=
  Nat.add_le_add (card_le_card (filter_subset_filter _ (image_subset_image h)))
    (card_le_card (filter_subset_filter _ (image_subset_image h)))

theorem Tree.need_mono (T : Tree) (h : V ⊆ W) : T.need V ≤ T.need W :=
  Nat.add_le_add (card_le_card h) (T.lack_mono h)

theorem Tree.lack_singleton (T : Tree) (k : ℕ) :
    T.lack {k} = (if T.l1 (k / 512 / 512) = none then 1 else 0) +
      if T.l0 (k / 512) = none then 1 else 0 := by
  unfold Tree.lack
  simp only [Finset.image_singleton, Finset.filter_singleton]
  split_ifs <;> simp

/-- A page and its two tables at most. -/
theorem Tree.need_card_le (T : Tree) (V : Finset ℕ) : T.need V ≤ 3 * V.card := by
  have h1 := le_trans (card_filter_le (V.image (· / 512 / 512)) (T.l1 · = none))
    card_image_le
  have h0 := le_trans (card_filter_le (V.image (· / 512)) (T.l0 · = none))
    card_image_le
  unfold Tree.need Tree.lack
  omega

theorem Tree.need_singleton (T : Tree) (k : ℕ) : T.need {k} = 1 + T.lack {k} := by
  rw [Tree.need, Finset.card_singleton]

theorem Tree.need_le (T : Tree) (k : ℕ) : T.need {k} ≤ 3 :=
  T.need_card_le {k}

theorem Tree.tabled_of_some {t u : ℕ} (ht : T.l1 (k / 512 / 512) = some t)
    (hu : T.l0 (k / 512) = some u) : T.Tabled {k} T where
  l1 i := by
    rw [Finset.image_singleton, Finset.mem_singleton, iff_self_and]
    rintro hn rfl
    exact absurd (ht.symm.trans hn) (by simp)
  l0 q := by
    rw [Finset.image_singleton, Finset.mem_singleton, iff_self_and]
    rintro hn rfl
    exact absurd (hu.symm.trans hn) (by simp)

theorem Tree.tabled_addL0 {t p : ℕ} (ht : T.l1 (k / 512 / 512) = some t) :
    T.Tabled {k} (T.addL0 (k / 512) p) where
  l1 i := by
    rw [Finset.image_singleton, Finset.mem_singleton, Tree.addL0, iff_self_and]
    rintro hn rfl
    exact absurd (ht.symm.trans hn) (by simp)
  l0 q := by
    rw [Finset.image_singleton, Finset.mem_singleton, Tree.addL0]
    by_cases hq : q = k / 512
    · simp [hq]
    · simp [hq]

/-- The tables for an entry, with its level-1 table made first. -/
theorem Tree.Tabled.of_addL1 {p : ℕ} (h : (T.addL1 (k / 512 / 512) p).Tabled {k} T') :
    T.Tabled {k} T' where
  l1 i := by
    rw [h.l1, Finset.image_singleton, Finset.mem_singleton, Tree.addL1]
    by_cases hi : i = k / 512 / 512
    · simp [hi]
    · simp [hi]
  l0 := h.l0

theorem Tree.lack_addL1 (p : ℕ) (hn : T.l1 (k / 512 / 512) = none) :
    T.lack {k} = 1 + (T.addL1 (k / 512 / 512) p).lack {k} := by
  have hl0 : (T.addL1 (k / 512 / 512) p).l0 = T.l0 := rfl
  have hl1 : (T.addL1 (k / 512 / 512) p).l1 (k / 512 / 512) = some p := by simp [Tree.addL1]
  rw [Tree.lack_singleton, Tree.lack_singleton, if_pos hn, hl0, hl1,
    if_neg (Option.some_ne_none p), Nat.zero_add]

end Tables

theorem pool_cons (A : Multiset ℕ) (p : ℕ) (F : List ℕ) (R : Multiset ℕ) :
    A + {p} + ↑F + R = A + ↑(p :: F) + R := by
  rw [← cons_coe, ← singleton_add, add_assoc A]

section Attach

variable {L : Layout} {s : Ram} {T : Tree} {F : List ℕ} {R : Multiset ℕ} {p hd : ℕ}

/-- Memory after a fresh page `p` is cleared and linked at `a`. -/
def linked (m : Store) (p a : ℕ) : Store := store 8 (fill m p pgSize 0) a (tableWord p)

theorem agreeOff_linked (m : Store) (p t i : ℕ) (hi : i < 512) :
    AgreeOff ({p} + {t}) m (linked m p (t + 8 * i)) := by
  have hfill : AgreeOff ({p} + {t}) m (fill m p pgSize 0) :=
    (agreeOff_fill m p 0).mono fun q hq => mem_add.mpr (Or.inl hq)
  refine hfill.trans ((agreeOff_store _ t _ _ (by omega) (by unfold pgSize; omega)).mono ?_)
  exact fun q hq => mem_add.mpr (Or.inr hq)

/-- The links of a memory in which page `p` was cleared and linked into table `t`. -/
structure Linked (L : Layout) (m m' : Store) (p t i : ℕ) : Prop where
  other : ∀ q, Managed L q → q ≠ p → q ≠ t → ∀ j, j < 512 →
    load 8 m' (q + 8 * j) = load 8 m (q + 8 * j)
  fresh : ∀ j, j < 512 → load 8 m' (p + 8 * j) = 0
  table : ∀ j, j < 512 → j ≠ i → load 8 m' (t + 8 * j) = load 8 m (t + 8 * j)
  link : load 8 m' (t + 8 * i) = tableWord p

theorem linked_spec {m : Store} {t i : ℕ} (hp : Managed L p) (ht : Managed L t) (hne : t ≠ p)
    (hi : i < 512) : Linked L m (linked m p (t + 8 * i)) p t i := by
  have hdis := hp.disjoint ht hne.symm
  have hfillT : ∀ j, j < 512 → load 8 (fill m p pgSize 0) (t + 8 * j) = load 8 m (t + 8 * j) := by
    intro j hj
    apply load_congr
    intro x hx hx'
    apply fill_outside
    unfold pgSize at *
    omega
  refine ⟨?_, ?_, ?_, ?_⟩
  · intro q hq hqp hqt j hj
    refine (agreeOff_linked m p t i hi).load hq ?_ ?_ (by omega) (by unfold pgSize; omega)
    · intro r hr
      rcases Multiset.mem_add.mp hr with h | h
      · rw [Multiset.mem_singleton.mp h]
        exact hp
      · rw [Multiset.mem_singleton.mp h]
        exact ht
    · intro hmem
      rcases Multiset.mem_add.mp hmem with h | h
      · exact hqp (Multiset.mem_singleton.mp h)
      · exact hqt (Multiset.mem_singleton.mp h)
  · intro j hj
    unfold linked
    rw [load_store_of_disjoint _ _ _ _ _ _ (by unfold pgSize at hdis; omega)]
    exact load_fill_zero 8 m p pgSize _ (by omega) (by unfold pgSize; omega)
  · intro j hj hji
    unfold linked
    rw [load_store_of_disjoint _ _ _ _ _ _ (by omega)]
    exact hfillT j hj
  · unfold linked
    rw [load_store_same]
    exact Nat.mod_eq_of_lt (by simpa using tableWord_lt (by have := hp.lt; omega))

theorem Space.freeList_linked (h : Space L s T (p :: F) R) (hF : FreeList (fill s.mem p pgSize 0) hd F)
    {t i : ℕ} (ht : t ∈ T.tables) (hi : i < 512) :
    FreeList (linked s.mem p (t + 8 * i)) hd F := by
  refine hF.congr (L := L) (P := {t})
    (agreeOff_store _ t _ _ (by omega) (by unfold pgSize; omega)) ?_ ?_ ?_
  · intro q hq
    rw [Multiset.mem_singleton.mp hq]
    exact h.table_managed ht
  · exact fun q hq => h.free_managed (mem_cons_of_mem _ hq)
  · intro q hq hqt
    rw [Multiset.mem_singleton.mp hqt] at hq
    exact h.table_not_free ht (mem_cons_of_mem _ hq)

theorem Space.addL1 (h : Space L s T (p :: F) R) (hF : FreeList (fill s.mem p pgSize 0) hd F)
    {i : ℕ} (hi : i < 512) (hn : T.l1 i = none) :
    Space L { mem := linked s.mem p (T.root + 8 * i), head := hd } (T.addL1 i p) F R := by
  have hp : Managed L p := h.free_managed mem_cons_self
  have hroot : Managed L T.root := h.table_managed T.root_mem
  have hpt : ∀ q ∈ T.tables, q ≠ p := by
    intro q hq heq
    exact h.table_not_free hq (heq ▸ mem_cons_self)
  have hl := linked_spec (m := s.mem) hp hroot (hpt _ T.root_mem) hi
  have hd := h.distinct
  refine h.of_pool_eq ?_ ?_ (h.freeList_linked hF T.root_mem hi)
  · rw [Tree.tables_addL1 hi hn, pool_cons]
  · refine ⟨?_, ?_, ?_, ?_, h.rep.pte_none⟩
    · intro j hj
      by_cases hji : j = i
      · subst hji
        simpa [Tree.addL1, linkWord] using hl.link
      · have hk := hl.table j hj hji
        simp only [Tree.addL1, update_of_ne hji]
        exact hk.trans (h.rep.root_entry j hj)
    · intro q hq t ht
      by_cases hqi : q / 512 = i
      · have htp : p = t := by simpa [Tree.addL1, hqi] using ht
        subst htp
        have hnone : T.l0 q = none := h.rep.l0_none q hq (by rw [hqi]; exact hn)
        simp only [Tree.addL1, hnone, linkWord]
        exact hl.fresh _ (by omega)
      · have ht' : T.l1 (q / 512) = some t := by simpa [Tree.addL1, hqi] using ht
        have hmem := Tree.l1_mem (by omega) ht'
        have hk := hl.other t (h.table_managed hmem) (hpt t hmem)
          (hd.root_l1 _ t (by omega) ht') (q % 512) (by omega)
        exact hk.trans (h.rep.l1_entry q hq t ht')
    · intro k hk u hu
      have hu' : T.l0 (k / 512) = some u := hu
      have hmem := Tree.l0_mem (by omega) hu'
      have hkk := hl.other u (h.table_managed hmem) (hpt u hmem)
        (hd.root_l0 _ u (by omega) hu') (k % 512) (by omega)
      exact hkk.trans (h.rep.l0_entry k hk u hu')
    · intro q hq hq'
      by_cases hqi : q / 512 = i
      · simp [Tree.addL1, hqi] at hq'
      · exact h.rep.l0_none q hq (by simpa [Tree.addL1, hqi] using hq')

theorem Space.addL0 (h : Space L s T (p :: F) R) (hF : FreeList (fill s.mem p pgSize 0) hd F)
    {q t : ℕ} (hq : q < 2 ^ 18) (ht : T.l1 (q / 512) = some t) (hn : T.l0 q = none) :
    Space L { mem := linked s.mem p (t + 8 * (q % 512)), head := hd } (T.addL0 q p) F R := by
  have hp : Managed L p := h.free_managed mem_cons_self
  have htm := Tree.l1_mem (by omega) ht
  have hpt : ∀ r ∈ T.tables, r ≠ p := by
    intro r hr heq
    exact h.table_not_free hr (heq ▸ mem_cons_self)
  have hl := linked_spec (i := q % 512) (m := s.mem) hp (h.table_managed htm) (hpt t htm) (by omega)
  have hd := h.distinct
  refine h.of_pool_eq ?_ ?_ (h.freeList_linked hF htm (by omega))
  · rw [Tree.tables_addL0 hq hn, pool_cons]
  · refine ⟨?_, ?_, ?_, ?_, ?_⟩
    · intro j hj
      have hk := hl.other T.root (h.table_managed T.root_mem) (hpt _ T.root_mem)
        (Ne.symm (hd.root_l1 _ t (by omega) ht)) j hj
      exact hk.trans (h.rep.root_entry j hj)
    · intro r hr t' ht'
      have ht'' : T.l1 (r / 512) = some t' := ht'
      by_cases hrq : r = q
      · subst hrq
        have htt : t' = t := by
          rw [ht''] at ht
          exact Option.some.inj ht
        subst htt
        simpa [Tree.addL0, linkWord] using hl.link
      · simp only [Tree.addL0, update_of_ne hrq]
        refine Eq.trans ?_ (h.rep.l1_entry r hr t' ht'')
        by_cases hsame : t' = t
        · subst hsame
          have hdiv := hd.l1_inj _ _ t' (by omega) (by omega) ht'' ht
          exact hl.table (r % 512) (by omega) (by omega)
        · have hmem := Tree.l1_mem (by omega) ht''
          exact hl.other t' (h.table_managed hmem) (hpt t' hmem) hsame (r % 512) (by omega)
    · intro k hk u hu
      by_cases hkq : k / 512 = q
      · have hup : p = u := by simpa [Tree.addL0, hkq] using hu
        subst hup
        have hnone : T.pte k = 0 := h.rep.pte_none k hk (by rw [hkq]; exact hn)
        simp only [Tree.addL0, hnone]
        exact hl.fresh _ (by omega)
      · have hu' : T.l0 (k / 512) = some u := by simpa [Tree.addL0, hkq] using hu
        have hmem := Tree.l0_mem (by omega) hu'
        have hkk := hl.other u (h.table_managed hmem) (hpt u hmem)
          (Ne.symm (hd.l1_l0 _ t _ u (by omega) ht (by omega) hu')) (k % 512) (by omega)
        exact hkk.trans (h.rep.l0_entry k hk u hu')
    · intro r hr hr'
      by_cases hrq : r = q
      · subst hrq
        have hr'' : T.l1 (r / 512) = none := hr'
        rw [ht] at hr''
        exact absurd hr'' (by simp)
      · simp only [Tree.addL0, update_of_ne hrq]
        exact h.rep.l0_none r hr hr'
    · intro k hk hk'
      by_cases hkq : k / 512 = q
      · simp [Tree.addL0, hkq] at hk'
      · exact h.rep.pte_none k hk (by simpa [Tree.addL0, hkq] using hk')

theorem Space.setPte (h : Space L s T F R) {k u w : ℕ} (hk : k < 2 ^ 27)
    (hu : T.l0 (k / 512) = some u) (hw : w < 2 ^ 64) :
    Space L (s.setWord (u + 8 * (k % 512)) w) (T.setPte k w) F R := by
  have humem := Tree.l0_mem (by omega) hu
  have hum := h.table_managed humem
  have hagree : AgreeOff {u} s.mem (s.setWord (u + 8 * (k % 512)) w).mem :=
    agreeOff_setWord s w (by omega)
  have huP : ∀ r ∈ ({u} : Multiset ℕ), Managed L r := by
    intro r hr
    rw [Multiset.mem_singleton.mp hr]
    exact hum
  have hother : ∀ r, r ∈ T.tables → r ≠ u → ∀ j, j < 512 →
      load 8 (s.setWord (u + 8 * (k % 512)) w).mem (r + 8 * j) = load 8 s.mem (r + 8 * j) := by
    intro r hr hru j hj
    refine hagree.load (h.table_managed hr) huP ?_ (by omega) (by unfold pgSize; omega)
    exact fun hmem => hru (Multiset.mem_singleton.mp hmem)
  have hd := h.distinct
  refine h.of_pool_eq rfl ?_ ?_
  · refine ⟨?_, ?_, ?_, h.rep.l0_none, ?_⟩
    · intro j hj
      have hk1 := hother T.root T.root_mem (Ne.symm (hd.root_l0 _ u (by omega) hu)) j hj
      exact hk1.trans (h.rep.root_entry j hj)
    · intro q hq t ht
      have hk1 := hother t (Tree.l1_mem (by omega) ht)
        (hd.l1_l0 _ t _ u (by omega) ht (by omega) hu) (q % 512) (by omega)
      exact hk1.trans (h.rep.l1_entry q hq t ht)
    · intro r hr v hv
      have hv' : T.l0 (r / 512) = some v := hv
      by_cases hrk : r = k
      · subst hrk
        have huv : v = u := by
          rw [hv'] at hu
          exact Option.some.inj hu
        subst huv
        simp only [Tree.setPte, update_self, Ram.setWord]
        rw [load_store_same]
        exact Nat.mod_eq_of_lt (by simpa using hw)
      · simp only [Tree.setPte, update_of_ne hrk]
        refine Eq.trans ?_ (h.rep.l0_entry r hr v hv')
        by_cases hsame : v = u
        · subst hsame
          have hdiv := hd.l0_inj _ _ v (by omega) (by omega) hv' hu
          exact load_store_of_disjoint _ _ _ _ _ _ (by omega)
        · exact hother v (Tree.l0_mem (by omega) hv') hsame (r % 512) (by omega)
    · intro r hr hr'
      have hrk : r ≠ k := by
        intro heq
        have hr'' : T.l0 (r / 512) = none := hr'
        rw [heq, hu] at hr''
        exact absurd hr'' (by simp)
      simp only [Tree.setPte, update_of_ne hrk]
      exact h.rep.pte_none r hr hr'
  · refine h.free.congr (L := L) hagree huP (fun r hr => h.free_managed hr) ?_
    intro r hr hru
    rw [Multiset.mem_singleton.mp hru] at hr
    exact h.table_not_free humem hr

end Attach

/-- The space after tables were added: the frame and the entries are as before. -/
structure Grown (L : Layout) (R : Multiset ℕ) (s : Ram) (T : Tree) (F : List ℕ)
    (s' : Ram) (T' : Tree) (F' : List ℕ) : Prop where
  grow : Grow T T' F F'
  space : Space L s' T' F' R
  agree : AgreeOff (T.tables + ↑F) s.mem s'.mem

section Walk

variable {L : Layout} {s : Ram} {T : Tree} {F : List ℕ} {R : Multiset ℕ} {E : Panic → Prop}
  {Q : Option ℕ → Ram → Prop}

theorem Grown.refl (h : Space L s T F R) : Grown L R s T F s T F :=
  ⟨Grow.refl T F, h, AgreeOff.refl⟩

theorem Grown.trans {s' s'' : Ram} {T' T'' : Tree} {F' F'' : List ℕ}
    (h : Grown L R s T F s' T' F') (h' : Grown L R s' T' F' s'' T'' F'') :
    Grown L R s T F s'' T'' F'' :=
  ⟨h.grow.trans h'.grow, h'.space, h.agree.trans (h.grow.pool ▸ h'.agree)⟩

theorem agreeOff_linked_pool {p t i : ℕ} (ht : t ∈ T.tables) (hi : i < 512) :
    AgreeOff (T.tables + ↑(p :: F)) s.mem (linked s.mem p (t + 8 * i)) := by
  refine (agreeOff_linked s.mem p t i hi).mono ?_
  intro q hq
  rcases Multiset.mem_add.mp hq with h | h
  · rw [Multiset.mem_singleton.mp h]
    exact Multiset.mem_add.mpr (Or.inr (by simp))
  · rw [Multiset.mem_singleton.mp h]
    exact Multiset.mem_add.mpr (Or.inl ht)

theorem Space.grownL1 {p hd i : ℕ} (h : Space L s T (p :: F) R)
    (hF : FreeList (fill s.mem p pgSize 0) hd F) (hi : i < 512) (hn : T.l1 i = none) :
    Grown L R s T (p :: F) { mem := linked s.mem p (T.root + 8 * i), head := hd }
      (T.addL1 i p) F where
  grow := ⟨rfl, rfl, by
    have hpool := pool_cons T.tables p F 0
    rw [add_zero, add_zero] at hpool
    rw [Tree.tables_addL1 hi hn, hpool]⟩
  space := h.addL1 hF hi hn
  agree := agreeOff_linked_pool T.root_mem hi

theorem Space.grownL0 {p hd q t : ℕ} (h : Space L s T (p :: F) R)
    (hF : FreeList (fill s.mem p pgSize 0) hd F) (hq : q < 2 ^ 18)
    (ht : T.l1 (q / 512) = some t) (hn : T.l0 q = none) :
    Grown L R s T (p :: F) { mem := linked s.mem p (t + 8 * (q % 512)), head := hd }
      (T.addL0 q p) F where
  grow := ⟨rfl, rfl, by
    have hpool := pool_cons T.tables p F 0
    rw [add_zero, add_zero] at hpool
    rw [Tree.tables_addL0 hq hn, hpool]⟩
  space := h.addL0 hF hq ht hn
  agree := agreeOff_linked_pool (Tree.l1_mem (by omega) ht) (by omega)

theorem wp_link {rest : List ℕ} {va level a t : ℕ} {o : Option ℕ} {alloc : Bool}
    (h : Space L s T F R) (ha : t + 8 * ((va >>> (12 + 9 * level)) &&& 0x1ff) = a)
    (ho : load 8 s.mem a = linkWord o) (hom : ∀ u, o = some u → Managed L u)
    (hfound : ∀ u, o = some u → (walkLevels va alloc rest u).wp E Q s)
    (hmiss : o = none → alloc = false → Q none s)
    (hfull : o = none → alloc = true → F = [] → Q none s)
    (hnew : ∀ p F' hd, o = none → alloc = true → F = p :: F' →
      FreeList (fill s.mem p pgSize 0) hd F' →
      (walkLevels va alloc rest p).wp E Q { mem := linked s.mem p a, head := hd }) :
    (walkLevels va alloc (level :: rest) t).wp E Q s := by
  simp only [walkLevels, loadPte, wp_bind, wp_get, wp_pure, ha, ho]
  cases o with
  | some u =>
    have hu := hom u rfl
    have hpa := ptePa_tableWord hu.aligned (by have := hu.lt; omega)
    simp only [linkWord, isValid_tableWord, isLeaf_tableWord, hpa, if_true]
    exact hfound u rfl
  | none =>
    simp only [linkWord, isValid_zero, Bool.false_eq_true, if_false]
    cases alloc with
    | false => exact hmiss rfl rfl
    | true =>
      simp only [if_true, wp_bind]
      refine wp_kallocZeroed (L := L) h.free h.free_nodup (fun p hp => h.free_managed hp) ?_ ?_
      · exact fun hnil => hfull rfl rfl hnil
      · intro p F' hd heq hF'
        have hp := h.free_managed (heq ▸ mem_cons_self : p ∈ F)
        have hal : (p % pgSize == 0) = true := by simpa using hp.aligned
        simp only [newTable, storePte, wp_bind, wp_assert, wp_pure, wp_modify]
        exact ⟨fun _ => hnew p F' hd rfl rfl heq hF', fun hbad => absurd hal (by simp [hbad])⟩

/-- A walk without allocation reads the tree. -/
theorem walk_lookup (h : Space L s T F R) (va : ℕ) :
    walk T.root va false s =
      .ok ((T.l0 (vpn va / 512)).map fun u => u + 8 * (vpn va % 512), s) := by
  have hv := vpn_lt va
  have hwp : (walk T.root va false).wp (fun _ => False)
      (fun r s' => r = ((T.l0 (vpn va / 512)).map fun u => u + 8 * (vpn va % 512)) ∧ s' = s) s := by
    simp only [walk, wp_bind]
    refine wp_link h (by rw [index_level2]) (h.rep.root_entry _ (by omega))
      (fun t ht => h.table_managed (Tree.l1_mem (by omega) ht)) ?_ ?_ (by simp) (by simp)
    · intro t ht
      refine wp_link h (by rw [index_level1]) (h.rep.l1_entry (vpn va / 512) (by omega) t ht)
        (fun u hu => h.table_managed (Tree.l0_mem (by omega) hu)) ?_ ?_ (by simp) (by simp)
      · intro u hu
        simp [walkLevels, index_level0, hu]
      · intro hnone _
        simp [hnone]
    · intro hnone _
      simp [h.rep.l0_none (vpn va / 512) (by omega) hnone]
  obtain ⟨r, s', hrun, hr, hs'⟩ := exists_ok hwp
  rw [hrun, hr, hs']

/-- The level-0 table of a walk that may allocate. -/
theorem wp_walkLevels_one {va t : ℕ} (h : Space L s T F R) (ht : T.l1 (vpn va / 512 / 512) = some t)
    (hnone : F = [] → T.l0 (vpn va / 512) = none → Q none s)
    (hsome : ∀ s' T' F' u, Grown L R s T F s' T' F' → T.Tabled {vpn va} T' →
      F.length = F'.length + T.lack {vpn va} → T'.l0 (vpn va / 512) = some u → Q (some u) s') :
    (walkLevels va true [1] t).wp E Q s := by
  have hv := vpn_lt va
  refine wp_link h (by rw [index_level1]) (h.rep.l1_entry (vpn va / 512) (by omega) t ht)
    (fun u hu => h.table_managed (Tree.l0_mem (by omega) hu)) ?_ (by simp) ?_ ?_
  · intro u hu
    refine hsome s T F u (Grown.refl h) (Tree.tabled_of_some ht hu) ?_ hu
    simp [Tree.lack_singleton, ht, hu]
  · exact fun hn _ hF => hnone hF hn
  · intro p F' hd hn _ heq hF'
    subst heq
    refine hsome _ _ _ p (h.grownL0 hF' (by omega) ht hn) (Tree.tabled_addL0 ht) ?_ (by simp [Tree.addL0])
    simp [Tree.lack_singleton, ht, hn]

/-- A walk with allocation ends in a tree that has the level-0 table, or
has used up the free list. It takes as many pages as tables are missing. -/
theorem wp_walk {va : ℕ} (h : Space L s T F R)
    (hnone : ∀ s' T', Grown L R s T F s' T' [] → F.length < T.lack {vpn va} → Q none s')
    (hsome : ∀ s' T' F' u, Grown L R s T F s' T' F' → T.Tabled {vpn va} T' →
      F.length = F'.length + T.lack {vpn va} →
      T'.l0 (vpn va / 512) = some u → Q (some (u + 8 * (vpn va % 512))) s') :
    (walk T.root va true).wp E Q s := by
  have hv := vpn_lt va
  simp only [walk, wp_bind]
  refine wp_link h (by rw [index_level2]) (h.rep.root_entry _ (by omega))
    (fun t ht => h.table_managed (Tree.l1_mem (by omega) ht)) ?_ (by simp) ?_ ?_
  · intro t ht
    refine wp_walkLevels_one h ht ?_ ?_
    · exact fun hF hn => hnone s T (hF ▸ Grown.refl h) (by simp [hF, Tree.lack_singleton, ht, hn])
    · intro s' T' F' u hg htab hlen hu
      rw [index_level0]
      exact hsome s' T' F' u hg htab hlen hu
  · exact fun hn _ hF => hnone s T (hF ▸ Grown.refl h) (by simp [hF, Tree.lack_singleton, hn])
  · intro p F' hd hn _ heq hF'
    subst heq
    have hg := h.grownL1 hF' (by omega) hn
    refine wp_walkLevels_one hg.space (by simp [Tree.addL1]) ?_ ?_
    · rintro rfl hn0
      refine hnone _ _ hg ?_
      rw [Tree.lack_addL1 p hn, Tree.lack_singleton, if_pos hn0, length_singleton]
      omega
    · intro s' T' F'' u hg' htab hlen hu
      rw [index_level0]
      refine hsome s' T' F'' u (hg.trans hg') htab.of_addL1 ?_ hu
      rw [length_cons, hlen, Tree.lack_addL1 p hn]
      omega

theorem wp_mappages {root va pa flags : ℕ} (hva : va % pgSize = 0) (hpa : pa % pgSize = 0)
    (hpa' : pa < physTop) {Q : Option Unit → Ram → Prop}
    (hover : usizeSize ≤ va + 2 * pgSize → E .overflow)
    (hwalk : va + 2 * pgSize < usizeSize → (walk root va true).wp E (fun o s' => match o with
      | none => Q none s'
      | some a => (isValid (load 8 s'.mem a) = true → Q none s') ∧
          (isValid (load 8 s'.mem a) = false →
            Q (some ()) (s'.setWord a (leafWord pa flags)))) s) :
    (mappages root va pgSize pa flags).wp E Q s := by
  have hone : (pages (va + pgSize) * pgSize - va) / pgSize = 0 + 1 := by
    unfold pages pgSize at *
    omega
  simp only [mappages, wp_bind, wp_assert, wp_addUsize, wp_pageRoundUp]
  rw [hone]
  refine ⟨fun _ => ⟨fun _ => ⟨fun _ => ⟨fun _ => ⟨fun hsz => ?_, ?_⟩, ?_⟩, ?_⟩, ?_⟩, ?_⟩
  · rw [mappagesLoop, wp_bind]
    refine wp_post (hwalk (by omega)) ?_
    intro o s' ho
    cases o with
    | none => exact ho
    | some a =>
      simp only [loadPte, wp_bind, wp_get, wp_pure, wp_ite]
      refine ⟨ho.1, fun hfree => ?_⟩
      simp only [newLeaf, storePte, wp_bind, wp_assert, wp_pure, wp_modify,
        wp_addUsize, mappagesLoop]
      refine ⟨fun _ => ⟨fun _ => ⟨fun _ => ?_, ?_⟩, ?_⟩, ?_⟩
      · exact ho.2 (by simpa using hfree)
      · intro hbad
        unfold physTop at hpa'
        unfold usizeSize pgSize at hbad
        omega
      · intro hbad
        exact hover (by omega)
      · intro hbad
        simp [hpa] at hbad
  · intro hbad
    exact hover (by omega)
  · intro hbad
    exact hover (by omega)
  · intro hbad
    simp [pgSize] at hbad
  · intro hbad
    simp [hpa] at hbad
  · intro hbad
    simp [hva] at hbad

/-- Mapping one page: the only outcomes are a full table or memory, an
overflow of the address, and one new leaf. -/
theorem wp_mapPage {va pa flags : ℕ} (h : Space L s T F R) (hva : va % pgSize = 0)
    (hpa : pa % pgSize = 0) (hpa' : pa < physTop) (hf : flags < 1024)
    {Q : Option Unit → Ram → Prop}
    (hover : usizeSize ≤ va + 2 * pgSize → E .overflow)
    (hfull : ∀ s' T', va + 2 * pgSize < usizeSize → Grown L R s T F s' T' [] →
      F.length < T.lack {vpn va} → Q none s')
    (htaken : ∀ s' T' F', va + 2 * pgSize < usizeSize → isValid (T.pte (vpn va)) = true →
      Grown L R s T F s' T' F' → Q none s')
    (hmap : ∀ s' T' F', isValid (T.pte (vpn va)) = false → va + 2 * pgSize < usizeSize →
      T.Tabled {vpn va} T' → F.length = F'.length + T.lack {vpn va} → Grow T T' F F' →
      Space L s' (T'.setPte (vpn va) (leafWord pa flags)) F' R →
      AgreeOff (T.tables + ↑F) s.mem s'.mem → Q (some ()) s') :
    (mappages T.root va pgSize pa flags).wp E Q s := by
  have hv := vpn_lt va
  refine wp_mappages hva hpa hpa' hover fun hsz => wp_walk h (fun s' T' => hfull s' T' hsz) ?_
  intro s' T' F' u hg htab hlen hu
  have hu' := Tree.l0_mem (by omega) hu
  have hentry : load 8 s'.mem (u + 8 * (vpn va % 512)) = T.pte (vpn va) := by
    rw [hg.space.rep.l0_entry (vpn va) hv u hu, hg.grow.pte]
  simp only [hentry]
  refine ⟨fun hvalid => htaken s' T' F' hsz hvalid hg, fun hinv => ?_⟩
  refine hmap _ T' F' hinv hsz htab hlen hg.grow
    (hg.space.setPte hv hu (leafWord_lt (by unfold physTop at hpa'; omega) (by omega))) ?_
  refine hg.agree.trans ((agreeOff_setWord s' _ (by omega)).mono ?_)
  intro q hq
  rw [Multiset.mem_singleton.mp hq, ← hg.grow.pool]
  exact Multiset.mem_add.mpr (Or.inl hu')

end Walk

end ToyOs
