import ToyOs.MapRange
import ToyOs.Boot

/-!
When `mappages` succeeds. The tables of a page table are as many as the
indices they serve, so a bound on the indices of all ranges bounds the pages
that the tables take from the free list.
-/
namespace ToyOs

open Bytes Prog List Multiset

section Range

variable {L : Layout} {s : Ram} {root flags va pa size : ℕ} {F : List ℕ} {E : Panic → Prop}

/-- The page index of an address in terms of the range. -/
theorem vpn_in_range {x : ℕ} (hva : va % pgSize = 0) (hx : x < 2 ^ 39) :
    va / pgSize ≤ vpn x ∧ vpn x < va / pgSize + pages size ↔
      va ≤ x ∧ x < va + pages size * pgSize := by
  unfold vpn pages pgSize at *
  omega

/-- The entry of an address of the range. -/
theorem offset_in_range {x : ℕ} (hva : va % pgSize = 0) (hx : x < 2 ^ 39) (hle : va ≤ x) :
    pa + (vpn x - va / pgSize) * pgSize = pa + (pageRoundDown x - va) := by
  unfold vpn pageRoundDown pgSize at *
  omega

/-- `mappages` of any range, by its page indices. -/
theorem wp_mappages_range (h : TableAt L s root F) (hva : va % pgSize = 0) (hpa : pa % pgSize = 0)
    (hpos : 0 < size) (hsize : va + size ≤ 2 ^ 39) (hpa' : pa + pages size * pgSize < 2 ^ 60)
    (hf : flags < 2 ^ 64) {Q : Option Unit → Ram → Prop}
    (hsome : ∀ s' F', Mapped L root flags (va / pgSize) pa (pages size) (pages size) s F s' F' →
      (∀ j, j < pages size → isValid (pteAt s.mem root (va / pgSize + j)) = false) → Q (some ()) s')
    (hnone : ∀ s' F' j, j < pages size →
      Mapped L root flags (va / pgSize) pa (pages size) j s F s' F' →
      isValid (pteAt s.mem root (va / pgSize + j)) = true ∨
        F' = [] ∧ l0At s'.mem root ((va / pgSize + j) / 512) = none → Q none s') :
    (mappages root va size pa flags).wp E Q s := by
  have hcount : (pages (va + size) * pgSize - va) / pgSize = pages size := by
    unfold pages pgSize at *
    omega
  have hstop : va / pgSize + pages size ≤ 2 ^ 27 := by
    unfold pages pgSize at *
    omega
  have hmul : (va / pgSize + 0) * pgSize = va := by
    rw [Nat.add_zero]
    exact Nat.div_mul_cancel (Nat.dvd_of_mod_eq_zero hva)
  simp only [mappages, wp_bind, wp_assert, wp_addUsize, wp_pageRoundUp]
  rw [hcount]
  refine ⟨fun _ => ⟨fun _ => ⟨fun _ => ⟨fun _ => ⟨fun _ => ?_, fun hbad => ?_⟩, fun hbad => ?_⟩,
    fun hbad => ?_⟩, fun hbad => ?_⟩, fun hbad => ?_⟩
  · have hloop := wp_mappagesLoop (E := E) (r := pages size) (Mapped.refl h) (Nat.zero_add _) hstop
      hpa hpa' hf (fun j hj => absurd hj (Nat.not_lt_zero j)) hsome hnone
    rwa [hmul, Nat.zero_mul, Nat.add_zero] at hloop
  · unfold usizeSize pgSize at hbad
    omega
  · unfold usizeSize at hbad
    omega
  · simp [hpos] at hbad
  · simp [hpa] at hbad
  · simp [hva] at hbad

end Range

section Count

variable {m : Store} {root q : ℕ} {C : Finset ℕ}

theorem card_pageOf (o : Option ℕ) : Multiset.card (pageOf o) = if o ≠ none then 1 else 0 := by
  cases o <;> simp

/-- The tables are confined to their indices. -/
theorem Confined.card_le (h : Confined m root C) :
    Multiset.card (tablesAt m root) ≤
      1 + (C.image (· / 512)).card + (C.filter fun q => l0At m root q ≠ none).card := by
  have h1 : ∑ i ∈ rootSlots, Multiset.card (pageOf (l1At m root i)) ≤ (C.image (· / 512)).card := by
    simp only [card_pageOf, ← Finset.card_filter]
    refine Finset.card_le_card fun i hi => ?_
    obtain ⟨hi, hne⟩ := Finset.mem_filter.mp hi
    obtain ⟨r, hr, hri⟩ := h.l1 i (mem_rootSlots.mp hi) hne
    exact Finset.mem_image.mpr ⟨r, hr, hri⟩
  have h0 : ∑ r ∈ l1Slots, Multiset.card (pageOf (l0At m root r)) ≤
      (C.filter fun q => l0At m root q ≠ none).card := by
    simp only [card_pageOf, ← Finset.card_filter]
    refine Finset.card_le_card fun r hr => ?_
    obtain ⟨hr, hne⟩ := Finset.mem_filter.mp hr
    exact Finset.mem_filter.mpr ⟨h.l0 r (mem_l1Slots.mp hr) hne, hne⟩
  unfold tablesAt
  rw [card_add, card_add, card_singleton, card_sum,
    card_sum]
  omega

/-- While a table of the range is missing there are fewer tables than indices. -/
theorem Confined.card_lt (h : Confined m root C) (hq : q ∈ C)
    (hmiss : l0At m root q = none) :
    Multiset.card (tablesAt m root) < 1 + (C.image (· / 512)).card + C.card := by
  have hless : (C.filter fun q => l0At m root q ≠ none).card < C.card := by
    refine Finset.card_lt_card (Finset.filter_ssubset.mpr ⟨q, hq, ?_⟩)
    exact not_not.mpr hmiss
  have hle := h.card_le
  omega

end Count

section Success

variable {L : Layout} {s : Ram} {root flags va pa size : ℕ} {F : List ℕ} {C : Finset ℕ}

/-- There are pages for all tables with index in `C`. -/
def RoomFor (s : Ram) (root : ℕ) (F : List ℕ) (C : Finset ℕ) : Prop :=
  1 + (C.image (· / 512)).card + C.card ≤ Multiset.card (tablesAt s.mem root) + F.length

theorem Mapped.roomFor {k n i : ℕ} {s' : Ram} {F' : List ℕ}
    (h : Mapped L root flags k pa n i s F s' F') (hroom : RoomFor s root F C) : RoomFor s' root F' C := by
  have hcard := congrArg Multiset.card h.pool
  rw [card_add, card_add, coe_card, coe_card] at hcard
  unfold RoomFor at *
  omega

/-- `mappages` succeeds on unmapped pages if there is room for the tables. -/
theorem mappages_succeeds (h : TableAt L s root F) (hva : va % pgSize = 0) (hpa : pa % pgSize = 0)
    (hpos : 0 < size) (hsize : va + size ≤ 2 ^ 39) (hpa' : pa + pages size * pgSize < 2 ^ 60)
    (hf : flags < 2 ^ 64) (hC : ∀ j, j < pages size → (va / pgSize + j) / 512 ∈ C)
    (hconf : Confined s.mem root C) (hroom : RoomFor s root F C)
    (hfree : ∀ j, j < pages size → isValid (pteAt s.mem root (va / pgSize + j)) = false) :
    ∃ s' F', mappages root va size pa flags s = .ok (some (), s') ∧
      Mapped L root flags (va / pgSize) pa (pages size) (pages size) s F s' F' := by
  have hwp : (mappages root va size pa flags).wp (fun _ => False) (fun r s' => r = some () ∧
      ∃ F', Mapped L root flags (va / pgSize) pa (pages size) (pages size) s F s' F') s := by
    refine wp_mappages_range h hva hpa hpos hsize hpa' hf (fun s' F' hm _ => ⟨rfl, F', hm⟩) ?_
    rintro s' F' j hj hm (hvalid | ⟨rfl, hmiss⟩)
    · rw [hfree j hj] at hvalid
      cases hvalid
    · have hless := (hm.confined C hC hconf).card_lt (hC j hj) hmiss
      have hroom' := hm.roomFor hroom
      unfold RoomFor at hroom'
      rw [length_nil] at hroom'
      omega
  obtain ⟨_, s', hrun, rfl, F', hm⟩ := exists_ok hwp
  exact ⟨s', F', hrun, hm⟩

end Success

section Empty

variable {L : Layout} {m : Store} {p hd : ℕ} {F : List ℕ}

/-- Nothing is mapped, and the root is the only table. -/
structure EmptyTable (m : Store) (root : ℕ) : Prop where
  pte : ∀ k, k < 2 ^ 27 → pteAt m root k = 0
  tables : tablesAt m root = {root}
  confined : ∀ C, Confined m root C

/-- A cleared page is an empty table. -/
theorem emptyTable_fill (hp : p % pgSize = 0) : EmptyTable (fill m p pgSize 0) p := by
  have h1 : ∀ i, i < 512 → l1At (fill m p pgSize 0) p i = none := by
    intro i hi
    unfold l1At
    rw [load_fill_page hp hp hi, if_pos rfl]
    rfl
  have h0 : ∀ q, q < 2 ^ 18 → l0At (fill m p pgSize 0) p q = none := fun q hq =>
    l0At_none (h1 _ (by omega))
  have hl : Lookups (fill m p pgSize 0) p (fun _ => none) (fun _ => none) fun _ => 0 :=
    ⟨h1, h0, fun k hk => pteAt_none (h0 _ (by omega))⟩
  refine ⟨hl.pte, ?_, fun C => ⟨fun q hq hne => absurd (h0 q hq) hne, fun i hi hne => absurd (h1 i hi) hne⟩⟩
  rw [hl.tables]
  unfold Tree.tables
  simp

/-- A cleared page from the free list is a page table. -/
theorem tableAt_fill (hF : FreeList (fill m p pgSize 0) hd F) (hnodup : (p :: F).Nodup)
    (hm : ∀ r ∈ p :: F, Managed L r) :
    TableAt L { mem := fill m p pgSize 0, head := hd } p F := by
  have hp := (hm p mem_cons_self).aligned
  have hempty := emptyTable_fill (m := m) hp
  refine ⟨hp, ⟨fun i hi => ?_, fun q hq t ht => ?_⟩, hF, fun r hr => hm r (mem_cons_of_mem _ hr), ?_⟩
  · show isLeaf (load 8 (fill m p pgSize 0) (p + 8 * i)) = false
    rw [load_fill_page hp hp hi, if_pos rfl]
    rfl
  · have hnone := (hempty.confined ∅).l1 (q / 512) (by omega)
    obtain ⟨r, hr, -⟩ := hnone (by rw [ht]; exact Option.some_ne_none _)
    exact absurd hr (Finset.notMem_empty r)
  · show (tablesAt (fill m p pgSize 0) p + ↑F).Nodup
    rw [hempty.tables, singleton_add, cons_coe, coe_nodup]
    exact hnodup

end Empty

/-- An empty table beside a page `pg` and `n` free pages. -/
theorem exists_table (L : Layout) {n : ℕ} (hn : n + 2 ≤ managedCount L) :
    ∃ s root pg F, TableAt L s root F ∧ EmptyTable s.mem root ∧ Managed L pg ∧ pg ≠ root ∧ pg ∉ F ∧
      n ≤ F.length := by
  obtain ⟨s, F, hpool, hF⟩ := exists_pool L
  have hlen : F.length = managedCount L := by
    rw [← coe_card, hF, card_managedPages]
  match F, hpool, hlen with
  | [], _, hlen => exact absurd hlen (by rw [length_nil]; omega)
  | [_], _, hlen => exact absurd hlen (by rw [length_singleton]; omega)
  | pg :: root :: F, hpool, hlen =>
    rw [length_cons, length_cons] at hlen
    have hnodup : (pg :: root :: F).Nodup := by
      have := hpool.nodup
      rwa [add_zero, coe_nodup] at this
    have hmanaged : ∀ r ∈ pg :: root :: F, Managed L r := fun r hr =>
      hpool.managed r (by rw [add_zero]; exact hr)
    obtain ⟨hd, hrest⟩ : ∃ hd, FreeList s.mem hd (root :: F) := by
      have hfree := hpool.free
      generalize s.head = hd at hfree
      cases hfree with
      | cons _ hrest => exact ⟨_, hrest⟩
    have hnodup' := (nodup_cons.mp hnodup).2
    have hmanaged' : ∀ r ∈ root :: F, Managed L r := fun r hr => hmanaged r (mem_cons_of_mem _ hr)
    have hrun : kallocZeroed.wp (fun _ => False) (fun _ s' => ∃ F', F' = F ∧ TableAt L s' root F' ∧
        EmptyTable s'.mem root) { mem := s.mem, head := hd } := by
      refine wp_kallocZeroed (L := L) hrest hnodup' hmanaged' (fun hnil => absurd hnil (by simp)) ?_
      intro p rest h' heq hF'
      obtain ⟨rfl, rfl⟩ := List.cons.inj heq
      exact ⟨F, rfl, tableAt_fill hF' hnodup' hmanaged',
        emptyTable_fill (hmanaged' root mem_cons_self).aligned⟩
    obtain ⟨_, s', _, F', rfl, htable, hempty⟩ := exists_ok hrun
    obtain ⟨hpg, -⟩ := nodup_cons.mp hnodup
    exact ⟨s', root, pg, F', htable, hempty, hmanaged pg mem_cons_self,
      fun heq => hpg (heq ▸ mem_cons_self), fun hmem => hpg (mem_cons_of_mem _ hmem), by omega⟩

end ToyOs
