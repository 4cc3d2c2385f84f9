import ToyOs.TableLinks
import Mathlib.Algebra.BigOperators.Group.Finset.Sigma

/-!
Freeing page tables. `Sub` describes the tables below a page by what memory
holds, as `freewalk` meets them: an entry is invalid, a link to a smaller
table, or a leaf, at which `freewalk` panics. From it follow the effects of
`freewalk` and of `proc_freepagetable`: every page of the address space ends
on the free list.
-/
namespace ToyOs

open Bytes Prog List

theorem mem_tableIndices {i : ℕ} : i ∈ tableIndices ↔ i < 512 := by
  unfold tableIndices
  exact mem_range

theorem tableIndices_nodup : tableIndices.Nodup := by
  unfold tableIndices
  exact nodup_range

theorem sum_tableIndices (c : ℕ → Multiset ℕ) :
    (tableIndices.map c).sum = ∑ i ∈ rootSlots, c i := by
  unfold tableIndices rootSlots
  rw [Finset.sum, Finset.range_val, Multiset.range, Multiset.map_coe, Multiset.sum_coe]

/-- One entry as `freewalk` meets it; leaves occur only when `leafOk` allows them. -/
def Entry (sub : ℕ → Multiset ℕ → Prop) (leafOk : Prop) (w : ℕ) (P : Multiset ℕ) : Prop :=
  (isValid w = false ∧ P = 0) ∨ (leafOk ∧ isLeaf w = true ∧ P = 0) ∨
    (isValid w = true ∧ isLeaf w = false ∧ sub (ptePa w) P)

theorem Entry.imp {sub sub' : ℕ → Multiset ℕ → Prop} {leafOk : Prop} {w : ℕ} {P : Multiset ℕ}
    (h : Entry sub leafOk w P) (hsub : sub (ptePa w) P → sub' (ptePa w) P) :
    Entry sub' leafOk w P := by
  rcases h with h | h | ⟨h1, h2, h3⟩
  · exact Or.inl h
  · exact Or.inr (Or.inl h)
  · exact Or.inr (Or.inr ⟨h1, h2, hsub h3⟩)

/-- The tables below page `t`, at most `level` deep, are the pages `P`. -/
def Sub (leafOk : Prop) (m : Store) : ℕ → ℕ → Multiset ℕ → Prop
  | 0, _, _ => False
  | level + 1, t, P => ∃ c : ℕ → Multiset ℕ, P = {t} + (tableIndices.map c).sum ∧
      ∀ i ∈ tableIndices, Entry (Sub leafOk m level) leafOk (load 8 m (t + 8 * i)) (c i)

section Freewalk

variable {L : Layout} {s : Ram} {E : Panic → Prop} {leafOk : Prop}

theorem le_sum_map {c : ℕ → Multiset ℕ} {l : List ℕ} {i : ℕ} (hi : i ∈ l) :
    c i ≤ (l.map c).sum := by
  induction l with
  | nil => exact absurd hi (by simp)
  | cons j rest ih =>
    simp only [map_cons, sum_cons]
    rcases mem_cons.mp hi with rfl | hi'
    · exact Multiset.le_add_right _ _
    · exact le_trans (ih hi') (Multiset.le_add_left _ _)

/-- The tables do not depend on memory outside their pages. -/
theorem Sub.congr {m m' : Store} {P' : Multiset ℕ} (hm : AgreeOff P' m m')
    (hP' : ∀ p ∈ P', Managed L p) : ∀ {level t : ℕ} {P : Multiset ℕ},
    Sub leafOk m level t P → (∀ p ∈ P, Managed L p) → (∀ p ∈ P, p ∉ P') →
    Sub leafOk m' level t P := by
  intro level
  induction level with
  | zero => exact fun h _ _ => h
  | succ level ih =>
    rintro t P ⟨c, hP, hentry⟩ hman hdis
    have ht : t ∈ P := hP ▸ Multiset.mem_add.mpr (Or.inl (Multiset.mem_singleton_self t))
    refine ⟨c, hP, ?_⟩
    intro i hi
    have hlt := mem_tableIndices.mp hi
    have hload : load 8 m' (t + 8 * i) = load 8 m (t + 8 * i) :=
      hm.load (hman t ht) hP' (hdis t ht) (by omega) (by unfold pgSize; omega)
    have hsub : ∀ p ∈ c i, p ∈ P := by
      intro p hp
      rw [hP]
      exact Multiset.mem_add.mpr (Or.inr (Multiset.mem_of_le (le_sum_map hi) hp))
    rw [hload]
    exact (hentry i hi).imp fun h =>
      ih h (fun p hp => hman p (hsub p hp)) (fun p hp => hdis p (hsub p hp))

theorem AgreeOff.symm {P : Multiset ℕ} {m m' : Store} (h : AgreeOff P m m') : AgreeOff P m' m :=
  fun x hx => (h x hx).symm

/-- The state of the loop of `freewalk` over a table `t`: the pages `D` below
the entries done so far are on the free list. -/
structure WalkInv (c : ℕ → Multiset ℕ) (level t : ℕ) (s0 : Ram) (F : List ℕ)
    (rest : List ℕ) (s : Ram) (D : Multiset ℕ) (F' : List ℕ) : Prop where
  split : (tableIndices.map c).sum = D + (rest.map c).sum
  freed : (↑F' : Multiset ℕ) = D + ↑F
  free : FreeList s.mem s.head F'
  agree : AgreeOff ({t} + D) s0.mem s.mem
  todo : ∀ i ∈ rest, load 8 s.mem (t + 8 * i) = load 8 s0.mem (t + 8 * i)
  done : ∀ i ∈ tableIndices, i ∉ rest →
    Entry (Sub False s0.mem level) False (load 8 s0.mem (t + 8 * i)) (c i)

theorem WalkInv.skip {c : ℕ → Multiset ℕ} {level t i : ℕ} {s0 : Ram} {F : List ℕ}
    {rest : List ℕ} {D : Multiset ℕ} {F' : List ℕ}
    (h : WalkInv c level t s0 F (i :: rest) s D F') (hc : c i = 0)
    (hentry : Entry (Sub False s0.mem level) False (load 8 s0.mem (t + 8 * i)) (c i)) :
    WalkInv c level t s0 F rest s D F' where
  split := by
    have hs := h.split
    rwa [map_cons, sum_cons, hc, zero_add] at hs
  freed := h.freed
  free := h.free
  agree := h.agree
  todo := fun j hj => h.todo j (mem_cons_of_mem i hj)
  done := by
    intro j hj hn
    by_cases hji : j = i
    · subst hji
      exact hentry
    · exact h.done j hj fun hmem => (mem_cons.mp hmem).elim hji hn

/-- The pages below one entry were freed and the entry cleared. -/
theorem WalkInv.free_entry {c : ℕ → Multiset ℕ} {level t i : ℕ} {s0 s' : Ram} {F : List ℕ}
    {rest : List ℕ} {D : Multiset ℕ} {F' F'' : List ℕ}
    (h : WalkInv c level t s0 F (i :: rest) s D F') (hi : i < 512) (hrest : ∀ j ∈ rest, j < 512)
    (hnd : i ∉ rest) (ht : Managed L t) (htc : t ∉ c i) (htF : t ∉ (↑F'' : Multiset ℕ))
    (hc : ∀ p ∈ c i, Managed L p) (hF'' : ∀ p ∈ F'', Managed L p)
    (hfree : FreeList s'.mem s'.head F'') (hfreed : (↑F'' : Multiset ℕ) = c i + ↑F')
    (hagree : AgreeOff (c i) s.mem s'.mem)
    (hentry : Entry (Sub False s0.mem level) False (load 8 s0.mem (t + 8 * i)) (c i)) :
    WalkInv c level t s0 F rest (s'.setWord (t + 8 * i) 0) (D + c i) F'' where
  split := by
    rw [h.split, map_cons, sum_cons, add_assoc]
  freed := by
    rw [hfreed, h.freed, ← add_assoc, add_comm (c i)]
  free := by
    refine hfree.congr (L := L) (agreeOff_setWord s' 0 hi) ?_ hF'' ?_
    · intro p hp
      rw [Multiset.mem_singleton.mp hp]
      exact ht
    · intro p hp hpt
      rw [Multiset.mem_singleton.mp hpt] at hp
      exact htF hp
  agree := by
    refine (h.agree.mono ?_).trans ((hagree.mono ?_).trans ((agreeOff_setWord s' 0 hi).mono ?_))
    · intro p hp
      rw [← add_assoc]
      exact Multiset.mem_add.mpr (Or.inl hp)
    · intro p hp
      exact Multiset.mem_add.mpr (Or.inr (Multiset.mem_add.mpr (Or.inr hp)))
    · intro p hp
      exact Multiset.mem_add.mpr (Or.inl hp)
  todo := by
    intro j hj
    have hji : j ≠ i := fun heq => hnd (heq ▸ hj)
    have hj' := hrest j hj
    rw [← h.todo j (mem_cons_of_mem i hj)]
    have hchild : load 8 s'.mem (t + 8 * j) = load 8 s.mem (t + 8 * j) :=
      hagree.load ht hc htc (by omega) (by unfold pgSize; omega)
    rw [← hchild]
    exact load_store_of_disjoint _ _ _ _ _ _ (by omega)
  done := by
    intro j hj hn
    by_cases hji : j = i
    · subst hji
      exact hentry
    · exact h.done j hj fun hmem => (mem_cons.mp hmem).elim hji hn

/-- `freewalk` puts the table and everything below it on the free list; it
panics only where there is a leaf. -/
theorem wp_freewalk (hE : leafOk → ∀ e, E e) : ∀ {level depth t : ℕ} {P : Multiset ℕ} {s : Ram}
    {F : List ℕ} {Q : Unit → Ram → Prop}, level ≤ depth → Sub leafOk s.mem level t P →
    FreeList s.mem s.head F → (P + ↑F).Nodup → (∀ p ∈ P + (↑F : Multiset ℕ), Managed L p) →
    (∀ s' F', FreeList s'.mem s'.head F' → (↑F' : Multiset ℕ) = P + ↑F →
      AgreeOff P s.mem s'.mem → Sub False s.mem level t P → Q () s') →
    (freewalk L depth t).wp E Q s := by
  intro level
  induction level with
  | zero => exact fun _ hsub => hsub.elim
  | succ level ih =>
    rintro (- | depth) t P s F Q hdepth ⟨c, hP, hentry⟩ hfree hnodup hman hQ
    · omega
    have hmanP : ∀ p ∈ P, Managed L p := fun p hp => hman p (Multiset.mem_add.mpr (Or.inl hp))
    have htP : t ∈ P := hP ▸ Multiset.mem_add.mpr (Or.inl (Multiset.mem_singleton_self t))
    have ht := hmanP t htP
    have hnodupP := (Multiset.nodup_add.mp hnodup).1
    have hdisF := (Multiset.nodup_add.mp hnodup).2.2
    have hsumP : ∀ p ∈ (tableIndices.map c).sum, p ∈ P := by
      intro p hp
      rw [hP]
      exact Multiset.mem_add.mpr (Or.inr hp)
    have htc : t ∉ (tableIndices.map c).sum := by
      intro hmem
      rw [hP] at hnodupP
      exact Multiset.disjoint_left.mp (Multiset.nodup_add.mp hnodupP).2.2
        (Multiset.mem_singleton_self t) hmem
    have hnodupC : (tableIndices.map c).sum.Nodup := by
      rw [hP] at hnodupP
      exact (Multiset.nodup_add.mp hnodupP).2.1
    simp only [freewalk, wp_bind]
    refine wp_post (wp_forEach
      (fun rest s' => ∃ D F', WalkInv c level t s F rest s' D F') ?_ ?_) ?_
    · refine ⟨0, F, ⟨by simp, by simp, hfree, AgreeOff.refl, fun _ _ => rfl, ?_⟩⟩
      exact fun i hi hn => absurd hi hn
    · rintro i rest s' hsuf ⟨D, F', hinv⟩
      have hmem : ∀ j ∈ i :: rest, j ∈ tableIndices := fun j hj => hsuf.subset hj
      have hi := hmem i mem_cons_self
      have hnd := tableIndices_nodup.sublist hsuf.sublist
      have hci : ∀ p ∈ c i, p ∈ P := fun p hp => hsumP p (Multiset.mem_of_le (le_sum_map hi) hp)
      have hDP : ∀ p ∈ D, p ∈ P := by
        intro p hp
        refine hsumP p ?_
        rw [hinv.split]
        exact Multiset.mem_add.mpr (Or.inl hp)
      have hciD : ∀ p ∈ c i, p ∉ {t} + D := by
        intro p hp hp'
        rcases Multiset.mem_add.mp hp' with h | h
        · rw [Multiset.mem_singleton.mp h] at hp
          exact htc (Multiset.mem_of_le (le_sum_map hi) hp)
        · rw [hinv.split] at hnodupC
          refine Multiset.disjoint_left.mp (Multiset.nodup_add.mp hnodupC).2.2 h ?_
          exact Multiset.mem_of_le (le_sum_map mem_cons_self) hp
      have htD : ∀ p ∈ {t} + D, Managed L p := by
        intro p hp
        rcases Multiset.mem_add.mp hp with h | h
        · rw [Multiset.mem_singleton.mp h]
          exact ht
        · exact hmanP p (hDP p h)
      have hcim : ∀ p ∈ c i, Managed L p := fun p hp => hmanP p (hci p hp)
      simp only [loadPte, wp_bind, wp_get, wp_pure,
        hinv.todo i mem_cons_self]
      rcases hentry i hi with ⟨hv, hc⟩ | ⟨hok, hl, -⟩ | ⟨hv, hl, hsub⟩
      · have hl : isLeaf (load 8 s.mem (t + 8 * i)) = false := by simp [isLeaf, hv]
        simp only [hv, hl, Bool.false_and, Bool.false_eq_true, if_false, wp_pure]
        exact ⟨D, F', hinv.skip hc (Or.inl ⟨hv, hc⟩)⟩
      · simp only [isValid_of_isLeaf hl, hl, Bool.not_true, Bool.and_false, Bool.false_eq_true,
          if_false, if_true, wp_panic]
        exact hE hok _
      · simp only [hv, hl, Bool.not_false, Bool.and_true, if_true, wp_bind]
        have hpool : c i + (↑F' : Multiset ℕ) ≤ P + ↑F := by
          rw [hinv.freed, ← add_assoc, hP, hinv.split, map_cons, sum_cons]
          refine add_le_add ?_ le_rfl
          rw [add_comm (c i) D, ← add_assoc D]
          exact le_trans (Multiset.le_add_right _ _) (Multiset.le_add_left _ _)
        refine ih (by omega) (hsub.congr hinv.agree htD hcim hciD) hinv.free
          (Multiset.nodup_of_le hpool hnodup) (fun p hp => hman p (Multiset.mem_of_le hpool hp)) ?_
        intro s'' F'' hfree'' hF'' hagree hsub'
        have htF : t ∉ (↑F'' : Multiset ℕ) := by
          rw [hF'', hinv.freed]
          intro hmem'
          rcases Multiset.mem_add.mp hmem' with h | h
          · exact htc (Multiset.mem_of_le (le_sum_map hi) h)
          · rcases Multiset.mem_add.mp h with h | h
            · refine htc ?_
              rw [hinv.split]
              exact Multiset.mem_add.mpr (Or.inl h)
            · exact Multiset.disjoint_left.mp hdisF htP h
        refine ⟨D + c i, F'', hinv.free_entry (mem_tableIndices.mp hi)
          (fun j hj => mem_tableIndices.mp (hmem j (mem_cons_of_mem i hj)))
          (nodup_cons.mp hnd).1 ht (fun h => htc (Multiset.mem_of_le (le_sum_map hi) h)) htF
          hcim ?_ hfree'' hF'' hagree
          (Or.inr (Or.inr ⟨hv, hl, hsub'.congr hinv.agree.symm htD hcim hciD⟩))⟩
        intro p hp
        have hp' : p ∈ c i + (↑F' : Multiset ℕ) := hF'' ▸ Multiset.mem_coe.mpr hp
        exact hman p (Multiset.mem_of_le hpool hp')
    · rintro - s' ⟨D, F', hinv⟩
      have hD : (tableIndices.map c).sum = D := by
        rw [hinv.split, map_nil, sum_nil, add_zero]
      have hF'P : {t} + (↑F' : Multiset ℕ) = P + ↑F := by
        rw [hinv.freed, hP, hD, add_assoc]
      have hF'm : ∀ p ∈ F', Managed L p := by
        intro p hp
        refine hman p ?_
        rw [← hF'P]
        exact Multiset.mem_add.mpr (Or.inr hp)
      have htF' : t ∉ F' := by
        intro hmem
        rw [← hF'P] at hnodup
        exact Multiset.disjoint_left.mp (Multiset.nodup_add.mp hnodup).2.2
          (Multiset.mem_singleton_self t) hmem
      refine wp_of_ok (kfree_apply ht s') ?_
      refine hQ _ (t :: F') (hinv.free.freePage ht hF'm htF') ?_ ?_ ⟨c, hP, ?_⟩
      · rw [← Multiset.cons_coe, ← Multiset.singleton_add, hF'P]
      · rw [hP, hD]
        refine hinv.agree.trans ((agreeOff_freePage s' t).mono ?_)
        exact fun p hp => Multiset.mem_add.mpr (Or.inl hp)
      · exact fun i hi => hinv.done i hi (by simp)

end Freewalk

/-- The level-0 tables, listed per level-1 table. -/
theorem sum_l1Slots (f : ℕ → Multiset ℕ) :
    ∑ q ∈ l1Slots, f q = ∑ i ∈ rootSlots, ∑ j ∈ rootSlots, f (512 * i + j) := by
  rw [← Finset.sum_product']
  refine Finset.sum_nbij' (fun q => (q / 512, q % 512)) (fun p => 512 * p.1 + p.2) ?_ ?_ ?_ ?_ ?_
  · intro q hq
    have hq' := mem_l1Slots.mp hq
    exact Finset.mem_product.mpr ⟨mem_rootSlots.mpr (by omega), mem_rootSlots.mpr (by omega)⟩
  · intro p hp
    obtain ⟨h1, h2⟩ := Finset.mem_product.mp hp
    have h1' := mem_rootSlots.mp h1
    have h2' := mem_rootSlots.mp h2
    exact mem_l1Slots.mpr (by omega)
  · intro q _
    exact Nat.div_add_mod q 512
  · rintro ⟨i, j⟩ hp
    obtain ⟨-, h2⟩ := Finset.mem_product.mp hp
    have h2' := mem_rootSlots.mp h2
    simp only [Prod.mk.injEq]
    omega
  · intro q _
    rw [Nat.div_add_mod]

section Tables

variable {m : Store} {root : ℕ} {leafOk : Prop} {sub : ℕ → Multiset ℕ → Prop}

theorem entry_child {w : ℕ} {P : Multiset ℕ} (hleaf : isLeaf w = false)
    (hnone : childOf w = none → P = 0) (hsome : ∀ t, childOf w = some t → sub t P) :
    Entry sub leafOk w P := by
  by_cases hv : isValid w = true
  · exact Or.inr (Or.inr ⟨hv, hleaf, hsome _ (if_pos ⟨hv, hleaf⟩)⟩)
  · exact Or.inl ⟨by simpa using hv, hnone (if_neg fun h => hv h.1)⟩

theorem Entry.of_child {w t : ℕ} {P : Multiset ℕ} (ht : childOf w = some t)
    (h : Entry sub False w P) : sub t P := by
  unfold childOf at ht
  split_ifs at ht with hw
  obtain rfl := Option.some.inj ht
  rcases h with ⟨hv, -⟩ | ⟨hf, -⟩ | ⟨-, -, hs⟩
  · rw [hw.1] at hv
    exact absurd hv (by decide)
  · exact hf.elim
  · exact hs

theorem Entry.of_invalid {w : ℕ} {P : Multiset ℕ} (h : Entry sub leafOk w P)
    (hv : isValid w = false) : P = 0 := by
  rcases h with ⟨-, hP⟩ | ⟨-, -, hP⟩ | ⟨hv', -⟩
  · exact hP
  · exact hP
  · rw [hv] at hv'
    exact Bool.noConfusion hv'

/-- No level-0 entry looks like a link to a further table. -/
def FlatAt (m : Store) (root : ℕ) : Prop :=
  ∀ k, k < 2 ^ 27 → isValid (pteAt m root k) = true → isLeaf (pteAt m root k) = true

section Sub

variable {n : ℕ} {P : ℕ → Multiset ℕ} (hlinks : LinksOnly m root)
  (hentry : ∀ k, k < 2 ^ 27 → Entry (Sub leafOk m n) leafOk (pteAt m root k) (P k))

include hentry in
theorem sub_l0At {q u : ℕ} (hq : q < 2 ^ 18) (hu : l0At m root q = some u) :
    Sub leafOk m (n + 1) u ({u} + ∑ j ∈ rootSlots, P (512 * q + j)) := by
  refine ⟨fun j => P (512 * q + j), by rw [sum_tableIndices], ?_⟩
  intro j hj
  have hj' := mem_tableIndices.mp hj
  have hdiv : (512 * q + j) / 512 = q := by omega
  have hmod : (512 * q + j) % 512 = j := by omega
  have hword : pteAt m root (512 * q + j) = load 8 m (u + 8 * j) := by
    rw [pteAt_of_l0At (by rw [hdiv]; exact hu), hmod]
  rw [← hword]
  exact hentry _ (by omega)

include hentry in
/-- Without a table there is nothing below its entries. -/
theorem below_none {q : ℕ} (hq : q < 2 ^ 18) (hn : l0At m root q = none) :
    ∑ j ∈ rootSlots, P (512 * q + j) = 0 := by
  refine Finset.sum_eq_zero fun j hj => ?_
  have hj' := mem_rootSlots.mp hj
  have hdiv : (512 * q + j) / 512 = q := by omega
  refine (hentry (512 * q + j) (by omega)).of_invalid ?_
  rw [pteAt_none (by rw [hdiv]; exact hn)]
  rfl

include hlinks hentry in
theorem sub_l1At {i t : ℕ} (hi : i < 512) (ht : l1At m root i = some t) :
    Sub leafOk m (n + 2) t ({t} + ∑ j ∈ rootSlots,
      (pageOf (l0At m root (512 * i + j)) + ∑ j' ∈ rootSlots, P (512 * (512 * i + j) + j'))) := by
  refine ⟨fun j => pageOf (l0At m root (512 * i + j)) +
    ∑ j' ∈ rootSlots, P (512 * (512 * i + j) + j'), by rw [sum_tableIndices], ?_⟩
  intro j hj
  have hj' := mem_tableIndices.mp hj
  have hdiv : (512 * i + j) / 512 = i := by omega
  have hmod : (512 * i + j) % 512 = j := by omega
  have ht' : l1At m root ((512 * i + j) / 512) = some t := by rw [hdiv]; exact ht
  have hchild := l0At_of_l1At ht'
  have hlink := hlinks.level1 (512 * i + j) (by omega) t ht'
  rw [hmod] at hchild hlink
  refine entry_child hlink ?_ ?_
  · intro hn
    simp only [hchild, hn, pageOf_none, zero_add]
    exact below_none hentry (by omega) (hchild.trans hn)
  · intro u hu
    simp only [hchild, hu, pageOf_some]
    exact sub_l0At hentry (by omega) (hchild.trans hu)

include hlinks hentry in
/-- The tables in memory are what `freewalk` meets below the root. -/
theorem sub_tablesAt : Sub leafOk m (n + 3) root
    (tablesAt m root + ∑ q ∈ l1Slots, ∑ j ∈ rootSlots, P (512 * q + j)) := by
  refine ⟨fun i => pageOf (l1At m root i) + ∑ j ∈ rootSlots, (pageOf (l0At m root (512 * i + j)) +
    ∑ j' ∈ rootSlots, P (512 * (512 * i + j) + j')), ?_, ?_⟩
  · rw [sum_tableIndices, Finset.sum_add_distrib,
      ← sum_l1Slots fun q => pageOf (l0At m root q) + ∑ j ∈ rootSlots, P (512 * q + j),
      Finset.sum_add_distrib]
    unfold tablesAt
    simp only [add_assoc]
  · intro i hi
    have hi' := mem_tableIndices.mp hi
    refine entry_child (hlinks.level2 i hi') ?_ ?_
    · intro hn
      have hn' : l1At m root i = none := hn
      simp only [hn', pageOf_none, zero_add]
      refine Finset.sum_eq_zero ?_
      intro j hj
      have hj' := mem_rootSlots.mp hj
      have hdiv : (512 * i + j) / 512 = i := by omega
      have hl0 : l0At m root (512 * i + j) = none := by
        unfold l0At
        rw [hdiv, hn', Option.bind_none]
      rw [hl0, pageOf_none, zero_add]
      exact below_none hentry (by omega) hl0
    · intro t ht
      have ht' : l1At m root i = some t := ht
      simp only [ht', pageOf_some]
      exact sub_l1At hlinks hentry hi' ht'

end Sub

/-- A table that `freewalk` went through without a panic has no leaf. -/
theorem no_leafAt {P : Multiset ℕ} (hsub : Sub False m 3 root P) :
    ∀ k, k < 2 ^ 27 → isLeaf (pteAt m root k) = false := by
  intro k hk
  obtain ⟨c2, -, h2⟩ := hsub
  cases hl0 : l0At m root (k / 512) with
  | none =>
    rw [pteAt_none hl0]
    rfl
  | some u =>
    obtain ⟨t, ht, hu⟩ := Option.bind_eq_some_iff.mp hl0
    obtain ⟨c1, -, h1⟩ := (h2 (k / 512 / 512) (mem_tableIndices.mpr (by omega))).of_child ht
    obtain ⟨c0, -, h0⟩ := (h1 (k / 512 % 512) (mem_tableIndices.mpr (by omega))).of_child hu
    rw [pteAt_of_l0At hl0]
    rcases h0 (k % 512) (mem_tableIndices.mpr (by omega)) with ⟨hv, -⟩ | ⟨hf, -⟩ | ⟨-, hl, -⟩
    · simp [isLeaf, hv]
    · exact hf.elim
    · exact hl

/-- `freewalk` on the root of a page table in memory. -/
theorem TableAt.wp_freewalk {L : Layout} {s : Ram} {F : List ℕ} {E : Panic → Prop}
    {Q : Unit → Ram → Prop} (h : TableAt L s root F)
    (hman : ∀ p ∈ tablesAt s.mem root, Managed L p) (hflat : FlatAt s.mem root)
    (hE : (∀ k, k < 2 ^ 27 → isLeaf (pteAt s.mem root k) = false) ∨ ∀ e, E e)
    (hQ : ∀ s' F', FreeList s'.mem s'.head F' → (↑F' : Multiset ℕ) = tablesAt s.mem root + ↑F →
      AgreeOff (tablesAt s.mem root) s.mem s'.mem →
      (∀ k, k < 2 ^ 27 → isValid (pteAt s.mem root k) = false) → Q () s') :
    (freewalk L freewalkDepth root).wp E Q s := by
  have hentry : ∀ k, k < 2 ^ 27 →
      Entry (Sub (∃ k, k < 2 ^ 27 ∧ isLeaf (pteAt s.mem root k) = true) s.mem 0)
        (∃ k, k < 2 ^ 27 ∧ isLeaf (pteAt s.mem root k) = true) (pteAt s.mem root k) 0 := by
    intro k hk
    by_cases hv : isValid (pteAt s.mem root k) = true
    · have hl := hflat k hk hv
      exact Or.inr (Or.inl ⟨⟨k, hk, hl⟩, hl, rfl⟩)
    · exact Or.inl ⟨by simpa using hv, rfl⟩
  have hsub := sub_tablesAt (P := fun _ => 0) h.links hentry
  simp only [Finset.sum_const_zero, add_zero] at hsub
  refine ToyOs.wp_freewalk ?_ (by decide) hsub h.free h.nodup ?_ ?_
  · rintro ⟨k, hk, hl⟩
    rcases hE with hn | hall
    · simp [hn k hk] at hl
    · exact hall
  · intro p hp
    rcases Multiset.mem_add.mp hp with hp | hp
    · exact hman p hp
    · exact h.managed p hp
  · intro s' F' hfree hF' hagree hsub
    refine hQ s' F' hfree hF' hagree ?_
    intro k hk
    by_contra hv
    have hl := hflat k hk (by simpa using hv)
    simp [no_leafAt hsub k hk] at hl

end Tables

section Trees

variable {L : Layout} {s : Ram} {T : Tree} {F : List ℕ} {R : Multiset ℕ} {E : Panic → Prop}

/-- No level-0 entry looks like a link to a further table. -/
def Tree.Flat (T : Tree) : Prop :=
  ∀ k, k < 2 ^ 27 → isValid (T.pte k) = true → isLeaf (T.pte k) = true

theorem isLeaf_linkWord (o : Option ℕ) : isLeaf (linkWord o) = false := by
  cases o with
  | none => rfl
  | some t => exact isLeaf_tableWord t

/-- A tree stands in memory as a page table. -/
theorem Space.tableAt (h : Space L s T F R) : TableAt L s T.root F where
  aligned := (h.table_managed T.root_mem).aligned
  links := by
    have hman : ∀ p ∈ T.tables, Managed L p := fun p hp => h.table_managed hp
    refine ⟨fun i hi => ?_, fun q hq t ht => ?_⟩
    · rw [h.rep.root_entry i hi]
      exact isLeaf_linkWord _
    · rw [h.rep.l1At hman (by omega)] at ht
      rw [h.rep.l1_entry q hq t ht]
      exact isLeaf_linkWord _
  free := h.free
  managed := fun p hp => h.pool_managed p (Multiset.mem_add.mpr (Or.inr hp))
  nodup := by
    rw [h.rep.tablesAt fun p hp => h.table_managed hp]
    exact h.pool_nodup

/-- `freewalk` on the root of an address space. -/
theorem wp_freewalk_root (h : Space L s T F R) (hflat : T.Flat) {Q : Unit → Ram → Prop}
    (hE : (∀ k, k < 2 ^ 27 → isLeaf (T.pte k) = false) ∨ ∀ e, E e)
    (hQ : ∀ s' F', FreeList s'.mem s'.head F' → (↑F' : Multiset ℕ) = T.tables + ↑F →
      AgreeOff T.tables s.mem s'.mem → (∀ k, k < 2 ^ 27 → isValid (T.pte k) = false) → Q () s') :
    (freewalk L freewalkDepth T.root).wp E Q s := by
  have hman : ∀ p ∈ T.tables, Managed L p := fun p hp => h.table_managed hp
  have hpte : ∀ k, k < 2 ^ 27 → pteAt s.mem T.root k = T.pte k := fun k hk => h.rep.pteAt hman hk
  have htables := h.rep.tablesAt hman
  refine h.tableAt.wp_freewalk (by rwa [htables]) ?_ ?_ ?_
  · intro k hk
    rw [hpte k hk]
    exact hflat k hk
  · refine hE.imp_left fun hn k hk => ?_
    rw [hpte k hk]
    exact hn k hk
  · intro s' F' hfree hF' hagree hnone
    rw [htables] at hF' hagree
    refine hQ s' F' hfree hF' hagree fun k hk => ?_
    rw [← hpte k hk]
    exact hnone k hk

end Trees

end ToyOs
