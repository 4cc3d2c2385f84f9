import ToyOs.TableMap
import ToyOs.Argv

/-!
Taking a process page table down. Four calls of `uvmunmap` clear ranges of
entries one after the other and free the pages of two of them; `Cleared` is the
state between the calls. Then `freewalk` meets tables without leaves, and all
pages of the address space are on the free list.
-/
namespace ToyOs

open Bytes Prog Multiset

/-- The pages mapped from index `k` on. -/
def pagesAt (m : Store) (root k n : ℕ) : Multiset ℕ :=
  (Multiset.range n).map fun j => ptePa (pteAt m root (k + j))

theorem pagesAt_one (m : Store) (root k : ℕ) : pagesAt m root k 1 = {ptePa (pteAt m root k)} := by
  unfold pagesAt
  rw [range_succ, range_zero, map_cons, map_zero, Nat.add_zero]
  rfl

/-- The pages that belong to the user: the image and, if there is one, the stack. -/
def userPagesAt (m : Store) (root sz : ℕ) (stack : Bool) : Multiset ℕ :=
  pagesAt m root 0 (pages sz) + if stack then pagesAt m root (vpn userStack) 1 else 0

/-- A process page table in memory, beside the free list. Its leaves are the two
kernel pages, the image below `sz` and possibly the stack; the pages of tables
and user are managed and all different. -/
structure ProcTable (L : Layout) (s : Ram) (root sz : ℕ) (stack : Bool) (F : List ℕ) : Prop where
  links : LinksOnly s.mem root
  flat : FlatAt s.mem root
  leaves : ∀ k, k < 2 ^ 27 → (isLeaf (pteAt s.mem root k) = true ↔ k = vpn trampolineVa ∨
    k = vpn trapframeVa ∨ k < pages sz ∨ stack = true ∧ k = vpn userStack)
  stackUser : stack = true → pteAt s.mem root (vpn userStack) &&& pteU ≠ 0
  free : FreeList s.mem s.head F
  nodup : (tablesAt s.mem root + userPagesAt s.mem root sz stack + ↑F).Nodup
  managed : ∀ p ∈ tablesAt s.mem root + userPagesAt s.mem root sz stack + ↑F, Managed L p
  trampoline : ptePa (pteAt s.mem root (vpn trampolineVa)) = L.trampolineStart
  trapframe : ptePa (pteAt s.mem root (vpn trapframeVa)) ∉
    tablesAt s.mem root + userPagesAt s.mem root sz stack + ↑F

/-- The entries of `K` were cleared and the pages `D` freed. -/
structure Cleared (L : Layout) (root : ℕ) (s : Ram) (F : List ℕ) (K : Set ℕ) (D : Multiset ℕ)
    (s' : Ram) (F' : List ℕ) : Prop where
  table : TableAt L s' root F'
  zero : ∀ j, j < 2 ^ 27 → j ∈ K → pteAt s'.mem root j = 0
  other : ∀ j, j < 2 ^ 27 → j ∉ K → pteAt s'.mem root j = pteAt s.mem root j
  tables : tablesAt s'.mem root = tablesAt s.mem root
  freed : (↑F' : Multiset ℕ) = D + ↑F

section Clear

variable {L : Layout} {s s₁ : Ram} {root k n va : ℕ} {F F₁ : List ℕ} {K : Set ℕ} {D : Multiset ℕ}
  {doFree : Bool}

theorem Cleared.refl (h : TableAt L s root F) : Cleared L root s F ∅ 0 s F :=
  ⟨h, fun _ _ hj => absurd hj (Set.notMem_empty _), fun _ _ _ => rfl, rfl, (zero_add _).symm⟩

theorem freeable_of_nodup (hman : ∀ p ∈ pagesAt s.mem root k n, Managed L p)
    (hnodup : (tablesAt s.mem root + pagesAt s.mem root k n + ↑F).Nodup) : Freeable L s root k n F := by
  have hmem : ∀ j, j < n → ptePa (pteAt s.mem root (k + j)) ∈ pagesAt s.mem root k n := fun j hj =>
    mem_map_of_mem _ (mem_range.mpr hj)
  obtain ⟨hleft, -, hfree⟩ := nodup_add.mp hnodup
  obtain ⟨-, hpages, htables⟩ := nodup_add.mp hleft
  refine ⟨fun j hj => hman _ (hmem j hj), fun j hj hin => ?_, fun j hj hin => ?_,
    fun j j' hj hj' heq => ?_⟩
  · exact disjoint_left.mp htables hin (hmem j hj)
  · exact disjoint_left.mp hfree (mem_add.mpr (Or.inr (hmem j hj)))
      (mem_coe.mpr hin)
  · exact inj_on_of_nodup_map hpages j (mem_range.mpr hj) j'
      (mem_range.mpr hj') heq

theorem Cleared.unmap (h : Cleared L root s F K D s₁ F₁) (hva : va % pgSize = 0) (hn : 0 < n)
    (hk : va / pgSize + n ≤ 2 ^ 27) (hK : ∀ j, j < n → va / pgSize + j ∉ K)
    (hleaf : ∀ j, j < n → isLeaf (pteAt s.mem root (va / pgSize + j)) = true)
    (hman : doFree = true → ∀ p ∈ pagesAt s.mem root (va / pgSize) n, Managed L p)
    (hnodup : doFree = true →
      (tablesAt s.mem root + pagesAt s.mem root (va / pgSize) n + (D + ↑F)).Nodup) :
    ∃ s₂ F₂, uvmunmap L root va n doFree s₁ = .ok ((), s₂) ∧
      Cleared L root s F (K ∪ Set.Ico (va / pgSize) (va / pgSize + n))
        ((if doFree then pagesAt s.mem root (va / pgSize) n else 0) + D) s₂ F₂ := by
  have hsame : ∀ j, j < n → pteAt s₁.mem root (va / pgSize + j) = pteAt s.mem root (va / pgSize + j) :=
    fun j hj => h.other _ (by omega) (hK j hj)
  have hpages : pagesAt s₁.mem root (va / pgSize) n = pagesAt s.mem root (va / pgSize) n :=
    map_congr rfl fun j hj => by rw [hsame j (mem_range.mp hj)]
  obtain ⟨s₂, F₂, hrun, hdone⟩ := uvmunmap_run h.table hva hn hk
    (fun j hj => by rw [hsame j hj]; exact hleaf j hj) fun hf =>
      freeable_of_nodup (by rw [hpages]; exact hman hf)
        (by rw [h.tables, hpages, h.freed]; exact hnodup hf)
  refine ⟨s₂, F₂, hrun, hdone.table, ?_, ?_, hdone.tables.trans h.tables, ?_⟩
  · rintro j hj (hin | hin)
    · rw [hdone.pte j hj]
      split_ifs
      · rfl
      · exact h.zero j hj hin
    · rw [hdone.pte j hj, if_pos (Set.mem_Ico.mp hin)]
  · intro j hj hout
    rw [hdone.pte j hj, if_neg fun hin => hout (Or.inr (Set.mem_Ico.mpr hin))]
    exact h.other j hj fun hin => hout (Or.inl hin)
  · have hfreed := hdone.free
    unfold pagesAt at hpages ⊢
    rw [hpages] at hfreed
    rw [hfreed, h.freed, add_assoc]

theorem Cleared.drop (h : Cleared L root s F K D s₁ F₁) (hva : va % pgSize = 0)
    (hk : va / pgSize < 2 ^ 27) (hK : va / pgSize ∉ K)
    (hleaf : isLeaf (pteAt s.mem root (va / pgSize)) = true) :
    ∃ s₂ F₂, uvmunmap L root va 1 false s₁ = .ok ((), s₂) ∧
      Cleared L root s F (K ∪ Set.Ico (va / pgSize) (va / pgSize + 1)) D s₂ F₂ := by
  have hzero : ∀ j, j < 1 → va / pgSize + j = va / pgSize := by omega
  obtain ⟨s₂, F₂, hrun, hdone⟩ := h.unmap hva Nat.one_pos (by omega)
    (fun j hj => by rw [hzero j hj]; exact hK) (fun j hj => by rw [hzero j hj]; exact hleaf)
    (fun hf : false = true => absurd hf (by decide)) fun hf => absurd hf (by decide)
  rw [if_neg (by decide), zero_add] at hdone
  exact ⟨s₂, F₂, hrun, hdone⟩

/-- Once nothing but cleared entries is left, `freewalk` frees the tables. -/
theorem Cleared.freewalk (h : Cleared L root s F K D s₁ F₁)
    (hman : ∀ p ∈ tablesAt s.mem root, Managed L p)
    (hK : ∀ j, j < 2 ^ 27 → j ∉ K → isValid (pteAt s.mem root j) = false) :
    ∃ s₂ F₂, freewalk L freewalkDepth root s₁ = .ok ((), s₂) ∧ FreeList s₂.mem s₂.head F₂ ∧
      (↑F₂ : Multiset ℕ) = tablesAt s.mem root + (D + ↑F) := by
  have hnone : ∀ j, j < 2 ^ 27 → isValid (pteAt s₁.mem root j) = false := by
    intro j hj
    by_cases hin : j ∈ K
    · rw [h.zero j hj hin]
      rfl
    · rw [h.other j hj hin]
      exact hK j hj hin
  have hwp : (ToyOs.freewalk L freewalkDepth root).wp (fun _ => False) (fun _ s₂ => ∃ F₂,
      FreeList s₂.mem s₂.head F₂ ∧ (↑F₂ : Multiset ℕ) = tablesAt s.mem root + (D + ↑F)) s₁ := by
    refine h.table.wp_freewalk (by rw [h.tables]; exact hman) ?_ (Or.inl ?_) ?_
    · intro j hj hv
      rw [hnone j hj] at hv
      exact absurd hv (by decide)
    · intro j hj
      simp [isLeaf, hnone j hj]
    · intro s₂ F₂ hfree hF₂ _ _
      exact ⟨F₂, hfree, by rw [hF₂, h.tables, h.freed]⟩
  obtain ⟨_, s₂, hrun, F₂, hfree, hF₂⟩ := exists_ok hwp
  exact ⟨s₂, F₂, hrun, hfree, hF₂⟩

/-- `uvmfree` frees the image and the tables. -/
theorem Cleared.uvmfree {sz : ℕ} (h : Cleared L root s F K D s₁ F₁) (hsmall : pages sz < 2 ^ 15)
    (hK : ∀ j, j < pages sz → j ∉ K) (hleaf : ∀ j, j < pages sz → isLeaf (pteAt s.mem root j) = true)
    (hrest : ∀ j, j < 2 ^ 27 → pages sz ≤ j → j ∉ K → isValid (pteAt s.mem root j) = false)
    (hman : ∀ p ∈ tablesAt s.mem root + pagesAt s.mem root 0 (pages sz), Managed L p)
    (hnodup : (tablesAt s.mem root + pagesAt s.mem root 0 (pages sz) + (D + ↑F)).Nodup) :
    (uvmfree L root sz).wp (fun _ => False) (fun _ s' => ∃ F', FreeList s'.mem s'.head F' ∧
      (↑F' : Multiset ℕ) = tablesAt s.mem root + (pagesAt s.mem root 0 (pages sz) + D + ↑F)) s₁ := by
  have hdiv : pages sz * pgSize / pgSize = pages sz := Nat.mul_div_cancel _ (by decide)
  have htables : ∀ p ∈ tablesAt s.mem root, Managed L p :=
    fun p hp => hman p (mem_add.mpr (Or.inl hp))
  simp only [ToyOs.uvmfree, wp_bind, wp_pageRoundUp, hdiv, wp_ite]
  refine ⟨fun _ => ⟨fun hpos => ?_, fun hzero => ?_⟩, fun hbad => ?_⟩
  · have hn : 0 < pages sz := lt_pages_iff.mpr (by omega)
    obtain ⟨s₂, F₂, hrun, hdone⟩ := h.unmap (rfl : 0 % pgSize = 0) hn (by rw [Nat.zero_div]; omega)
      (fun j hj => by rw [Nat.zero_div, Nat.zero_add]; exact hK j hj)
      (fun j hj => by rw [Nat.zero_div, Nat.zero_add]; exact hleaf j hj)
      (fun _ : true = true => fun p hp => hman p (mem_add.mpr (Or.inr hp))) fun _ => hnodup
    refine wp_of_ok hrun ?_
    obtain ⟨s₃, F₃, hrun', hfree, hF₃⟩ := hdone.freewalk htables fun j hj hout => by
      refine hrest j hj ?_ fun hin => hout (Or.inl hin)
      by_contra hlt
      exact hout (Or.inr (Set.mem_Ico.mpr ⟨by rw [Nat.zero_div]; omega, by rw [Nat.zero_div]; omega⟩))
    exact wp_of_ok hrun' ⟨F₃, hfree, hF₃⟩
  · have hn : pages sz = 0 := by
      unfold pages pgSize
      omega
    obtain ⟨s₃, F₃, hrun', hfree, hF₃⟩ := h.freewalk htables fun j hj hout =>
      hrest j hj (by omega) hout
    refine wp_of_ok hrun' ⟨F₃, hfree, ?_⟩
    rw [hF₃, hn]
    unfold pagesAt
    rw [range_zero, map_zero, zero_add]
  · unfold pages pgSize usizeSize at *
    omega

end Clear

section Free

variable {L : Layout} {s : Ram} {root sz : ℕ} {stack : Bool} {F : List ℕ}

namespace ProcTable

theorem tableAt (h : ProcTable L s root sz stack F) : TableAt L s root F where
  aligned := (h.managed root (by simp [TableAt.root_mem])).aligned
  links := h.links
  free := h.free
  managed := fun p hp => h.managed p (by simp [hp])
  nodup := nodup_of_le (add_le_add (le_add_right _ _) le_rfl) h.nodup

/-- An image of different managed pages is small. -/
theorem pages_le (h : ProcTable L s root sz stack F) : pages sz < 2 ^ 15 := by
  have hle : pagesAt s.mem root 0 (pages sz) ≤
      tablesAt s.mem root + userPagesAt s.mem root sz stack + ↑F := by
    unfold userPagesAt
    exact ((le_add_right _ _).trans (le_add_left _ _)).trans
      (le_add_right _ _)
  have hcount := length_le_managedCount (L := L)
    (F := (List.range (pages sz)).map fun j => ptePa (pteAt s.mem root (0 + j)))
    (coe_nodup.mp (nodup_of_le hle h.nodup))
    fun p hp => h.managed p (mem_of_le hle hp)
  rw [List.length_map, List.length_range] at hcount
  exact lt_of_le_of_lt hcount (managedCount_lt L)

end ProcTable

/-- `proc_freepagetable` puts every table page and every page of the user on the
free list, each once, and leaves the trampoline and the trap frame alone. -/
theorem teardown_frees_once (h : ProcTable L s root sz stack F) :
    ∃ s' F', procFreepagetable L root sz s = .ok ((), s') ∧ FreeList s'.mem s'.head F' ∧
      (↑F' : Multiset ℕ) = tablesAt s.mem root + userPagesAt s.mem root sz stack + ↑F ∧ F'.Nodup ∧
      ptePa (pteAt s.mem root (vpn trampolineVa)) ∉ F' ∧
      ptePa (pteAt s.mem root (vpn trapframeVa)) ∉ F' := by
  have hsmall := h.pages_le
  have hi1 : trampolineVa / pgSize = 2 ^ 26 - 1 := by decide
  have hi2 : trapframeVa / pgSize = 2 ^ 26 - 2 := by decide
  have hi3 : userStack / pgSize = 2 ^ 26 - 3 := by decide
  have hleaves := h.leaves
  rw [vpn_trampoline, vpn_trapframe, vpn_userStack] at hleaves
  have hnodup := h.nodup
  have hman := h.managed
  unfold userPagesAt at hnodup hman
  rw [vpn_userStack] at hnodup hman
  suffices hwp : (procFreepagetable L root sz).wp (fun _ => False) (fun _ s' => ∃ F',
      FreeList s'.mem s'.head F' ∧
        (↑F' : Multiset ℕ) = tablesAt s.mem root + userPagesAt s.mem root sz stack + ↑F) s by
    obtain ⟨_, s', hrun, F', hfree, hF'⟩ := exists_ok hwp
    refine ⟨s', F', hrun, hfree, hF', ?_, fun hin => ?_, fun hin => ?_⟩
    · rw [← Multiset.coe_nodup, hF']
      exact h.nodup
    · have hm := h.managed _ (by rw [← hF']; exact hin)
      rw [h.trampoline] at hm
      exact absurd hm.above (by have := L.trampoline_below; omega)
    · exact h.trapframe (by rw [← hF']; exact hin)
  obtain ⟨s₁, F₁, hrun1, hc1⟩ := (Cleared.refl h.tableAt).drop (by decide : trampolineVa % pgSize = 0)
    (by decide) (Set.notMem_empty _) (by rw [hi1]; exact (hleaves _ (by decide)).mpr (Or.inl rfl))
  obtain ⟨s₂, F₂, hrun2, hc2⟩ := hc1.drop (by decide : trapframeVa % pgSize = 0) (by decide)
    (by rw [hi1, hi2]; simp)
    (by rw [hi2]; exact (hleaves _ (by decide)).mpr (Or.inr (Or.inl rfl)))
  rw [hi1, hi2] at hc2
  have hstack : pteAt s₂.mem root (2 ^ 26 - 3) = pteAt s.mem root (2 ^ 26 - 3) :=
    hc2.other _ (by decide) (by simp)
  -- With the kernel entries and the stack gone, the image is all that is left.
  have hend : ∀ K s₃ F₃, (∀ j, j ∈ K ↔ j = 2 ^ 26 - 1 ∨ j = 2 ^ 26 - 2 ∨ stack = true ∧ j = 2 ^ 26 - 3) →
      Cleared L root s F K (if stack then pagesAt s.mem root (2 ^ 26 - 3) 1 else 0) s₃ F₃ →
      (uvmfree L root sz).wp (fun _ => False) (fun _ s' => ∃ F', FreeList s'.mem s'.head F' ∧
        (↑F' : Multiset ℕ) = tablesAt s.mem root + userPagesAt s.mem root sz stack + ↑F) s₃ := by
    intro K s₃ F₃ hK hc
    refine wp_post (hc.uvmfree hsmall (fun j hj hin => ?_) (fun j hj => ?_) ?_ ?_ ?_) ?_
    · rcases (hK j).mp hin with hin | hin | ⟨-, hin⟩ <;> omega
    · exact (hleaves j (by omega)).mpr (Or.inr (Or.inr (Or.inl hj)))
    · intro j hj hge hout
      by_contra hv
      rcases (hleaves j hj).mp (h.flat j hj (by simpa using hv)) with hin | hin | hlt | hin
      · exact hout ((hK j).mpr (Or.inl hin))
      · exact hout ((hK j).mpr (Or.inr (Or.inl hin)))
      · omega
      · exact hout ((hK j).mpr (Or.inr (Or.inr hin)))
    · exact fun p hp => hman p (Multiset.mem_of_le
        (by rw [← add_assoc, add_assoc]; exact Multiset.le_add_right _ _) hp)
    · rwa [← add_assoc, add_assoc (tablesAt s.mem root)]
    · rintro _ s' ⟨F', hfree, hF'⟩
      refine ⟨F', hfree, hF'.trans ?_⟩
      unfold userPagesAt
      rw [vpn_userStack, ← add_assoc]
  obtain ⟨r, hwalk, hsome, hnone⟩ := walkUserPerm_at root userStack 0 s₂
  simp only [procFreepagetable, wp_bind]
  refine wp_of_ok hrun1 (wp_of_ok hrun2 (wp_of_ok hwalk ?_))
  cases stack with
  | false =>
    have hno : ¬ Grants s₂.mem root 0 userStack := by
      intro hg
      have hl := hg.leaf
      rw [vpn_userStack, hstack, hleaves _ (by decide)] at hl
      rcases hl with hl | hl | hl | ⟨hl, -⟩
      · omega
      · omega
      · omega
      · exact absurd hl (by decide)
    rw [hnone hno]
    refine hend _ s₂ F₂ (fun j => ?_) hc2
    simp only [Set.mem_union, Set.mem_Ico, Set.mem_empty_iff_false, false_or, Bool.false_eq_true,
      false_and, or_false]
    omega
  | true =>
    have hgrants : Grants s₂.mem root 0 userStack := by
      refine ⟨by decide, ?_, ?_, Nat.and_zero _⟩
      · rw [vpn_userStack, hstack, hleaves _ (by decide)]
        exact Or.inr (Or.inr (Or.inr ⟨rfl, rfl⟩))
      · have hu := h.stackUser rfl
        rw [vpn_userStack] at hu ⊢
        rwa [hstack]
    rw [hsome hgrants, Option.isSome_some, if_pos rfl, wp_bind]
    rw [if_pos rfl] at hnodup hman
    obtain ⟨s₃, F₃, hrun3, hc3⟩ := hc2.unmap (by decide : userStack % pgSize = 0) Nat.one_pos
      (by decide) (fun j hj => by rw [hi3]; simp; omega)
      (fun j hj => by
        obtain rfl : j = 0 := by omega
        rw [hi3]
        exact (hleaves _ (by decide)).mpr (Or.inr (Or.inr (Or.inr ⟨rfl, rfl⟩))))
      (fun _ : true = true => fun p hp => by
        rw [hi3] at hp
        exact hman p (Multiset.mem_of_le ((Multiset.le_add_left _ _).trans
          ((Multiset.le_add_left _ _).trans (Multiset.le_add_right _ _))) hp))
      (fun _ => by
        rw [hi3, zero_add]
        refine Multiset.nodup_of_le (add_le_add (add_le_add le_rfl ?_) le_rfl) hnodup
        exact Multiset.le_add_left _ _)
    refine wp_of_ok hrun3 (hend _ s₃ F₃ (fun j => ?_) (by rwa [hi3, add_zero] at hc3))
    simp only [Set.mem_union, Set.mem_Ico, Set.mem_empty_iff_false, false_or, true_and]
    omega

/-- The user pages of a well-formed address space are its image and its stack. -/
theorem Tree.Formed.mapped_eq {T : Tree} {n : ℕ} (h : T.Formed n) :
    T.mapped = (Multiset.range n).map (fun k => ptePa (T.pte k)) + entryPage (T.pte (2 ^ 26 - 3)) := by
  have hn := h.below
  have hsub : insert (2 ^ 26 - 3) (Finset.range n) ⊆ userSlots := by
    intro k hk
    rw [Finset.mem_insert, Finset.mem_range] at hk
    rw [mem_userSlots]
    omega
  have hzero : ∀ k ∈ userSlots, k ∉ insert (2 ^ 26 - 3) (Finset.range n) → entryPage (T.pte k) = 0 := by
    intro k hk hout
    rw [mem_userSlots] at hk
    rw [Finset.mem_insert, Finset.mem_range] at hout
    exact entryPage_invalid (h.rest k hk.1 (by omega) hk.2.1 hk.2.2 (by omega))
  have himage : ∑ k ∈ Finset.range n, entryPage (T.pte k) =
      (Multiset.range n).map fun k => ptePa (T.pte k) := by
    rw [Finset.sum_congr rfl fun k hk =>
      entryPage_valid (isValid_of_isLeaf (h.image k (Finset.mem_range.mp hk))),
      ← sum_map_singleton ((Multiset.range n).map fun k => ptePa (T.pte k)), map_map]
    rfl
  unfold Tree.mapped
  rw [← Finset.sum_subset hsub hzero, Finset.sum_insert (by rw [Finset.mem_range]; omega), himage,
    add_comm]

/-- The address space of a process stands in memory as such a table. -/
theorem AddrSpace.procTable {T : Tree} {R : Multiset ℕ} {tf : ℕ} (h : AddrSpace L s T F R)
    (hf : T.Formed (pages sz)) (hfix : T.Fixed L tf) (htf : tf ∈ R) :
    ProcTable L s T.root sz (isValid (T.pte (2 ^ 26 - 3))) F := by
  have hman : ∀ p ∈ T.tables, Managed L p := fun p hp => h.table_managed hp
  have hpte : ∀ k, k < 2 ^ 27 → pteAt s.mem T.root k = T.pte k := fun k hk => h.rep.pteAt hman hk
  have htables := h.rep.tablesAt hman
  have hbelow := hf.below
  have huser : userPagesAt s.mem T.root sz (isValid (T.pte (2 ^ 26 - 3))) = T.mapped := by
    have himage : pagesAt s.mem T.root 0 (pages sz) =
        (Multiset.range (pages sz)).map fun k => ptePa (T.pte k) :=
      map_congr rfl fun k hk => by
        rw [Nat.zero_add, hpte k (by have := mem_range.mp hk; omega)]
    unfold userPagesAt
    rw [himage, pagesAt_one, vpn_userStack, hpte _ (by decide), hf.mapped_eq]
    unfold entryPage
    rfl
  have hpool : T.tables + ↑F + (T.mapped + R) = T.tables + T.mapped + ↑F + R := by abel
  have hnodup := h.nodup
  have hmanaged := h.managed
  rw [hpool] at hnodup hmanaged
  obtain ⟨hown, -, hframe⟩ := nodup_add.mp hnodup
  have htf' : Managed L tf := hmanaged tf (mem_add.mpr (Or.inr htf))
  refine ⟨h.tableAt.links, ?_, ?_, ?_, h.free, ?_, ?_, ?_, ?_⟩
  · intro k hk
    rw [hpte k hk]
    exact hf.flat k hk
  · intro k hk
    rw [hpte k hk, vpn_trampoline, vpn_trapframe, vpn_userStack]
    constructor
    · intro hl
      have hv := isValid_of_isLeaf hl
      by_contra hout
      rw [not_or, not_or, not_or] at hout
      obtain ⟨h1, h2, h3, h4⟩ := hout
      by_cases hs : k = 2 ^ 26 - 3
      · rw [hs] at hv
        exact h4 ⟨hv, hs⟩
      · rw [hf.rest k hk (by omega) h1 h2 hs] at hv
        exact absurd hv (by decide)
    · rintro (rfl | rfl | hlt | ⟨hs, rfl⟩)
      · exact hf.trampoline
      · exact hf.trapframe
      · exact hf.image k hlt
      · exact (hf.stack hs).1
  · intro hs
    rw [vpn_userStack, hpte _ (by decide)]
    exact (hf.stack hs).2
  · rwa [htables, huser]
  · rw [htables, huser]
    exact fun p hp => hmanaged p (mem_add.mpr (Or.inl hp))
  · rw [vpn_trampoline, hpte _ (by decide), hfix.trampoline]
    have hlow := L.trampoline_below
    have hend := L.kernelEnd_below
    exact ptePa_leafWord L.trampoline_aligned (by unfold physTop at hend; omega) (by decide)
  · rw [vpn_trapframe, hpte _ (by decide), hfix.trapframe, htables, huser,
      ptePa_leafWord htf'.aligned (by have := htf'.lt; omega) (by decide)]
    exact fun hin => disjoint_left.mp hframe hin htf

/-- An address space with a stack page is taken down. -/
theorem teardown_frees_once_stack : ∃ s root F s' F', ProcTable smallLayout s root 0 true F ∧
    procFreepagetable smallLayout root 0 s = .ok ((), s') ∧ FreeList s'.mem s'.head F' ∧
      (↑F' : Multiset ℕ) = tablesAt s.mem root + userPagesAt s.mem root 0 true + ↑F := by
  obtain ⟨s, T, F, tf, ks, pa, hspace, hfix, hword, hrest, -⟩ :=
    exists_stack smallLayout (n := 0) (by decide)
  have hformed : T.Formed (pages 0) := by
    have hzero : pages 0 = 0 := by decide
    rw [hzero]
    refine ⟨?_, ?_, by decide, fun k hk => absurd hk (by omega), fun _ => ?_, ?_⟩
    · rw [hfix.trampoline, isLeaf_leafWord]
      decide
    · rw [hfix.trapframe, isLeaf_leafWord]
      decide
    · rw [hword, isLeaf_leafWord, leafWord_and (by decide)]
      decide
    · intro k hk _ h1 h2 h3
      rw [hrest k (mem_userSlots.mpr ⟨hk, h1, h2⟩) h3]
      rfl
  have htable := hspace.procTable hformed hfix (by simp)
  rw [hword, isValid_leafWord] at htable
  obtain ⟨s', F', hrun, hfree, hF', -⟩ := teardown_frees_once htable
  exact ⟨s, T.root, F, s', F', htable, hrun, hfree, hF'⟩

end Free

end ToyOs
