import ToyOs.TableRoom

/-!
A page table in memory as a finite map from page indices to entries. `mappages`
adds the entries of a range to it and `uvmunmap` takes them out again; no
other entry changes. With `do_free` the pages of the range go to the free
list, each once.
-/
namespace ToyOs

open Bytes Prog Function Nat

/-- The first `i` pages from index `k` on were unmapped and, if wanted, freed. -/
structure Unmapped (L : Layout) (root k : ℕ) (doFree : Bool) (i : ℕ) (s : Ram) (F : List ℕ) (s' : Ram)
    (F' : List ℕ) : Prop where
  table : TableAt L s' root F'
  pte : ∀ j, j < 2 ^ 27 → pteAt s'.mem root j = if k ≤ j ∧ j < k + i then 0 else pteAt s.mem root j
  tables : tablesAt s'.mem root = tablesAt s.mem root
  free : (↑F' : Multiset ℕ) =
    (if doFree then (Multiset.range i).map fun j => ptePa (pteAt s.mem root (k + j)) else 0) + ↑F

section Unmap

variable {L : Layout} {s s₀ : Ram} {root k n i : ℕ} {F F₀ : List ℕ} {E : Panic → Prop} {doFree : Bool}

theorem LinksOnly.congr {m m' : Store} (h : LinksOnly m root) (hs : SameWords m m' root) :
    LinksOnly m' root where
  level2 := fun j hj => by
    rw [hs root TableAt.root_mem j hj]
    exact h.level2 j hj
  level1 := fun q hq t ht => by
    rw [hs.l1At (by omega)] at ht
    rw [hs t (TableAt.l1_mem (by omega) ht) _ (by omega)]
    exact h.level1 q hq t ht

/-- Freeing a page that is neither a table nor free does not touch the tables. -/
theorem TableAt.sameWords_freePage (h : TableAt L s root F) {p : ℕ} (hp : Managed L p)
    (hn : p ∉ tablesAt s.mem root) : SameWords s.mem (s.freePage p).mem root := by
  refine sameWords_of_bytes fun t ht j hj => agreeOff_freePage s p _ fun r hr => ?_
  rw [Multiset.mem_singleton.mp hr]
  have hne : t ≠ p := fun heq => hn (heq ▸ ht)
  have hta := h.table_aligned ht
  have hpa := hp.aligned
  unfold pgSize at *
  omega

theorem TableAt.freePage (h : TableAt L s root F) {p : ℕ} (hp : Managed L p)
    (hn : p ∉ tablesAt s.mem root) (hF : p ∉ F) : TableAt L (s.freePage p) root (p :: F) := by
  have hs := h.sameWords_freePage hp hn
  refine ⟨h.aligned, h.links.congr hs, h.free.freePage hp h.managed hF, ?_, ?_⟩
  · intro r hr
    rcases List.mem_cons.mp hr with rfl | hr
    · exact hp
    · exact h.managed r hr
  · rw [hs.tablesAt, ← Multiset.cons_coe, Multiset.add_cons]
    refine Multiset.nodup_cons.mpr ⟨fun hmem => ?_, h.nodup⟩
    rcases Multiset.mem_add.mp hmem with hmem | hmem
    · exact hn hmem
    · exact hF (Multiset.mem_coe.mp hmem)

theorem Unmapped.refl (h : TableAt L s root F) : Unmapped L root k doFree 0 s F s F := by
  refine ⟨h, fun j _ => (if_neg (by omega)).symm, rfl, ?_⟩
  cases doFree <;> simp

/-- One more page: after it was freed or kept, its entry is cleared. -/
theorem Unmapped.clear {u : ℕ} {s₁ : Ram} {F₁ : List ℕ} (h : Unmapped L root k doFree i s₀ F₀ s F)
    (h₁ : TableAt L s₁ root F₁) (hs : SameWords s.mem s₁.mem root)
    (hF : (↑F₁ : Multiset ℕ) = (if doFree then {ptePa (pteAt s₀.mem root (k + i))} else 0) + ↑F)
    (hk : k + i < 2 ^ 27) (hu : l0At s.mem root ((k + i) / 512) = some u) :
    Unmapped L root k doFree (i + 1) s₀ F₀ (s₁.setWord (u + 8 * ((k + i) % 512)) 0) F₁ := by
  have hu₁ : l0At s₁.mem root ((k + i) / 512) = some u := (hs.l0At (by omega)).trans hu
  have hl := lookups_set h₁.distinct h₁.aligned hk hu₁ (w := 0) (by decide)
  refine ⟨h₁.set hk hu₁ (by decide), fun j hj => ?_, ?_, ?_⟩
  · refine (hl.pte j hj).trans ?_
    by_cases hjk : j = k + i
    · subst hjk
      rw [update_self, if_pos (by omega)]
    · rw [update_of_ne hjk, hs.pteAt hj, h.pte j hj]
      by_cases hin : k ≤ j ∧ j < k + i
      · rw [if_pos hin, if_pos (by omega)]
      · rw [if_neg hin, if_neg (by omega)]
  · exact hl.tables.trans (hs.tablesAt.trans h.tables)
  · rw [hF, h.free]
    cases doFree with
    | false => simp
    | true =>
      simp only [if_true]
      rw [Multiset.range_succ, Multiset.map_cons, ← Multiset.singleton_add, add_assoc]

/-- The pages of a range may be freed: they are pages of the allocator,
different from each other, from the tables and from the free pages. -/
structure Freeable (L : Layout) (s : Ram) (root k n : ℕ) (F : List ℕ) : Prop where
  managed : ∀ j, j < n → Managed L (ptePa (pteAt s.mem root (k + j)))
  notTable : ∀ j, j < n → ptePa (pteAt s.mem root (k + j)) ∉ tablesAt s.mem root
  notFree : ∀ j, j < n → ptePa (pteAt s.mem root (k + j)) ∉ F
  inj : ∀ j j', j < n → j' < n →
    ptePa (pteAt s.mem root (k + j)) = ptePa (pteAt s.mem root (k + j')) → j = j'

/-- The loop of `uvmunmap` over leaves, with `r` pages left. -/
theorem uvmunmapLoop_run {r : ℕ} (h : Unmapped L root k doFree i s₀ F₀ s F) (hr : i + r = n)
    (hk : k + n ≤ 2 ^ 27) (hleaf : ∀ j, j < n → isLeaf (pteAt s₀.mem root (k + j)) = true)
    (hfree : doFree = true → Freeable L s₀ root k n F₀) :
    ∃ s' F', uvmunmapLoop L root (k * pgSize) doFree r i s = .ok ((), s') ∧
      Unmapped L root k doFree n s₀ F₀ s' F' := by
  induction r generalizing s F i with
  | zero =>
    obtain rfl : i = n := by omega
    exact ⟨s, F, rfl, h⟩
  | succ r ih =>
    have hva : k * pgSize + i * pgSize = (k + i) * pgSize := by ring
    have hv : vpn ((k + i) * pgSize) = k + i := vpn_mul (by omega)
    have hpte : pteAt s.mem root (k + i) = pteAt s₀.mem root (k + i) := by
      rw [h.pte _ (by omega), if_neg (by omega)]
    have hl := hleaf i (by omega)
    obtain ⟨u, hu⟩ : ∃ u, l0At s.mem root ((k + i) / 512) = some u := by
      cases hu : l0At s.mem root ((k + i) / 512) with
      | some u => exact ⟨u, rfl⟩
      | none =>
        rw [← hpte, pteAt_none hu] at hl
        exact absurd hl (by decide)
    have hload : load 8 s.mem (u + 8 * ((k + i) % 512)) = pteAt s₀.mem root (k + i) := by
      rw [← pteAt_of_l0At hu, hpte]
    have hwp : (uvmunmapLoop L root (k * pgSize) doFree (r + 1) i).wp (fun _ => False)
        (fun _ s' => ∃ F', Unmapped L root k doFree n s₀ F₀ s' F') s := by
      simp only [uvmunmapLoop, wp_bind, wp_mulUsize, wp_addUsize]
      refine ⟨fun _ => ⟨fun _ => ?_, fun hbad => ?_⟩, fun hbad => ?_⟩
      · rw [hva]
        refine wp_of_ok (walk_at _ _ _) ?_
        rw [hv, hu]
        simp only [Option.map_some, wp_expect, loadPte, wp_bind, wp_get, wp_pure]
        refine ⟨fun a ha => ?_, fun hbad => absurd hbad (by simp)⟩
        obtain rfl := Option.some.inj ha
        rw [hload]
        simp only [isValid_of_isLeaf hl, hl, Bool.not_true, Bool.false_eq_true, if_false, storePte]
        have hnext : ∀ s₁ F₁, TableAt L s₁ root F₁ → SameWords s.mem s₁.mem root →
            (↑F₁ : Multiset ℕ) =
              (if doFree then {ptePa (pteAt s₀.mem root (k + i))} else 0) + ↑F →
            (uvmunmapLoop L root (k * pgSize) doFree r (i + 1)).wp (fun _ => False)
              (fun _ s' => ∃ F', Unmapped L root k doFree n s₀ F₀ s' F')
              (s₁.setWord (u + 8 * ((k + i) % 512)) 0) := by
          intro s₁ F₁ h₁ hs hF
          obtain ⟨s', F', hrun, hdone⟩ := ih (h.clear h₁ hs hF (by omega) hu) (by omega)
          exact wp_of_ok hrun ⟨F', hdone⟩
        cases doFree with
        | false =>
          exact hnext s F h.table (fun _ _ _ _ => rfl) (by simp)
        | true =>
          have hf := hfree rfl
          have hnotF : ptePa (pteAt s₀.mem root (k + i)) ∉ F := by
            intro hmem
            have hmem' := Multiset.mem_coe.mpr hmem
            rw [h.free] at hmem'
            simp only [if_true] at hmem'
            rcases Multiset.mem_add.mp hmem' with hin | hin
            · obtain ⟨j, hj, heq⟩ := Multiset.mem_map.mp hin
              have hj := Multiset.mem_range.mp hj
              have := hf.inj j i (by omega) (by omega) heq
              omega
            · exact hf.notFree i (by omega) (Multiset.mem_coe.mp hin)
          have hnotT : ptePa (pteAt s₀.mem root (k + i)) ∉ tablesAt s.mem root := by
            rw [h.tables]
            exact hf.notTable i (by omega)
          have hm := hf.managed i (by omega)
          simp only [if_true, wp_bind]
          refine wp_of_ok (kfree_apply hm s) ?_
          refine hnext _ _ (h.table.freePage hm hnotT hnotF) (h.table.sameWords_freePage hm hnotT) ?_
          rw [if_pos rfl, ← Multiset.cons_coe, Multiset.singleton_add]
      · unfold usizeSize pgSize at *
        omega
      · unfold usizeSize pgSize at *
        omega
    obtain ⟨_, s', hrun, F', hdone⟩ := exists_ok hwp
    exact ⟨s', F', hrun, hdone⟩

theorem uvmunmap_run {va : ℕ} (h : TableAt L s root F) (hva : va % pgSize = 0) (hn : 0 < n)
    (hk : va / pgSize + n ≤ 2 ^ 27)
    (hleaf : ∀ j, j < n → isLeaf (pteAt s.mem root (va / pgSize + j)) = true)
    (hfree : doFree = true → Freeable L s root (va / pgSize) n F) :
    ∃ s' F', uvmunmap L root va n doFree s = .ok ((), s') ∧
      Unmapped L root (va / pgSize) doFree n s F s' F' := by
  obtain ⟨s', F', hrun, hdone⟩ :=
    uvmunmapLoop_run (r := n) (Unmapped.refl h) (by omega) hk hleaf hfree
  refine ⟨s', F', ?_, hdone⟩
  have hmul : va / pgSize * pgSize = va := Nat.div_mul_cancel (Nat.dvd_of_mod_eq_zero hva)
  rw [hmul] at hrun
  unfold uvmunmap
  simpa [hva, hn, Prog.assert, bind, pure] using hrun

end Unmap

section Map

variable {L : Layout} {s : Ram} {root flags va pa size : ℕ} {F : List ℕ}

theorem kalloc_empty (h : FreeList s.mem s.head []) : kalloc s = .ok (none, s) := by
  have hhead : s.head = 0 := by
    generalize s.head = hd at h
    cases h
    rfl
  unfold kalloc
  simp [bind, Prog.get, hhead, pure]

section Entries

variable {k n : ℕ} {s' : Ram} {F' : List ℕ} (hm : Mapped L root flags k pa n n s F s' F')
  (hk : k + n ≤ 2 ^ 27)
include hm hk

theorem Mapped.word {j : ℕ} (hj : j < n) :
    pteAt s'.mem root (k + j) = leafWord (pa + j * pgSize) flags := by
  rw [hm.pte _ (by omega), if_pos (by omega), Nat.add_sub_cancel_left]

theorem Mapped.page (hpa : pa % pgSize = 0) (hpa' : pa + n * pgSize ≤ 2 ^ 56) (hf : flags < 1024)
    {j : ℕ} (hj : j < n) : ptePa (pteAt s'.mem root (k + j)) = pa + j * pgSize := by
  have hmul := mul_lt_mul_of_pos_right hj (show 0 < pgSize by decide)
  rw [hm.word hk hj, ptePa_leafWord _ (by omega) hf]
  rw [add_mul_mod_self_right, hpa]

/-- Pages that their owner mapped may be freed. -/
theorem Mapped.freeable (hpa : pa % pgSize = 0) (hpa' : pa + n * pgSize ≤ 2 ^ 56) (hf : flags < 1024)
    (hown : ∀ j, j < n → Managed L (pa + j * pgSize) ∧
      pa + j * pgSize ∉ tablesAt s.mem root + (↑F : Multiset ℕ)) :
    Freeable L s' root k n F' := by
  have hpage : ∀ j, j < n → ptePa (pteAt s'.mem root (k + j)) = pa + j * pgSize := fun j hj =>
    hm.page hk hpa hpa' hf hj
  have hnot : ∀ j, j < n → pa + j * pgSize ∉ tablesAt s'.mem root + (↑F' : Multiset ℕ) := by
    intro j hj
    rw [hm.pool]
    exact (hown j hj).2
  refine ⟨fun j hj => ?_, fun j hj => ?_, fun j hj => ?_, fun j j' hj hj' heq => ?_⟩
  · rw [hpage j hj]
    exact (hown j hj).1
  · rw [hpage j hj]
    exact fun hmem => hnot j hj (Multiset.mem_add.mpr (Or.inl hmem))
  · rw [hpage j hj]
    exact fun hmem => hnot j hj (Multiset.mem_add.mpr (Or.inr (Multiset.mem_coe.mpr hmem)))
  · rw [hpage j hj, hpage j' hj'] at heq
    exact eq_of_mul_eq_mul_right (by decide) (add_left_cancel heq)

end Entries

/-- A page table is a finite map: `mappages` adds the entries of a range, and
`uvmunmap` takes them out. -/
theorem finite_map (h : TableAt L s root F) (hva : va % pgSize = 0) (hpa : pa % pgSize = 0)
    (hsize : va + size ≤ 2 ^ 39) (hpa' : pa + pages size * pgSize ≤ 2 ^ 56) (hf : flags < 1024)
    (hrwx : flags &&& (pteR ||| pteW ||| pteX) ≠ 0) :
    (0 < size → ∃ r s', mappages root va size pa flags s = .ok (r, s')) ∧
    (∀ s', mappages root va size pa flags s = .ok (some (), s') →
      (∀ x, x < 2 ^ 39 → va ≤ x → x < va + pages size * pgSize →
        ptePa (pteAt s'.mem root (vpn x)) = pa + (pageRoundDown x - va) ∧
        pteFlags (pteAt s'.mem root (vpn x)) = flags ||| pteV ||| pteA ||| pteD) ∧
      (∀ x, x < 2 ^ 39 → ¬ (va ≤ x ∧ x < va + pages size * pgSize) →
        pteAt s'.mem root (vpn x) = pteAt s.mem root (vpn x)) ∧
      ∃ F', TableAt L s' root F' ∧
        tablesAt s'.mem root + ↑F' = tablesAt s.mem root + (↑F : Multiset ℕ) ∧
        ∀ doFree : Bool, (doFree = true → ∀ j, j < pages size →
            Managed L (pa + j * pgSize) ∧ pa + j * pgSize ∉ tablesAt s.mem root + (↑F : Multiset ℕ)) →
          ∃ t F'', uvmunmap L root va (pages size) doFree s' = .ok ((), t) ∧ TableAt L t root F'' ∧
            (∀ x, x < 2 ^ 39 → pteAt t.mem root (vpn x) =
              if va ≤ x ∧ x < va + pages size * pgSize then 0 else pteAt s'.mem root (vpn x)) ∧
            (↑F'' : Multiset ℕ) = (if doFree then
              (Multiset.range (pages size)).map fun j => pa + j * pgSize else 0) + ↑F') ∧
    (∀ s', mappages root va size pa flags s = .ok (none, s') →
      (∃ x, va ≤ x ∧ x < va + pages size * pgSize ∧ isValid (pteAt s.mem root (vpn x)) = true) ∨
        kalloc s' = .ok (none, s')) := by
  have hpages : pages size ≤ 2 ^ 27 - va / pgSize := by
    unfold pages pgSize at *
    omega
  have hrun : 0 < size → (mappages root va size pa flags).wp (fun _ => False) (fun r s' =>
      (r = some () → ∃ F', Mapped L root flags (va / pgSize) pa (pages size) (pages size) s F s' F') ∧
      (r = none → (∃ x, va ≤ x ∧ x < va + pages size * pgSize ∧
        isValid (pteAt s.mem root (vpn x)) = true) ∨ kalloc s' = .ok (none, s'))) s := by
    intro hpos
    refine wp_mappages_range h hva hpa hpos hsize (by omega) (by omega) ?_ ?_
    · exact fun s' F' hm _ => ⟨fun _ => ⟨F', hm⟩, by simp⟩
    · rintro s' F' j hj hm (hvalid | ⟨rfl, -⟩)
      · have hv : vpn (va + j * pgSize) = va / pgSize + j := by
          unfold vpn pgSize at *
          omega
        have hlt := Nat.mul_lt_mul_of_pos_right hj (show 0 < pgSize by decide)
        exact ⟨by simp, fun _ => Or.inl ⟨va + j * pgSize, by omega, by omega, hv ▸ hvalid⟩⟩
      · exact ⟨by simp, fun _ => Or.inr (kalloc_empty hm.table.free)⟩
  -- A range of no bytes is refused before anything is done.
  have hpos : ∀ r s', mappages root va size pa flags s = .ok (r, s') → 0 < size := by
    intro r s' heq
    by_contra hnot
    obtain rfl : size = 0 := by omega
    simp [mappages, Prog.assert, bind, hva, hpa, pure, Prog.panic] at heq
  refine ⟨fun hpos => ?_, fun s' heq => ?_, fun s' heq => ?_⟩
  · obtain ⟨r, s', heq, -⟩ := exists_ok (hrun hpos)
    exact ⟨r, s', heq⟩
  · have hsz := hpos _ _ heq
    have hpost := wp_ok (hrun hsz) heq
    obtain ⟨F', hm⟩ := hpost.1 rfl
    have hk : va / pgSize + pages size ≤ 2 ^ 27 := by
      unfold pgSize at *
      omega
    refine ⟨fun x hx hle hlt => ?_, fun x hx hout => ?_, F', hm.table, hm.pool, fun doFree hown => ?_⟩
    · have hin := (vpn_in_range hva hx).mpr ⟨hle, hlt⟩
      have hw := hm.pte (vpn x) (vpn_lt x)
      rw [if_pos hin, offset_in_range hva hx hle] at hw
      rw [hw, pteFlags_leafWord hf]
      refine ⟨ptePa_leafWord ?_ ?_ hf, rfl⟩
      · unfold pageRoundDown pgSize at *
        omega
      · have hround : pageRoundDown x ≤ x := Nat.div_mul_le_self x pgSize
        omega
    · rw [hm.pte _ (vpn_lt x), if_neg fun hin => hout ((vpn_in_range hva hx).mp hin)]
    · have hleaf : ∀ j, j < pages size → isLeaf (pteAt s'.mem root (va / pgSize + j)) = true := by
        intro j hj
        rw [hm.word hk hj, isLeaf_leafWord]
        simpa using hrwx
      obtain ⟨t, F'', hun, hdone⟩ : ∃ t F'', uvmunmap L root va (pages size) doFree s' = .ok ((), t) ∧
          Unmapped L root (va / pgSize) doFree (pages size) s' F' t F'' :=
        uvmunmap_run hm.table hva (by unfold pages pgSize; omega) hk hleaf fun hfree =>
          hm.freeable hk hpa hpa' hf (hown hfree)
      refine ⟨t, F'', hun, hdone.table, fun x hx => ?_, ?_⟩
      · rw [hdone.pte _ (vpn_lt x)]
        simp only [vpn_in_range hva hx]
      · rw [hdone.free]
        cases doFree with
        | false => rfl
        | true =>
          simp only [if_true]
          rw [Multiset.map_congr rfl fun j hj =>
            hm.page hk hpa hpa' hf (Multiset.mem_range.mp hj)]
  · have hpost := wp_ok (hrun (hpos _ _ heq)) heq
    exact hpost.2 rfl

/-- An empty table with three free pages takes any one or two pages from index
0 on. -/
theorem EmptyTable.mappages (h : TableAt L s root F) (hempty : EmptyTable s.mem root)
    (hlen : 3 ≤ F.length) (hpa : pa % pgSize = 0) (hpa' : pa < 2 ^ 59) (hf : flags < 2 ^ 64)
    (hpos : 0 < size) (hsize : size ≤ 2 * pgSize) :
    ∃ s' F', mappages root 0 size pa flags s = .ok (some (), s') ∧
      Mapped L root flags 0 pa (pages size) (pages size) s F s' F' := by
  have hcount : pages size ≤ 2 := by
    unfold pages pgSize at *
    omega
  have hroom : RoomFor s root F {0} := by
    unfold RoomFor
    rw [hempty.tables, Multiset.card_singleton, Finset.image_singleton, Finset.card_singleton]
    omega
  refine mappages_succeeds (C := {0}) h (by decide : 0 % pgSize = 0) hpa hpos ?_ ?_ hf
    (fun j hj => Finset.mem_singleton.mpr ?_) (hempty.confined _) hroom (fun j hj => ?_)
  · unfold pgSize at *
    omega
  · unfold pgSize at *
    omega
  · unfold pgSize
    omega
  · rw [hempty.pte _ (by unfold pgSize; omega)]
    rfl

/-- One page is mapped, looked up, unmapped and freed. -/
theorem finite_map_one_page : ∃ s root pg s' t F' F'',
    mappages root 0 pgSize pg (pteR ||| pteW) s = .ok (some (), s') ∧
    ptePa (pteAt s'.mem root (vpn 0)) = pg ∧
    uvmunmap smallLayout root 0 1 true s' = .ok ((), t) ∧ TableAt smallLayout t root F'' ∧
    (↑F'' : Multiset ℕ) = {pg} + ↑(F' : List ℕ) := by
  obtain ⟨s, root, pg, F, htable, hempty, hpg, hroot, hF, hlen⟩ :=
    exists_table smallLayout (n := 3) (by decide)
  have hlow := hpg.lt
  obtain ⟨s', -, hrun, -⟩ := hempty.mappages htable hlen hpg.aligned (by omega)
    (by decide : pteR ||| pteW < 2 ^ 64) (by decide : 0 < pgSize) (by decide)
  have hone : pages pgSize = 1 := by decide
  obtain ⟨-, hmap, -⟩ := finite_map htable (by decide : 0 % pgSize = 0) hpg.aligned
    (by decide : 0 + pgSize ≤ 2 ^ 39) (by rw [hone]; omega) (by decide : pteR ||| pteW < 1024) (by decide)
  obtain ⟨hin, -, F', -, -, hunmap⟩ := hmap s' hrun
  obtain ⟨t, F'', hun, htable', -, hfree⟩ := hunmap true fun _ j hj => by
    obtain rfl : j = 0 := by omega
    rw [Nat.zero_mul, Nat.add_zero, hempty.tables]
    refine ⟨hpg, fun hmem => ?_⟩
    rcases Multiset.mem_add.mp hmem with hmem | hmem
    · exact hroot (Multiset.mem_singleton.mp hmem)
    · exact hF (Multiset.mem_coe.mp hmem)
  have hpage := (hin 0 (by decide) (Nat.le_refl 0) (by decide)).1
  refine ⟨s, root, pg, s', t, F', F'', hrun, hpage, hun, htable', ?_⟩
  rw [hfree, hone]
  simp

/-- Beyond the 56 bits of a physical address the entry loses the top of the
address: the second page is looked up as page 0. -/
theorem finite_map_wraps : ∃ s root F s', TableAt smallLayout s root F ∧
    mappages root 0 (2 * pgSize) (2 ^ 56 - pgSize) pteR s = .ok (some (), s') ∧
    ptePa (pteAt s'.mem root (vpn pgSize)) = 0 ∧
    ptePa (pteAt s'.mem root (vpn pgSize)) ≠ 2 ^ 56 - pgSize + (pageRoundDown pgSize - 0) := by
  obtain ⟨s, root, -, F, htable, hempty, -, -, -, hlen⟩ := exists_table smallLayout (n := 3) (by decide)
  obtain ⟨s', F', hrun, hm⟩ := hempty.mappages htable hlen (by decide : (2 ^ 56 - pgSize) % pgSize = 0)
    (by decide) (by decide : pteR < 2 ^ 64) (by decide : 0 < 2 * pgSize) (Nat.le_refl _)
  have hindex : vpn pgSize = 0 + 1 := by decide
  have hpa : ptePa (pteAt s'.mem root (vpn pgSize)) = 0 := by
    rw [hindex, hm.word (by decide) (by decide : 1 < pages (2 * pgSize))]
    decide
  refine ⟨s, root, F, s', htable, hrun, hpa, ?_⟩
  rw [hpa]
  decide

end Map

end ToyOs
