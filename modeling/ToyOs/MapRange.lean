import ToyOs.TableLinks

/-!
`walk` and `mappages` on a page table in memory. A missing table is taken from
the free list, cleared and linked; the entries stay as they are, and the
tables and the free pages together remain the same pages. `mappages` writes
the entries of its range one after the other and stops at an entry that is in
use or when the free list is used up.
-/
namespace ToyOs

open Bytes Prog Function List

/-- The level-0 tables have their indices in `C`, and every level-1 table
leads to such an index. -/
structure Confined (m : Store) (root : ℕ) (C : Finset ℕ) : Prop where
  l0 : ∀ q, q < 2 ^ 18 → l0At m root q ≠ none → q ∈ C
  l1 : ∀ i, i < 512 → l1At m root i ≠ none → ∃ q ∈ C, q / 512 = i

/-- Tables were added on the way to the level-0 table with index `q`. -/
structure Grew (L : Layout) (root q : ℕ) (s : Ram) (F : List ℕ) (s' : Ram) (F' : List ℕ) : Prop where
  table : TableAt L s' root F'
  pte : ∀ k, k < 2 ^ 27 → pteAt s'.mem root k = pteAt s.mem root k
  pool : tablesAt s'.mem root + ↑F' = tablesAt s.mem root + (↑F : Multiset ℕ)
  agree : AgreeOff (tablesAt s.mem root + ↑F) s.mem s'.mem
  confined : ∀ C : Finset ℕ, q ∈ C → Confined s.mem root C → Confined s'.mem root C

section Links

variable {m : Store} {root p t i : ℕ}

/-- Linking a cleared page keeps leaves away from the upper levels. -/
theorem LinksOnly.link {l1 l0 : ℕ → Option ℕ} {pte : ℕ → ℕ} (h : LinksOnly m root)
    (hroot : root % pgSize = 0) (hp : p % pgSize = 0) (hlow : p < 2 ^ 56) (ht : t % pgSize = 0)
    (hi : i < 512) (hl : Lookups (linked m p (t + 8 * i)) root l1 l0 pte)
    (hl1 : ∀ j r, j < 512 → l1 j = some r → r = p ∨ l1At m root j = some r) :
    LinksOnly (linked m p (t + 8 * i)) root := by
  have hword : ∀ r, r % pgSize = 0 → ∀ j, j < 512 → (r = p ∨ isLeaf (load 8 m (r + 8 * j)) = false) →
      isLeaf (load 8 (linked m p (t + 8 * i)) (r + 8 * j)) = false := by
    intro r hr j hj hor
    rw [load_linked hr hp ht hi hj hlow]
    split_ifs with h1 h2
    · exact isLeaf_tableWord p
    · rfl
    · exact hor.resolve_left h2
  refine ⟨fun j hj => hword root hroot j hj (Or.inr (h.level2 j hj)), fun q hq r hr => ?_⟩
  refine hword r (childOf_aligned hr) _ (by omega) ?_
  rw [hl.l1 _ (by omega)] at hr
  exact (hl1 _ r (by omega) hr).imp_right (h.level1 q hq r)

theorem LinksOnly.set {k u w : ℕ} (h : LinksOnly m root) (hroot : root % pgSize = 0)
    (hd : (treeAt m root).Distinct) (hk : k < 2 ^ 27) (hu : l0At m root (k / 512) = some u)
    (hw : w < 2 ^ 64) : LinksOnly (store 8 m (u + 8 * (k % 512)) w) root := by
  have hl := lookups_set hd hroot hk hu hw
  have hua := tablesAt_aligned hroot (TableAt.l0_mem (by omega) hu)
  refine ⟨fun j hj => ?_, fun q hq r hr => ?_⟩
  · rw [load_store_page hroot hua (by omega) hj hw,
      if_neg fun h => hd.root_l0 _ u (by omega) hu h.1.symm]
    exact h.level2 j hj
  · have halign := childOf_aligned hr
    rw [hl.l1 _ (by omega)] at hr
    rw [load_store_page halign hua (by omega) (by omega) hw,
      if_neg fun h => hd.l1_l0 _ r _ u (by omega) hr (by omega) hu h.1]
    exact h.level1 q hq r hr

end Links

section Growth

variable {L : Layout} {s : Ram} {root p hd q : ℕ} {F : List ℕ}

theorem Grew.refl (h : TableAt L s root F) : Grew L root q s F s F :=
  ⟨h, fun _ _ => rfl, rfl, AgreeOff.refl, fun _ _ hC => hC⟩

theorem Grew.trans {s' s'' : Ram} {F' F'' : List ℕ} (h : Grew L root q s F s' F')
    (h' : Grew L root q s' F' s'' F'') : Grew L root q s F s'' F'' where
  table := h'.table
  pte := fun k hk => (h'.pte k hk).trans (h.pte k hk)
  pool := h'.pool.trans h.pool
  agree := h.agree.trans (h.pool ▸ h'.agree)
  confined := fun C hq hC => h'.confined C hq (h.confined C hq hC)

/-- A page from the free list that was linked as a table. -/
theorem TableAt.grow {t i : ℕ} {l1 l0 : ℕ → Option ℕ} (h : TableAt L s root (p :: F))
    (hF : FreeList (fill s.mem p pgSize 0) hd F) (ht : t ∈ tablesAt s.mem root) (hi : i < 512)
    (hl : Lookups (linked s.mem p (t + 8 * i)) root l1 l0 (pteAt s.mem root))
    (hl1 : ∀ j r, j < 512 → l1 j = some r → r = p ∨ l1At s.mem root j = some r)
    (htables : (⟨root, l1, l0, pteAt s.mem root⟩ : Tree).tables = tablesAt s.mem root + {p})
    (hC : ∀ C : Finset ℕ, q ∈ C → Confined s.mem root C →
      (∀ r, r < 2 ^ 18 → l0 r ≠ none → r ∈ C) ∧ ∀ j, j < 512 → l1 j ≠ none → ∃ r ∈ C, r / 512 = j) :
    Grew L root q s (p :: F) { mem := linked s.mem p (t + 8 * i), head := hd } F := by
  have hp : Managed L p := h.managed p mem_cons_self
  have hlow : p < 2 ^ 56 := by have := hp.lt; omega
  have hta := h.table_aligned ht
  have hpool : tablesAt (linked s.mem p (t + 8 * i)) root + ↑F =
      tablesAt s.mem root + (↑(p :: F) : Multiset ℕ) := by
    have := pool_cons (tablesAt s.mem root) p F 0
    rw [hl.tables, htables]
    simpa using this
  refine ⟨⟨h.aligned, ?_, ?_, fun r hr => h.managed r (mem_cons_of_mem _ hr), ?_⟩, hl.pte, hpool,
    ?_, fun C hq hconf => ?_⟩
  · exact h.links.link h.aligned hp.aligned hlow hta hi hl hl1
  · refine hF.congr_load fun r hr => ?_
    have hrm := h.managed r (mem_cons_of_mem _ hr)
    have hrt : r ≠ t := fun heq => h.not_free ht (heq ▸ mem_cons_of_mem _ hr)
    have hload := load_store_page (m := fill s.mem p pgSize 0) (w := tableWord p) (j := 0)
      hrm.aligned hta hi (by omega) (tableWord_lt hlow)
    rwa [if_neg fun h => hrt h.1] at hload
  · show (tablesAt (linked s.mem p (t + 8 * i)) root + ↑F).Nodup
    rw [hpool]
    exact h.nodup
  · refine (agreeOff_linked s.mem p t i hi).mono fun r hr => ?_
    rcases Multiset.mem_add.mp hr with hr | hr
    · rw [Multiset.mem_singleton.mp hr]
      exact Multiset.mem_add.mpr (Or.inr (Multiset.mem_coe.mpr mem_cons_self))
    · rw [Multiset.mem_singleton.mp hr]
      exact Multiset.mem_add.mpr (Or.inl ht)
  · obtain ⟨h0, h1⟩ := hC C hq hconf
    refine ⟨fun r hr hne => h0 r hr ?_, fun j hj hne => h1 j hj ?_⟩
    · rw [← hl.l0 r hr]
      exact hne
    · rw [← hl.l1 j hj]
      exact hne

theorem TableAt.fresh (h : TableAt L s root (p :: F)) : p ∉ tablesAt s.mem root := fun hp =>
  h.not_free hp mem_cons_self

/-- A level-1 table on the way to the level-0 table with index `q`. -/
theorem TableAt.link1 (h : TableAt L s root (p :: F)) (hF : FreeList (fill s.mem p pgSize 0) hd F)
    (hq : q < 2 ^ 18) (hnone : l1At s.mem root (q / 512) = none) :
    Grew L root q s (p :: F) { mem := linked s.mem p (root + 8 * (q / 512)), head := hd } F ∧
      l1At (linked s.mem p (root + 8 * (q / 512))) root (q / 512) = some p := by
  have hp : Managed L p := h.managed p mem_cons_self
  have hl := lookups_link1 h.distinct h.aligned hp.aligned (by have := hp.lt; omega) h.fresh
    (by omega) hnone
  refine ⟨h.grow hF TableAt.root_mem (by omega) hl ?_ ?_ ?_, ?_⟩
  · intro j r _ hr
    by_cases hj : j = q / 512
    · rw [hj, update_self] at hr
      exact Or.inl (Option.some.inj hr).symm
    · rw [update_of_ne hj] at hr
      exact Or.inr hr
  · exact Tree.tables_addL1 (T := treeAt s.mem root) (by omega) hnone
  · intro C hC hconf
    refine ⟨hconf.l0, fun j hj hne => ?_⟩
    by_cases hjq : j = q / 512
    · exact ⟨q, hC, hjq.symm⟩
    · rw [update_of_ne hjq] at hne
      exact hconf.l1 j hj hne
  · rw [hl.l1 _ (by omega), update_self]

theorem TableAt.link0 {t : ℕ} (h : TableAt L s root (p :: F))
    (hF : FreeList (fill s.mem p pgSize 0) hd F) (hq : q < 2 ^ 18)
    (ht : l1At s.mem root (q / 512) = some t) (hnone : l0At s.mem root q = none) :
    Grew L root q s (p :: F) { mem := linked s.mem p (t + 8 * (q % 512)), head := hd } F ∧
      l0At (linked s.mem p (t + 8 * (q % 512))) root q = some p := by
  have hp : Managed L p := h.managed p mem_cons_self
  have hl := lookups_link0 h.distinct h.aligned hp.aligned (by have := hp.lt; omega) h.fresh hq ht hnone
  refine ⟨h.grow hF (TableAt.l1_mem (by omega) ht) (by omega) hl (fun _ _ _ hr => Or.inr hr) ?_ ?_, ?_⟩
  · exact Tree.tables_addL0 (T := treeAt s.mem root) hq hnone
  · intro C hC hconf
    refine ⟨fun r hr hne => ?_, hconf.l1⟩
    by_cases hrq : r = q
    · exact hrq ▸ hC
    · rw [update_of_ne hrq] at hne
      exact hconf.l0 r hr hne
  · rw [hl.l0 q hq, update_self]

end Growth

section Walk

variable {L : Layout} {s : Ram} {root : ℕ} {F : List ℕ} {E : Panic → Prop}
  {Q : Option ℕ → Ram → Prop}

/-- Following or making one link of a walk that may allocate. -/
theorem wp_level {rest : List ℕ} {va level a t : ℕ} (h : TableAt L s root F)
    (ha : t + 8 * ((va >>> (12 + 9 * level)) &&& 0x1ff) = a)
    (hleaf : isLeaf (load 8 s.mem a) = false)
    (hfound : ∀ u, childOf (load 8 s.mem a) = some u → (walkLevels va true rest u).wp E Q s)
    (hfull : childOf (load 8 s.mem a) = none → F = [] → Q none s)
    (hnew : ∀ p F' hd, childOf (load 8 s.mem a) = none → F = p :: F' →
      FreeList (fill s.mem p pgSize 0) hd F' →
      (walkLevels va true rest p).wp E Q { mem := linked s.mem p a, head := hd }) :
    (walkLevels va true (level :: rest) t).wp E Q s := by
  simp only [walkLevels, loadPte, wp_bind, wp_get, wp_pure, ha]
  generalize load 8 s.mem a = w at *
  cases hv : isValid w with
  | true =>
    have hchild : childOf w = some (ptePa w) := if_pos ⟨hv, hleaf⟩
    simp only [hleaf, if_true, Bool.false_eq_true, if_false]
    exact hfound _ hchild
  | false =>
    have hchild : childOf w = none := if_neg fun h => by simp [hv] at h
    simp only [Bool.false_eq_true, if_false, if_true, wp_bind]
    refine wp_kallocZeroed (L := L) h.free (Multiset.coe_nodup.mp (Multiset.nodup_add.mp h.nodup).2.1)
      h.managed (hfull hchild) ?_
    intro p F' hd heq hF'
    have hp := h.managed p (heq ▸ mem_cons_self)
    have hal : (p % pgSize == 0) = true := by simpa using hp.aligned
    simp only [newTable, storePte, wp_bind, wp_assert, wp_pure, wp_modify]
    exact ⟨fun _ => hnew p F' hd hchild heq hF', fun hbad => absurd hal (by simp [hbad])⟩

theorem wp_level_one {va t : ℕ} (h : TableAt L s root F)
    (ht : l1At s.mem root (vpn va / 512 / 512) = some t)
    (hnone : F = [] → l0At s.mem root (vpn va / 512) = none → Q none s)
    (hsome : ∀ s' F' u, Grew L root (vpn va / 512) s F s' F' →
      l0At s'.mem root (vpn va / 512) = some u → Q (some u) s') :
    (walkLevels va true [1] t).wp E Q s := by
  have hv := vpn_lt va
  have hchild := l0At_of_l1At ht
  refine wp_level h (by rw [index_level1]) (h.links.level1 _ (by omega) t ht) ?_ ?_ ?_
  · intro u hu
    exact hsome s F u (Grew.refl h) (hchild.trans hu)
  · exact fun hmiss hF => hnone hF (hchild.trans hmiss)
  · intro p F' hd hmiss heq hF'
    subst heq
    obtain ⟨hg, hp⟩ := h.link0 hF' (by omega) ht (hchild.trans hmiss)
    exact hsome _ _ p hg hp

/-- A walk with allocation ends at the level-0 table, or the free list is used
up and the table is missing. -/
theorem wp_walk_table {va : ℕ} (h : TableAt L s root F)
    (hnone : ∀ s', Grew L root (vpn va / 512) s F s' [] →
      l0At s'.mem root (vpn va / 512) = none → Q none s')
    (hsome : ∀ s' F' u, Grew L root (vpn va / 512) s F s' F' →
      l0At s'.mem root (vpn va / 512) = some u → Q (some (u + 8 * (vpn va % 512))) s') :
    (walk root va true).wp E Q s := by
  have hv := vpn_lt va
  simp only [walk, wp_bind]
  refine wp_level h (by rw [index_level2]) (h.links.level2 _ (by omega)) ?_ ?_ ?_
  · intro t ht
    refine wp_level_one h ht ?_ ?_
    · intro hF hmiss
      subst hF
      exact hnone s (Grew.refl h) hmiss
    · intro s' F' u hg hu
      rw [index_level0]
      exact hsome s' F' u hg hu
  · intro hmiss hF
    subst hF
    exact hnone s (Grew.refl h) (l0At_none hmiss)
  · intro p F' hd hmiss heq hF'
    subst heq
    obtain ⟨hg, hp⟩ := h.link1 hF' (by omega : vpn va / 512 < 2 ^ 18) hmiss
    refine wp_level_one hg.table hp ?_ ?_
    · intro hF hmiss'
      subst hF
      exact hnone _ hg hmiss'
    · intro s' F'' u hg' hu
      rw [index_level0]
      exact hsome s' F'' u (hg.trans hg') hu

end Walk

/-- The first `i` of `n` pages from index `k` on were mapped, from `pa` on. -/
structure Mapped (L : Layout) (root flags k pa n i : ℕ) (s : Ram) (F : List ℕ) (s' : Ram)
    (F' : List ℕ) : Prop where
  table : TableAt L s' root F'
  pte : ∀ j, j < 2 ^ 27 → pteAt s'.mem root j =
    if k ≤ j ∧ j < k + i then leafWord (pa + (j - k) * pgSize) flags else pteAt s.mem root j
  pool : tablesAt s'.mem root + ↑F' = tablesAt s.mem root + (↑F : Multiset ℕ)
  agree : AgreeOff (tablesAt s.mem root + ↑F) s.mem s'.mem
  confined : ∀ C : Finset ℕ, (∀ j, j < n → (k + j) / 512 ∈ C) → Confined s.mem root C →
    Confined s'.mem root C

section Range

variable {L : Layout} {s s₀ : Ram} {root flags k pa n i : ℕ} {F F₀ : List ℕ} {E : Panic → Prop}

theorem TableAt.set (h : TableAt L s root F) {u w : ℕ} (hk : k < 2 ^ 27)
    (hu : l0At s.mem root (k / 512) = some u) (hw : w < 2 ^ 64) :
    TableAt L (s.setWord (u + 8 * (k % 512)) w) root F := by
  have hl := lookups_set h.distinct h.aligned hk hu hw
  have hum := TableAt.l0_mem (by omega) hu
  refine ⟨h.aligned, h.links.set h.aligned h.distinct hk hu hw, ?_, h.managed, ?_⟩
  · refine h.free.congr_load fun r hr => ?_
    have hru : r ≠ u := fun heq => h.not_free hum (heq ▸ hr)
    have hload := load_store_page (m := s.mem) (j := 0) (h.managed r hr).aligned
      (h.table_aligned hum) (by omega : k % 512 < 512) (by omega) hw
    rwa [if_neg fun hh => hru hh.1] at hload
  · show (tablesAt (store 8 s.mem (u + 8 * (k % 512)) w) root + ↑F).Nodup
    rw [hl.tables]
    exact h.nodup

theorem Mapped.refl (h : TableAt L s root F) : Mapped L root flags k pa n 0 s F s F :=
  ⟨h, fun j _ => (if_neg (by omega)).symm, rfl, AgreeOff.refl, fun _ _ hC => hC⟩

theorem Mapped.grew {s' : Ram} {F' : List ℕ} (h : Mapped L root flags k pa n i s₀ F₀ s F) (hi : i < n)
    (hg : Grew L root ((k + i) / 512) s F s' F') : Mapped L root flags k pa n i s₀ F₀ s' F' where
  table := hg.table
  pte := fun j hj => (hg.pte j hj).trans (h.pte j hj)
  pool := hg.pool.trans h.pool
  agree := h.agree.trans (h.pool ▸ hg.agree)
  confined := fun C hC hconf => hg.confined C (hC i hi) (h.confined C hC hconf)

theorem Mapped.set {u : ℕ} (h : Mapped L root flags k pa n i s₀ F₀ s F) (hk : k + i < 2 ^ 27)
    (hu : l0At s.mem root ((k + i) / 512) = some u)
    (hw : leafWord (pa + i * pgSize) flags < 2 ^ 64) :
    Mapped L root flags k pa n (i + 1) s₀ F₀
      (s.setWord (u + 8 * ((k + i) % 512)) (leafWord (pa + i * pgSize) flags)) F := by
  have hl := lookups_set h.table.distinct h.table.aligned hk hu hw
  refine ⟨h.table.set hk hu hw, fun j hj => ?_, ?_, ?_, fun C hC hconf => ?_⟩
  · refine (hl.pte j hj).trans ?_
    by_cases hjk : j = k + i
    · subst hjk
      rw [update_self, if_pos (by omega), Nat.add_sub_cancel_left]
    · rw [update_of_ne hjk, h.pte j hj]
      by_cases hin : k ≤ j ∧ j < k + i
      · rw [if_pos hin, if_pos (by omega)]
      · rw [if_neg hin, if_neg (by omega)]
  · show tablesAt (store 8 s.mem _ _) root + ↑F = _
    rw [hl.tables]
    exact h.pool
  · refine h.agree.trans ((agreeOff_setWord s _ (by omega)).mono fun r hr => ?_)
    rw [Multiset.mem_singleton.mp hr, ← h.pool]
    exact Multiset.mem_add.mpr (Or.inl (TableAt.l0_mem (by omega) hu))
  · obtain ⟨h0, h1⟩ := h.confined C hC hconf
    refine ⟨fun q hq hne => h0 q hq ?_, fun j hj hne => h1 j hj ?_⟩
    · rw [← hl.l0 q hq]
      exact hne
    · rw [← hl.l1 j hj]
      exact hne

theorem vpn_mul {j : ℕ} (hj : j < 2 ^ 27) : vpn (j * pgSize) = j := by
  unfold vpn
  rw [Nat.mul_div_cancel _ (by decide), Nat.mod_eq_of_lt hj]

/-- The loop of `mappages`, with `r` pages left. It stops at a page that was
mapped before, or at a missing table when the free list is used up. -/
theorem wp_mappagesLoop {r : ℕ} (hm : Mapped L root flags k pa n i s₀ F₀ s F) (hr : i + r = n)
    (hk : k + n ≤ 2 ^ 27) (hpa : pa % pgSize = 0) (hpa' : pa + n * pgSize < 2 ^ 60)
    (hf : flags < 2 ^ 64) (hfree : ∀ j, j < i → isValid (pteAt s₀.mem root (k + j)) = false)
    {Q : Option Unit → Ram → Prop}
    (hsome : ∀ s' F', Mapped L root flags k pa n n s₀ F₀ s' F' →
      (∀ j, j < n → isValid (pteAt s₀.mem root (k + j)) = false) → Q (some ()) s')
    (hnone : ∀ s' F' j, j < n → Mapped L root flags k pa n j s₀ F₀ s' F' →
      isValid (pteAt s₀.mem root (k + j)) = true ∨
        F' = [] ∧ l0At s'.mem root ((k + j) / 512) = none → Q none s') :
    (mappagesLoop root flags r ((k + i) * pgSize) (pa + i * pgSize)).wp E Q s := by
  induction r generalizing s F i with
  | zero =>
    obtain rfl : i = n := by omega
    exact hsome s F hm hfree
  | succ r ih =>
    have hv : vpn ((k + i) * pgSize) = k + i := vpn_mul (by omega)
    have hmul : i * pgSize < n * pgSize := Nat.mul_lt_mul_of_pos_right (by omega) (by decide)
    rw [mappagesLoop, wp_bind]
    refine wp_walk_table hm.table ?_ ?_
    · intro s' hg hmiss
      rw [hv] at hg hmiss
      exact hnone s' [] i (by omega) (hm.grew (by omega) hg) (Or.inr ⟨rfl, hmiss⟩)
    · intro s' F' u hg hu
      rw [hv] at hg hu ⊢
      have hm' := hm.grew (by omega) hg
      have hentry : load 8 s'.mem (u + 8 * ((k + i) % 512)) = pteAt s₀.mem root (k + i) := by
        rw [← pteAt_of_l0At hu, hm'.pte _ (by omega), if_neg (by omega)]
      simp only [loadPte, wp_bind, wp_get, wp_pure, wp_ite, hentry]
      refine ⟨fun hvalid => hnone s' F' i (by omega) hm' (Or.inl hvalid), fun hfresh => ?_⟩
      have hal : (pa + i * pgSize) % pgSize = 0 := by rw [Nat.add_mul_mod_self_right, hpa]
      simp only [newLeaf, storePte, wp_bind, wp_assert, wp_pure, wp_modify,
        wp_addUsize]
      refine ⟨fun _ => ⟨fun _ => ⟨fun _ => ?_, fun hbad => ?_⟩, fun hbad => ?_⟩,
        fun hbad => by simp [hal] at hbad⟩
      · have hstep := hm'.set (by omega) hu (leafWord_lt (by omega) hf)
        rw [show (k + i) * pgSize + pgSize = (k + (i + 1)) * pgSize by ring,
          show pa + i * pgSize + pgSize = pa + (i + 1) * pgSize by ring]
        refine ih hstep (by omega) fun j hj => ?_
        by_cases hji : j < i
        · exact hfree j hji
        · obtain rfl : j = i := by omega
          simpa using hfresh
      · unfold usizeSize pgSize at *
        omega
      · unfold usizeSize pgSize at *
        omega

end Range

end ToyOs
