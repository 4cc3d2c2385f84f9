import ToyOs.LoadSegment
import ToyOs.Filled

/-!
Copying an address space for `fork`. The old and the new tree live in one
memory; each is part of the frame of the other. `uvmcopy` panics exactly when
a page below the size is not a user leaf, and a failed copy leaves the new
tree without the pages it had copied.
-/
namespace ToyOs

open Bytes Prog Function Multiset Nat

section Flags

variable {w pa : ℕ}

theorem pteFlags_lt (w : ℕ) : pteFlags w < 1024 := by
  unfold pteFlags
  exact lt_of_le_of_lt and_le_right (by decide)

theorem pteFlags_and {mask : ℕ} (hm : 0x3ff &&& mask = mask) : pteFlags w &&& mask = w &&& mask := by
  unfold pteFlags
  rw [Nat.and_assoc, hm]

/-- A copied entry is a leaf when the original one is. -/
theorem isLeaf_copy (h : isLeaf w = true) : isLeaf (leafWord pa (pteFlags w)) = true := by
  rw [isLeaf_leafWord, pteFlags_and (by decide)]
  unfold isLeaf at h
  exact (Bool.and_eq_true _ _ ▸ h).2

end Flags

/-- Page `k` of the image can be copied. -/
def Tree.UserLeaf (T : Tree) (k : ℕ) : Prop := isLeaf (T.pte k) = true ∧ T.pte k &&& pteU ≠ 0

/-- The old tree in the frame of the new one. -/
structure Twin (L : Layout) (R : Multiset ℕ) (T : Tree) (s : Ram) (N : Tree) (F : List ℕ) : Prop where
  space : AddrSpace L s N F (T.owned + R)
  rep : Rep s.mem T

/-- The first `n` pages are copied. -/
structure CopyInv (L : Layout) (R : Multiset ℕ) (T : Tree) (s0 : Ram) (N0 : Tree) (F0 : List ℕ)
    (s : Ram) (N : Tree) (F : List ℕ) (n : ℕ) : Prop where
  moved : Moved L (T.owned + R) s0 N0 F0 s N F
  word : ∀ j, j < n → ∃ pa, N.pte j = leafWord pa (pteFlags (T.pte j))
  source : ∀ j, j < n → T.UserLeaf j
  fresh : ∀ j, j < n → isValid (N0.pte j) = false
  other : ∀ k, n ≤ k → N.pte k = N0.pte k

/-- The copied pages hold the bytes of the old ones. -/
abbrev CopyData (T : Tree) (s0 : Ram) (N0 : Tree) (F0 : List ℕ) (s : Ram) (N : Tree) (F : List ℕ)
    (n : ℕ) : Prop :=
  Filled s0 N0 F0 s N F id (fun j off => s0.mem (ptePa (T.pte j) + off)) n

section Copying

variable {L : Layout} {R : Multiset ℕ} {T : Tree} {s0 s s' : Ram} {N0 N N' : Tree}
  {F0 F F' : List ℕ} {E : Panic → Prop} {n i sz : ℕ} {Q : Option Unit → Ram → Prop}

theorem Twin.swap (h : Twin L R T s N F) : AddrSpace L s T F (N.owned + R) := by
  refine Space.of_pool_eq h.space ?_ h.rep h.space.free
  unfold Tree.owned
  abel

/-- The old tree is untouched by changes of the new one. -/
theorem Twin.move (h : Twin L R T s N F) (hm : Moved L (T.owned + R) s N F s' N' F') :
    Twin L R T s' N' F' := by
  refine ⟨hm.space, h.rep.congr (L := L) hm.agree ?_ ?_ ?_⟩
  · intro p hp
    rcases mem_add.mp hp with hp' | hp'
    · rcases mem_add.mp hp' with ht | hu
      · exact h.space.table_managed ht
      · exact h.space.frame_managed (mem_add.mpr (Or.inl hu))
    · exact h.space.free_managed hp'
  · exact fun p hp => h.swap.table_managed hp
  · intro p hp hp'
    rcases mem_add.mp hp' with hown | hfree
    · refine h.swap.table_not_frame hp ?_
      exact mem_add.mpr (Or.inr (mem_add.mpr (Or.inl hown)))
    · exact h.swap.table_not_free hp hfree

theorem CopyInv.init (h : AddrSpace L s N F (T.owned + R)) : CopyInv L R T s N F s N F 0 where
  moved := Moved.refl h
  word := fun j hj => absurd hj (not_lt_zero j)
  source := fun j hj => absurd hj (not_lt_zero j)
  fresh := fun j hj => absurd hj (not_lt_zero j)
  other := fun _ _ => rfl

theorem CopyInv.move (h : CopyInv L R T s0 N0 F0 s N F n)
    (hm : Moved L (T.owned + R) s N F s' N' F') (hpte : N'.pte = N.pte) :
    CopyInv L R T s0 N0 F0 s' N' F' n where
  moved := h.moved.trans hm
  word := fun j hj => by rw [hpte]; exact h.word j hj
  source := h.source
  fresh := h.fresh
  other := fun k hk => by rw [hpte]; exact h.other k hk

theorem CopyInv.step (h : CopyInv L R T s0 N0 F0 s N F n) {pa : ℕ} (hsrc : T.UserLeaf n)
    (hinv : isValid (N.pte n) = false)
    (hpte : N'.pte = update N.pte n (leafWord pa (pteFlags (T.pte n))))
    (hm : Moved L (T.owned + R) s N F s' N' F') : CopyInv L R T s0 N0 F0 s' N' F' (n + 1) where
  moved := h.moved.trans hm
  word := by
    intro j hj
    by_cases hjn : j = n
    · exact ⟨pa, by rw [hpte, hjn, update_self]⟩
    · obtain ⟨pa', hpa'⟩ := h.word j (by omega)
      exact ⟨pa', by rw [hpte, update_of_ne hjn, hpa']⟩
  source := by
    intro j hj
    by_cases hjn : j = n
    · exact hjn ▸ hsrc
    · exact h.source j (by omega)
  fresh := by
    intro j hj
    by_cases hjn : j = n
    · rw [hjn, ← h.other n (le_refl n)]
      exact hinv
    · exact h.fresh j (by omega)
  other := by
    intro k hk
    rw [hpte, update_of_ne (by omega)]
    exact h.other k (by omega)

theorem CopyInv.leaf (h : CopyInv L R T s0 N0 F0 s N F n) {j : ℕ} (hj : j < n) :
    isLeaf (N.pte j) = true := by
  obtain ⟨pa, hpa⟩ := h.word j hj
  rw [hpa]
  exact isLeaf_copy (h.source j hj).1

/-- There are no more copied pages than there is memory. -/
theorem CopyInv.le_count (h : CopyInv L R T s0 N0 F0 s N F n) : n ≤ managedCount L := by
  have hmax := managedCount_lt L
  have hmin : min n (2 ^ 15) ≤ managedCount L := by
    refine AddrSpace.count_le h.moved.space (fun j => j) (fun j _ j' hj' => by omega) ?_ ?_
    · intro j hj
      rw [mem_userSlots]
      omega
    · exact fun j hj => isValid_of_isLeaf (h.leaf (by omega))
  omega

theorem CopyInv.wp_undo (h : CopyInv L R T s0 N0 F0 s N F n)
    (hQ : ∀ s' N' F', Moved L (T.owned + R) s0 N0 F0 s' N' F' → N0.SameEntries N' → Q none s') :
    (do if 0 < n then uvmunmap L N.root 0 n true
        pure none : RamM (Option Unit)).wp E Q s := by
  have hcount := h.le_count
  have hmax := managedCount_lt L
  by_cases hn : 0 < n
  · rw [if_pos hn, wp_bind]
    refine wp_unmap_image h.moved.space hn (Or.inl ⟨by omega, fun k hk => h.leaf hk⟩) ?_
    intro s' N' F' hm _ hpte _
    refine hQ s' N' F' (h.moved.trans hm) ?_
    intro k hk
    rw [hpte k hk]
    by_cases hkn : k < n
    · rw [if_pos hkn]
      exact Or.inr ⟨rfl, h.fresh k hkn⟩
    · rw [if_neg hkn]
      exact Or.inl (h.other k (by omega))
  · rw [if_neg hn]
    refine hQ s N F h.moved fun k _ => Or.inl (h.other k (by omega))

theorem agreeOff_copy (m : Store) (src dst : ℕ) : AgreeOff {dst} m (copy m src dst pgSize) :=
  fun _ hx => copy_outside (hx dst (mem_singleton_self dst))

theorem copy_page {m : Store} {src dst off : ℕ} (hoff : off < pgSize) :
    copy m src dst pgSize (dst + off) = m (src + off) := by
  unfold copy
  rw [if_pos (by omega), Nat.add_sub_cancel_left]

/-- The pages of the old tree are in the frame. -/
theorem Tree.UserLeaf.page_frame {k : ℕ} (hl : T.UserLeaf k) (hk : k ∈ userSlots)
    (N : Tree) (R : Multiset ℕ) : ptePa (T.pte k) ∈ N.mapped + (T.owned + R) := by
  have hmem : ptePa (T.pte k) ∈ T.mapped :=
    Tree.mem_mapped.mpr ⟨k, hk, isValid_of_isLeaf hl.1, rfl⟩
  unfold Tree.owned
  simp [hmem]

theorem Tree.userPte_of_userLeaf {T : Tree} {va k : ℕ} (h : va < maxVa) (hk : vpn va = k)
    (hl : T.UserLeaf k) : T.userPte va 0 = some (T.pte k) := by
  unfold Tree.userPte
  rw [if_neg (by omega), hk, if_pos ⟨hl.1, hl.2, and_zero _⟩]

theorem Tree.userPte_of_not {T : Tree} {va k : ℕ} (hk : vpn va = k) (hl : ¬ T.UserLeaf k) :
    T.userPte va 0 = none := by
  unfold Tree.userPte
  rw [hk, if_neg (fun hc : isLeaf (T.pte k) = true ∧ _ => hl ⟨hc.1, hc.2.1⟩), ite_self]

/-- The loop of `uvmcopy` with `i` pages copied and `n` to go. -/
theorem wp_uvmcopyLoop (h : CopyInv L R T s0 N0 F0 s N F i) (hdata : CopyData T s0 N0 F0 s N F i)
    (htwin0 : Twin L R T s0 N0 F0) (htwin : Twin L R T s N F) (hused : F0.length ≤ F.length + 3 * i)
    (hE : (∀ j, j < i + n → T.UserLeaf j) ∨ ∀ e, E e)
    (hfail : ∀ s' N' F', F0.length < 3 * (i + n) ∨ (∃ j, j < i + n ∧ isValid (N0.pte j) = true) →
      Moved L (T.owned + R) s0 N0 F0 s' N' F' → N0.SameEntries N' → Q none s')
    (hdone : ∀ s' N' F', F0.length ≤ F'.length + 3 * (i + n) →
      CopyInv L R T s0 N0 F0 s' N' F' (i + n) → CopyData T s0 N0 F0 s' N' F' (i + n) →
      Twin L R T s' N' F' → Q (some ()) s') :
    (uvmcopyLoop L T.root N.root n i).wp E Q s := by
  induction n generalizing s N F i with
  | zero => exact hdone s N F hused h hdata htwin
  | succ n ih =>
    have hcount := h.le_count
    have hmax := managedCount_lt L
    have hbig : i * pgSize < maxVa := by
      unfold pgSize maxVa
      omega
    have hvpn : vpn (i * pgSize) = i := by
      have := vpn_zero_add (by omega : i < 2 ^ 27)
      rwa [zero_add] at this
    have hsmall : i * pgSize < usizeSize := lt_trans hbig (by decide)
    have hislot : i ∈ userSlots := by
      rw [mem_userSlots]
      omega
    simp only [uvmcopyLoop, wp_bind, wp_mulUsize]
    refine ⟨fun _ => ?_, fun hover => absurd hover (by omega)⟩
    refine wp_of_ok (walkUserPerm_lookup htwin.swap _ _) ?_
    by_cases hsrc : T.UserLeaf i
    · rw [Tree.userPte_of_userLeaf hbig hvpn hsrc]
      simp only [Prog.expect, wp_pure]
      refine wp_kallocZeroed_taken h.moved.space ?_ ?_
      · intro hnil
        refine h.wp_undo (hfail · · · (Or.inl ?_))
        rw [hnil, List.length_nil] at hused
        omega
      · intro dst F1 s1 htaken _
        simp only [wp_bind, wp_modify]
        have ht := htaken.write (agreeOff_copy s1.mem (ptePa (T.pte i)) dst)
        refine ht.wp_map (mul_mod_left _ _) (pteFlags_lt _) ?_ ?_ ?_ ?_
        · intro _
          rwa [hvpn]
        · intro hover
          unfold pgSize usizeSize at hover
          omega
        · intro s2 N2 F2 _ hwhy hpte hm
          have hneed := N.need_le (vpn (i * pgSize))
          rw [wp_bind]
          refine wp_of_ok (kfree_apply htaken.managed s2) ?_
          rw [← hm.root]
          refine (h.move hm hpte).wp_undo (hfail · · · (hwhy.imp (fun _ => by omega) fun hv => ?_))
          rw [hvpn, h.other i (le_refl i)] at hv
          exact ⟨i, by omega, hv⟩
        · intro s2 N2 F2 hinv _ hpaid hpte hm hkept
          have hlen := hpaid.le
          rw [hvpn] at hinv hpte
          have hnext : i + 1 + n = i + (n + 1) := by omega
          have hfill : CopyData T s0 N0 F0 s2 N2 F2 (i + 1) := by
            refine hdata.step h.moved.space ht hkept hpte (pteFlags_lt _) ?_ ?_
            · intro j hj
              refine ⟨show j ≠ i by omega, ?_, isValid_of_isLeaf (h.leaf hj)⟩
              rw [mem_userSlots, id]
              omega
            · intro off hoff
              refine (copy_page hoff).trans ?_
              rw [htaken.kept.page h.moved.space (hsrc.page_frame hislot N R) hoff]
              exact hdata.kept.page htwin0.space (hsrc.page_frame hislot N0 R) hoff
          rw [← hm.root]
          refine ih (h.step hsrc hinv hpte hm) hfill (htwin.move hm) (by omega) ?_ ?_ ?_
          · rw [hnext]
            exact hE
          · rw [hnext]
            exact hfail
          · rw [hnext]
            exact hdone
    · have hall := hE.resolve_left fun hgood => hsrc (hgood i (by omega))
      rw [Tree.userPte_of_not hvpn hsrc]
      exact hall _

/-- `uvmcopy` copies every page of the image, or none. -/
theorem wp_uvmcopy (htwin : Twin L R T s N F)
    (hE : (sz + pgSize < usizeSize ∧ ∀ j, j < pages sz → T.UserLeaf j) ∨ ∀ e, E e)
    (hfail : ∀ s' N' F', F.length < 3 * pages sz ∨ (∃ j, j < pages sz ∧ isValid (N.pte j) = true) →
      Moved L (T.owned + R) s N F s' N' F' → N.SameEntries N' → Q none s')
    (hdone : ∀ s' N' F', F.length ≤ F'.length + 3 * pages sz →
      CopyInv L R T s N F s' N' F' (pages sz) → CopyData T s N F s' N' F' (pages sz) →
      Twin L R T s' N' F' → Q (some ()) s') :
    (uvmcopy L T.root N.root sz).wp E Q s := by
  have hdiv : pages sz * pgSize / pgSize = pages sz := Nat.mul_div_cancel _ (by decide)
  simp only [uvmcopy, wp_bind, wp_pageRoundUp, hdiv]
  refine ⟨fun _ => ?_, fun hover => ?_⟩
  · refine wp_uvmcopyLoop (CopyInv.init htwin.space) (Filled.init _ _ _ _ _) htwin htwin (by omega)
      ?_ ?_ ?_
    · rw [Nat.zero_add]
      exact hE.imp And.right id
    · rw [Nat.zero_add]
      exact hfail
    · rw [Nat.zero_add]
      exact hdone
  · exact hE.elim (fun hgood => absurd hgood.1 (by omega)) fun hall => hall _

/-- `uvmcopy_stack` never panics. -/
theorem wp_uvmcopyStack (htwin : Twin L R T s N F)
    (hfail : ∀ s' N' F', F.length < 3 ∨ isValid (N.pte (2 ^ 26 - 3)) = true ∨
        ¬ T.UserLeaf (2 ^ 26 - 3) →
      Moved L (T.owned + R) s N F s' N' F' → N'.pte = N.pte → Q none s')
    (hdone : ∀ s' N' F' pa, F.length ≤ F'.length + 3 → T.UserLeaf (2 ^ 26 - 3) →
      isValid (N.pte (2 ^ 26 - 3)) = false → Moved L (T.owned + R) s N F s' N' F' → Twin L R T s' N' F' →
      N'.pte = update N.pte (2 ^ 26 - 3) (leafWord pa (pteU ||| pteR ||| pteW)) →
      Kept s N F s' N' F' →
      (∀ off, off < pgSize → s'.mem (ptePa (N'.pte (2 ^ 26 - 3)) + off) =
        s.mem (ptePa (T.pte (2 ^ 26 - 3)) + off)) → Q (some ()) s') :
    (uvmcopyStack L T.root N.root).wp E Q s := by
  simp only [uvmcopyStack, wp_bind]
  refine wp_of_ok (walkUserPerm_lookup htwin.swap _ _) ?_
  by_cases hsrc : T.UserLeaf (2 ^ 26 - 3)
  · rw [Tree.userPte_of_userLeaf (by decide) vpn_userStack hsrc]
    simp only [wp_bind]
    refine wp_kallocZeroed_taken htwin.space ?_ ?_
    · exact fun hnil => hfail s N F (Or.inl (by simp [hnil])) (Moved.refl htwin.space) rfl
    · intro dst F1 s1 htaken _
      simp only [wp_bind, wp_modify]
      have ht := htaken.write (agreeOff_copy s1.mem (ptePa (T.pte (2 ^ 26 - 3))) dst)
      refine ht.wp_map (by decide) (by decide) (fun _ => stack_user)
        (fun hover => absurd hover (by decide)) ?_ ?_
      · intro s2 N2 F2 _ hwhy hpte hm
        have hneed := N.need_le (vpn userStack)
        rw [vpn_userStack] at hwhy hneed
        simp only [wp_bind, wp_pure]
        refine wp_of_ok (kfree_apply htaken.managed s2) ?_
        exact hfail _ N2 _ (hwhy.imp (fun _ => by omega) Or.inl) hm hpte
      · intro s2 N2 F2 hinv _ hpaid hpte hm hkept
        rw [vpn_userStack] at hinv hpte
        have hfill := (Filled.init s N F (fun _ => 2 ^ 26 - 3)
          (fun _ off => s.mem (ptePa (T.pte (2 ^ 26 - 3)) + off))).step htwin.space ht hkept hpte
          (by decide) (fun j hj => absurd hj (not_lt_zero j)) fun off hoff =>
            (copy_page hoff).trans (htaken.kept.page htwin.space
              (hsrc.page_frame (vpn_userStack ▸ stack_user) N R) hoff)
        exact hdone s2 N2 F2 dst hpaid.le hsrc hinv hm (htwin.move hm) hpte hfill.kept
          (hfill.bytes 0 zero_lt_one)
  · rw [Tree.userPte_of_not vpn_userStack hsrc]
    exact hfail s N F (Or.inr (Or.inr hsrc)) (Moved.refl htwin.space) rfl

end Copying

end ToyOs
