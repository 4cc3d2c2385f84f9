import ToyOs.AddressSpace

/-!
The address space of a process: `proc_pagetable` makes one with the
trampoline and the trap frame, `proc_freepagetable` takes one down. Taking
down panics unless the image below `sz` is dense and nothing but the stack
page lies above it; when it returns, all pages are on the free list.
-/
namespace ToyOs

open Bytes Prog Function Multiset Nat

variable {Q : Unit → Ram → Prop}

/-- What `walk_user_perm` finds. -/
def Tree.userPte (T : Tree) (va perm : ℕ) : Option ℕ :=
  if maxVa ≤ va then none
  else if isLeaf (T.pte (vpn va)) ∧ T.pte (vpn va) &&& pteU ≠ 0 ∧ T.pte (vpn va) &&& perm = perm
  then some (T.pte (vpn va)) else none

/-- The address space can be taken down: the first `n` pages are leaves, and
above them there is at most the stack page. -/
structure Tree.Formed (T : Tree) (n : ℕ) : Prop where
  trampoline : isLeaf (T.pte (2 ^ 26 - 1)) = true
  trapframe : isLeaf (T.pte (2 ^ 26 - 2)) = true
  below : n ≤ 2 ^ 26 - 3
  image : ∀ k, k < n → isLeaf (T.pte k) = true
  stack : isValid (T.pte (2 ^ 26 - 3)) = true →
    isLeaf (T.pte (2 ^ 26 - 3)) = true ∧ T.pte (2 ^ 26 - 3) &&& pteU ≠ 0
  rest : ∀ k, k < 2 ^ 27 → n ≤ k → k ≠ 2 ^ 26 - 1 → k ≠ 2 ^ 26 - 2 → k ≠ 2 ^ 26 - 3 →
    isValid (T.pte k) = false

/-- Every page of the address space is back on the free list. -/
structure Reclaimed (s : Ram) (P : Multiset ℕ) (F : List ℕ) (s' : Ram) (F' : List ℕ) : Prop where
  free : FreeList s'.mem s'.head F'
  pool : (↑F' : Multiset ℕ) = P + ↑F
  agree : AgreeOff (P + ↑F) s.mem s'.mem

section Lookup

variable {L : Layout} {s : Ram} {T : Tree} {F : List ℕ} {R : Multiset ℕ} {E : Panic → Prop}

theorem walkUserPerm_lookup (h : Space L s T F R) (va perm : ℕ) :
    walkUserPerm T.root va perm s = .ok (T.userPte va perm, s) := by
  have hv := vpn_lt va
  have hwp : (walkUserPerm T.root va perm).wp (fun _ => False)
      (fun r s' => r = T.userPte va perm ∧ s' = s) s := by
    unfold walkUserPerm Tree.userPte
    by_cases hmax : maxVa ≤ va
    · simp [hmax]
    · simp only [if_neg hmax, wp_bind]
      refine wp_of_ok (walk_lookup h va) ?_
      cases hu : T.l0 (vpn va / 512) with
      | none =>
        have hz := h.rep.pte_none _ hv hu
        simp [hz, isLeaf, isValid_zero]
      | some u =>
        have hentry := h.rep.l0_entry _ hv u hu
        simp only [Option.map_some, loadPte, wp_bind, wp_get, wp_pure, hentry]
        by_cases hl : isLeaf (T.pte (vpn va)) = true
        · have hvalid := isValid_of_isLeaf hl
          by_cases hU : T.pte (vpn va) &&& pteU = 0
          · simp [hvalid, hU]
          · by_cases hperm : T.pte (vpn va) &&& perm = perm
            · simp [hvalid, hU, hperm, hl]
            · simp [hvalid, hU, hperm]
        · have hl' : isLeaf (T.pte (vpn va)) = false := by simpa using hl
          by_cases hvalid : isValid (T.pte (vpn va)) = true
          · by_cases hU : T.pte (vpn va) &&& pteU = 0
            · simp [hvalid, hU]
            · by_cases hperm : T.pte (vpn va) &&& perm = perm
              · simp [hvalid, hU, hperm, hl']
              · simp [hvalid, hU, hperm]
          · simp [hvalid, hl']
  obtain ⟨r, s', hrun, hr, hs'⟩ := exists_ok hwp
  rw [hrun, hr, hs']

theorem userStack_lt : ¬ maxVa ≤ userStack := by decide

theorem Tree.userPte_stack_isSome (T : Tree) :
    (T.userPte userStack 0).isSome = true ↔
      isLeaf (T.pte (2 ^ 26 - 3)) = true ∧ T.pte (2 ^ 26 - 3) &&& pteU ≠ 0 := by
  unfold Tree.userPte
  rw [if_neg userStack_lt, vpn_userStack]
  by_cases h : isLeaf (T.pte (2 ^ 26 - 3)) = true ∧ T.pte (2 ^ 26 - 3) &&& pteU ≠ 0
  · rw [if_pos ⟨h.1, h.2, and_zero _⟩]
    exact ⟨fun _ => h, fun _ => rfl⟩
  · rw [if_neg fun hc => h ⟨hc.1, hc.2.1⟩]
    simp only [Option.isSome_none, Bool.false_eq_true, false_iff]
    exact h

theorem vpn_zero_add {j : ℕ} (hj : j < 2 ^ 27) : vpn (0 + j * pgSize) = j := by
  unfold vpn pgSize
  omega

end Lookup

section Free

variable {L : Layout} {s : Ram} {T : Tree} {F : List ℕ} {R : Multiset ℕ} {E : Panic → Prop} {n : ℕ}

/-- A dense image is a range of leaves. -/
theorem leaves_image (hn : n ≤ 2 ^ 26) (h : ∀ k, k < n → isLeaf (T.pte k) = true) :
    Leaves T 0 n 0 := by
  intro j _ hj
  have hj' : j < 2 ^ 27 := by omega
  refine ⟨by unfold usizeSize pgSize; omega, ?_, ?_⟩
  · rw [vpn_zero_add hj']
    exact h j (by omega)
  · intro j' _ hlt
    rw [vpn_zero_add hj', vpn_zero_add (by omega)]
    omega

/-- Unmapping the image from address 0. The free list is never long enough
for the range to reach the kernel entries. -/
theorem wp_unmap_image (h : AddrSpace L s T F R) (hn : 0 < n)
    (hE : (n ≤ 2 ^ 26 ∧ ∀ k, k < n → isLeaf (T.pte k) = true) ∨ ∀ e, E e)
    (hQ : ∀ s' T' F', Moved L R s T F s' T' F' → (∀ k, k < 2 ^ 27 → k < n → isLeaf (T.pte k) = true) →
      (∀ k, k < 2 ^ 27 → T'.pte k = if k < n then 0 else T.pte k) → n ≤ 2 ^ 15 → Q () s') :
    (uvmunmap L T.root 0 n true).wp E Q s := by
  have hcount := managedCount_lt L
  refine wp_uvmunmap h rfl hn ?_ ?_ ?_
  · intro j _ hlen _
    rw [vpn_zero_add (by omega), mem_userSlots]
    omega
  · exact hE.imp (fun hl => leaves_image hl.1 hl.2) id
  · intro s' F' hm _ hlen hl
    have hF' := hm.space.length_free
    refine hQ s' _ F' hm ?_ ?_ (by omega)
    · intro k hk hkn
      have hleaf := hl k hkn
      rwa [vpn_zero_add hk] at hleaf
    · intro k hk
      by_cases hkn : k < n
      · have hz : (T.clearPages 0 n 0).pte (vpn (0 + k * pgSize)) = 0 :=
          Tree.clearPages_pte_of_mem (zero_le k) (by omega)
        rw [vpn_zero_add hk] at hz
        rw [if_pos hkn, hz]
      · rw [if_neg hkn]
        refine Tree.clearPages_pte_of_not ?_
        intro j _ hj
        rw [vpn_zero_add (by omega)]
        omega

theorem Reclaimed.of_moved {s' s'' : Ram} {T' : Tree} {F' F'' : List ℕ}
    (h : Moved L R s T F s' T' F') (h' : Reclaimed s' T'.owned F' s'' F'') :
    Reclaimed s T.owned F s'' F'' :=
  ⟨h'.free, h'.pool.trans h.pool, h.agree.trans (h.pool ▸ h'.agree)⟩

/-- `freewalk` frees an address space without leaves. -/
theorem wp_freewalk_owned (h : AddrSpace L s T F R) (hflat : T.Flat)
    (hE : (∀ k, k < 2 ^ 27 → isLeaf (T.pte k) = false) ∨ ∀ e, E e)
    (hQ : ∀ s' F', Reclaimed s T.owned F s' F' → (∀ k, k < 2 ^ 27 → isValid (T.pte k) = false) →
      Q () s') :
    (freewalk L freewalkDepth T.root).wp E Q s := by
  refine wp_freewalk_root h hflat hE ?_
  intro s' F' hfree hF' hagree hinv
  have howned : T.owned = T.tables := by
    unfold Tree.owned
    rw [Tree.mapped_of_invalid fun k hk => hinv k (mem_userSlots.mp hk).1, add_zero]
  refine hQ s' F' ⟨hfree, by rw [hF', howned], ?_⟩ hinv
  rw [howned]
  exact hagree.mono fun p hp => mem_add.mpr (Or.inl hp)

/-- `uvmfree` frees everything, or panics where the image is not dense. -/
theorem wp_uvmfree {sz : ℕ} (h : AddrSpace L s T F R)
    (hcov : ∀ k, k < 2 ^ 27 → isValid (T.pte k) = true → isLeaf (T.pte k) = false → k < pages sz)
    (hE : (sz + pgSize < usizeSize ∧ pages sz ≤ 2 ^ 26 ∧
        (∀ k, k < pages sz → isLeaf (T.pte k) = true) ∧
        ∀ k, k < 2 ^ 27 → pages sz ≤ k → isValid (T.pte k) = false) ∨ ∀ e, E e)
    (hQ : ∀ s' F', Reclaimed s T.owned F s' F' → pages sz ≤ 2 ^ 15 →
      (∀ k, k < pages sz → isLeaf (T.pte k) = true) →
      (∀ k, k < 2 ^ 27 → pages sz ≤ k → isValid (T.pte k) = false) → Q () s') :
    (uvmfree L T.root sz).wp E Q s := by
  have hdiv : pages sz * pgSize / pgSize = pages sz := Nat.mul_div_cancel _ (by decide)
  have hend : ∀ s' T' F', Moved L R s T F s' T' F' → pages sz ≤ 2 ^ 15 →
      (∀ k, k < 2 ^ 27 → k < pages sz → isLeaf (T.pte k) = true) →
      (∀ k, k < 2 ^ 27 → T'.pte k = if k < pages sz then 0 else T.pte k) →
      (freewalk L freewalkDepth T.root).wp E Q s' := by
    intro s' T' F' hm hsmall hl hpte
    have hinv : ∀ k, k < 2 ^ 27 → k < pages sz → isValid (T'.pte k) = false := by
      intro k hk hkn
      rw [hpte k hk, if_pos hkn]
      rfl
    rw [← hm.root]
    refine wp_freewalk_owned hm.space ?_ ?_ fun s'' F'' hr hall => ?_
    · intro k hk hv
      by_cases hkn : k < pages sz
      · simp [hinv k hk hkn] at hv
      · rw [hpte k hk, if_neg hkn] at hv ⊢
        by_contra hnl
        exact hkn (hcov k hk hv (by simpa using hnl))
    · refine hE.imp ?_ id
      rintro ⟨-, -, -, hrest⟩ k hk
      have hi : isValid (T'.pte k) = false := by
        by_cases hkn : k < pages sz
        · exact hinv k hk hkn
        · rw [hpte k hk, if_neg hkn]
          exact hrest k hk (by omega)
      simp [isLeaf, hi]
    · refine hQ s'' F'' (.of_moved hm hr) hsmall (fun k hk => hl k (by omega) hk) ?_
      intro k hk hge
      have hinv' := hall k hk
      rwa [hpte k hk, if_neg (by omega)] at hinv'
  have hover : usizeSize ≤ sz + pgSize → E .overflow := by
    intro hge
    exact hE.elim (fun hl => absurd hl.1 (by omega)) fun hall => hall _
  simp only [uvmfree, wp_bind, wp_pageRoundUp, hdiv, wp_ite]
  refine ⟨fun _ => ⟨fun hpos => ?_, fun hzero => ?_⟩, hover⟩
  · have hn : 0 < pages sz := lt_pages_iff.mpr (by omega)
    refine wp_unmap_image h hn (hE.imp (fun hl => ⟨hl.2.1, hl.2.2.1⟩) id) ?_
    intro s' T' F' hm hl hpte hsmall
    exact hend s' T' F' hm hsmall hl hpte
  · have hn : pages sz = 0 := by
      unfold pages pgSize
      omega
    refine hend s T F (Moved.refl h) (by omega) ?_ ?_
    · intro k _ hk
      omega
    · intro k _
      rw [hn]
      rfl

theorem trampoline_not_user : vpn trampolineVa ∉ userSlots := by
  rw [mem_userSlots, vpn_trampoline]
  omega

theorem trapframe_not_user : vpn trapframeVa ∉ userSlots := by
  rw [mem_userSlots, vpn_trapframe]
  omega

theorem stack_user : vpn userStack ∈ userSlots := by
  rw [mem_userSlots, vpn_userStack]
  omega

/-- The tree once the kernel entries and, if there is one, the stack page are gone. -/
structure Stripped (T T' : Tree) : Prop where
  kernel : T'.pte (2 ^ 26 - 1) = 0 ∧ T'.pte (2 ^ 26 - 2) = 0
  stack : T'.pte (2 ^ 26 - 3) = 0 ∧
      isLeaf (T.pte (2 ^ 26 - 3)) = true ∧ T.pte (2 ^ 26 - 3) &&& pteU ≠ 0 ∨
    T'.pte (2 ^ 26 - 3) = T.pte (2 ^ 26 - 3) ∧
      ¬ (isLeaf (T.pte (2 ^ 26 - 3)) = true ∧ T.pte (2 ^ 26 - 3) &&& pteU ≠ 0)
  other : ∀ k, k < 2 ^ 27 → k ≠ 2 ^ 26 - 1 → k ≠ 2 ^ 26 - 2 → k ≠ 2 ^ 26 - 3 → T'.pte k = T.pte k

theorem Stripped.pte {T' : Tree} (h : Stripped T T') {k : ℕ} (hk : k < 2 ^ 27) :
    T'.pte k = 0 ∨ T'.pte k = T.pte k := by
  by_cases h1 : k = 2 ^ 26 - 1
  · exact Or.inl (h1 ▸ h.kernel.1)
  · by_cases h2 : k = 2 ^ 26 - 2
    · exact Or.inl (h2 ▸ h.kernel.2)
    · by_cases h3 : k = 2 ^ 26 - 3
      · rcases h.stack with ⟨hs, -⟩ | ⟨hs, -⟩
        · exact Or.inl (h3 ▸ hs)
        · exact Or.inr (h3 ▸ hs)
      · exact Or.inr (h.other k hk h1 h2 h3)

/-- What is left of a well-formed address space is its dense image. -/
theorem Stripped.formed {T' : Tree} (h : Stripped T T') (hf : T.Formed n) :
    (∀ k, k < n → isLeaf (T'.pte k) = true) ∧
      ∀ k, k < 2 ^ 27 → n ≤ k → isValid (T'.pte k) = false := by
  have hb := hf.below
  refine ⟨?_, ?_⟩
  · intro k hk
    rw [h.other k (by omega) (by omega) (by omega) (by omega)]
    exact hf.image k hk
  · intro k hk hnk
    by_cases h1 : k = 2 ^ 26 - 1
    · rw [h1, h.kernel.1]
      rfl
    · by_cases h2 : k = 2 ^ 26 - 2
      · rw [h2, h.kernel.2]
        rfl
      · by_cases h3 : k = 2 ^ 26 - 3
        · rw [h3]
          rcases h.stack with ⟨hs, -⟩ | ⟨hs, hno⟩
          · rw [hs]
            rfl
          · rw [hs]
            by_contra hv
            exact hno (hf.stack (by simpa using hv))
        · rw [h.other k hk h1 h2 h3]
          exact hf.rest k hk hnk h1 h2 h3

/-- An address space that was taken down was well formed. -/
theorem Stripped.of_freed {T' : Tree} (h : Stripped T T') (hsmall : n ≤ 2 ^ 15)
    (h1 : isLeaf (T.pte (2 ^ 26 - 1)) = true) (h2 : isLeaf (T.pte (2 ^ 26 - 2)) = true)
    (himage : ∀ k, k < n → isLeaf (T'.pte k) = true)
    (hrest : ∀ k, k < 2 ^ 27 → n ≤ k → isValid (T'.pte k) = false) : T.Formed n where
  trampoline := h1
  trapframe := h2
  below := by omega
  image := by
    intro k hk
    rw [← h.other k (by omega) (by omega) (by omega) (by omega)]
    exact himage k hk
  stack := by
    intro hv
    rcases h.stack with ⟨-, hleaf⟩ | ⟨hs, -⟩
    · exact hleaf
    · have hinv := hrest (2 ^ 26 - 3) (by omega) (by omega)
      rw [hs, hv] at hinv
      exact absurd hinv (by decide)
  rest := by
    intro k hk hn h1 h2 h3
    rw [← h.other k hk h1 h2 h3]
    exact hrest k hk hn

/-- A well-formed address space has only leaves. -/
theorem Tree.Formed.flat (h : T.Formed n) : T.Flat := by
  intro k hk hv
  by_cases hkn : k < n
  · exact h.image k hkn
  · by_cases h1 : k = 2 ^ 26 - 1
    · exact h1 ▸ h.trampoline
    · by_cases h2 : k = 2 ^ 26 - 2
      · exact h2 ▸ h.trapframe
      · by_cases h3 : k = 2 ^ 26 - 3
        · exact h3 ▸ (h.stack (h3 ▸ hv)).1
        · rw [h.rest k hk (by omega) h1 h2 h3] at hv
          exact absurd hv (by decide)

/-- `proc_freepagetable` up to `uvmfree`: the kernel entries and the stack page go. -/
theorem wp_strip {sz : ℕ} (h : AddrSpace L s T F R)
    (hE : (isLeaf (T.pte (2 ^ 26 - 1)) = true ∧ isLeaf (T.pte (2 ^ 26 - 2)) = true) ∨ ∀ e, E e)
    (hend : ∀ s' T' F', Moved L R s T F s' T' F' → Spared s T s' T' →
      isLeaf (T.pte (2 ^ 26 - 1)) = true →
      isLeaf (T.pte (2 ^ 26 - 2)) = true → Stripped T T' → (uvmfree L T.root sz).wp E Q s') :
    (procFreepagetable L T.root sz).wp E Q s := by
  have hkeep : ∀ k, k = 2 ^ 26 - 1 ∨ k = 2 ^ 26 - 2 → isLeaf (T.pte k) = true ∨ ∀ e, E e := by
    rintro k (rfl | rfl)
    · exact hE.imp_left And.left
    · exact hE.imp_left And.right
  simp only [procFreepagetable, wp_bind]
  refine wp_uvmunmap_keep h (by decide) (by decide) trampoline_not_user
    (hkeep _ (Or.inl vpn_trampoline)) ?_
  intro s1 hm1 hsp1 hl1
  rw [vpn_trampoline] at hl1
  have h2 : vpn trapframeVa ≠ vpn trampolineVa := by decide
  refine wp_uvmunmap_keep (T := T.setPte (vpn trampolineVa) 0) hm1.space (by decide) (by decide)
    trapframe_not_user ?_ ?_
  · simp only [Tree.setPte, update_of_ne h2]
    exact hkeep _ (Or.inr vpn_trapframe)
  intro s2 hm2 hsp2 hl2
  simp only [Tree.setPte, update_of_ne h2] at hl2
  rw [vpn_trapframe] at hl2
  have hm := hm1.trans hm2
  have hsp := hsp1.trans hsp2
  generalize hT2 : (T.setPte (vpn trampolineVa) 0).setPte (vpn trapframeVa) 0 = T2 at hm2 hm hsp
  have hpte2 : ∀ k, T2.pte k =
      if k = 2 ^ 26 - 2 then 0 else if k = 2 ^ 26 - 1 then 0 else T.pte k := by
    intro k
    rw [← hT2]
    simp only [Tree.setPte, update_apply, vpn_trampoline, vpn_trapframe]
  have hstack2 : T2.pte (2 ^ 26 - 3) = T.pte (2 ^ 26 - 3) := by
    rw [hpte2, if_neg (by omega), if_neg (by omega)]
  have hroot2 : T.root = T2.root := hm.root.symm
  rw [hroot2]
  refine wp_of_ok (walkUserPerm_lookup hm2.space userStack 0) ?_
  simp only [wp_ite]
  refine ⟨fun hsome => ?_, fun hnone => ?_⟩
  · rw [Tree.userPte_stack_isSome, hstack2] at hsome
    rw [wp_bind]
    refine wp_uvmunmap hm2.space (by decide : userStack % pgSize = 0) (by decide : 0 < 1) ?_ ?_ ?_
    · intro j hj _ _
      obtain rfl : j = 0 := by omega
      rw [zero_mul, add_zero]
      exact stack_user
    · left
      intro j _ hj
      obtain rfl : j = 0 := by omega
      refine ⟨by decide, ?_, fun j' _ hj' => absurd hj' (by omega)⟩
      rw [zero_mul, add_zero, vpn_userStack, hstack2]
      exact hsome.1
    · intro s3 F3 hm3 hsp3 _ _
      rw [← hroot2]
      refine hend s3 _ F3 (hm.trans hm3) (hsp.trans hsp3) hl1 hl2 ⟨⟨?_, ?_⟩, Or.inl ⟨?_, hsome⟩, ?_⟩
      · exact Tree.clearPages_pte_zero (by rw [hpte2]; simp)
      · exact Tree.clearPages_pte_zero (by rw [hpte2]; simp)
      · have hz : (T2.clearPages userStack 1 0).pte (vpn (userStack + 0 * pgSize)) = 0 :=
          Tree.clearPages_pte_of_mem (zero_le 0) (by omega)
        rwa [zero_mul, add_zero, vpn_userStack] at hz
      · intro k hk h1 h2 h3
        rw [Tree.clearPages_pte_of_not, hpte2, if_neg h2, if_neg h1]
        intro j _ hj
        obtain rfl : j = 0 := by omega
        rw [zero_mul, add_zero, vpn_userStack]
        exact h3.symm
  · rw [Tree.userPte_stack_isSome, hstack2] at hnone
    rw [← hroot2]
    refine hend s2 T2 F hm hsp hl1 hl2 ⟨⟨?_, ?_⟩, Or.inr ⟨hstack2, hnone⟩, ?_⟩
    · rw [hpte2]
      simp
    · rw [hpte2]
      simp
    · intro k hk h1 h2 h3
      rw [hpte2, if_neg h2, if_neg h1]

/-- `proc_freepagetable` frees the whole address space. It panics unless the
space is well formed. -/
theorem wp_procFreepagetable {sz : ℕ} (h : AddrSpace L s T F R)
    (hcov : ∀ k, k < 2 ^ 27 → isValid (T.pte k) = true → isLeaf (T.pte k) = false → k < pages sz)
    (hE : (T.Formed (pages sz) ∧ sz + pgSize < usizeSize) ∨ ∀ e, E e)
    (hQ : ∀ s' F', Reclaimed s T.owned F s' F' → T.Formed (pages sz) → Q () s') :
    (procFreepagetable L T.root sz).wp E Q s := by
  refine wp_strip h (hE.imp_left fun hf => ⟨hf.1.trampoline, hf.1.trapframe⟩) ?_
  intro s' T' F' hm _ hl1 hl2 hst
  rw [← hm.root]
  refine wp_uvmfree hm.space ?_ ?_ fun s'' F'' hr hsmall himage hrest =>
    hQ s'' F'' (.of_moved hm hr) (hst.of_freed hsmall hl1 hl2 himage hrest)
  · intro k hk hv hnl
    rcases hst.pte hk with hz | heq
    · rw [hz] at hv
      exact absurd hv (by simp [isValid_zero])
    · rw [heq] at hv hnl
      exact hcov k hk hv hnl
  · refine hE.imp ?_ id
    rintro ⟨hf, hsz⟩
    obtain ⟨himage, hrest⟩ := hst.formed hf
    exact ⟨hsz, by have := hf.below; omega, himage, hrest⟩

end Free

/-- The two entries every address space starts with. -/
structure Tree.KernelOnly (L : Layout) (trapframe : ℕ) (T : Tree) : Prop where
  trampoline : T.pte (2 ^ 26 - 1) = leafWord L.trampolineStart (pteR ||| pteX)
  trapframe : T.pte (2 ^ 26 - 2) = leafWord trapframe (pteR ||| pteW)
  rest : ∀ k, k ≠ 2 ^ 26 - 1 → k ≠ 2 ^ 26 - 2 → T.pte k = 0

section Make

variable {L : Layout} {s : Ram} {T : Tree} {F : List ℕ} {R : Multiset ℕ} {E : Panic → Prop}

theorem Tree.KernelOnly.formed {trapframe : ℕ} (h : T.KernelOnly L trapframe) : T.Formed 0 where
  trampoline := by
    rw [h.trampoline, isLeaf_leafWord]
    decide
  trapframe := by
    rw [h.trapframe, isLeaf_leafWord]
    decide
  below := zero_le _
  image := fun k hk => absurd hk (not_lt_zero k)
  stack := by
    intro hv
    rw [h.rest _ (by omega) (by omega)] at hv
    exact absurd hv (by simp [isValid_zero])
  rest := by
    intro k _ _ h1 h2 _
    rw [h.rest k h1 h2]
    rfl

theorem wp_map_kernel {va pa flags : ℕ} (h : AddrSpace L s T F R) (hva : va % pgSize = 0)
    (hva' : va + 2 * pgSize < usizeSize) (hk : vpn va ∉ userSlots) (hpa : pa % pgSize = 0)
    (hpa' : pa < physTop) (hf : flags < 1024) {Q : Option Unit → Ram → Prop}
    (hfail : ∀ s' T' F', F.length < T.lack {vpn va} ∨ isValid (T.pte (vpn va)) = true →
      T'.pte = T.pte → Moved L R s T F s' T' F' → Q none s')
    (hmap : ∀ s' T' F', T.Tabled {vpn va} T' → F.length = F'.length + T.lack {vpn va} →
      T'.pte = update T.pte (vpn va) (leafWord pa flags) →
      Moved L R s T F s' T' F' → Q (some ()) s') :
    (mappages T.root va pgSize pa flags).wp E Q s := by
  refine wp_mapPage h hva hpa hpa' hf (fun hover => by omega) ?_ ?_ ?_
  · exact fun s' T' _ hg hshort => hfail s' T' [] (Or.inl hshort) hg.grow.pte hg.moved
  · exact fun s' T' F' _ hv hg => hfail s' T' F' (Or.inr hv) hg.grow.pte hg.moved
  · intro s' T' F' _ _ htab hlen hg hspace hagree
    refine hmap s' (T'.setPte (vpn va) (leafWord pa flags)) F' ⟨htab.l1, htab.l0⟩ hlen ?_
      ⟨hg.root, ?_, ?_, ?_⟩
    · simp only [Tree.setPte, hg.pte]
    · rw [Tree.owned_setPte_kernel hk]
      unfold Tree.owned
      rw [hg.mapped, add_right_comm, hg.pool, add_right_comm]
    · unfold AddrSpace
      rw [Tree.mapped_setPte_kernel hk, hg.mapped]
      exact hspace
    · refine hagree.mono ?_
      intro p hp
      unfold Tree.owned
      rw [add_right_comm]
      exact mem_add.mpr (Or.inl hp)

theorem flat_of_invalid (h : ∀ k, isValid (T.pte k) = false) : T.Flat := by
  intro k _ hv
  simp [h k] at hv

/-- A tree without entries is freed without a panic. -/
theorem wp_freewalk_blank (h : AddrSpace L s T F R) (hblank : ∀ k, T.pte k = 0)
    (hQ : ∀ s' F', Reclaimed s T.owned F s' F' → Q () s') :
    (freewalk L freewalkDepth T.root).wp E Q s := by
  have hinv : ∀ k, isValid (T.pte k) = false := by
    intro k
    rw [hblank k]
    rfl
  refine wp_freewalk_owned h (flat_of_invalid hinv) (Or.inl ?_) fun s' F' hr _ => hQ s' F' hr
  intro k _
  simp [isLeaf, hinv k]

/-- What `proc_pagetable` delivers: a new address space carved out of the free list. -/
structure Carved (L : Layout) (R : Multiset ℕ) (s : Ram) (F : List ℕ)
    (s' : Ram) (T : Tree) (F' : List ℕ) : Prop where
  pool : T.owned + (↑F' : Multiset ℕ) = ↑F
  space : AddrSpace L s' T F' R
  agree : AgreeOff ↑F s.mem s'.mem

theorem Carved.moved {s' s'' : Ram} {T' : Tree} {F' F'' : List ℕ} (h : Carved L R s F s' T F')
    (hm : Moved L R s' T F' s'' T' F'') : Carved L R s F s'' T' F'' :=
  ⟨hm.pool.trans h.pool, hm.space, h.agree.trans (h.pool ▸ hm.agree)⟩

theorem Carved.reclaimed {s' s'' : Ram} {F' F'' : List ℕ} (h : Carved L R s F s' T F')
    (hr : Reclaimed s' T.owned F' s'' F'') : Reclaimed s 0 F s'' F'' :=
  ⟨hr.free, by rw [hr.pool, h.pool, zero_add],
    by rw [zero_add]; exact h.agree.trans (h.pool ▸ hr.agree)⟩

theorem Pool.carve_empty {p hd : ℕ} (h : Pool L s (p :: F) R)
    (hF : FreeList (fill s.mem p pgSize 0) hd F) :
    Carved L R s (p :: F) { mem := fill s.mem p pgSize 0, head := hd } (Tree.empty p) F where
  pool := by
    unfold Tree.owned
    rw [Tree.tables_empty, Tree.mapped_empty, add_zero, ← cons_coe,
      ← singleton_add]
  space := h.empty_tree hF
  agree := by
    refine (agreeOff_fill s.mem p 0).mono ?_
    intro q hq
    rw [mem_singleton.mp hq]
    exact List.mem_cons_self

/-- The tables of a new page table: those of the two kernel entries. -/
def Tree.fresh : Tree where
  root := 0
  l1 := fun i => if i = 2 ^ 8 - 1 then some 0 else none
  l0 := fun q => if q = 2 ^ 17 - 1 then some 0 else none
  pte := fun _ => 0

theorem Tree.lack_empty (p : ℕ) : (Tree.empty p).lack {2 ^ 26 - 1} = 2 := by
  rw [Tree.lack_singleton]
  rfl

/-- The trapframe's entry needs no table that the trampoline's does not. -/
theorem Tree.Tabled.lack_trapframe {p : ℕ} (h : (Tree.empty p).Tabled {2 ^ 26 - 1} T) :
    T.lack {2 ^ 26 - 2} = 0 := by
  rw [Tree.lack_singleton, if_neg, if_neg]
  · rw [h.l0]
    simp
  · rw [h.l1]
    simp

theorem Tree.Tabled.fresh {T' : Tree} {p : ℕ} (h : (Tree.empty p).Tabled {2 ^ 26 - 1} T)
    (h' : T.Tabled {2 ^ 26 - 2} T') : Tree.fresh.Tabled ∅ T' where
  l1 i := by
    rw [h'.l1, h.l1]
    simp [Tree.fresh, Tree.empty]
  l0 q := by
    rw [h'.l0, h.l0]
    simp [Tree.fresh, Tree.empty]

/-- `proc_pagetable` never panics: it takes three pages for an address space
with the kernel entries, or gives every page back. -/
theorem wp_procPagetable {trapframe : ℕ} (h : Pool L s F R) (htf : Managed L trapframe)
    {Q : Option ℕ → Ram → Prop}
    (hnone : ∀ s' F', Reclaimed s 0 F s' F' → F.length < 3 → Q none s')
    (hsome : ∀ s' T F', Carved L R s F s' T F' → T.KernelOnly L trapframe →
      Tree.fresh.Tabled ∅ T → F.length = F'.length + 3 → Q (some T.root) s') :
    (procPagetable L trapframe).wp E Q s := by
  simp only [procPagetable, uvmcreate, wp_bind]
  refine wp_kallocZeroed (L := L) h.free h.free_nodup (fun p hp => h.free_managed hp) ?_ ?_
  · intro hF
    exact hnone s F ⟨h.free, (zero_add _).symm, AgreeOff.refl⟩ (by simp [hF])
  intro p F0 hd heq hF0
  subst heq
  have hc0 := h.carve_empty hF0
  have hL := L.kernelEnd_below
  have hL' := L.trampoline_below
  simp only [wp_bind]
  refine wp_map_kernel hc0.space (by decide) (by decide) trampoline_not_user L.trampoline_aligned
    (by omega) (by decide) ?_ ?_
  · intro s1 T1 F1 hshort hpte hm1
    have hroot : p = T1.root := hm1.root.symm
    simp only [wp_bind, wp_pure]
    rw [hroot]
    refine wp_freewalk_blank hm1.space (fun k => by rw [hpte]; rfl) ?_
    intro s2 F2 hr
    refine hnone s2 F2 ((hc0.moved hm1).reclaimed hr) ?_
    rw [vpn_trampoline, Tree.lack_empty] at hshort
    rcases hshort with hlt | hv
    · simp only [List.length_cons]
      omega
    · exact absurd hv (by simp [Tree.empty, isValid_zero])
  · intro s1 T1 F1 htab1 hlen1 hpte1 hm1
    have hroot : p = T1.root := hm1.root.symm
    simp only [wp_bind]
    rw [hroot]
    rw [vpn_trampoline] at htab1 hlen1
    rw [Tree.lack_empty] at hlen1
    have hpte1' : ∀ k, T1.pte k =
        if k = 2 ^ 26 - 1 then leafWord L.trampolineStart (pteR ||| pteX) else 0 := by
      intro k
      rw [hpte1, vpn_trampoline, update_apply]
      rfl
    refine wp_map_kernel hm1.space (by decide) (by decide) trapframe_not_user htf.aligned
      htf.below (by decide) ?_ ?_
    · -- the tables are there and the entry is free, so this map does not fail
      intro s2 T2 F2 hshort hpte2 hm2
      rw [vpn_trapframe, htab1.lack_trapframe, hpte1', if_neg (by omega), isValid_zero] at hshort
      exact absurd hshort (by simp)
    · intro s2 T2 F2 htab2 hlen2 hpte2 hm2
      rw [vpn_trapframe] at htab2 hlen2
      rw [htab1.lack_trapframe] at hlen2
      have hpte2' : ∀ k, T2.pte k =
          if k = 2 ^ 26 - 2 then leafWord trapframe (pteR ||| pteW) else T1.pte k := by
        intro k
        rw [hpte2, vpn_trapframe, update_apply]
      simp only [wp_pure]
      rw [← hm2.root]
      refine hsome s2 T2 F2 ((hc0.moved hm1).moved hm2) ⟨?_, ?_, ?_⟩ (htab1.fresh htab2)
        (by simp only [List.length_cons]; omega)
      · rw [hpte2', if_neg (by omega), hpte1', if_pos rfl]
      · rw [hpte2', if_pos rfl]
      · intro k h1 h2
        rw [hpte2', if_neg h2, hpte1', if_neg h1]

end Make

end ToyOs
