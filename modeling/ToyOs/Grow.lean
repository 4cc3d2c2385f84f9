import ToyOs.LoadSegment
import ToyOs.Filled
import Mathlib.Order.Interval.Finset.Nat

/-!
Growing an image, `uvmalloc`. The new range is treated as a segment without
file data, so the invariant of the segment loop is reused. A free list that
runs dry between two pages makes `uvmalloc` leave with the pages it has mapped
so far, above the size that `sbrk` keeps.
-/
namespace ToyOs

open Prog Nat

/-- The range `uvmalloc` maps, as a segment without file data. -/
def growth (a0 n : ℕ) : Phdr where
  typ := ptLoad
  flags := pfR ||| pfW
  offset := 0
  vaddr := a0
  filesz := 0
  memsz := n * pgSize

theorem growth_perm (a0 n : ℕ) : (growth a0 n).perm = pteU ||| pteR ||| pteW := by
  simp [Phdr.perm, growth, pfR, pfW, pfX]

theorem growth_leaf (a0 n : ℕ) : (growth a0 n).leaf = true := by
  simp only [Phdr.leaf, growth_perm]
  decide

theorem growth_chunk (a0 n : ℕ) (content : List UInt8) (j : ℕ) :
    (growth a0 n).chunk content j := fun h => absurd h (not_lt_zero _)

/-- The pages that `uvmalloc` has mapped are zero, and the others are as they were. -/
abbrev GrowData (a0 total : ℕ) (s0 : Ram) (T0 : Tree) (F0 : List ℕ) (s : Ram) (T : Tree) (F : List ℕ)
    (n : ℕ) : Prop :=
  Filled s0 T0 F0 s T F (growth a0 total).slot (fun _ _ => 0) n

/-- Memory runs dry between two pages of a request: the `free` pages are just
enough for the first of them and the tables these lack. -/
def RunsDry (T : Tree) (free oldsz newsz : ℕ) : Prop :=
  ∃ j, 0 < j ∧ j < pages newsz - pages oldsz ∧
    free = T.need (Finset.Ico (pages oldsz) (pages oldsz + j))

section Growth

variable {L : Layout} {R : Multiset ℕ} {s0 s : Ram} {T0 T : Tree} {F0 F : List ℕ} {E : Panic → Prop}
  {tf a0 total n m p oldsz newsz : ℕ} {Q : Option Unit → Ram → Prop}

theorem pages_le_stack {n : ℕ} (h : n ≤ userStack) : pages n ≤ 2 ^ 26 - 3 := by
  unfold pages
  unfold userStack maxVa pgSize at *
  omega

theorem addUsize_apply {σ : Type} {a b : ℕ} (h : a + b < usizeSize) :
    (addUsize a b : Prog Panic σ ℕ) = pure (a + b) := by
  unfold addUsize
  rw [if_pos h]

theorem growth_slot {j : ℕ} (hj : a0 / pgSize + j < 2 ^ 27) :
    (growth a0 total).slot j = a0 / pgSize + j := by
  have hslot : (growth a0 total).slot j = vpn (a0 + j * pgSize) := rfl
  rw [hslot, vpn, add_mul_div_right _ _ (by decide), mod_eq_of_lt hj]

theorem Ico_add_one (p m : ℕ) : Finset.Ico p (p + (m + 1)) = Finset.Ico p (p + m) ∪ {p + m} := by
  ext k
  simp only [Finset.mem_union, Finset.mem_Ico, Finset.mem_singleton]
  omega

/-- More pages take more memory. -/
theorem Tree.need_lt (T : Tree) (p : ℕ) (h : m < n) :
    T.need (Finset.Ico p (p + m)) < T.need (Finset.Ico p (p + n)) := by
  have hsub : Finset.Ico p (p + m) ⊆ Finset.Ico p (p + n) := Finset.Ico_subset_Ico_right (by omega)
  have hlack := T.lack_mono hsub
  unfold Tree.need
  rw [card_Ico, card_Ico]
  omega

theorem Tree.need_le_of_le (T : Tree) (p : ℕ) (h : m ≤ n) :
    T.need (Finset.Ico p (p + m)) ≤ T.need (Finset.Ico p (p + n)) :=
  T.need_mono (Finset.Ico_subset_Ico_right (by omega))

/-- The loop of `uvmalloc` with `m` pages mapped. It ends with all pages; with
none, at a page for which there is memory but not for its tables or whose
entry is taken; or with the pages that used up the memory. -/
theorem wp_uvmallocLoop (h : SegInv L R (growth a0 total) [] s0 T0 F0 s T F m)
    (hdata : GrowData a0 total s0 T0 F0 s T F m) (hpaid : Paid T0 F0 (Finset.Ico p (p + m)) T F)
    (hk : T0.Fixed L tf) (ha : a0 % pgSize = 0)
    (hbound : a0 + (m + n) * pgSize + 2 * pgSize < usizeSize)
    (hslot : ∀ j, j < m + n → (growth a0 total).slot j = p + j)
    (hfail : ∀ s' T' F' i, i < m + n → (T0.need (Finset.Ico p (p + i)) < F0.length ∧
        F0.length < T0.need (Finset.Ico p (p + (i + 1)))) ∨ isValid (T0.pte (p + i)) = true →
      Moved L R s0 T0 F0 s' T' F' → T0.SameEntries T' → Q none s')
    (hshort : ∀ s' T' i, i < m + n → F0.length = T0.need (Finset.Ico p (p + i)) →
      SegInv L R (growth a0 total) [] s0 T0 F0 s' T' [] i → Q none s')
    (hdone : ∀ s' T' F', Paid T0 F0 (Finset.Ico p (p + (m + n))) T' F' →
      SegInv L R (growth a0 total) [] s0 T0 F0 s' T' F' (m + n) →
      GrowData a0 total s0 T0 F0 s' T' F' (m + n) → Q (some ()) s') :
    (uvmallocLoop L T.root a0 n (a0 + m * pgSize)).wp E Q s := by
  induction n generalizing s T F m with
  | zero => exact hdone s T F hpaid h hdata
  | succ n ih =>
    have hpg : 0 < pgSize := by decide
    have hmul : (m + (n + 1)) * pgSize = m * pgSize + n * pgSize + pgSize := by ring
    have hnext : a0 + m * pgSize + pgSize = a0 + (m + 1) * pgSize := by ring
    have hlen : m + 1 + n = m + (n + 1) := by omega
    have hm := hslot m (by omega)
    have hvpn : vpn (a0 + m * pgSize) = p + m := hm
    have hcount := hpaid.count
    simp only [uvmallocLoop, wp_bind]
    refine wp_kallocZeroed_taken h.moved.space ?_ ?_
    · intro hnil
      rw [hnil, List.length_nil, Nat.zero_add] at hcount
      exact hshort s T m (by omega) hcount (hnil ▸ h)
    intro pa F1 s1 htaken hzero
    have hlen1 : F.length = F1.length + 1 := by rw [htaken.list, List.length_cons]
    simp only [wp_bind]
    refine htaken.wp_map ?_ (by decide) ?_ (fun hover => absurd hover (by omega)) ?_ ?_
    · rw [Nat.add_mul_mod_self_right]
      exact ha
    · exact fun hinv => hk.user (vpn_lt _) (h.fresh_slot hinv).2
    · -- the page is given back, and so are those before it
      intro s2 T2 F2 _ hwhy hpte hm2
      rw [hvpn] at hwhy
      have hstop : (T0.need (Finset.Ico p (p + m)) < F0.length ∧
          F0.length < T0.need (Finset.Ico p (p + (m + 1)))) ∨ isValid (T0.pte (p + m)) = true := by
        refine hwhy.imp (fun hlt => ⟨by omega, ?_⟩) fun hv => ?_
        · rw [Ico_add_one, hpaid.need_union (by simp)]
          omega
        · rw [← h.other (p + m) fun j hj heq => ?_]
          · exact hv
          · rw [hslot j (by omega)] at heq
            omega
      have hundo := (h.move hm2 hpte).wp_unmapSegment (E := E) (Q := fun _ s' => Q none s') hk ha
        (Or.inl (growth_leaf a0 total)) fun s' T' F' _ => hfail s' T' F' m (by omega) hstop
      simp only [wp_bind, wp_pure, wp_ite]
      refine wp_of_ok (kfree_apply htaken.managed s2) ?_
      have hpages : (a0 + m * pgSize - a0) / pgSize = m := by
        rw [Nat.add_sub_cancel_left, Nat.mul_div_cancel _ hpg]
      rw [hm2.root] at hundo
      unfold unmapSegment at hundo
      rw [wp_ite] at hundo
      rw [hpages]
      refine ⟨fun hlt => hundo.1 ?_, fun hle => hundo.2 ?_⟩
      · exact Nat.pos_of_ne_zero fun h0 => by simp [h0] at hlt
      · intro hpos
        have := Nat.mul_le_mul_right pgSize hpos
        omega
    · intro s2 T2 F2 hinv hb hpaid2 hpte hm2 hkept
      rw [← growth_perm a0 total] at hpte
      have hfill := hdata.step h.moved.space htaken hkept hpte ((growth a0 total).perm_lt)
        (fun j hj => ⟨(h.fresh_slot hinv).1 j hj, hk.user (vpn_lt _) (h.fresh j hj), h.valid j hj⟩)
        fun off hoff => hzero _ (Nat.le_add_right _ _) (by omega)
      rw [hvpn] at hpaid2
      simp only [wp_bind, wp_addUsize]
      refine ⟨fun _ => ?_, fun hover => absurd hover (by omega)⟩
      rw [← hm2.root, hnext]
      refine ih (h.step hinv hb (growth_chunk a0 total [] m) hpte hm2) hfill ?_ (by rw [hlen]; exact hbound)
        (fun j hj => hslot j (by omega)) (fun s' T' F' i hi => hfail s' T' F' i (by omega))
        (fun s' T' i hi => hshort s' T' i (by omega)) ?_
      · rw [Ico_add_one]
        exact hpaid.trans hpaid2 (by simp)
      · rw [hlen]
        exact hdone

/-- `uvmalloc` maps the pages from the old size up to the new one. -/
theorem uvmalloc_eq (pt : ℕ) (hle : oldsz ≤ newsz) (hnew : newsz ≤ userStack) :
    uvmalloc L pt oldsz newsz = uvmallocLoop L pt (pages oldsz * pgSize)
      (pages newsz - pages oldsz) (pages oldsz * pgSize) := by
  have hround : ∀ {x : ℕ}, x ≤ userStack → (pageRoundUp x : RamM ℕ) = pure (pages x * pgSize) := by
    intro x hx
    have hsmall : x + pgSize < usizeSize := lt_of_le_of_lt (Nat.add_le_add_right hx _) (by decide)
    unfold pageRoundUp
    rw [addUsize_apply hsmall, Prog.pure_bind]
    rfl
  have hcount : (pages newsz * pgSize - pages oldsz * pgSize) / pgSize =
      pages newsz - pages oldsz := by
    rw [← Nat.sub_mul, Nat.mul_div_cancel _ (by decide)]
  rw [uvmalloc, hround (hle.trans hnew), hround hnew, Prog.pure_bind, Prog.pure_bind, hcount]

/-- `uvmalloc` never panics below the stack. It leaves pages behind exactly
when memory runs dry between two of them. -/
theorem wp_uvmalloc (h : AddrSpace L s T F R) (hk : T.Fixed L tf) (hle : oldsz ≤ newsz)
    (hnew : newsz ≤ userStack)
    (hfail : ∀ s' T' F', ¬ RunsDry T F.length oldsz newsz ∧
          F.length < T.need (Finset.Ico (pages oldsz) (pages newsz)) ∨
        (∃ j, pages oldsz ≤ j ∧ j < pages newsz ∧ isValid (T.pte j) = true) →
      Moved L R s T F s' T' F' → T.SameEntries T' → Q none s')
    (hshort : ∀ s' T' i, 0 < i →
      SegInv L R (growth (pages oldsz * pgSize) (pages newsz - pages oldsz)) [] s T F s' T' [] i →
      RunsDry T F.length oldsz newsz → Q none s')
    (hdone : ∀ s' T' F', ¬ RunsDry T F.length oldsz newsz →
      SegInv L R (growth (pages oldsz * pgSize) (pages newsz - pages oldsz)) [] s T F s' T' F'
        (pages newsz - pages oldsz) →
      GrowData (pages oldsz * pgSize) (pages newsz - pages oldsz) s T F s' T' F'
        (pages newsz - pages oldsz) → Q (some ()) s') :
    (uvmalloc L T.root oldsz newsz).wp E Q s := by
  have hmono : pages oldsz ≤ pages newsz := Nat.div_le_div_right (by omega)
  have hround : pages newsz * pgSize < newsz + pgSize := by
    unfold pages pgSize
    omega
  have hsmall : newsz + 4 * pgSize < usizeSize :=
    lt_of_le_of_lt (Nat.add_le_add_right hnew _) (by decide)
  have htop := pages_le_stack hnew
  have hdiv : pages oldsz * pgSize / pgSize = pages oldsz := Nat.mul_div_cancel _ (by decide)
  have hsplit : pages oldsz * pgSize + (0 + (pages newsz - pages oldsz)) * pgSize =
      pages newsz * pgSize := by
    rw [Nat.zero_add, ← Nat.add_mul, Nat.add_sub_cancel' hmono]
  have hall : pages oldsz + (pages newsz - pages oldsz) = pages newsz := Nat.add_sub_cancel' hmono
  have hrun := wp_uvmallocLoop (E := E) (n := pages newsz - pages oldsz) (p := pages oldsz) (Q := Q)
    (SegInv.init h : SegInv L R (growth (pages oldsz * pgSize) (pages newsz - pages oldsz)) []
      s T F s T F 0) (Filled.init s T F _ _) (by simpa using Paid.refl T F) hk (Nat.mul_mod_left _ _)
    (by rw [hsplit]; omega) (fun j hj => by rw [growth_slot (by omega), hdiv]) ?_ ?_ ?_
  · rw [Nat.zero_mul, Nat.add_zero] at hrun
    rw [uvmalloc_eq _ hle hnew]
    exact hrun
  · intro s' T' F' i hi hwhy
    refine hfail s' T' F' (hwhy.imp ?_ fun hv => ⟨pages oldsz + i, by omega, by omega, hv⟩)
    rintro ⟨hlt, hgt⟩
    refine ⟨?_, ?_⟩
    · rintro ⟨j, -, -, heq⟩
      by_cases hj : j ≤ i
      · have := T.need_le_of_le (pages oldsz) hj
        omega
      · have := T.need_le_of_le (pages oldsz) (by omega : i + 1 ≤ j)
        omega
    · rw [← hall]
      exact lt_of_lt_of_le hgt (T.need_le_of_le (pages oldsz) (by omega))
  · intro s' T' i hi heq hseg
    by_cases hi0 : i = 0
    · subst hi0
      refine hfail s' T' [] (Or.inl ⟨?_, ?_⟩) hseg.moved fun n _ => Or.inl ?_
      · rintro ⟨j, hj, -, heq'⟩
        have := T.need_lt (pages oldsz) hj
        omega
      · rw [heq, ← hall]
        exact T.need_lt (pages oldsz) (by omega)
      · exact hseg.other n fun m hm => absurd hm (Nat.not_lt_zero m)
    · exact hshort s' T' i (Nat.pos_of_ne_zero hi0) hseg ⟨i, by omega, by omega, heq⟩
  · rw [Nat.zero_add]
    intro s' T' F' hpaid hseg hdata
    refine hdone s' T' F' ?_ hseg hdata
    rintro ⟨j, -, hj, heq⟩
    have hcount := hpaid.count
    have := T.need_lt (pages oldsz) hj
    omega

end Growth

end ToyOs
