import ToyOs.Teardown
import Mathlib.Tactic.Abel

/-!
Building and destroying address spaces. A page taken from the free list is
held until it is mapped or freed again; `Taken` is that intermediate state.
`proc_pagetable` yields a tree with the two kernel entries only, and
`proc_freepagetable` returns every page of a well-formed address space.
-/
namespace ToyOs

open Bytes Multiset

/-- The free list beside a frame of further pages. -/
structure Pool (L : Layout) (s : Ram) (F : List ℕ) (R : Multiset ℕ) : Prop where
  free : FreeList s.mem s.head F
  nodup : (↑F + R).Nodup
  managed : ∀ p ∈ ↑F + R, Managed L p

section Pools

variable {L : Layout} {s : Ram} {T : Tree} {F : List ℕ} {R : Multiset ℕ} {E : Panic → Prop}

theorem Space.toPool (h : Space L s T F R) : Pool L s F (T.tables + R) := by
  have heq : ↑F + (T.tables + R) = T.tables + ↑F + R := by
    rw [← add_assoc, add_comm (↑F : Multiset ℕ)]
  exact ⟨h.free, heq ▸ h.nodup, heq ▸ h.managed⟩

theorem Pool.free_managed (h : Pool L s F R) {p : ℕ} (hp : p ∈ F) : Managed L p :=
  h.managed p (mem_add.mpr (Or.inl hp))

theorem Pool.free_nodup (h : Pool L s F R) : F.Nodup :=
  coe_nodup.mp (nodup_add.mp h.nodup).1

/-- Writing to pages of the frame keeps the tree and the free list. -/
theorem Space.write_frame (h : Space L s T F R) {P : Multiset ℕ} {m : Store}
    (hP : ∀ p ∈ P, p ∈ R) (hm : AgreeOff P s.mem m) : Space L { s with mem := m } T F R where
  rep := h.rep.congr (L := L) hm (fun p hp => h.frame_managed (hP p hp))
    (fun _ hp => h.table_managed hp) fun p hp hp' => h.table_not_frame hp (hP p hp')
  free := h.free.congr (L := L) hm (fun p hp => h.frame_managed (hP p hp))
    (fun _ hp => h.free_managed hp) fun p hp hp' => h.free_not_frame hp (hP p hp')
  nodup := h.nodup
  managed := h.managed

/-- A tree that is nothing but a cleared root. -/
def Tree.empty (p : ℕ) : Tree where
  root := p
  l1 := fun _ => none
  l0 := fun _ => none
  pte := fun _ => 0

theorem Tree.tables_empty (p : ℕ) : (Tree.empty p).tables = {p} := by
  simp [Tree.tables, Tree.empty]

theorem Tree.mapped_of_invalid {T : Tree}
    (h : ∀ k, k ∈ userSlots → isValid (T.pte k) = false) : T.mapped = 0 :=
  Finset.sum_eq_zero fun k hk => entryPage_invalid (h k hk)

theorem Tree.mapped_empty (p : ℕ) : (Tree.empty p).mapped = 0 :=
  Tree.mapped_of_invalid fun _ _ => isValid_zero

theorem Pool.empty_tree {p hd : ℕ} (h : Pool L s (p :: F) R)
    (hF : FreeList (fill s.mem p pgSize 0) hd F) :
    AddrSpace L { mem := fill s.mem p pgSize 0, head := hd } (Tree.empty p) F R := by
  have hpool : (Tree.empty p).tables + ↑F + ((Tree.empty p).mapped + R) = ↑(p :: F) + R := by
    rw [Tree.tables_empty, Tree.mapped_empty, zero_add, ← cons_coe,
      ← singleton_add]
  refine ⟨⟨?_, ?_, ?_, fun _ _ _ => rfl, fun _ _ _ => rfl⟩, hF, hpool ▸ h.nodup, hpool ▸ h.managed⟩
  · intro i hi
    have hroot : (Tree.empty p).root = p := rfl
    rw [hroot]
    exact load_fill_zero 8 s.mem p pgSize _ (Nat.le_add_right p _) (by unfold pgSize; omega)
  · intro q _ t ht
    exact absurd ht (by simp [Tree.empty])
  · intro k _ u hu
    exact absurd hu (by simp [Tree.empty])

end Pools

/-- Page `pa` was taken from the free list and may have been written to. -/
structure Taken (L : Layout) (R : Multiset ℕ) (s : Ram) (T : Tree) (F : List ℕ)
    (s' : Ram) (pa : ℕ) (F' : List ℕ) : Prop where
  list : F = pa :: F'
  space : AddrSpace L s' T F' ({pa} + R)
  agree : AgreeOff ↑F s.mem s'.mem

/-- Only tables and free pages were written to, and no other page has become
one of them. -/
structure Kept (s : Ram) (T : Tree) (F : List ℕ) (s' : Ram) (T' : Tree) (F' : List ℕ) : Prop where
  agree : AgreeOff (T.tables + ↑F) s.mem s'.mem
  sub : ∀ p ∈ T'.tables + (↑F' : Multiset ℕ), p ∈ T.tables + (↑F : Multiset ℕ)

/-- Pages were mapped at the entries `V`: the free list has lost one page for
each and one for each table that was missing. -/
structure Paid (T : Tree) (F : List ℕ) (V : Finset ℕ) (T' : Tree) (F' : List ℕ) : Prop where
  tabled : T.Tabled V T'
  count : F.length = F'.length + T.need V

section Takes

variable {L : Layout} {s s' : Ram} {T : Tree} {F F' : List ℕ} {R : Multiset ℕ} {E : Panic → Prop}
  {pa : ℕ}

theorem wp_kallocZeroed_taken (h : AddrSpace L s T F R) {Q : Option ℕ → Ram → Prop}
    (hnone : F = [] → Q none s)
    (hsome : ∀ pa F' s', Taken L R s T F s' pa F' →
      (∀ x, pa ≤ x → x < pa + pgSize → s'.mem x = 0) → Q (some pa) s') :
    kallocZeroed.wp E Q s := by
  refine wp_kallocZeroed (L := L) h.free h.free_nodup (fun p hp => h.free_managed hp) hnone ?_
  intro pa F' hd heq hF'
  have hagree : AgreeOff (↑F : Multiset ℕ) s.mem (fill s.mem pa pgSize 0) := by
    refine (agreeOff_fill s.mem pa 0).mono ?_
    intro p hp
    rw [mem_singleton.mp hp, heq]
    exact List.mem_cons_self
  refine hsome pa F' _ ⟨heq, ?_, hagree⟩ fun x h1 h2 => fill_inside h1 h2
  refine Space.of_pool_eq h ?_ ?_ hF'
  · rw [heq, ← pool_cons, add_left_comm T.mapped, ← add_assoc, add_right_comm T.tables]
  · refine h.rep.congr (L := L) hagree (fun p hp => h.free_managed hp)
      (fun p hp => h.table_managed hp) fun p hp hp' => h.table_not_free hp hp'

theorem Taken.managed (h : Taken L R s T F s' pa F') : Managed L pa :=
  h.space.frame_managed (by simp)

theorem Taken.write (h : Taken L R s T F s' pa F') {m : Store} (hm : AgreeOff {pa} s'.mem m) :
    Taken L R s T F { s' with mem := m } pa F' where
  list := h.list
  space := by
    refine Space.write_frame h.space (P := {pa}) ?_ hm
    intro p hp
    rw [mem_singleton.mp hp]
    simp
  agree := by
    refine h.agree.trans (hm.mono ?_)
    intro p hp
    rw [mem_singleton.mp hp, h.list]
    exact List.mem_cons_self

theorem taken_pool (h : F = pa :: F') (A : Multiset ℕ) :
    A + (↑F : Multiset ℕ) = A + ↑F' + {pa} := by
  rw [h, ← cons_coe, ← singleton_add]
  abel

theorem Taken.freed {s'' : Ram} {T'' : Tree} {F'' : List ℕ} (h : Taken L R s T F s' pa F')
    (hm : Moved L ({pa} + R) s' T F' s'' T'' F'') :
    Moved L R s T F (s''.freePage pa) T'' (pa :: F'') where
  root := hm.root
  pool := by
    rw [taken_pool h.list, ← hm.pool, taken_pool rfl]
  space := Space.freePage hm.space (by rw [add_left_comm])
  agree := by
    have hsub : ∀ p ∈ T.owned + (↑F' : Multiset ℕ), p ∈ T.owned + (↑F : Multiset ℕ) := by
      intro p hp
      rw [taken_pool h.list]
      exact mem_add.mpr (Or.inl hp)
    refine (h.agree.mono fun p hp => mem_add.mpr (Or.inr hp)).trans
      ((hm.agree.mono hsub).trans ((agreeOff_freePage s'' pa).mono ?_))
    intro p hp
    rw [taken_pool h.list]
    exact mem_add.mpr (Or.inr hp)

theorem Paid.refl (T : Tree) (F : List ℕ) : Paid T F ∅ T F :=
  ⟨Tree.Tabled.refl T, by simp [Tree.need, Tree.lack]⟩

theorem Paid.need_union {T' : Tree} {V W : Finset ℕ} (h : Paid T F V T' F') (hd : Disjoint V W) :
    T.need (V ∪ W) = T.need V + T'.need W := by
  unfold Tree.need
  rw [Finset.card_union_of_disjoint hd, h.tabled.lack_union]
  omega

theorem Paid.trans {T' T'' : Tree} {F'' : List ℕ} {V W : Finset ℕ} (h : Paid T F V T' F')
    (h' : Paid T' F' W T'' F'') (hd : Disjoint V W) : Paid T F (V ∪ W) T'' F'' where
  tabled := h.tabled.trans h'.tabled
  count := by rw [h.count, h'.count, h.need_union hd]; omega

/-- One page takes three pages at most. -/
theorem Paid.le {T' : Tree} {k : ℕ} (h : Paid T F {k} T' F') : F.length ≤ F'.length + 3 := by
  have := T.need_le k
  rw [h.count]
  omega

theorem Kept.refl (s : Ram) (T : Tree) (F : List ℕ) : Kept s T F s T F :=
  ⟨AgreeOff.refl, fun _ hp => hp⟩

theorem Kept.trans {s'' : Ram} {T' T'' : Tree} {F'' : List ℕ} (h : Kept s T F s' T' F')
    (h' : Kept s' T' F' s'' T'' F'') : Kept s T F s'' T'' F'' :=
  ⟨h.agree.trans (h'.agree.mono h.sub), fun p hp => h.sub p (h'.sub p hp)⟩

theorem Taken.kept (h : Taken L R s T F s' pa F') : Kept s T F s' T F' where
  agree := h.agree.mono fun p hp => mem_add.mpr (Or.inr hp)
  sub := by
    intro p hp
    rw [taken_pool h.list]
    exact mem_add.mpr (Or.inl hp)

/-- Mapping the page that was taken at a user address. -/
theorem Taken.wp_map {va flags : ℕ} (h : Taken L R s T F s' pa F') (hva : va % pgSize = 0)
    (hf : flags < 1024) {Q : Option Unit → Ram → Prop}
    (huser : isValid (T.pte (vpn va)) = false → vpn va ∈ userSlots)
    (hover : usizeSize ≤ va + 2 * pgSize → E .overflow)
    (hfail : ∀ s'' T'' F'', va + 2 * pgSize < usizeSize →
      F.length < T.need {vpn va} ∨ isValid (T.pte (vpn va)) = true → T''.pte = T.pte →
      Moved L R s T F (s''.freePage pa) T'' (pa :: F'') → Q none s'')
    (hmap : ∀ s'' T'' F'', isValid (T.pte (vpn va)) = false → va + 2 * pgSize < usizeSize →
      Paid T F {vpn va} T'' F'' → T''.pte = Function.update T.pte (vpn va) (leafWord pa flags) →
      Moved L R s T F s'' T'' F'' → Kept s' T F' s'' T'' F'' → Q (some ()) s'') :
    (mappages T.root va pgSize pa flags).wp E Q s' := by
  have hpa := h.managed
  have hlen : F.length = F'.length + 1 := by rw [h.list, List.length_cons]
  refine wp_mapPage h.space hva hpa.aligned hpa.below hf hover ?_ ?_ ?_
  · intro s'' T'' hsz hg hshort
    exact hfail s'' T'' [] hsz (Or.inl (by rw [Tree.need_singleton]; omega)) hg.grow.pte (h.freed hg.moved)
  · intro s'' T'' F'' hsz hv hg
    exact hfail s'' T'' F'' hsz (Or.inr hv) hg.grow.pte (h.freed hg.moved)
  · intro s'' T'' F'' hinv hsz htab hleft hg hspace hagree
    have hk := huser hinv
    have hpte : ptePa (leafWord pa flags) = pa :=
      ptePa_leafWord hpa.aligned (by have := hpa.lt; omega) hf
    have htrade := Tree.mapped_setPte (T := T'') hk (leafWord pa flags)
    rw [hg.pte, entryPage_invalid hinv, entryPage_valid (isValid_leafWord pa flags), hpte, add_zero,
      hg.mapped] at htrade
    have hpool : (T''.setPte (vpn va) (leafWord pa flags)).owned + (↑F'' : Multiset ℕ) =
        T.owned + ↑F := by
      unfold Tree.owned
      rw [taken_pool h.list, htrade, Tree.tables_setPte, add_right_comm T''.tables, hg.pool]
      abel
    refine hmap s'' (T''.setPte (vpn va) (leafWord pa flags)) F'' hinv hsz
      ⟨⟨htab.l1, htab.l0⟩, by rw [Tree.need_singleton]; omega⟩ ?_ ⟨hg.root, hpool, ?_, ?_⟩ ⟨hagree, ?_⟩
    · simp only [Tree.setPte, hg.pte]
    · unfold AddrSpace
      rw [htrade, add_assoc]
      exact hspace
    · refine (h.agree.mono fun p hp => mem_add.mpr (Or.inr hp)).trans (hagree.mono ?_)
      intro p hp
      rw [taken_pool h.list]
      refine mem_add.mpr (Or.inl ?_)
      rcases mem_add.mp hp with hp' | hp'
      · exact mem_add.mpr (Or.inl (mem_add.mpr (Or.inl hp')))
      · exact mem_add.mpr (Or.inr hp')
    · intro p hp
      rwa [Tree.tables_setPte, hg.pool] at hp

end Takes

end ToyOs
