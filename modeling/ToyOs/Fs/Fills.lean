import ToyOs.Fs.BlockMap

/-!
The blocks that a change of an inode takes, counted exactly. A range of bytes
goes through the positions of its logical blocks and, past the direct ones,
through the indirect block; the positions among them that are empty are what
a write has to fill. A write that finds enough free blocks fills all of them
and one that does not uses up the disk, the addresses of the inode first.
-/
namespace ToyOs.Fs

open Bytes Finset

variable {V V' V'' : Vol} {ip ip' ip'' : Inode} {P P' : Finset ℕ} {a b m p : ℕ}

/-- The bytes from `a` to `b` need the block at position `p`. -/
def Touches (a b p : ℕ) : Prop :=
  a < b ∧ (p < maxfile ∧ p * bsize < b ∧ a < (p + 1) * bsize ∨
    p = maxfile ∧ ndirect * bsize < b)

instance (a b p : ℕ) : Decidable (Touches a b p) := inferInstanceAs (Decidable (_ ∧ _))

/-- The empty positions that the bytes from `a` to `b` need. -/
def Vol.missing (V : Vol) (ip : Inode) (a b : ℕ) : Finset ℕ :=
  (Finset.range (maxfile + 1)).filter fun p => Touches a b p ∧ V.addr ip p = 0

theorem Vol.mem_missing : p ∈ V.missing ip a b ↔ Touches a b p ∧ V.addr ip p = 0 := by
  rw [Vol.missing, mem_filter, mem_range]
  refine ⟨And.right, fun h => ⟨?_, h⟩⟩
  rcases h.1.2 with ⟨hp, -⟩ | ⟨hp, -⟩ <;> omega

theorem Vol.missing_empty (h : b ≤ a) : V.missing ip a b = ∅ := by
  apply eq_empty_of_forall_notMem
  intro p hp
  have := (Vol.mem_missing.mp hp).1.1
  omega

/-- The positions that are addresses of the inode itself. -/
def IsSlot (p : ℕ) : Prop := p < ndirect ∨ p = maxfile

/-- A block taken from the bitmap is one free block less. -/
theorem Vol.free_update (hb : IsData b) (hfree : V.used b = false)
    (hused : V'.used = Function.update V.used b true) : V'.free + 1 = V.free := by
  have hset : (Finset.Ico datastart fssize).filter (fun a => V'.used a = false) =
      ((Finset.Ico datastart fssize).filter fun a => V.used a = false).erase b := by
    ext a
    simp only [mem_filter, mem_erase, hused]
    by_cases hab : a = b
    · simp [hab]
    · simp [hab]
  have hmem : b ∈ (Finset.Ico datastart fssize).filter fun a => V.used a = false :=
    mem_filter.mpr ⟨mem_Ico.mpr hb, hfree⟩
  have hpos := card_pos.mpr ⟨b, hmem⟩
  have hcard := card_erase_of_mem hmem
  rw [← hset] at hcard
  unfold Vol.free
  omega

theorem Vol.full_iff : V.Full ↔ V.free = 0 := by
  rw [Vol.free, card_eq_zero, filter_eq_empty_iff]
  constructor
  · intro h b hb
    rw [h b (mem_Ico.mp hb)]
    decide
  · intro h b hb
    simpa using h (mem_Ico.mpr hb)

/-- An inode grew by one block at each of the positions `P`, and at no other. -/
structure Fills (P : Finset ℕ) (V : Vol) (ip : Inode) (V' : Vol) (ip' : Inode) : Prop where
  grows : Grows P.card V ip V' ip'
  empty : ∀ p ∈ P, V.addr ip p = 0
  addr : ∀ p, V'.addr ip' p = 0 ↔ V.addr ip p = 0 ∧ p ∉ P
  used : ∀ b, V'.used b = true ↔ V.used b = true ∨ ∃ p ∈ P, V'.addr ip' p = b
  free : V'.free + P.card = V.free

namespace Fills

/-- A change of nothing but the content of the inode's own blocks. -/
theorem of_used (hg : Grows 0 V ip V' ip') (haddr : ∀ p, V'.addr ip' p = V.addr ip p)
    (hused : V'.used = V.used) : Fills ∅ V ip V' ip' where
  grows := hg
  empty := by simp
  addr := by simp [haddr]
  used := by simp [hused]
  free := by simp [Vol.free, hused]

theorem refl (h : V.Owns ip) : Fills ∅ V ip V ip := of_used (Grows.refl h) (fun _ => rfl) rfl

theorem disjoint (h : Fills P V ip V' ip') (h' : Fills P' V' ip' V'' ip'') : Disjoint P P' := by
  rw [disjoint_left]
  intro p hp hp'
  exact ((h.addr p).mp (h'.empty p hp')).2 hp

theorem trans (hd : ∀ b, V.used b = true → b ≠ 0) (h : Fills P V ip V' ip')
    (h' : Fills P' V' ip' V'' ip'') : Fills (P ∪ P') V ip V'' ip'' := by
  have hcard := card_union_of_disjoint (h.disjoint h')
  refine ⟨?_, ?_, ?_, ?_, ?_⟩
  · rw [hcard]
    exact h.grows.trans hd h'.grows
  · intro p hp
    rcases mem_union.mp hp with hp | hp
    · exact h.empty p hp
    · exact ((h.addr p).mp (h'.empty p hp)).1
  · intro p
    rw [h'.addr, h.addr, mem_union, not_or, and_assoc]
  · intro b
    rw [h'.used, h.used, or_assoc]
    apply or_congr_right
    constructor
    · rintro (⟨p, hp, hpb⟩ | ⟨p, hp, hpb⟩)
      · refine ⟨p, mem_union_left _ hp, ?_⟩
        rw [h'.grows.kept p fun h0 => ((h.addr p).mp h0).2 hp, hpb]
      · exact ⟨p, mem_union_right _ hp, hpb⟩
    · rintro ⟨p, hp, hpb⟩
      rcases mem_union.mp hp with hp | hp
      · refine Or.inl ⟨p, hp, ?_⟩
        rw [← h'.grows.kept p fun h0 => ((h.addr p).mp h0).2 hp, hpb]
      · exact Or.inr ⟨p, hp, hpb⟩
  · rw [hcard]
    have h1 := h.free
    have h2 := h'.free
    omega

/-- Filling nothing leaves the bitmap. -/
theorem used_eq (h : Fills ∅ V ip V' ip') : V'.used = V.used := by
  funext b
  have hb := h.used b
  simp only [notMem_empty, false_and, exists_false, or_false] at hb
  exact Bool.eq_iff_iff.mpr hb

/-- Without a slot among the positions the addresses of the inode stay. -/
theorem addrs_eq (h : Fills P V ip V' ip') (hP : ∀ p ∈ P, ¬ IsSlot p) : ip'.addrs = ip.addrs := by
  funext k
  obtain ⟨p, hp, hk⟩ := V.addrs_eq ip k
  have hp' : V'.addr ip' p = ip'.addrs k := by
    rcases hk with ⟨rfl, hlt⟩ | ⟨rfl, rfl⟩
    · rw [V'.addr_direct ip' hlt]
    · rw [V'.addr_table]
  have hslot : IsSlot p := by
    rcases hk with ⟨rfl, hlt⟩ | ⟨rfl, -⟩
    · exact Or.inl hlt
    · exact Or.inr rfl
  rw [← hp', ← hp]
  by_cases h0 : V.addr ip p = 0
  · rw [h0, (h.addr p).mpr ⟨h0, fun hmem => hP p hmem hslot⟩]
  · exact h.grows.kept p h0

/-- What is left of a range once the blocks before `m` are in place. -/
theorem missing_rest (h : Fills (V.missing ip a m) V ip V' ip') (ham : a < m) (hmb : m ≤ b) :
    V.missing ip a m ∪ V'.missing ip' m b = V.missing ip a b := by
  ext p
  rw [mem_union, Vol.mem_missing (a := m), h.addr p, Vol.mem_missing, Vol.mem_missing]
  have hsplit : Touches a b p ↔ Touches a m p ∨ Touches m b p := by
    unfold Touches bsize at *
    omega
  rw [hsplit]
  tauto

theorem card_missing_rest (h : Fills (V.missing ip a m) V ip V' ip') (ham : a < m) (hmb : m ≤ b) :
    (V.missing ip a b).card = (V.missing ip a m).card + (V'.missing ip' m b).card := by
  rw [← h.missing_rest ham hmb]
  apply card_union_of_disjoint
  rw [disjoint_left]
  intro p hp hp'
  exact ((h.addr p).mp (Vol.mem_missing.mp hp').2).2 hp

end Fills

theorem Vol.missing_mono {b' : ℕ} (h : b ≤ b') : V.missing ip a b ⊆ V.missing ip a b' := by
  intro p hp
  rw [Vol.mem_missing] at hp ⊢
  refine ⟨?_, hp.2⟩
  have := hp.1
  unfold Touches at *
  omega

/-- The disk ran out of blocks within the bytes from `a` to `b`. -/
structure Short (V : Vol) (ip : Inode) (V' : Vol) (P : Finset ℕ) (a b : ℕ) : Prop where
  full : V'.free = 0
  part : P ⊂ V.missing ip a b
  slots : P.Nonempty → ∀ q ∈ V.missing ip a b, IsSlot q → ∃ q' ∈ P, IsSlot q'

namespace Short

/-- The number of free blocks was less than what the range needed. -/
theorem lt (h : Short V ip V' P a b) (hf : Fills P V ip V' ip') :
    V.free = P.card ∧ V.free < (V.missing ip a b).card := by
  have hcard := card_lt_card h.part
  have hfree := hf.free
  have hfull := h.full
  omega

/-- Nothing but the indirect block could be added. -/
theorem table (hfull : V'.free = 0) (hpart : P ⊂ V.missing ip a b) (hP : P ⊆ {maxfile}) :
    Short V ip V' P a b where
  full := hfull
  part := hpart
  slots := by
    rintro ⟨p, hp⟩ q _ _
    exact ⟨p, hp, Or.inr (mem_singleton.mp (hP hp))⟩

/-- The blocks before `m` were found, those after it were not. -/
theorem prepend (hf : Fills (V.missing ip a m) V ip V' ip') (h : Short V' ip' V'' P m b)
    (ham : a < m) (hmb : m ≤ b) : Short V ip V'' (V.missing ip a m ∪ P) a b where
  full := h.full
  part := by
    rw [← hf.missing_rest ham hmb]
    obtain ⟨hsub, hnsub⟩ := h.part
    obtain ⟨p, hp, hnot⟩ := Finset.not_subset.mp hnsub
    refine Finset.ssubset_iff_subset_ne.mpr ⟨Finset.union_subset_union_right hsub, fun heq => ?_⟩
    have hmem : p ∈ V.missing ip a m ∪ P := heq ▸ Finset.mem_union_right _ hp
    rcases Finset.mem_union.mp hmem with hold | hnew
    · exact ((hf.addr p).mp (Vol.mem_missing.mp hp).2).2 hold
    · exact hnot hnew
  slots := by
    rintro ⟨p, hp⟩ q hq hslot
    by_cases hfirst : (V.missing ip a m).Nonempty
    · -- the first block of the range that is empty goes through an address
      obtain ⟨p1, hp1⟩ := hfirst
      by_cases hs1 : IsSlot p1
      · exact ⟨p1, Finset.mem_union_left _ hp1, hs1⟩
      · have hq' : q ∈ V.missing ip a m := by
          rw [Vol.mem_missing] at hp1 hq ⊢
          refine ⟨?_, hq.2⟩
          have h1 := hp1.1
          have h2 := hq.1
          unfold IsSlot at hslot hs1
          unfold Touches bsize ndirect at *
          omega
        exact ⟨q, Finset.mem_union_left _ hq', hslot⟩
    · rw [Finset.not_nonempty_iff_eq_empty] at hfirst
      have hrest := hf.missing_rest ham hmb
      rw [hfirst, Finset.empty_union] at hrest hp ⊢
      exact h.slots ⟨p, hp⟩ q (hrest ▸ hq) hslot

end Short

end ToyOs.Fs
