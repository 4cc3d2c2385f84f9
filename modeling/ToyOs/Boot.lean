import ToyOs.ProcPagetable
import Mathlib.Data.Multiset.Range

/-!
Memory at boot. `kalloc::init` puts every managed page on the free list, so
address spaces can be carved out of it; this gives states for the theorems
about running processes to speak of.
-/
namespace ToyOs

open Bytes Prog List

/-- All pages between the kernel image and the end of memory. -/
def managedPages (L : Layout) : Multiset ℕ :=
  (Multiset.range (managedCount L)).map fun i => L.kernelEnd + i * pgSize

/-- A kernel image of two megabytes. -/
def smallLayout : Layout where
  kernelEnd := 0x80400000
  trampolineStart := 0x80201000
  kernelEnd_aligned := by decide
  kernelEnd_above := by decide
  kernelEnd_below := by decide
  trampoline_aligned := by decide
  trampoline_above := by decide
  trampoline_below := by decide

section Boot

variable {L : Layout} {s : Ram} {F : List ℕ} {R : Multiset ℕ} {E : Panic → Prop}

theorem managedPages_nodup (L : Layout) : (managedPages L).Nodup := by
  refine (Multiset.nodup_range _).map ?_
  intro i j hij
  have hij' : L.kernelEnd + i * pgSize = L.kernelEnd + j * pgSize := hij
  unfold pgSize at hij'
  omega

theorem mem_managedPages {p : ℕ} : p ∈ managedPages L ↔ Managed L p := by
  have h1 := L.kernelEnd_aligned
  have h2 := L.kernelEnd_below
  unfold managedPages managedCount
  rw [Multiset.mem_map]
  constructor
  · rintro ⟨i, hi, rfl⟩
    rw [Multiset.mem_range] at hi
    refine ⟨?_, by omega, ?_⟩
    · unfold pgSize at *
      omega
    · unfold pgSize physTop at *
      omega
  · intro hp
    have h3 := hp.aligned
    have h4 := hp.above
    have h5 := hp.below
    refine ⟨(p - L.kernelEnd) / pgSize, ?_, ?_⟩
    · rw [Multiset.mem_range]
      unfold pgSize physTop at *
      omega
    · unfold pgSize at *
      omega

/-- A collection of different managed pages of full size is all of them. -/
theorem card_managedPages (L : Layout) : Multiset.card (managedPages L) = managedCount L := by
  simp [managedPages]

theorem wp_kallocInit (hs : s.head = 0) {Q : Unit → Ram → Prop}
    (hQ : ∀ s' F, Pool L s' F 0 → (↑F : Multiset ℕ) = managedPages L → Q () s') :
    (kallocInit L).wp E Q s := by
  have hpages : (↑((List.range (managedCount L)).map fun i => L.kernelEnd + i * pgSize) :
      Multiset ℕ) = managedPages L := rfl
  refine wp_post (wp_forEach
    (fun rest t => ∃ F, FreeList t.mem t.head F ∧
      (↑F : Multiset ℕ) + ↑(rest.map fun i => L.kernelEnd + i * pgSize) = managedPages L) ?_ ?_) ?_
  · refine ⟨[], ?_, ?_⟩
    · rw [hs]
      exact .nil
    · rw [Multiset.coe_nil, zero_add]
      exact hpages
  · rintro i rest t - ⟨F, hF, hpool⟩
    have hmem : L.kernelEnd + i * pgSize ∈ managedPages L := by
      rw [← hpool]
      simp
    have hpa := mem_managedPages.mp hmem
    have hnodup := managedPages_nodup L
    rw [← hpool] at hnodup
    refine wp_of_ok (kfree_apply hpa t) ⟨_ :: F, hF.freePage hpa ?_ ?_, ?_⟩
    · intro p hp
      refine mem_managedPages.mp ?_
      rw [← hpool]
      exact Multiset.mem_add.mpr (Or.inl hp)
    · intro hmem'
      refine Multiset.disjoint_left.mp (Multiset.nodup_add.mp hnodup).2.2
        (Multiset.mem_coe.mpr hmem') ?_
      simp
    · rw [← hpool, map_cons, ← Multiset.cons_coe, ← Multiset.cons_coe,
        ← Multiset.singleton_add, ← Multiset.singleton_add]
      abel
  · rintro _ s' ⟨F, hF, hpool⟩
    rw [map_nil, Multiset.coe_nil, add_zero] at hpool
    refine hQ s' F ⟨hF, ?_, ?_⟩ hpool
    · rw [add_zero, hpool]
      exact managedPages_nodup L
    · intro p hp
      rw [add_zero, hpool] at hp
      exact mem_managedPages.mp hp

/-- A page from the head of the free list goes to the frame. -/
theorem Pool.take {p hd : ℕ} (h : Pool L s (p :: F) R) (hF : FreeList s.mem hd F) :
    Pool L { s with head := hd } F ({p} + R) := by
  have heq : ↑F + ({p} + R) = ↑(p :: F) + R := by
    rw [← Multiset.cons_coe, ← Multiset.singleton_add]
    abel
  exact ⟨hF, heq ▸ h.nodup, heq ▸ h.managed⟩

theorem exists_pool (L : Layout) : ∃ s F, Pool L s F 0 ∧ (↑F : Multiset ℕ) = managedPages L := by
  have hrun : (kallocInit L).wp (fun _ => False)
      (fun _ s' => ∃ F, Pool L s' F 0 ∧ (↑F : Multiset ℕ) = managedPages L)
      { mem := fun _ => 0, head := 0 } :=
    wp_kallocInit rfl fun s' F hp hF => ⟨F, hp, hF⟩
  obtain ⟨_, s', _, F, hF⟩ := exists_ok hrun
  exact ⟨s', F, hF⟩

/-- An address space with only the kernel entries, beside a trap frame, a
kernel stack and `n` free pages. -/
theorem exists_space (L : Layout) {n : ℕ} (hn : n + 7 ≤ managedCount L) :
    ∃ s T F tf ks, AddrSpace L s T F ({ks} + {tf}) ∧ T.KernelOnly L tf ∧ n ≤ F.length := by
  obtain ⟨s, F, hpool, hF⟩ := exists_pool L
  have hlen : F.length = managedCount L := by
    rw [← Multiset.coe_card, hF, card_managedPages]
  match F, hpool, hlen with
  | [], _, hlen => exact absurd hlen (by rw [length_nil]; omega)
  | [_], _, hlen => exact absurd hlen (by rw [length_singleton]; omega)
  | tf :: ks :: F, hpool, hlen =>
    obtain ⟨hd1, hF1⟩ : ∃ hd, FreeList s.mem hd (ks :: F) := by
      have hfree := hpool.free
      generalize s.head = hd at hfree
      cases hfree with
      | cons _ hrest => exact ⟨_, hrest⟩
    obtain ⟨hd2, hF2⟩ : ∃ hd, FreeList s.mem hd F := by
      cases hF1 with
      | cons _ hrest => exact ⟨_, hrest⟩
    have hpool1 := hpool.take hF1
    rw [add_zero] at hpool1
    have hpool2 := hpool1.take hF2
    have htf : Managed L tf := hpool2.managed tf (by simp)
    rw [length_cons, length_cons] at hlen
    have hrun : (procPagetable L tf).wp (fun _ => False)
        (fun _ s' => ∃ T F', AddrSpace L s' T F' ({ks} + {tf}) ∧ T.KernelOnly L tf ∧ n ≤ F'.length)
        { mem := s.mem, head := hd2 } := by
      refine wp_procPagetable hpool2 htf ?_ ?_
      · exact fun _ _ _ hshort => absurd hshort (by omega)
      · exact fun s' T F' hc hko _ hlen => ⟨T, F', hc.space, hko, by omega⟩
    obtain ⟨_, s', _, T, F', h⟩ := exists_ok hrun
    exact ⟨s', T, F', tf, ks, h⟩

end Boot

end ToyOs
