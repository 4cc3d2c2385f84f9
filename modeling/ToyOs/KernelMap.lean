import ToyOs.TableRoom
import ToyOs.UserBytes
import Mathlib.Order.Interval.Finset.Nat

/-!
The address space of the kernel. `kvmmake` maps seven regions one after the
other; a region that met an entry in use or found no page for a table would
stop the kernel. The regions are a list here, and mapping a list of regions
that lie apart is settled once for every list.
-/
namespace ToyOs

open Bytes Prog List

/-- The sections of the kernel image as the linker script places them. -/
structure KernelLayout extends Layout where
  etext : ℕ
  erodata : ℕ
  etext_aligned : etext % pgSize = 0
  erodata_aligned : erodata % pgSize = 0
  etext_above : kernBase < etext
  erodata_above : etext < erodata
  erodata_below : erodata < physTop

/-- Map an identity-mapped kernel range. -/
def kvmmap (pt vaPa size flags : ℕ) : RamM Unit := do
  Prog.expect .unwrapNone (← mappages pt vaPa size vaPa flags)

/-- Map `[start, stop)`; the subtraction is checked. -/
def kvmmapRange (pt start stop flags : ℕ) : RamM Unit := do
  Prog.assert .overflow (start ≤ stop)
  kvmmap pt start (stop - start) flags

def kvmmake (K : KernelLayout) : RamM ℕ := do
  let pt ← Prog.expect .kvmmake (← kallocZeroed)
  kvmmap pt uart0 pgSize (pteR ||| pteW)
  kvmmap pt clint 0x10000 (pteR ||| pteW)
  kvmmap pt plic 0x400000 (pteR ||| pteW)
  kvmmapRange pt kernBase K.etext (pteR ||| pteX)
  kvmmapRange pt K.etext K.erodata pteR
  kvmmapRange pt K.erodata physTop (pteR ||| pteW)
  Prog.expect .unwrapNone (← mappages pt trampolineVa pgSize K.trampolineStart (pteR ||| pteX))
  pure pt

/-- A range of pages with its target and its permissions. -/
structure Region where
  va : ℕ
  size : ℕ
  pa : ℕ
  flags : ℕ

namespace Region

/-- The page index belongs to the region. -/
def Holds (r : Region) (k : ℕ) : Prop := r.va / pgSize ≤ k ∧ k < r.va / pgSize + pages r.size

/-- `mappages` accepts the region. -/
structure Ok (r : Region) : Prop where
  va_aligned : r.va % pgSize = 0
  pa_aligned : r.pa % pgSize = 0
  size_pos : 0 < r.size
  size_le : r.va + r.size ≤ 2 ^ 39
  pa_le : r.pa + pages r.size * pgSize < 2 ^ 56
  flags_lt : r.flags < 1024

/-- The entry of a page of the region. -/
def word (r : Region) (k : ℕ) : ℕ := leafWord (r.pa + (k - r.va / pgSize) * pgSize) r.flags

/-- The regions have no page in common. -/
def Apart (r r' : Region) : Prop := ∀ k, r.Holds k → ¬ r'.Holds k

end Region

def mapRegion (pt : ℕ) (r : Region) : RamM Unit := do
  Prog.expect .unwrapNone (← mappages pt r.va r.size r.pa r.flags)

/-- The regions of the kernel, in the order in which they are mapped. -/
def kernelRegions (K : KernelLayout) : List Region :=
  [⟨uart0, pgSize, uart0, pteR ||| pteW⟩,
    ⟨clint, 0x10000, clint, pteR ||| pteW⟩,
    ⟨plic, 0x400000, plic, pteR ||| pteW⟩,
    ⟨kernBase, K.etext - kernBase, kernBase, pteR ||| pteX⟩,
    ⟨K.etext, K.erodata - K.etext, K.etext, pteR⟩,
    ⟨K.erodata, physTop - K.erodata, K.erodata, pteR ||| pteW⟩,
    ⟨trampolineVa, pgSize, K.trampolineStart, pteR ||| pteX⟩]

theorem kvmmapRange_eq {pt start stop flags : ℕ} (h : start ≤ stop) :
    kvmmapRange pt start stop flags = mapRegion pt ⟨start, stop - start, start, flags⟩ := by
  unfold kvmmapRange Prog.assert
  rw [if_pos (by simpa using h), Prog.pure_bind]
  rfl

/-- The calls of `kvmmake` map the regions of the list. -/
theorem mapKernel_eq (K : KernelLayout) (pt : ℕ) :
    Prog.forEach (kernelRegions K) (mapRegion pt) = (do
      kvmmap pt uart0 pgSize (pteR ||| pteW)
      kvmmap pt clint 0x10000 (pteR ||| pteW)
      kvmmap pt plic 0x400000 (pteR ||| pteW)
      kvmmapRange pt kernBase K.etext (pteR ||| pteX)
      kvmmapRange pt K.etext K.erodata pteR
      kvmmapRange pt K.erodata physTop (pteR ||| pteW)
      mapRegion pt ⟨trampolineVa, pgSize, K.trampolineStart, pteR ||| pteX⟩) := by
  unfold kernelRegions
  rw [forEach_cons, forEach_cons, forEach_cons, forEach_cons, forEach_cons,
    forEach_cons, forEach_cons, Prog.forEach, Prog.bind_unit,
    kvmmapRange_eq K.etext_above.le, kvmmapRange_eq K.erodata_above.le,
    kvmmapRange_eq K.erodata_below.le]
  rfl

theorem kvmmake_eq (K : KernelLayout) : kvmmake K = (do
    let pt ← Prog.expect .kvmmake (← kallocZeroed)
    Prog.forEach (kernelRegions K) (mapRegion pt)
    pure pt) := by
  unfold kvmmake
  simp only [mapKernel_eq, mapRegion, Prog.bind_assoc]

section Regions

variable {L : Layout} {s : Ram} {root : ℕ} {F : List ℕ} {C : Finset ℕ} {rs : List Region}

/-- The entries of the regions are in the table, and no others are new. -/
structure Holding (root : ℕ) (rs : List Region) (s s' : Ram) : Prop where
  word : ∀ r ∈ rs, ∀ k, k < 2 ^ 27 → r.Holds k → pteAt s'.mem root k = r.word k
  other : ∀ k, k < 2 ^ 27 → (∀ r ∈ rs, ¬ r.Holds k) → pteAt s'.mem root k = pteAt s.mem root k

/-- Regions that lie apart are mapped without a panic. -/
theorem mapRegions_run (h : TableAt L s root F) (hconf : Confined s.mem root C)
    (hroom : RoomFor s root F C) (hok : ∀ r ∈ rs, r.Ok)
    (hC : ∀ r ∈ rs, ∀ k, r.Holds k → k / 512 ∈ C) (hapart : rs.Pairwise Region.Apart)
    (hfree : ∀ r ∈ rs, ∀ k, r.Holds k → isValid (pteAt s.mem root k) = false) :
    ∃ s' F', Prog.forEach rs (mapRegion root) s = .ok ((), s') ∧ Holding root rs s s' ∧
      TableAt L s' root F' ∧ Confined s'.mem root C ∧
      tablesAt s'.mem root + (↑F' : Multiset ℕ) = tablesAt s.mem root + ↑F := by
  induction rs generalizing s F with
  | nil =>
    exact ⟨s, F, rfl, ⟨fun r hr => absurd hr (not_mem_nil), fun _ _ _ => rfl⟩, h, hconf, rfl⟩
  | cons r rest ih =>
    obtain ⟨hfirst, hrest⟩ := pairwise_cons.mp hapart
    have hr := hok r mem_cons_self
    have hindex : ∀ j, j < pages r.size → r.Holds (r.va / pgSize + j) := fun j hj =>
      ⟨by omega, by omega⟩
    obtain ⟨s₁, F₁, hrun, hm⟩ := mappages_succeeds h hr.va_aligned hr.pa_aligned hr.size_pos hr.size_le
      (hr.pa_le.trans (by decide)) (hr.flags_lt.trans (by decide))
      (fun j hj => hC r mem_cons_self _ (hindex j hj)) hconf hroom
      (fun j hj => hfree r mem_cons_self _ (hindex j hj))
    have hword : ∀ k, k < 2 ^ 27 → r.Holds k → pteAt s₁.mem root k = r.word k :=
      fun k hk hin => (hm.pte k hk).trans (if_pos hin)
    have hother : ∀ k, k < 2 ^ 27 → ¬ r.Holds k → pteAt s₁.mem root k = pteAt s.mem root k :=
      fun k hk hout => (hm.pte k hk).trans (if_neg hout)
    have hlow : ∀ r' ∈ rest, ∀ k, r'.Holds k → k < 2 ^ 27 := by
      intro r' hr' k hin
      have := (hok r' (mem_cons_of_mem _ hr')).size_le
      have := (hok r' (mem_cons_of_mem _ hr')).va_aligned
      have := hin.2
      unfold pages pgSize at *
      omega
    obtain ⟨s', F', hrun', hdone, htable, hconf', hpool⟩ := ih hm.table
      (hm.confined C (fun j hj => hC r mem_cons_self _ (hindex j hj)) hconf) (hm.roomFor hroom)
      (fun r' hr' => hok r' (mem_cons_of_mem _ hr'))
      (fun r' hr' => hC r' (mem_cons_of_mem _ hr')) hrest
      (fun r' hr' k hin => by
        rw [hother k (hlow r' hr' k hin) fun hin' => hfirst r' hr' k hin' hin]
        exact hfree r' (mem_cons_of_mem _ hr') k hin)
    refine ⟨s', F', ?_, ⟨fun r' hr' k hk hin => ?_, fun k hk hout => ?_⟩, htable, hconf',
      hpool.trans hm.pool⟩
    · have hstep : mapRegion root r s = .ok ((), s₁) := by
        unfold mapRegion
        rw [bind_ok hrun]
        rfl
      rw [Prog.forEach, bind_ok hstep]
      exact hrun'
    · rcases mem_cons.mp hr' with rfl | hr'
      · rw [hdone.other k hk fun r'' hr'' => hfirst r'' hr'' k hin]
        exact hword k hk hin
      · exact hdone.word r' hr' k hk hin
    · rw [hdone.other k hk fun r' hr' => hout r' (mem_cons_of_mem _ hr')]
      exact hother k hk (hout r mem_cons_self)

end Regions

/-- The address translates to `pa` with these permissions. -/
structure Translates (m : Store) (root x pa perm : ℕ) : Prop where
  leaf : isLeaf (pteAt m root (vpn x)) = true
  phys : physAt m root x = pa
  flags : pteFlags (pteAt m root (vpn x)) = perm ||| pteV ||| pteA ||| pteD

/-- An address of the UART, the CLINT or the PLIC. -/
def DeviceAddr (x : ℕ) : Prop :=
  (uart0 ≤ x ∧ x < uart0 + pgSize) ∨ (clint ≤ x ∧ x < clint + 0x10000) ∨
    (plic ≤ x ∧ x < plic + 0x400000)

/-- The indices of the level-0 tables of the kernel: two megabytes each. -/
def kernelTables : Finset ℕ := {16, 96, 97, 128, 131071} ∪ Finset.Ico 1025 1088

theorem mem_kernelTables {q : ℕ} :
    q ∈ kernelTables ↔ q = 16 ∨ q = 96 ∨ q = 97 ∨ q = 128 ∨ q = 131071 ∨ 1025 ≤ q ∧ q < 1088 := by
  simp only [kernelTables, Finset.mem_union, Finset.mem_insert, Finset.mem_singleton, Finset.mem_Ico,
    or_assoc]

theorem card_kernelTables :
    1 + (kernelTables.image (· / 512)).card + kernelTables.card ≤ 72 := by
  have h0 : kernelTables.card ≤ 5 + 63 := by
    refine (Finset.card_union_le _ _).trans (Nat.add_le_add ?_ ?_)
    · exact Finset.card_le_five
    · rw [Nat.card_Ico]
  have h1 : (kernelTables.image (· / 512)).card ≤ 3 := by
    have hsub : kernelTables.image (· / 512) ⊆ {0, 2, 255} := by
      intro i hi
      obtain ⟨q, hq, rfl⟩ := Finset.mem_image.mp hi
      have := mem_kernelTables.mp hq
      simp only [Finset.mem_insert, Finset.mem_singleton]
      omega
    exact (Finset.card_le_card hsub).trans Finset.card_le_three
  omega

section KernelRegions

variable {K : KernelLayout}

theorem Region.ok_identity {a size flags : ℕ} (ha : a % pgSize = 0) (hpos : 0 < size)
    (hle : a + size ≤ physTop) (hf : flags < 1024) : Region.Ok ⟨a, size, a, flags⟩ := by
  refine ⟨ha, ha, hpos, ?_, ?_, hf⟩
  · show a + size ≤ 2 ^ 39
    unfold physTop at hle
    omega
  · show a + pages size * pgSize < 2 ^ 56
    unfold physTop at hle
    unfold pages pgSize
    omega

theorem kernelRegions_ok : ∀ r ∈ kernelRegions K, r.Ok := by
  have h1 := K.etext_above
  have h2 := K.erodata_above
  have h3 := K.erodata_below
  simp only [kernelRegions, mem_cons, not_mem_nil, or_false, forall_eq_or_imp, forall_eq]
  refine ⟨?_, ?_, ?_, ?_, ?_, ?_, ?_⟩
  · exact Region.ok_identity (by decide) (by decide) (by decide) (by decide)
  · exact Region.ok_identity (by decide) (by decide) (by decide) (by decide)
  · exact Region.ok_identity (by decide) (by decide) (by decide) (by decide)
  · exact Region.ok_identity (by decide) (by omega) (by omega) (by decide)
  · exact Region.ok_identity K.etext_aligned (by omega) (by omega) (by decide)
  · exact Region.ok_identity K.erodata_aligned (by omega) (by omega) (by decide)
  · refine ⟨(by decide : trampolineVa % pgSize = 0), K.trampoline_aligned, (by decide : 0 < pgSize),
      (by decide : trampolineVa + pgSize ≤ 2 ^ 39), ?_, (by decide : pteR ||| pteX < 1024)⟩
    have hlow := K.trampoline_below
    have hend := K.kernelEnd_below
    show K.trampolineStart + pages pgSize * pgSize < 2 ^ 56
    unfold physTop at hend
    unfold pages pgSize
    omega

theorem kernelRegions_holds {k : ℕ} :
    (∀ r ∈ kernelRegions K, ¬ r.Holds k) ↔ ¬ (k = 0x10000 ∨ 0x2000 ≤ k ∧ k < 0x2010 ∨
      0xc000 ≤ k ∧ k < 0xc400 ∨ 0x80200 ≤ k ∧ k < 0x88000 ∨ k = 2 ^ 26 - 1) := by
  have h1 := K.etext_above
  have h2 := K.erodata_above
  have h3 := K.erodata_below
  have h4 := K.etext_aligned
  have h5 := K.erodata_aligned
  simp only [kernelRegions, mem_cons, not_mem_nil, or_false, forall_eq_or_imp, forall_eq,
    Region.Holds]
  unfold uart0 clint plic kernBase physTop trampolineVa maxVa pages pgSize at *
  omega

/-- The regions have no page in common. -/
theorem kernelRegions_apart : (kernelRegions K).Pairwise Region.Apart := by
  have h1 := K.etext_above
  have h2 := K.erodata_above
  have h3 := K.erodata_below
  have h4 := K.etext_aligned
  have h5 := K.erodata_aligned
  simp only [kernelRegions, pairwise_cons, mem_cons, not_mem_nil, or_false,
    forall_eq_or_imp, forall_eq, false_implies, implies_true, List.Pairwise.nil, and_true,
    Region.Apart, Region.Holds]
  unfold uart0 clint plic kernBase physTop trampolineVa maxVa pages pgSize at *
  and_intros
  all_goals
    intro k
    omega

theorem kernelRegions_tables {r : Region} (hr : r ∈ kernelRegions K) {k : ℕ} (hk : r.Holds k) :
    k / 512 ∈ kernelTables := by
  have hsome : ¬ ∀ r ∈ kernelRegions K, ¬ r.Holds k := fun hnone => hnone r hr hk
  rw [kernelRegions_holds, not_not] at hsome
  rw [mem_kernelTables]
  omega

/-- Permissions of the kernel: some access, never by the user, and no page both
writable and executable. -/
structure KernelPerm (flags : ℕ) : Prop where
  access : flags &&& (pteR ||| pteW ||| pteX) ≠ 0
  user : (flags ||| 193) &&& pteU = 0
  writeXor : ¬ ((flags ||| 193) &&& pteW ≠ 0 ∧ (flags ||| 193) &&& pteX ≠ 0)

theorem kernelRegions_perm : ∀ r ∈ kernelRegions K, KernelPerm r.flags := by
  have hrw : KernelPerm (pteR ||| pteW) := ⟨by decide, by decide, by decide⟩
  have hrx : KernelPerm (pteR ||| pteX) := ⟨by decide, by decide, by decide⟩
  have hr : KernelPerm pteR := ⟨by decide, by decide, by decide⟩
  simp only [kernelRegions, mem_cons, not_mem_nil, or_false, forall_eq_or_imp, forall_eq]
  exact ⟨hrw, hrw, hrw, hrx, hr, hrw, hrx⟩

/-- An address of a region translates to its place in the target. -/
theorem Region.translates {r : Region} {m : Store} {root x : ℕ} (hr : r.Ok)
    (hrwx : r.flags &&& (pteR ||| pteW ||| pteX) ≠ 0)
    (hword : r.Holds (vpn x) → pteAt m root (vpn x) = r.word (vpn x)) (hle : r.va ≤ x)
    (hlt : x < r.va + r.size) : Translates m root x (r.pa + (x - r.va)) r.flags := by
  have hx : x < 2 ^ 39 := lt_of_lt_of_le hlt hr.size_le
  have hcover := pages_mul_le (x := r.size)
  have hin : r.Holds (vpn x) := (vpn_in_range hr.va_aligned hx).mpr ⟨hle, by omega⟩
  have hva := hr.va_aligned
  have hpa := hr.pa_aligned
  have hlow := hr.pa_le
  have hround : pageRoundDown x - r.va + x % pgSize = x - r.va ∧ pageRoundDown x ≤ x ∧
      (r.pa + (pageRoundDown x - r.va)) % pgSize = 0 := by
    unfold pageRoundDown pgSize at *
    omega
  have hw := hword hin
  unfold Region.word at hw
  rw [offset_in_range hva hx hle] at hw
  refine ⟨?_, ?_, ?_⟩
  · rw [hw, isLeaf_leafWord]
    simpa using hrwx
  · unfold physAt
    rw [hw, ptePa_leafWord hround.2.2 (by omega) hr.flags_lt]
    omega
  · rw [hw, pteFlags_leafWord hr.flags_lt]

/-- A run of `kvmmake`: the regions go into an empty table, whose pages come
from the free list. -/
theorem kvmmake_run (K : KernelLayout) {s : Ram} {F : List ℕ} (hfree : FreeList s.mem s.head F)
    (hnodup : F.Nodup) (hmanaged : ∀ p ∈ F, Managed K.toLayout p) (hroom : 72 ≤ F.length) :
    ∃ root s₁ s' F', kvmmake K s = .ok (root, s') ∧ EmptyTable s₁.mem root ∧
      Holding root (kernelRegions K) s₁ s' ∧ TableAt K.toLayout s' root F' ∧
      tablesAt s'.mem root + (↑F' : Multiset ℕ) = ↑F ∧
      Multiset.card (tablesAt s'.mem root) ≤ 72 := by
  have hwp : kallocZeroed.wp (fun _ => False) (fun o s₁ => ∃ root F', o = some root ∧
      TableAt K.toLayout s₁ root F' ∧ EmptyTable s₁.mem root ∧ F = root :: F') s := by
    refine wp_kallocZeroed hfree hnodup hmanaged (fun hnil => ?_) fun p rest hd heq hF' => ?_
    · rw [hnil] at hroom
      exact absurd hroom (by decide)
    · subst heq
      exact ⟨p, rest, rfl, tableAt_fill hF' hnodup hmanaged,
        emptyTable_fill (hmanaged p mem_cons_self).aligned, rfl⟩
  obtain ⟨_, s₁, halloc, root, F', rfl, htable, hempty, rfl⟩ := exists_ok hwp
  rw [length_cons] at hroom
  have hroomFor : RoomFor s₁ root F' kernelTables := by
    have := card_kernelTables
    unfold RoomFor
    rw [hempty.tables, Multiset.card_singleton]
    omega
  have hlow : ∀ r ∈ kernelRegions K, ∀ k, r.Holds k → k < 2 ^ 27 := by
    intro r hr k hk
    have hsome : ¬ ∀ r ∈ kernelRegions K, ¬ r.Holds k := fun hnone => hnone r hr hk
    rw [kernelRegions_holds, not_not] at hsome
    omega
  obtain ⟨s', F'', hrun, hdone, htable', hconf, hpool⟩ := mapRegions_run htable (hempty.confined _) hroomFor kernelRegions_ok
    (fun r hr k hk => kernelRegions_tables hr hk) (kernelRegions_apart (K := K)) fun r hr k hk => by
      rw [hempty.pte k (hlow r hr k hk)]
      rfl
  refine ⟨root, s₁, s', F'', ?_, hempty, hdone, htable', ?_, ?_⟩
  · rw [kvmmake_eq, bind_ok halloc]
    show (Prog.forEach (kernelRegions K) (mapRegion root) >>= fun _ => pure root) s₁ = _
    rw [bind_ok hrun]
    rfl
  · rw [hpool, hempty.tables, ← Multiset.cons_coe, ← Multiset.singleton_add]
  · have hle := hconf.card_le
    have hfilter := Finset.card_filter_le kernelTables fun q => l0At s'.mem root q ≠ none
    have := card_kernelTables
    omega

/-- With a page for each table, `kvmmake` returns an identity map of the devices
and of memory, with the trampoline on top and nothing else; no entry is open to
the user and no writable page holds code. -/
theorem kernel_space (K : KernelLayout) {s : Ram} {F : List ℕ} (hfree : FreeList s.mem s.head F)
    (hnodup : F.Nodup) (hmanaged : ∀ p ∈ F, Managed K.toLayout p) (hroom : 72 ≤ F.length) :
    ∃ root s', kvmmake K s = .ok (root, s') ∧
      (∀ x, DeviceAddr x → Translates s'.mem root x x (pteR ||| pteW)) ∧
      (∀ x, kernBase ≤ x → x < K.etext → Translates s'.mem root x x (pteR ||| pteX)) ∧
      (∀ x, K.etext ≤ x → x < K.erodata → Translates s'.mem root x x pteR) ∧
      (∀ x, K.erodata ≤ x → x < physTop → Translates s'.mem root x x (pteR ||| pteW)) ∧
      (∀ x, trampolineVa ≤ x → x < trampolineVa + pgSize →
        Translates s'.mem root x (K.trampolineStart + (x - trampolineVa)) (pteR ||| pteX)) ∧
      (∀ x, x < 2 ^ 39 → ¬ DeviceAddr x → ¬ (kernBase ≤ x ∧ x < physTop) →
        ¬ (trampolineVa ≤ x ∧ x < trampolineVa + pgSize) →
          isValid (pteAt s'.mem root (vpn x)) = false) ∧
      ∀ x, x < 2 ^ 39 → pteAt s'.mem root (vpn x) &&& pteU = 0 ∧
        ¬ (pteAt s'.mem root (vpn x) &&& pteW ≠ 0 ∧ pteAt s'.mem root (vpn x) &&& pteX ≠ 0) := by
  obtain ⟨root, s₁, s', F', hrun, hempty, hdone, -⟩ := kvmmake_run K hfree hnodup hmanaged hroom
  have hregion : ∀ r ∈ kernelRegions K, ∀ x, r.va ≤ x → x < r.va + r.size →
      Translates s'.mem root x (r.pa + (x - r.va)) r.flags :=
    fun r hr x hle hlt => Region.translates (kernelRegions_ok r hr) (kernelRegions_perm r hr).access
      (hdone.word r hr _ (vpn_lt x)) hle hlt
  have hself : ∀ a size flags, ⟨a, size, a, flags⟩ ∈ kernelRegions K → ∀ x, a ≤ x → x < a + size →
      Translates s'.mem root x x flags := by
    intro a size flags hr x hle hlt
    have htrans := hregion _ hr x hle hlt
    rwa [show a + (x - a) = x by omega] at htrans
  have h1 := K.etext_above
  have h2 := K.erodata_above
  have h3 := K.erodata_below
  refine ⟨root, s', hrun, ?_, ?_, ?_, ?_, ?_, ?_, ?_⟩
  · rintro x (⟨hle, hlt⟩ | ⟨hle, hlt⟩ | ⟨hle, hlt⟩)
    · exact hself uart0 pgSize _ (by simp [kernelRegions]) x hle hlt
    · exact hself clint 0x10000 _ (by simp [kernelRegions]) x hle hlt
    · exact hself plic 0x400000 _ (by simp [kernelRegions]) x hle hlt
  · exact fun x hle hlt => hself kernBase (K.etext - kernBase) _ (by simp [kernelRegions]) x hle
      (by omega)
  · exact fun x hle hlt => hself K.etext (K.erodata - K.etext) _ (by simp [kernelRegions]) x hle
      (by omega)
  · exact fun x hle hlt => hself K.erodata (physTop - K.erodata) _ (by simp [kernelRegions]) x hle
      (by omega)
  · exact fun x hle hlt => hregion ⟨trampolineVa, pgSize, K.trampolineStart, pteR ||| pteX⟩
      (by simp [kernelRegions]) x hle hlt
  · intro x hx hdevice hram htramp
    rw [hdone.other _ (vpn_lt x) (kernelRegions_holds.mpr fun hin => ?_), hempty.pte _ (vpn_lt x)]
    · rfl
    · unfold DeviceAddr uart0 clint plic at hdevice
      unfold kernBase physTop at hram
      unfold trampolineVa maxVa at htramp
      unfold vpn pgSize at *
      omega
  -- An entry is the word of the one region that holds it, or still zero.
  · intro x _
    by_cases hin : ∀ r ∈ kernelRegions K, ¬ r.Holds (vpn x)
    · rw [hdone.other _ (vpn_lt x) hin, hempty.pte _ (vpn_lt x)]
      decide
    · obtain ⟨r, hr⟩ := not_forall.mp hin
      obtain ⟨hr, hk⟩ := Classical.not_imp.mp hr
      have hperm := kernelRegions_perm r hr
      rw [hdone.word r hr _ (vpn_lt x) (not_not.mp hk)]
      unfold Region.word
      rw [leafWord_and (by decide), leafWord_and (by decide), leafWord_and (by decide)]
      exact ⟨hperm.user, hperm.writeXor⟩

end KernelRegions

/-- A kernel of one megabyte of code and half a megabyte of constants. -/
def smallKernel : KernelLayout where
  toLayout := smallLayout
  etext := 0x80300000
  erodata := 0x80380000
  etext_aligned := by decide
  erodata_aligned := by decide
  etext_above := by decide
  erodata_above := by decide
  erodata_below := by decide

/-- After boot the last page before the constants is code. -/
theorem kernel_space_boot : ∃ s F root s', FreeList s.mem s.head F ∧ 72 ≤ F.length ∧
    kvmmake smallKernel s = .ok (root, s') ∧
      Translates s'.mem root 0x802ff000 0x802ff000 (pteR ||| pteX) := by
  obtain ⟨s, F, hpool, hF⟩ := exists_pool smallLayout
  have hlen : F.length = managedCount smallLayout := by
    rw [← Multiset.coe_card, hF, card_managedPages]
  have hroom : 72 ≤ F.length := by
    rw [hlen]
    decide
  have hnodup : F.Nodup := by
    have := hpool.nodup
    rwa [add_zero, Multiset.coe_nodup] at this
  obtain ⟨root, s', hrun, -, htext, -⟩ := kernel_space smallKernel hpool.free hnodup
    (fun p hp => hpool.managed p (by rw [add_zero]; exact hp)) hroom
  exact ⟨s, F, root, s', hpool.free, hroom, hrun, htext 0x802ff000 (by decide) (by decide)⟩

end ToyOs
