import ToyOs.Walk

/-!
The user pages of an address space. `AddrSpace` puts the pages mapped by the
user part of a tree into the frame of its `Space`; mapping and unmapping move
pages between this collection and the free list, so no page is lost or shared.
The loop of `uvmunmap` is settled for every range: it panics at the first page
that is not a leaf, and otherwise clears the entries and frees their pages.
-/
namespace ToyOs

open Bytes Prog Function Multiset

/-- Page indices that belong to the process: all but the two kernel pages on top. -/
@[irreducible] def userSlots : Finset ℕ :=
  ((Finset.range (2 ^ 27)).erase (vpn trampolineVa)).erase (vpn trapframeVa)

theorem vpn_trampoline : vpn trampolineVa = 2 ^ 26 - 1 := by decide

theorem vpn_trapframe : vpn trapframeVa = 2 ^ 26 - 2 := by decide

theorem vpn_userStack : vpn userStack = 2 ^ 26 - 3 := by decide

theorem mem_userSlots {k : ℕ} :
    k ∈ userSlots ↔ k < 2 ^ 27 ∧ k ≠ 2 ^ 26 - 1 ∧ k ≠ 2 ^ 26 - 2 := by
  unfold userSlots
  rw [Finset.mem_erase, Finset.mem_erase, Finset.mem_range, vpn_trampoline, vpn_trapframe]
  constructor
  · rintro ⟨h1, h2, h3⟩
    exact ⟨h3, h2, h1⟩
  · rintro ⟨h1, h2, h3⟩
    exact ⟨h3, h2, h1⟩

/-- The page an entry maps. -/
def entryPage (w : ℕ) : Multiset ℕ := if isValid w then {ptePa w} else 0

theorem entryPage_valid {w : ℕ} (h : isValid w = true) : entryPage w = {ptePa w} := if_pos h

theorem entryPage_invalid {w : ℕ} (h : isValid w = false) : entryPage w = 0 := by
  simp [entryPage, h]

/-- The pages mapped by the user part. -/
def Tree.mapped (T : Tree) : Multiset ℕ := ∑ k ∈ userSlots, entryPage (T.pte k)

theorem Tree.mem_mapped {T : Tree} {p : ℕ} :
    p ∈ T.mapped ↔ ∃ k ∈ userSlots, isValid (T.pte k) = true ∧ ptePa (T.pte k) = p := by
  simp only [Tree.mapped, mem_sum]
  constructor
  · rintro ⟨k, hk, hp⟩
    by_cases hv : isValid (T.pte k) = true
    · rw [entryPage_valid hv] at hp
      exact ⟨k, hk, hv, (mem_singleton.mp hp).symm⟩
    · rw [entryPage_invalid (by simpa using hv)] at hp
      exact absurd hp (notMem_zero p)
  · rintro ⟨k, hk, hv, rfl⟩
    exact ⟨k, hk, by rw [entryPage_valid hv]; exact mem_singleton_self _⟩

/-- Changing one user entry trades its page. -/
theorem Tree.mapped_setPte {T : Tree} {k : ℕ} (hk : k ∈ userSlots) (w : ℕ) :
    (T.setPte k w).mapped + entryPage (T.pte k) = T.mapped + entryPage w :=
  Sums.sum_comp_update_add userSlots entryPage T.pte k hk w

theorem Tree.mapped_setPte_kernel {T : Tree} {k : ℕ} (hk : k ∉ userSlots) (w : ℕ) :
    (T.setPte k w).mapped = T.mapped := by
  refine Finset.sum_congr rfl ?_
  intro j hj
  have hjk : j ≠ k := by
    intro heq
    exact hk (heq ▸ hj)
  simp [Tree.setPte, update_of_ne hjk]

theorem Grow.mapped {T T' : Tree} {F F' : List ℕ} (h : Grow T T' F F') :
    T'.mapped = T.mapped := by
  unfold Tree.mapped
  rw [h.pte]

/-- A tree whose user pages are in the frame, beside `R`. -/
abbrev AddrSpace (L : Layout) (s : Ram) (T : Tree) (F : List ℕ) (R : Multiset ℕ) : Prop :=
  Space L s T F (T.mapped + R)

/-- All pages of an address space. -/
def Tree.owned (T : Tree) : Multiset ℕ := T.tables + T.mapped

section Counting

variable {L : Layout}

/-- The pages the allocator manages. -/
def managedCount (L : Layout) : ℕ := (physTop - L.kernelEnd) / pgSize

theorem managedCount_lt (L : Layout) : managedCount L < 2 ^ 15 := by
  have h := L.kernelEnd_above
  unfold managedCount physTop pgSize
  unfold kernBase at h
  omega

/-- No list of different managed pages is longer than their number. -/
theorem length_le_managedCount {F : List ℕ} (hF : F.Nodup) (hm : ∀ p ∈ F, Managed L p) :
    F.length ≤ managedCount L := by
  have hmap : (F.map fun p => (p - L.kernelEnd) / pgSize).Nodup := by
    refine List.Nodup.map_on ?_ hF
    intro p hp q hq heq
    have hp' := hm p hp
    have hq' := hm q hq
    have h1 := hp'.aligned
    have h2 := hq'.aligned
    have h3 := hp'.above
    have h4 := hq'.above
    have h5 := L.kernelEnd_aligned
    unfold pgSize at *
    omega
  have hsub : (F.map fun p => (p - L.kernelEnd) / pgSize) ⊆ List.range (managedCount L) := by
    intro i hi
    obtain ⟨p, hp, rfl⟩ := List.mem_map.mp hi
    have hp' := hm p hp
    have h1 := hp'.aligned
    have h3 := hp'.above
    have h4 := hp'.below
    have h5 := L.kernelEnd_aligned
    rw [List.mem_range]
    unfold managedCount pgSize physTop at *
    omega
  have hlen := (hmap.subperm hsub).length_le
  simpa using hlen

end Counting

section Entries

variable {L : Layout} {s : Ram} {T : Tree} {F : List ℕ} {R : Multiset ℕ} {E : Panic → Prop}

theorem Space.length_free (h : Space L s T F R) : F.length ≤ managedCount L :=
  length_le_managedCount h.free_nodup fun _ hp => h.free_managed hp

/-- A user entry maps a managed page of its own. -/
theorem AddrSpace.entry_managed (h : AddrSpace L s T F R) {k : ℕ} (hk : k ∈ userSlots)
    (hv : isValid (T.pte k) = true) : Managed L (ptePa (T.pte k)) :=
  h.frame_managed (mem_add.mpr (Or.inl (Tree.mem_mapped.mpr ⟨k, hk, hv, rfl⟩)))

theorem Space.freePage {pa : ℕ} {R' : Multiset ℕ} (h : Space L s T F R) (hR : R = {pa} + R') :
    Space L (s.freePage pa) T (pa :: F) R' := by
  subst hR
  have hmem : pa ∈ {pa} + R' := mem_add.mpr (Or.inl (mem_singleton_self pa))
  have hpa := h.frame_managed hmem
  have hpP : ∀ q ∈ ({pa} : Multiset ℕ), Managed L q := by
    intro q hq
    rw [mem_singleton.mp hq]
    exact hpa
  refine h.of_pool_eq ?_ ?_ ?_
  · rw [← pool_cons, add_right_comm T.tables, add_assoc (T.tables + ↑F)]
  · refine h.rep.congr (L := L) (agreeOff_freePage s pa) hpP
      (fun q hq => h.table_managed hq) ?_
    intro q hq hqp
    rw [mem_singleton.mp hqp] at hq
    exact h.table_not_frame hq hmem
  · exact h.free.freePage hpa (fun q hq => h.free_managed hq)
      (fun hF => h.free_not_frame hF hmem)

theorem AddrSpace.unmap (h : AddrSpace L s T F R) {k u : ℕ} (hk : k ∈ userSlots)
    (hu : T.l0 (k / 512) = some u) (hv : isValid (T.pte k) = true) :
    AddrSpace L ((s.freePage (ptePa (T.pte k))).setWord (u + 8 * (k % 512)) 0)
      (T.setPte k 0) (ptePa (T.pte k) :: F) R := by
  have htrade := Tree.mapped_setPte (T := T) hk 0
  rw [entryPage_valid hv, entryPage_invalid isValid_zero, add_zero] at htrade
  have hR : T.mapped + R = {ptePa (T.pte k)} + ((T.setPte k 0).mapped + R) := by
    rw [← htrade, ← add_assoc, add_comm {ptePa (T.pte k)}]
  exact (h.freePage hR).setPte (mem_userSlots.mp hk).1 hu (by norm_num)

end Entries

/-- Pages moved between the tree and the free list; nothing else changed. -/
structure Moved (L : Layout) (R : Multiset ℕ) (s : Ram) (T : Tree) (F : List ℕ)
    (s' : Ram) (T' : Tree) (F' : List ℕ) : Prop where
  root : T'.root = T.root
  pool : T'.owned + (↑F' : Multiset ℕ) = T.owned + ↑F
  space : AddrSpace L s' T' F' R
  agree : AgreeOff (T.owned + ↑F) s.mem s'.mem

/-- The user entries that are left are as before, and so are the bytes of their pages. -/
def Spared (s : Ram) (T : Tree) (s' : Ram) (T' : Tree) : Prop :=
  ∀ k ∈ userSlots, isValid (T'.pte k) = true → T'.pte k = T.pte k ∧
    ∀ off, off < pgSize → s'.mem (ptePa (T.pte k) + off) = s.mem (ptePa (T.pte k) + off)

section Moves

variable {L : Layout} {s : Ram} {T : Tree} {F : List ℕ} {R : Multiset ℕ} {E : Panic → Prop}
  {Q : Unit → Ram → Prop}

theorem Spared.trans {s' s'' : Ram} {T' T'' : Tree} (h : Spared s T s' T')
    (h' : Spared s' T' s'' T'') : Spared s T s'' T'' := by
  intro k hk hv
  obtain ⟨hpte', hmem'⟩ := h' k hk hv
  obtain ⟨hpte, hmem⟩ := h k hk (hpte' ▸ hv)
  refine ⟨hpte'.trans hpte, fun off hoff => ?_⟩
  rw [← hmem off hoff, ← hpte, hmem' off hoff]

/-- A change to tables and free pages only spares the user pages. -/
theorem AddrSpace.spared {s' : Ram} {T' : Tree} {F' : List ℕ} {P : Multiset ℕ}
    (h : AddrSpace L s' T' F' R) (hP : ∀ p ∈ P, p ∈ T'.tables + (↑F' : Multiset ℕ))
    (hag : AgreeOff P s.mem s'.mem)
    (hpte : ∀ k ∈ userSlots, isValid (T'.pte k) = true → T'.pte k = T.pte k) :
    Spared s T s' T' := by
  intro k hk hv
  refine ⟨hpte k hk hv, fun off hoff => ?_⟩
  rw [← hpte k hk hv]
  refine hag.page (h.entry_managed hk hv) ?_ ?_ (Nat.le_add_right _ _) (by omega)
  · exact fun p hp => h.managed p (mem_add.mpr (Or.inl (hP p hp)))
  · intro hp
    have hmem : ptePa (T'.pte k) ∈ T'.mapped + R :=
      mem_add.mpr (Or.inl (Tree.mem_mapped.mpr ⟨k, hk, hv, rfl⟩))
    exact disjoint_left.mp (nodup_add.mp h.nodup).2.2 (hP _ hp) hmem

theorem setPte_zero_valid {T : Tree} {k k' : ℕ} (h : isValid ((T.setPte k 0).pte k') = true) :
    (T.setPte k 0).pte k' = T.pte k' := by
  by_cases hk : k' = k
  · subst hk
    simp [Tree.setPte, isValid_zero] at h
  · simp only [Tree.setPte, update_of_ne hk]

theorem Moved.refl (h : AddrSpace L s T F R) : Moved L R s T F s T F :=
  ⟨rfl, rfl, h, AgreeOff.refl⟩

theorem Moved.trans {s' s'' : Ram} {T' T'' : Tree} {F' F'' : List ℕ}
    (h : Moved L R s T F s' T' F') (h' : Moved L R s' T' F' s'' T'' F'') :
    Moved L R s T F s'' T'' F'' :=
  ⟨h'.root.trans h.root, h'.pool.trans h.pool, h'.space, h.agree.trans (h.pool ▸ h'.agree)⟩

theorem Tree.owned_setPte_kernel {T : Tree} {k : ℕ} (hk : k ∉ userSlots) (w : ℕ) :
    (T.setPte k w).owned = T.owned := by
  unfold Tree.owned
  rw [Tree.mapped_setPte_kernel hk, Tree.tables_setPte]

theorem Grown.moved {s' : Ram} {T' : Tree} {F' : List ℕ}
    (h : Grown L (T.mapped + R) s T F s' T' F') : Moved L R s T F s' T' F' where
  root := h.grow.root
  pool := by
    unfold Tree.owned
    rw [h.grow.mapped, add_right_comm, h.grow.pool, add_right_comm]
  space := by
    have hs := h.space
    rw [← h.grow.mapped] at hs
    exact hs
  agree := by
    refine h.agree.mono ?_
    intro p hp
    unfold Tree.owned
    rw [add_right_comm]
    exact mem_add.mpr (Or.inl hp)

/-- Clearing one user entry and freeing its page is a move. -/
theorem AddrSpace.moved_unmap (h : AddrSpace L s T F R) {k u : ℕ} (hk : k ∈ userSlots)
    (hu : T.l0 (k / 512) = some u) (hv : isValid (T.pte k) = true) :
    Moved L R s T F ((s.freePage (ptePa (T.pte k))).setWord (u + 8 * (k % 512)) 0)
      (T.setPte k 0) (ptePa (T.pte k) :: F) := by
  have hk' := (mem_userSlots.mp hk).1
  have htrade := Tree.mapped_setPte (T := T) hk 0
  rw [entryPage_valid hv, entryPage_invalid isValid_zero, add_zero] at htrade
  refine ⟨rfl, ?_, h.unmap hk hu hv, ?_⟩
  · have hcons := pool_cons (T.tables + (T.setPte k 0).mapped) (ptePa (T.pte k)) F 0
    rw [add_zero, add_zero] at hcons
    unfold Tree.owned
    rw [Tree.tables_setPte, ← hcons, add_assoc T.tables, htrade]
  · refine AgreeOff.trans ((agreeOff_freePage s (ptePa (T.pte k))).mono ?_)
      ((agreeOff_setWord _ 0 (by omega)).mono ?_)
    · intro p hp
      rw [mem_singleton.mp hp]
      have hmem : ptePa (T.pte k) ∈ T.mapped := Tree.mem_mapped.mpr ⟨k, hk, hv, rfl⟩
      exact mem_add.mpr (Or.inl (mem_add.mpr (Or.inr hmem)))
    · intro p hp
      rw [mem_singleton.mp hp]
      have hmem : u ∈ T.tables := Tree.l0_mem (by omega) hu
      exact mem_add.mpr (Or.inl (mem_add.mpr (Or.inl hmem)))

/-- Clearing one user entry and freeing its page spares the other pages. -/
theorem AddrSpace.spared_unmap (h : AddrSpace L s T F R) {k u : ℕ} (hk : k ∈ userSlots)
    (hu : T.l0 (k / 512) = some u) (hv : isValid (T.pte k) = true) :
    Spared s T ((s.freePage (ptePa (T.pte k))).setWord (u + 8 * (k % 512)) 0) (T.setPte k 0) := by
  have hk' := (mem_userSlots.mp hk).1
  refine (h.unmap hk hu hv).spared (P := {ptePa (T.pte k)} + {u}) ?_ ?_
    fun k' _ hv' => setPte_zero_valid hv'
  · intro p hp
    rcases mem_add.mp hp with hp' | hp'
    · rw [mem_singleton.mp hp']
      exact mem_add.mpr (Or.inr (by simp))
    · rw [mem_singleton.mp hp', Tree.tables_setPte]
      exact mem_add.mpr (Or.inl (Tree.l0_mem (by omega) hu))
  · exact ((agreeOff_freePage s _).mono fun p hp => mem_add.mpr (Or.inl hp)).trans
      ((agreeOff_setWord _ 0 (by omega)).mono fun p hp => mem_add.mpr (Or.inr hp))

/-- Clear the entries of `n` pages of a range, from page `i` on. -/
def Tree.clearPages (T : Tree) (va : ℕ) : ℕ → ℕ → Tree
  | 0, _ => T
  | n + 1, i => (T.setPte (vpn (va + i * pgSize)) 0).clearPages va n (i + 1)

/-- Every page of a range is an address of its own and a leaf. -/
def Leaves (T : Tree) (va n i : ℕ) : Prop :=
  ∀ j, i ≤ j → j < i + n → va + j * pgSize < usizeSize ∧
    isLeaf (T.pte (vpn (va + j * pgSize))) = true ∧
    ∀ j', i ≤ j' → j' < j → vpn (va + j' * pgSize) ≠ vpn (va + j * pgSize)

theorem setPte_zero_leaf {T : Tree} {k k' : ℕ}
    (h : isLeaf ((T.setPte k 0).pte k') = true) : k' ≠ k ∧ isLeaf (T.pte k') = true := by
  by_cases hk : k' = k
  · subst hk
    simp [Tree.setPte, isLeaf, isValid_zero] at h
  · simp only [Tree.setPte, update_of_ne hk] at h
    exact ⟨hk, h⟩

theorem Leaves.tail {T : Tree} {va n i : ℕ} (h : Leaves T va (n + 1) i) :
    Leaves (T.setPte (vpn (va + i * pgSize)) 0) va n (i + 1) := by
  intro j hj hj'
  obtain ⟨h1, h2, h3⟩ := h j (by omega) (by omega)
  refine ⟨h1, ?_, fun j' hj1 hj2 => h3 j' (by omega) hj2⟩
  have hne : vpn (va + j * pgSize) ≠ vpn (va + i * pgSize) := (h3 i (le_refl i) (by omega)).symm
  simpa only [Tree.setPte, update_of_ne hne] using h2

/-- `uvmunmap` with freeing: it panics at a page that is no leaf, and moves
the pages of the range to the free list otherwise. -/
theorem wp_uvmunmapLoop {va n i : ℕ} (h : AddrSpace L s T F R)
    (huser : ∀ j, i ≤ j → j < i + n → F.length + (j - i) ≤ managedCount L →
      isLeaf (T.pte (vpn (va + j * pgSize))) = true → vpn (va + j * pgSize) ∈ userSlots)
    (hE : Leaves T va n i ∨ ∀ e, E e)
    (hQ : ∀ s' F', Moved L R s T F s' (T.clearPages va n i) F' →
      Spared s T s' (T.clearPages va n i) → F'.length = F.length + n →
      (∀ j, i ≤ j → j < i + n → isLeaf (T.pte (vpn (va + j * pgSize))) = true) → Q () s') :
    (uvmunmapLoop L T.root va true n i).wp E Q s := by
  induction n generalizing s T F i with
  | zero =>
    exact hQ s F (Moved.refl h) (fun k _ _ => ⟨rfl, fun _ _ => rfl⟩) rfl
      fun j h1 h2 => absurd h2 (by omega)
  | succ n ih =>
    have hbad : ∀ e, ¬ (va + i * pgSize < usizeSize ∧
        isLeaf (T.pte (vpn (va + i * pgSize))) = true) → E e := by
      intro e hnot
      rcases hE with hl | hall
      · obtain ⟨h1, h2, -⟩ := hl i (le_refl i) (by omega)
        exact absurd ⟨h1, h2⟩ hnot
      · exact hall e
    have hv := vpn_lt (va + i * pgSize)
    simp only [uvmunmapLoop, wp_bind, wp_mulUsize, wp_addUsize]
    refine ⟨fun _ => ⟨fun hsum => ?_, fun hover => hbad _ (by omega)⟩,
      fun hover => hbad _ (by omega)⟩
    refine wp_of_ok (walk_lookup h _) ?_
    simp only [wp_expect]
    refine ⟨?_, ?_⟩
    · intro a ha
      obtain ⟨u, hu, rfl⟩ := Option.map_eq_some_iff.mp ha
      have hentry := h.rep.l0_entry _ hv u hu
      simp only [loadPte, wp_bind, wp_get, wp_pure, hentry, wp_ite]
      refine ⟨fun hi => hbad _ ?_, fun hvalid => ⟨fun hnl => hbad _ ?_, fun hleaf => ?_⟩⟩
      · rintro ⟨-, hl⟩
        simp [isValid_of_isLeaf hl] at hi
      · rintro ⟨-, hl⟩
        simp [hl] at hnl
      · have hvalid' : isValid (T.pte (vpn (va + i * pgSize))) = true := by simpa using hvalid
        have hleaf' : isLeaf (T.pte (vpn (va + i * pgSize))) = true := by simpa using hleaf
        have hk := huser i (le_refl i) (by omega) (by have := h.length_free; omega) hleaf'
        have hmoved := h.moved_unmap hk hu hvalid'
        simp only [storePte, wp_modify]
        refine ⟨fun _ => ?_, fun hfalse => absurd trivial hfalse⟩
        refine wp_of_ok (kfree_apply (h.entry_managed hk hvalid') s) ?_
        refine ih (T := T.setPte (vpn (va + i * pgSize)) 0) hmoved.space ?_ ?_ ?_
        · intro j h1 h2 h3 h4
          obtain ⟨-, hj⟩ := setPte_zero_leaf h4
          refine huser j (by omega) (by omega) ?_ hj
          simp only [List.length_cons] at h3
          omega
        · exact hE.imp Leaves.tail id
        · intro s' F' hm hsp hlen hl
          refine hQ s' F' (hmoved.trans hm) ((h.spared_unmap hk hu hvalid').trans hsp) ?_ ?_
          · rw [hlen, List.length_cons]
            omega
          intro j h1 h2
          by_cases hji : j = i
          · subst hji
            exact hleaf'
          · exact (setPte_zero_leaf (hl j (by omega) (by omega))).2
    · intro hnone
      refine hbad _ ?_
      rintro ⟨-, hl⟩
      have hl0 : T.l0 (vpn (va + i * pgSize) / 512) = none := by simpa using hnone
      rw [h.rep.pte_none _ hv hl0] at hl
      simp [isLeaf, isValid_zero] at hl

theorem wp_uvmunmap {va n : ℕ} (h : AddrSpace L s T F R) (hva : va % pgSize = 0) (hn : 0 < n)
    (huser : ∀ j, j < n → F.length + j ≤ managedCount L →
      isLeaf (T.pte (vpn (va + j * pgSize))) = true → vpn (va + j * pgSize) ∈ userSlots)
    (hE : Leaves T va n 0 ∨ ∀ e, E e)
    (hQ : ∀ s' F', Moved L R s T F s' (T.clearPages va n 0) F' →
      Spared s T s' (T.clearPages va n 0) → F'.length = F.length + n →
      (∀ j, j < n → isLeaf (T.pte (vpn (va + j * pgSize))) = true) → Q () s') :
    (uvmunmap L T.root va n true).wp E Q s := by
  simp only [uvmunmap, wp_bind, wp_assert]
  refine ⟨fun _ => ⟨fun _ => ?_, fun hbad => by simp [hn] at hbad⟩, fun hbad => by simp [hva] at hbad⟩
  refine wp_uvmunmapLoop h ?_ hE ?_
  · intro j _ h2 h3 h4
    exact huser j (by omega) (by simpa using h3) h4
  · intro s' F' hm hsp hlen hl
    exact hQ s' F' hm hsp hlen fun j hj => hl j (Nat.zero_le j) (by omega)

/-- `uvmunmap` of one page that is kept: the entry is cleared. -/
theorem wp_uvmunmap_keep {va : ℕ} (h : AddrSpace L s T F R) (hva : va % pgSize = 0)
    (hva' : va < usizeSize) (hk : vpn va ∉ userSlots)
    (hE : isLeaf (T.pte (vpn va)) = true ∨ ∀ e, E e)
    (hQ : ∀ s', Moved L R s T F s' (T.setPte (vpn va) 0) F →
      Spared s T s' (T.setPte (vpn va) 0) → isLeaf (T.pte (vpn va)) = true → Q () s') :
    (uvmunmap L T.root va 1 false).wp E Q s := by
  have hv := vpn_lt va
  have hbad : ∀ e, ¬ isLeaf (T.pte (vpn va)) = true → E e :=
    fun e hnot => hE.elim (fun hl => absurd hl hnot) fun hall => hall e
  simp only [uvmunmap, uvmunmapLoop, wp_bind, wp_assert, wp_mulUsize, wp_addUsize,
    Nat.zero_mul, Nat.add_zero]
  refine ⟨fun _ => ⟨fun _ => ⟨fun _ => ⟨fun _ => ?_, fun hover => by omega⟩, fun hover => ?_⟩,
    fun hbad => by simp at hbad⟩, fun hbad => by simp [hva] at hbad⟩
  · refine wp_of_ok (walk_lookup h _) ?_
    simp only [wp_expect]
    refine ⟨?_, ?_⟩
    · intro a ha
      obtain ⟨u, hu, rfl⟩ := Option.map_eq_some_iff.mp ha
      have hentry := h.rep.l0_entry _ hv u hu
      simp only [loadPte, storePte, wp_bind, wp_get, wp_pure, wp_modify,
        hentry, wp_ite]
      refine ⟨fun hi => hbad _ ?_, fun hvalid => ⟨fun hnl => hbad _ ?_, fun hleaf => ?_⟩⟩
      · intro hl
        simp [isValid_of_isLeaf hl] at hi
      · intro hl
        simp [hl] at hnl
      · refine ⟨fun hfalse => absurd hfalse (by simp), fun _ => ?_⟩
        have hmem : ∀ p ∈ ({u} : Multiset ℕ), p ∈ T.tables := by
          intro p hp
          rw [mem_singleton.mp hp]
          exact Tree.l0_mem (by omega) hu
        have hspace : AddrSpace L (s.setWord (u + 8 * (vpn va % 512)) 0) (T.setPte (vpn va) 0) F R := by
          unfold AddrSpace
          rw [Tree.mapped_setPte_kernel hk]
          exact h.setPte hv hu (by norm_num)
        have hag := agreeOff_setWord (p := u) (i := vpn va % 512) s 0 (by omega)
        refine hQ _ ⟨rfl, by rw [Tree.owned_setPte_kernel hk], hspace, hag.mono ?_⟩
          (hspace.spared ?_ hag fun k' _ hv' => setPte_zero_valid hv') (by simpa using hleaf)
        · exact fun p hp => mem_add.mpr (Or.inl (mem_add.mpr (Or.inl (hmem p hp))))
        · rw [Tree.tables_setPte]
          exact fun p hp => mem_add.mpr (Or.inl (hmem p hp))
    · intro hnone
      refine hbad _ ?_
      intro hl
      have hl0 : T.l0 (vpn va / 512) = none := by simpa using hnone
      rw [h.rep.pte_none _ hv hl0] at hl
      simp [isLeaf, isValid_zero] at hl
  · unfold usizeSize at hover
    omega

theorem Tree.clearPages_pte_of_not {T : Tree} {va n i k : ℕ}
    (h : ∀ j, i ≤ j → j < i + n → vpn (va + j * pgSize) ≠ k) :
    (T.clearPages va n i).pte k = T.pte k := by
  induction n generalizing T i with
  | zero => rfl
  | succ n ih =>
    have hne := h i (le_refl i) (by omega)
    rw [Tree.clearPages, ih fun j h1 h2 => h j (by omega) (by omega)]
    simp only [Tree.setPte, update_of_ne hne.symm]

theorem Tree.clearPages_pte_zero {T : Tree} {va n i k : ℕ} (h : T.pte k = 0) :
    (T.clearPages va n i).pte k = 0 := by
  induction n generalizing T i with
  | zero => exact h
  | succ n ih =>
    refine ih ?_
    by_cases hk : k = vpn (va + i * pgSize)
    · simp [Tree.setPte, hk]
    · simpa only [Tree.setPte, update_of_ne hk] using h

theorem Tree.clearPages_pte_of_mem {T : Tree} {va n i j : ℕ} (h1 : i ≤ j) (h2 : j < i + n) :
    (T.clearPages va n i).pte (vpn (va + j * pgSize)) = 0 := by
  induction n generalizing T i with
  | zero => omega
  | succ n ih =>
    rw [Tree.clearPages]
    by_cases hji : j = i
    · subst hji
      have hzero : (T.setPte (vpn (va + j * pgSize)) 0).pte (vpn (va + j * pgSize)) = 0 := by
        simp [Tree.setPte]
      exact Tree.clearPages_pte_zero hzero
    · exact ih (by omega) (by omega)

end Moves

end ToyOs
