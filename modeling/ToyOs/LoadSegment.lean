import ToyOs.ProcPagetable
import ToyOs.Loader
import ToyOs.Filled

/-!
One segment of an executable. `SegInv` is the state of the page loop of
`load_segment_from_inode`: the pages mapped so far are leaves of the segment's
permission at entries that were free. Every failure exit unmaps exactly
these pages; the exit panics when the segment grants no access, because its
entries are then no leaves.
-/
namespace ToyOs

open Bytes Prog Function List Nat

/-- The segment grants some access, so its entries are leaves. -/
def Phdr.leaf (ph : Phdr) : Bool := ph.perm &&& (pteR ||| pteW ||| pteX) != 0

/-- Entry index of page `j` of a segment. -/
def Phdr.slot (ph : Phdr) (j : ℕ) : ℕ := vpn (ph.vaddr + j * pgSize)

/-- The file bytes for page `j` are there. -/
def Phdr.chunk (ph : Phdr) (content : List UInt8) (j : ℕ) : Prop :=
  j * pgSize < ph.filesz → ph.offset + j * pgSize < 2 ^ 32 ∧
    ph.offset + j * pgSize + min pgSize (ph.filesz - j * pgSize) ≤ content.length

/-- Byte `i` of the segment: the file's, and zero from `filesz` on. -/
def Phdr.byte (ph : Phdr) (content : List UInt8) (i : ℕ) : UInt8 :=
  if i < ph.filesz then content.getD (ph.offset + i) 0 else 0

theorem Phdr.perm_lt (ph : Phdr) : ph.perm < 1024 := by
  unfold Phdr.perm
  split_ifs <;> decide

theorem Phdr.isLeaf_word (ph : Phdr) (pa : ℕ) : isLeaf (leafWord pa ph.perm) = ph.leaf :=
  isLeaf_leafWord pa ph.perm

/-- Two trees with the same valid entries. -/
def Tree.SameEntries (T T' : Tree) : Prop :=
  ∀ k, k < 2 ^ 27 → T'.pte k = T.pte k ∨ T'.pte k = 0 ∧ isValid (T.pte k) = false

/-- The kernel entries are in place. -/
structure Tree.Fixed (L : Layout) (trapframe : ℕ) (T : Tree) : Prop where
  trampoline : T.pte (2 ^ 26 - 1) = leafWord L.trampolineStart (pteR ||| pteX)
  trapframe : T.pte (2 ^ 26 - 2) = leafWord trapframe (pteR ||| pteW)

section Entries

variable {L : Layout} {T T' : Tree} {tf : ℕ}

theorem Tree.KernelOnly.kernel (h : T.KernelOnly L tf) : T.Fixed L tf :=
  ⟨h.trampoline, h.trapframe⟩

/-- A free entry belongs to the process. -/
theorem Tree.Fixed.user (h : T.Fixed L tf) {k : ℕ} (hk : k < 2 ^ 27)
    (hinv : isValid (T.pte k) = false) : k ∈ userSlots := by
  rw [mem_userSlots]
  refine ⟨hk, ?_, ?_⟩
  · rintro rfl
    rw [h.trampoline, isValid_leafWord] at hinv
    exact absurd hinv (by decide)
  · rintro rfl
    rw [h.trapframe, isValid_leafWord] at hinv
    exact absurd hinv (by decide)

theorem Tree.SameEntries.refl : T.SameEntries T := fun _ _ => Or.inl rfl

theorem Tree.SameEntries.valid (h : T.SameEntries T') {k : ℕ} (hk : k < 2 ^ 27)
    (hv : isValid (T.pte k) = true) : T'.pte k = T.pte k := by
  rcases h k hk with heq | ⟨-, hinv⟩
  · exact heq
  · simp [hv] at hinv

theorem Tree.SameEntries.isValid_eq (h : T.SameEntries T') {k : ℕ} (hk : k < 2 ^ 27) :
    isValid (T'.pte k) = isValid (T.pte k) := by
  rcases h k hk with heq | ⟨hz, hinv⟩
  · rw [heq]
  · rw [hz, hinv]
    rfl

theorem Tree.SameEntries.kernel (h : T.SameEntries T') (hk : T.Fixed L tf) : T'.Fixed L tf := by
  have h1 := h.valid (by omega : 2 ^ 26 - 1 < 2 ^ 27)
    (by rw [hk.trampoline]; exact isValid_leafWord _ _)
  have h2 := h.valid (by omega : 2 ^ 26 - 2 < 2 ^ 27)
    (by rw [hk.trapframe]; exact isValid_leafWord _ _)
  exact ⟨h1.trans hk.trampoline, h2.trans hk.trapframe⟩

end Entries

/-- `n` pages of the segment are mapped over the tree `T0`. -/
structure SegInv (L : Layout) (R : Multiset ℕ) (ph : Phdr) (content : List UInt8)
    (s0 : Ram) (T0 : Tree) (F0 : List ℕ) (s : Ram) (T : Tree) (F : List ℕ) (n : ℕ) : Prop where
  moved : Moved L R s0 T0 F0 s T F
  word : ∀ j, j < n → ∃ pa, T.pte (ph.slot j) = leafWord pa ph.perm
  fresh : ∀ j, j < n → isValid (T0.pte (ph.slot j)) = false
  bound : ∀ j, j < n → ph.vaddr + j * pgSize + 2 * pgSize < usizeSize
  distinct : ∀ j, j < n → ∀ j', j' < j → ph.slot j' ≠ ph.slot j
  data : ∀ j, j < n → ph.chunk content j
  other : ∀ k, (∀ j, j < n → ph.slot j ≠ k) → T.pte k = T0.pte k

/-- The entries of the first `n` pages of a segment. -/
def Phdr.slots (ph : Phdr) (n : ℕ) : Finset ℕ := (Finset.range n).image ph.slot

/-- The first `n` pages of a segment can be filled and mapped beside the
entries `V`: `free` pages are enough for all of them and for the tables that
`G` lacks. -/
structure Phdr.Fits (ph : Phdr) (content : List UInt8) (G : Tree) (free : ℕ) (V : Finset ℕ)
    (n : ℕ) : Prop where
  chunk : ∀ j, j < n → ph.chunk content j
  low : ∀ j, j < n → ph.vaddr + j * pgSize + 2 * pgSize < usizeSize
  entry : ∀ j, j < n → ph.slot j ∈ userSlots ∧ ph.slot j ∉ V ∪ ph.slots j
  room : G.need (V ∪ ph.slots n) ≤ free

/-- Page `n` is the first that cannot be had, and the pages before it can be
unmapped. An address at the very end of the range is no failure but an
overflow, once a page for it is there. -/
structure Phdr.StopsAt (ph : Phdr) (content : List UInt8) (G : Tree) (free : ℕ) (V : Finset ℕ)
    (n : ℕ) : Prop where
  fits : ph.Fits content G free V n
  ends : ¬ ph.Fits content G free V (n + 1)
  undo : n = 0 ∨ ph.leaf = true
  low : G.need (V ∪ ph.slots n) < free → ph.chunk content n →
    ph.vaddr + n * pgSize + 2 * pgSize < usizeSize

/-- The header is loaded. -/
structure Phdr.Loads (ph : Phdr) (content : List UInt8) (G : Tree) (free : ℕ)
    (V : Finset ℕ) : Prop where
  aligned : ph.vaddr % pgSize = 0
  le : ph.filesz ≤ ph.memsz
  fits : ph.Fits content G free V (pages ph.memsz)

/-- The header is refused, and none of its pages stays mapped. -/
def Phdr.Stops (ph : Phdr) (content : List UInt8) (G : Tree) (free : ℕ) (V : Finset ℕ) : Prop :=
  ph.vaddr % pgSize ≠ 0 ∨ ph.memsz < ph.filesz ∨
    ∃ n, n < pages ph.memsz ∧ ph.StopsAt content G free V n

section Fitting

variable {ph : Phdr} {content : List UInt8} {G T : Tree} {free m n : ℕ} {V : Finset ℕ}
  {FG F : List ℕ}

theorem Phdr.mem_slots {k : ℕ} : k ∈ ph.slots n ↔ ∃ j, j < n ∧ ph.slot j = k := by
  simp [Phdr.slots]

theorem Phdr.slots_succ (ph : Phdr) (n : ℕ) : ph.slots (n + 1) = ph.slots n ∪ {ph.slot n} := by
  unfold Phdr.slots
  rw [Finset.range_add_one, Finset.image_insert, Finset.insert_eq, Finset.union_comm]

theorem Phdr.slots_mono (ph : Phdr) (h : m ≤ n) : ph.slots m ⊆ ph.slots n :=
  Finset.image_subset_image (Finset.range_mono h)

theorem Phdr.Fits.anti (h : ph.Fits content G free V n) (hle : m ≤ n) :
    ph.Fits content G free V m where
  chunk := fun j hj => h.chunk j (by omega)
  low := fun j hj => h.low j (by omega)
  entry := fun j hj => h.entry j (by omega)
  room := le_trans (G.need_mono (Finset.union_subset_union_right (ph.slots_mono hle))) h.room

/-- There is one page at which a segment stops. -/
theorem Phdr.StopsAt.unique (h : ph.StopsAt content G free V n)
    (hm : ph.Fits content G free V m) (hm' : ¬ ph.Fits content G free V (m + 1)) : n = m := by
  rcases lt_trichotomy n m with hlt | heq | hgt
  · exact absurd (hm.anti hlt) h.ends
  · exact heq
  · exact absurd (h.fits.anti hgt) hm'

/-- A segment that fits is not stopped. -/
theorem Phdr.StopsAt.not_fits (h : ph.StopsAt content G free V n) (hlt : n < m) :
    ¬ ph.Fits content G free V m := fun hm => h.ends (hm.anti hlt)

theorem Phdr.Loads.not_stops (h : ph.Loads content G free V) : ¬ ph.Stops content G free V := by
  rintro (hva | hsz | ⟨n, hn, hstop⟩)
  · exact hva h.aligned
  · have := h.le
    omega
  · exact hstop.not_fits hn h.fits

/-- When one more page fits, there are free pages for it. -/
theorem Phdr.Fits.need_le (h : ph.Fits content G FG.length V (n + 1))
    (hpaid : Paid G FG (V ∪ ph.slots n) T F) : T.need {ph.slot n} ≤ F.length := by
  have hroom := h.room
  have hnew := (h.entry n (lt_succ_self n)).2
  rw [ph.slots_succ, ← Finset.union_assoc,
    hpaid.need_union (Finset.disjoint_singleton_right.mpr hnew), hpaid.count] at hroom
  omega

end Fitting

section Segment

variable {L : Layout} {R : Multiset ℕ} {ph : Phdr} {content : List UInt8} {s0 s s' : Ram}
  {T0 T T' : Tree} {F0 F F' : List ℕ} {n tf : ℕ} {E : Panic → Prop}

theorem SegInv.init (h : AddrSpace L s T F R) : SegInv L R ph content s T F s T F 0 where
  moved := Moved.refl h
  word := fun j hj => absurd hj (not_lt_zero j)
  fresh := fun j hj => absurd hj (not_lt_zero j)
  bound := fun j hj => absurd hj (not_lt_zero j)
  distinct := fun j hj => absurd hj (not_lt_zero j)
  data := fun j hj => absurd hj (not_lt_zero j)
  other := fun _ _ => rfl

theorem SegInv.move (h : SegInv L R ph content s0 T0 F0 s T F n)
    (hm : Moved L R s T F s' T' F') (hpte : T'.pte = T.pte) :
    SegInv L R ph content s0 T0 F0 s' T' F' n where
  moved := h.moved.trans hm
  word := fun j hj => by rw [hpte]; exact h.word j hj
  fresh := h.fresh
  bound := h.bound
  distinct := h.distinct
  data := h.data
  other := fun k hk => by rw [hpte]; exact h.other k hk

/-- A free entry of the current tree was free before and is not one of the segment's. -/
theorem SegInv.fresh_slot (h : SegInv L R ph content s0 T0 F0 s T F n) {k : ℕ}
    (hinv : isValid (T.pte k) = false) :
    (∀ j, j < n → ph.slot j ≠ k) ∧ isValid (T0.pte k) = false := by
  have hne : ∀ j, j < n → ph.slot j ≠ k := by
    rintro j hj rfl
    obtain ⟨pa, hpa⟩ := h.word j hj
    simp [hpa, isValid_leafWord] at hinv
  refine ⟨hne, ?_⟩
  rw [← h.other k hne]
  exact hinv

theorem SegInv.step (h : SegInv L R ph content s0 T0 F0 s T F n) {pa : ℕ}
    (hinv : isValid (T.pte (ph.slot n)) = false)
    (hb : ph.vaddr + n * pgSize + 2 * pgSize < usizeSize) (hdata : ph.chunk content n)
    (hpte : T'.pte = update T.pte (ph.slot n) (leafWord pa ph.perm))
    (hm : Moved L R s T F s' T' F') : SegInv L R ph content s0 T0 F0 s' T' F' (n + 1) := by
  obtain ⟨hne, hfresh⟩ := h.fresh_slot hinv
  refine ⟨h.moved.trans hm, ?_, ?_, ?_, ?_, ?_, ?_⟩
  · intro j hj
    by_cases hjn : j = n
    · subst hjn
      exact ⟨pa, by rw [hpte, update_self]⟩
    · obtain ⟨pa', hpa'⟩ := h.word j (by omega)
      exact ⟨pa', by rw [hpte, update_of_ne (hne j (by omega)), hpa']⟩
  · intro j hj
    by_cases hjn : j = n
    · exact hjn ▸ hfresh
    · exact h.fresh j (by omega)
  · intro j hj
    by_cases hjn : j = n
    · exact hjn ▸ hb
    · exact h.bound j (by omega)
  · intro j hj j' hj'
    by_cases hjn : j = n
    · subst hjn
      exact hne j' hj'
    · exact h.distinct j (by omega) j' hj'
  · intro j hj
    by_cases hjn : j = n
    · exact hjn ▸ hdata
    · exact h.data j (by omega)
  · intro k hk
    have hkn : k ≠ ph.slot n := (hk n (by omega)).symm
    rw [hpte, update_of_ne hkn]
    exact h.other k fun j hj => hk j (by omega)

theorem SegInv.valid (h : SegInv L R ph content s0 T0 F0 s T F n) (j : ℕ) (hj : j < n) :
    isValid (T.pte (ph.slot j)) = true := by
  obtain ⟨pa, hpa⟩ := h.word j hj
  rw [hpa]
  exact isValid_leafWord _ _

/-- The mapped pages of the segment are leaves when it grants access. -/
theorem SegInv.leaves (h : SegInv L R ph content s0 T0 F0 s T F n) (hleaf : ph.leaf = true) :
    Leaves T ph.vaddr n 0 := by
  intro j _ hj
  obtain ⟨pa, hpa⟩ := h.word j (by omega)
  have hb := h.bound j (by omega)
  refine ⟨by omega, ?_, fun j' _ hj' => h.distinct j (by omega) j' hj'⟩
  have hword : isLeaf (T.pte (ph.slot j)) = true := by
    rw [hpa, ph.isLeaf_word]
    exact hleaf
  exact hword

/-- A page of the segment that is a leaf: the segment grants access. -/
theorem SegInv.leaf_of_leaf (h : SegInv L R ph content s0 T0 F0 s T F n) {j : ℕ} (hj : j < n)
    (hleaf : isLeaf (T.pte (ph.slot j)) = true) : ph.leaf = true := by
  obtain ⟨pa, hpa⟩ := h.word j hj
  rwa [hpa, ph.isLeaf_word] at hleaf

theorem SegInv.wp_unmapSegment (h : SegInv L R ph content s0 T0 F0 s T F n)
    (hk : T0.Fixed L tf) (hva : ph.vaddr % pgSize = 0) {Q : Unit → Ram → Prop}
    (hE : ph.leaf = true ∨ n = 0 ∨ ∀ e, E e)
    (hQ : ∀ s' T' F', n = 0 ∨ ph.leaf = true → Moved L R s0 T0 F0 s' T' F' → T0.SameEntries T' →
      Q () s') :
    (unmapSegment L T.root ph.vaddr n).wp E Q s := by
  unfold unmapSegment
  by_cases hn : 0 < n
  · rw [if_pos hn]
    refine wp_uvmunmap h.moved.space hva hn ?_ ?_ ?_
    · intro j hj _ _
      exact hk.user (vpn_lt _) (h.fresh j hj)
    · rcases hE with hleaf | hzero | hall
      · exact Or.inl (h.leaves hleaf)
      · omega
      · exact Or.inr hall
    · intro s' F' hm _ _ hleaves
      refine hQ s' _ F' (Or.inr (h.leaf_of_leaf hn (hleaves 0 hn))) (h.moved.trans hm) ?_
      intro k _
      by_cases hmem : ∃ j, j < n ∧ ph.slot j = k
      · obtain ⟨j, hj, rfl⟩ := hmem
        exact Or.inr ⟨Tree.clearPages_pte_of_mem (zero_le j) (by omega), h.fresh j hj⟩
      · have hnot : ∀ j, j < n → ph.slot j ≠ k := fun j hj heq => hmem ⟨j, hj, heq⟩
        left
        rw [Tree.clearPages_pte_of_not fun j _ hj => hnot j (by omega)]
        exact h.other k hnot
  · rw [if_neg hn]
    obtain rfl : n = 0 := by omega
    refine hQ s T F (Or.inl rfl) h.moved ?_
    intro k _
    exact Or.inl (h.other k fun j hj => absurd hj (not_lt_zero j))

/-- The pages mapped by different user entries are different managed pages. -/
theorem AddrSpace.count_le (h : AddrSpace L s T F R) (f : ℕ → ℕ)
    (hinj : ∀ j, j < n → ∀ j', j' < j → f j' ≠ f j) (hf : ∀ j, j < n → f j ∈ userSlots)
    (hv : ∀ j, j < n → isValid (T.pte (f j)) = true) : n ≤ managedCount L := by
  have hnodup : (((List.range n).map fun j => ptePa (T.pte (f j)))).Nodup := by
    refine List.Nodup.map_on ?_ nodup_range
    intro j hj j' hj' heq
    have hj1 := mem_range.mp hj
    have hj2 := mem_range.mp hj'
    have hmapped : (∑ k ∈ userSlots, entryPage (T.pte k)).Nodup :=
      (Multiset.nodup_add.mp (Multiset.nodup_add.mp h.nodup).2.1).1
    have hmem : ∀ i, i < n → ptePa (T.pte (f i)) ∈ entryPage (T.pte (f i)) := by
      intro i hi
      rw [entryPage_valid (hv i hi)]
      exact Multiset.mem_singleton_self _
    have hfeq : f j = f j' := Sums.eq_of_mem_of_nodup_sum hmapped (hf j hj1) (hf j' hj2)
      (hmem j hj1) (heq ▸ hmem j' hj2)
    rcases lt_trichotomy j j' with hlt | heq' | hgt
    · exact absurd hfeq (hinj j' hj2 j hlt)
    · exact heq'
    · exact absurd hfeq.symm (hinj j hj1 j' hgt)
  have hlen := length_le_managedCount (L := L) hnodup ?_
  · simpa using hlen
  · intro p hp
    obtain ⟨j, hj, rfl⟩ := mem_map.mp hp
    have hj' := mem_range.mp hj
    exact h.entry_managed (hf j hj') (hv j hj')

theorem SegInv.count_le (h : SegInv L R ph content s0 T0 F0 s T F n) (hk : T0.Fixed L tf) :
    n ≤ managedCount L := by
  refine AddrSpace.count_le h.moved.space ph.slot h.distinct ?_ h.valid
  exact fun j hj => hk.user (vpn_lt _) (h.fresh j hj)

theorem SegInv.kernel (h : SegInv L R ph content s0 T0 F0 s T F n) (hk : T0.Fixed L tf) :
    T.Fixed L tf := by
  have hkeep : ∀ k, k < 2 ^ 27 → k ∉ userSlots → T.pte k = T0.pte k := by
    intro k _ hnu
    refine h.other k ?_
    rintro j hj rfl
    exact hnu (hk.user (vpn_lt _) (h.fresh j hj))
  refine ⟨?_, ?_⟩
  · rw [hkeep _ (by omega) (by rw [mem_userSlots]; omega)]
    exact hk.trampoline
  · rw [hkeep _ (by omega) (by rw [mem_userSlots]; omega)]
    exact hk.trapframe

theorem agreeOff_write (m : Store) (p : ℕ) (bytes : List UInt8) (h : bytes.length ≤ pgSize) :
    AgreeOff {p} m (write m p bytes) := by
  intro x hx
  have hp := hx p (Multiset.mem_singleton_self p)
  exact write_outside (by omega)

/-- The pages of the segment that are mapped hold its bytes. -/
abbrev SegData (ph : Phdr) (content : List UInt8) (s0 : Ram) (T0 : Tree) (F0 : List ℕ) (s : Ram)
    (T : Tree) (F : List ℕ) (n : ℕ) : Prop :=
  Filled s0 T0 F0 s T F ph.slot (fun j off => ph.byte content (j * pgSize + off)) n

/-- A zeroed page after a full read of its file bytes. -/
theorem Phdr.byte_write {m : Store} {pa j off : ℕ} (hzero : m (pa + off) = 0) (hoff : off < pgSize)
    (hchunk : ph.offset + j * pgSize + min pgSize (ph.filesz - j * pgSize) ≤ content.length) :
    write m pa ((content.drop (ph.offset + j * pgSize)).take
      (min pgSize (ph.filesz - j * pgSize))) (pa + off) = ph.byte content (j * pgSize + off) := by
  unfold write Phdr.byte
  simp only [length_take, length_drop]
  by_cases hlt : j * pgSize + off < ph.filesz
  · rw [if_pos (by omega), if_pos hlt, Nat.add_sub_cancel_left, getD_eq_getElem?_getD,
      List.getElem?_take, if_pos (by omega), List.getElem?_drop, getD_eq_getElem?_getD,
      Nat.add_assoc]
  · rw [if_neg (by omega), if_neg hlt, hzero]

/-- Filling a zeroed page reports whether the file had the bytes. -/
theorem Taken.wp_fillPage {pa j : ℕ} (h : Taken L R s T F s' pa F') {Q : Bool → Ram → Prop}
    (hzero : ∀ x, pa ≤ x → x < pa + pgSize → s'.mem x = 0)
    (hover : j * pgSize < ph.filesz → usizeSize ≤ ph.offset + j * pgSize → E .overflow)
    (hgood : ∀ s'', Taken L R s T F s'' pa F' → ph.chunk content j →
      (∀ off, off < pgSize → s''.mem (pa + off) = ph.byte content (j * pgSize + off)) → Q true s'')
    (hbad : ∀ s'', Taken L R s T F s'' pa F' → ¬ ph.chunk content j → Q false s'') :
    (fillPage ph content pa (j * pgSize)).wp E Q s' := by
  unfold fillPage
  by_cases hlt : j * pgSize < ph.filesz
  · simp only [if_pos hlt, wp_bind, wp_addUsize]
    refine ⟨fun _ => ?_, hover hlt⟩
    unfold readi
    by_cases hoff : ph.offset + j * pgSize < 2 ^ 32
    · simp only [if_pos hoff, wp_bind, wp_modify, wp_pure]
      generalize hb : List.take (min pgSize (ph.filesz - j * pgSize))
        (List.drop (ph.offset + j * pgSize) content) = bytes
      have hlen : bytes.length =
          min (min pgSize (ph.filesz - j * pgSize)) (content.length - (ph.offset + j * pgSize)) := by
        rw [← hb, length_take, length_drop]
      have ht := h.write (agreeOff_write s'.mem pa bytes (by omega))
      by_cases hfull : bytes.length = min pgSize (ph.filesz - j * pgSize)
      · have hchunk : ph.offset + j * pgSize + min pgSize (ph.filesz - j * pgSize) ≤
            content.length := by
          unfold pgSize at *
          omega
        have hq := hgood _ ht (fun _ => ⟨hoff, hchunk⟩) fun off hlt => by
          rw [← hb]
          exact ph.byte_write (hzero _ (le_add_right _ _) (by omega)) hlt hchunk
        simpa [hfull] using hq
      · have hq := hbad _ ht fun hc => hfull (by
          have := (hc hlt).2
          omega)
        have hne : (bytes.length == min pgSize (ph.filesz - j * pgSize)) = false := by
          simpa using hfull
        rw [hne]
        exact hq
    · simp only [if_neg hoff, wp_pure]
      exact hbad s' h fun hc => hoff (hc hlt).1
  · simp only [if_neg hlt, wp_pure]
    refine hgood s' h (fun hc => absurd hc hlt) fun off hoff => ?_
    rw [hzero _ (le_add_right _ _) (by omega)]
    exact (if_neg (by omega)).symm

theorem SegInv.offset_lt (h : SegInv L R ph content s0 T0 F0 s T F n) (hk : T0.Fixed L tf)
    (hoff : ph.offset < 2 ^ 64) (hlt : n * pgSize < ph.filesz) :
    ph.offset + n * pgSize < usizeSize := by
  have hcount := h.count_le hk
  have hmax := managedCount_lt L
  by_cases hn : n = 0
  · rw [hn, zero_mul, add_zero]
    exact hoff
  · have hd := (h.data 0 (pos_of_ne_zero hn) (by rw [zero_mul]; exact zero_lt_of_lt hlt)).1
    rw [zero_mul, add_zero] at hd
    unfold usizeSize pgSize
    omega

/-- The free list has paid for the pages mapped so far, over the entries `V`. -/
structure Charged (G : Tree) (FG : List ℕ) (V : Finset ℕ) (ph : Phdr) (T0 T : Tree) (F : List ℕ)
    (n : ℕ) : Prop where
  paid : Paid G FG (V ∪ ph.slots n) T F
  before : ∀ k ∈ userSlots, isValid (T0.pte k) = true ↔ k ∈ V

section Budget

variable {G : Tree} {FG : List ℕ} {V : Finset ℕ} {Q : Option Unit → Ram → Prop}

theorem Charged.init (h : Paid G FG V T F)
    (hV : ∀ k ∈ userSlots, isValid (T.pte k) = true ↔ k ∈ V) : Charged G FG V ph T T F 0 where
  paid := by
    rw [show V ∪ ph.slots 0 = V by simp [Phdr.slots]]
    exact h
  before := hV

/-- A free entry is neither one of the segment's nor one of those before it. -/
theorem SegInv.not_mem (h : SegInv L R ph content s0 T0 F0 s T F n) (hk : T0.Fixed L tf)
    (hc : Charged G FG V ph T0 T F n) {k : ℕ} (hlt : k < 2 ^ 27) (hinv : isValid (T.pte k) = false) :
    k ∈ userSlots ∧ k ∉ V ∪ ph.slots n := by
  obtain ⟨hne, hfresh⟩ := h.fresh_slot hinv
  have huser := hk.user hlt hfresh
  refine ⟨huser, fun hmem => ?_⟩
  rcases Finset.mem_union.mp hmem with hV | hseg
  · rw [(hc.before k huser).mpr hV] at hfresh
    exact Bool.noConfusion hfresh
  · obtain ⟨j, hj, rfl⟩ := Phdr.mem_slots.mp hseg
    exact hne j hj rfl

/-- The pages that are mapped fit. -/
theorem SegInv.fits (h : SegInv L R ph content s0 T0 F0 s T F n) (hk : T0.Fixed L tf)
    (hc : Charged G FG V ph T0 T F n) : ph.Fits content G FG.length V n where
  chunk := h.data
  low := h.bound
  entry := by
    intro j hj
    have huser : ph.slot j ∈ userSlots := hk.user (vpn_lt _) (h.fresh j hj)
    refine ⟨huser, fun hmem => ?_⟩
    rcases Finset.mem_union.mp hmem with hV | hseg
    · have hfresh := h.fresh j hj
      rw [(hc.before _ huser).mpr hV] at hfresh
      exact Bool.noConfusion hfresh
    · obtain ⟨j', hj', heq⟩ := Phdr.mem_slots.mp hseg
      exact h.distinct j hj j' hj' heq
  room := by
    have := hc.paid.count
    omega

/-- The entry of a page that fits is free. -/
theorem SegInv.free_of_fits (h : SegInv L R ph content s0 T0 F0 s T F n)
    (hc : Charged G FG V ph T0 T F n) (hfit : ph.Fits content G FG.length V (n + 1)) :
    isValid (T.pte (ph.slot n)) = false := by
  obtain ⟨huser, hnew⟩ := hfit.entry n (lt_succ_self n)
  rw [Finset.mem_union, not_or] at hnew
  rw [h.other _ fun j hj heq => hnew.2 (Phdr.mem_slots.mpr ⟨j, hj, heq⟩)]
  by_contra hv
  exact hnew.1 ((hc.before _ huser).mp (by simpa using hv))

theorem Charged.step (hc : Charged G FG V ph T0 T F n) (hpaid : Paid T F {ph.slot n} T' F')
    (hnew : ph.slot n ∉ V ∪ ph.slots n) : Charged G FG V ph T0 T' F' (n + 1) where
  paid := by
    rw [ph.slots_succ, ← Finset.union_assoc]
    exact hc.paid.trans hpaid (Finset.disjoint_singleton_right.mpr hnew)
  before := hc.before

/-- The page loop of a segment: all pages are mapped, or none is left. -/
theorem SegInv.wp_loop {m : ℕ} (h : SegInv L R ph content s0 T0 F0 s T F m)
    (hbytes : SegData ph content s0 T0 F0 s T F m) (hk : T0.Fixed L tf)
    (hc : Charged G FG V ph T0 T F m) (hva : ph.vaddr % pgSize = 0) (hoff : ph.offset < 2 ^ 64)
    (hE : ph.Fits content G FG.length V (pages ph.memsz) ∨
      (∃ n, n < pages ph.memsz ∧ ph.StopsAt content G FG.length V n) ∨ ∀ e, E e)
    (hn : m + n = pages ph.memsz)
    (hfail : ∀ s' T' F', (∃ n, n < pages ph.memsz ∧ ph.StopsAt content G FG.length V n) →
      Moved L R s0 T0 F0 s' T' F' → T0.SameEntries T' → Q none s')
    (hdone : ∀ s' T' F', Charged G FG V ph T0 T' F' (pages ph.memsz) →
      SegInv L R ph content s0 T0 F0 s' T' F' (pages ph.memsz) →
      SegData ph content s0 T0 F0 s' T' F' (pages ph.memsz) → Q (some ()) s') :
    (loadSegmentLoop L T.root ph content n m).wp E Q s := by
  induction n generalizing s T F m with
  | zero =>
    rw [add_zero] at hn
    exact hdone s T F (hn ▸ hc) (hn ▸ h) (hn ▸ hbytes)
  | succ n ih =>
    have hfit := h.fits hk hc
    have hpaid := hc.paid.count
    -- A page that does not fit: the pages before it are unmapped.
    have hundo : ∀ s' T' F', ¬ ph.Fits content G FG.length V (m + 1) →
        (G.need (V ∪ ph.slots m) < FG.length → ph.chunk content m →
          ph.vaddr + m * pgSize + 2 * pgSize < usizeSize) →
        Moved L R s T F s' T' F' → T'.pte = T.pte →
        (unmapSegment L T.root ph.vaddr m).wp E (fun _ s'' => Q none s'') s' := by
      intro s' T' F' hends hlow hm hpte
      have hrollback : ph.leaf = true ∨ m = 0 ∨ ∀ e, E e := by
        rcases hE with hall | ⟨n', -, hstop⟩ | hany
        · exact absurd (hall.anti (by omega)) hends
        · rw [← hstop.unique hfit hends]
          exact hstop.undo.symm.imp_right Or.inl
        · exact Or.inr (Or.inr hany)
      rw [← hm.root]
      refine (h.move hm hpte).wp_unmapSegment hk hva hrollback fun s'' T'' F'' hleaf => ?_
      exact hfail s'' T'' F'' ⟨m, by omega, hfit, hends, hleaf, hlow⟩
    simp only [loadSegmentLoop, wp_bind]
    refine wp_kallocZeroed_taken h.moved.space ?_ ?_
    · intro hnil
      rw [hnil, length_nil] at hpaid
      simp only [wp_bind, wp_pure]
      refine hundo s T F (fun hnext => ?_) (fun hlt => absurd hlt (by omega))
        (Moved.refl h.moved.space) rfl
      have hneed := hnext.need_le hc.paid
      rw [hnil, Tree.need_singleton, length_nil] at hneed
      omega
    · intro pa F1 s1 htaken hzero
      have hpa := htaken.managed
      simp only [wp_bind]
      refine htaken.wp_fillPage hzero ?_ ?_ ?_
      · exact fun hlt hover => absurd (h.offset_lt hk hoff hlt) (by omega)
      · intro s2 ht2 hdata hpage
        have hbound : usizeSize ≤ ph.vaddr + m * pgSize + 2 * pgSize → E .overflow := by
          intro hover
          have hlen : F.length = F1.length + 1 := by rw [htaken.list, length_cons]
          rcases hE with hall | ⟨n', -, hstop⟩ | hany
          · exact absurd (hall.low m (by omega)) (by omega)
          · have hends : ¬ ph.Fits content G FG.length V (m + 1) :=
              fun hnext => absurd (hnext.low m (by omega)) (by omega)
            obtain rfl := hstop.unique hfit hends
            exact absurd (hstop.low (by omega) hdata) (by omega)
          · exact hany _
        simp only [if_true, wp_bind, wp_addUsize]
        refine ⟨fun _ => ?_, fun hover => hbound (by omega)⟩
        refine ht2.wp_map ?_ ph.perm_lt ?_ hbound ?_ ?_
        · unfold pgSize at *
          omega
        · exact fun hinv => (h.not_mem hk hc (vpn_lt _) hinv).1
        · intro s3 T3 F3 hsz hwhy hpte hm
          simp only [wp_bind, wp_pure]
          refine wp_of_ok (kfree_apply hpa s3) ?_
          refine hundo _ T3 _ (fun hnext => ?_) (fun _ _ => hsz) hm hpte
          rcases hwhy with hshort | hv
          · have hneed := hnext.need_le hc.paid
            unfold Phdr.slot at hneed
            omega
          · have hinv := h.free_of_fits hc hnext
            unfold Phdr.slot at hinv
            rw [hv] at hinv
            exact Bool.noConfusion hinv
        · intro s3 T3 F3 hinv hb hpaid' hpte hm hkept
          have hstep := h.step hinv hb hdata hpte hm
          have hfill := hbytes.step h.moved.space ht2 hkept hpte ph.perm_lt
            (fun j hj => ⟨(h.fresh_slot hinv).1 j hj, hk.user (vpn_lt _) (h.fresh j hj), h.valid j hj⟩)
            hpage
          simp only [wp_bind, wp_addUsize]
          refine ⟨fun _ => ?_, fun hover => ?_⟩
          · rw [← hm.root]
            exact ih hstep hfill (hc.step hpaid' (h.not_mem hk hc (vpn_lt _) hinv).2) (by omega)
          · exact hbound (by omega)
      · intro s2 ht2 hdata
        simp only [Bool.false_eq_true, if_false, wp_bind, wp_pure]
        refine wp_of_ok (kfree_apply hpa s2) ?_
        exact hundo _ T _ (fun hnext => hdata (hnext.chunk m (by omega)))
          (fun _ hchunk => absurd hchunk hdata) (ht2.freed (Moved.refl ht2.space)) rfl

theorem wp_loadSegment (h : AddrSpace L s T F R) (hk : T.Fixed L tf) (hpaid : Paid G FG V T F)
    (hV : ∀ k ∈ userSlots, isValid (T.pte k) = true ↔ k ∈ V) (hoff : ph.offset < 2 ^ 64)
    (hE : ph.Loads content G FG.length V ∨ ph.Stops content G FG.length V ∨ ∀ e, E e)
    (hfail : ∀ s' T' F', ph.Stops content G FG.length V → Moved L R s T F s' T' F' →
      T.SameEntries T' → Q none s')
    (hdone : ∀ s' T' F', ph.Loads content G FG.length V →
      Paid G FG (V ∪ ph.slots (pages ph.memsz)) T' F' →
      SegInv L R ph content s T F s' T' F' (pages ph.memsz) →
      SegData ph content s T F s' T' F' (pages ph.memsz) → Q (some ()) s') :
    (loadSegmentFromInode L T.root ph content).wp E Q s := by
  have hc : Charged G FG V ph T T F 0 := Charged.init hpaid hV
  unfold loadSegmentFromInode
  by_cases hva : ph.vaddr % pgSize = 0
  · rw [if_neg (by simpa using hva)]
    by_cases hsz : ph.memsz < ph.filesz
    · rw [if_pos hsz]
      exact hfail s T F (Or.inr (Or.inl hsz)) (Moved.refl h) Tree.SameEntries.refl
    · rw [if_neg hsz]
      have hfits : ∀ s' T' F', Charged G FG V ph T T' F' (pages ph.memsz) →
          SegInv L R ph content s T F s' T' F' (pages ph.memsz) →
          SegData ph content s T F s' T' F' (pages ph.memsz) → Q (some ()) s' := by
        intro s' T' F' hc' hseg hdata
        exact hdone s' T' F' ⟨hva, by omega, hseg.fits hk hc'⟩ hc'.paid hseg hdata
      by_cases hzero : ph.memsz = 0
      · have hp : pages ph.memsz = 0 := by
          rw [hzero]
          decide
        rw [hp] at hfits ⊢
        exact hfits s T F hc (SegInv.init h) (Filled.init s T F _ _)
      · refine (SegInv.init h).wp_loop (Filled.init s T F _ _) hk hc hva hoff ?_ (by omega)
          (fun s' T' F' hstop => hfail s' T' F' (Or.inr (Or.inr hstop))) hfits
        rcases hE with hl | (h1 | h1 | hstop) | hany
        · exact Or.inl hl.fits
        · exact absurd hva h1
        · exact absurd h1 hsz
        · exact Or.inr (Or.inl hstop)
        · exact Or.inr (Or.inr hany)
  · rw [if_pos hva]
    exact hfail s T F (Or.inl hva) (Moved.refl h) Tree.SameEntries.refl

end Budget

end Segment

end ToyOs
