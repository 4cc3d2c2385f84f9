import ToyOs.CopyUser

/-!
The whole image of an executable. `Image` relates the user entries of a tree
to the PT_LOAD headers loaded so far, and `Fitting` says that the headers up to
one can be loaded with the memory there is. The exit for a header that cannot
be loaded removes the image from address 0 to its end, which panics unless
the segments so far are dense.
-/
namespace ToyOs

open Bytes Prog List Nat

/-- Header `i` when it is to be loaded. -/
def loadable (content : List UInt8) (e : Ehdr) (i : ℕ) : Option Phdr :=
  (readPhdr content e i).filter fun ph => ph.typ = ptLoad

/-- The PT_LOAD headers among the first `i`. -/
def segments (content : List UInt8) (e : Ehdr) (i : ℕ) : List Phdr :=
  (List.range i).filterMap (loadable content e)

/-- End of the image, not rounded. -/
def imageEnd (segs : List Phdr) : ℕ := segs.foldl (fun sz ph => max sz (ph.vaddr + ph.memsz)) 0

/-- The entries of the segments. -/
def slotsOf (segs : List Phdr) : Finset ℕ :=
  segs.foldl (fun V ph => V ∪ ph.slots (pages ph.memsz)) ∅

/-- The segments grant access, end below the stack and leave no page out. -/
structure DenseSegments (segs : List Phdr) : Prop where
  leaf : ∀ ph ∈ segs, 0 < ph.memsz → ph.leaf = true
  low : imageEnd segs ≤ userStack
  dense : ∀ j, j < pages (imageEnd segs) → ∃ ph ∈ segs, ∃ n, n < pages ph.memsz ∧ ph.slot n = j

/-- The first `i` headers can be read, and those to be loaded can be loaded
one after the other, with `free` pages for them and for the tables that `G` lacks. -/
def Fitting (content : List UInt8) (e : Ehdr) (G : Tree) (free i : ℕ) : Prop :=
  ∀ j, j < i → readPhdr content e j ≠ none ∧ ∀ ph, loadable content e j = some ph →
    ph.Loads content G free (slotsOf (segments content e j))

/-- Every header is loaded, or it is refused and the image so far can be removed. -/
def Orderly (content : List UInt8) (e : Ehdr) (G : Tree) (free stop : ℕ) : Prop :=
  ∀ j ph, j < stop → Fitting content e G free j → loadable content e j = some ph →
    ph.Loads content G free (slotsOf (segments content e j)) ∨
      ph.Stops content G free (slotsOf (segments content e j)) ∧
        DenseSegments (segments content e j)

/-- The user entries of the tree are the pages of the segments. -/
structure Image (L : Layout) (tf : ℕ) (T : Tree) (segs : List Phdr) : Prop where
  kernel : T.Fixed L tf
  entry : ∀ k ∈ userSlots, isValid (T.pte k) = true → ∃ ph ∈ segs, ∃ j, j < pages ph.memsz ∧
    ph.slot j = k ∧ ∃ pa, T.pte k = leafWord pa ph.perm
  word : ∀ ph ∈ segs, ∀ j, j < pages ph.memsz → ∃ pa, T.pte (ph.slot j) = leafWord pa ph.perm
  aligned : ∀ ph ∈ segs, ph.vaddr % pgSize = 0

/-- The image is dense from address 0 to `sz`. -/
def Tree.Dense (T : Tree) (sz : ℕ) : Prop := ∀ k, k < pages sz → isLeaf (T.pte k) = true

/-- Only the kernel entries are left. -/
structure Tree.Blank (L : Layout) (tf : ℕ) (T : Tree) : Prop where
  kernel : T.Fixed L tf
  user : ∀ k ∈ userSlots, isValid (T.pte k) = false

theorem field_lt (buf : List UInt8) (off n : ℕ) : field buf off n < 256 ^ n := load_lt _ _ _

theorem readPhdr_bounds {content : List UInt8} {e : Ehdr} {i : ℕ} {ph : Phdr}
    (h : readPhdr content e i = some ph) :
    ph.offset < 2 ^ 64 ∧ ph.vaddr < 2 ^ 64 ∧ ph.memsz < 2 ^ 64 := by
  unfold readPhdr at h
  obtain ⟨buf, -, rfl⟩ := Option.map_eq_some_iff.mp h
  have h1 := field_lt buf 8 8
  have h2 := field_lt buf 16 8
  have h3 := field_lt buf 40 8
  norm_num at h1 h2 h3
  exact ⟨h1, h2, h3⟩

theorem segments_succ (content : List UInt8) (e : Ehdr) (i : ℕ) :
    segments content e (i + 1) = segments content e i ++ (loadable content e i).toList := by
  unfold segments
  rw [range_succ, filterMap_append]
  cases h : loadable content e i with
  | none => simp [h]
  | some ph => simp [h]

theorem slotsOf_append (segs : List Phdr) (ph : Phdr) :
    slotsOf (segs ++ [ph]) = slotsOf segs ∪ ph.slots (pages ph.memsz) := by
  unfold slotsOf
  rw [foldl_append]
  rfl

theorem mem_slotsOf {segs : List Phdr} {k : ℕ} :
    k ∈ slotsOf segs ↔ ∃ ph ∈ segs, ∃ j, j < pages ph.memsz ∧ ph.slot j = k := by
  induction segs using List.reverseRecOn with
  | nil => simp [slotsOf]
  | append_singleton rest last ih =>
    rw [slotsOf_append, Finset.mem_union, ih, Phdr.mem_slots]
    simp [or_and_right, exists_or]

theorem imageEnd_append (segs : List Phdr) (ph : Phdr) :
    imageEnd (segs ++ [ph]) = max (imageEnd segs) (ph.vaddr + ph.memsz) := by
  unfold imageEnd
  rw [foldl_append]
  rfl

theorem le_imageEnd {segs : List Phdr} {ph : Phdr} (h : ph ∈ segs) :
    ph.vaddr + ph.memsz ≤ imageEnd segs := by
  induction segs using List.reverseRecOn with
  | nil => exact absurd h (by simp)
  | append_singleton rest last ih =>
    rw [imageEnd_append]
    rcases mem_append.mp h with hm | hm
    · exact le_trans (ih hm) (le_max_left _ _)
    · rw [mem_singleton.mp hm]
      exact le_max_right _ _

theorem mem_segments {content : List UInt8} {e : Ehdr} {i : ℕ} {ph : Phdr} :
    ph ∈ segments content e i ↔ ∃ j, j < i ∧ loadable content e j = some ph := by
  simp [segments, mem_filterMap]

/-- The entries of a segment lie below its end. -/
theorem Phdr.slot_lt {ph : Phdr} {j sz : ℕ} (hj : j < pages ph.memsz)
    (hsz : ph.vaddr + ph.memsz ≤ sz) : ph.slot j < pages sz := by
  have hlt := lt_pages_iff.mp hj
  refine lt_of_le_of_lt (mod_le _ _) ?_
  rw [lt_pages_iff]
  calc (ph.vaddr + j * pgSize) / pgSize * pgSize ≤ ph.vaddr + j * pgSize := div_mul_le_self _ _
    _ < sz := by omega

section Images

variable {L : Layout} {R : Multiset ℕ} {s s' : Ram} {T T' G : Tree} {F F' : List ℕ} {tf sz : ℕ}
  {segs : List Phdr} {ph : Phdr} {content : List UInt8} {E : Panic → Prop}
  {Q : Option ℕ → Ram → Prop}

/-- Every mapped page of an image lies below its end. -/
theorem Image.covered (h : Image L tf T segs) {k : ℕ} (hk : k ∈ userSlots)
    (hv : isValid (T.pte k) = true) : k < pages (imageEnd segs) := by
  obtain ⟨ph, hph, j, hj, rfl, -⟩ := h.entry k hk hv
  exact Phdr.slot_lt hj (le_imageEnd hph)

theorem Tree.KernelOnly.image (h : T.KernelOnly L tf) : Image L tf T [] where
  kernel := h.kernel
  entry := by
    intro k hk hv
    obtain ⟨-, h1, h2⟩ := mem_userSlots.mp hk
    rw [h.rest k h1 h2] at hv
    exact absurd hv (by simp [isValid_zero])
  word := fun ph hph => absurd hph (by simp)
  aligned := fun ph hph => absurd hph (by simp)

/-- The valid entries of the process are those of the segments. -/
theorem Image.valid_iff (h : Image L tf T segs) (k : ℕ) (hk : k ∈ userSlots) :
    isValid (T.pte k) = true ↔ k ∈ slotsOf segs := by
  rw [mem_slotsOf]
  constructor
  · intro hv
    obtain ⟨ph, hph, j, hj, hslot, -⟩ := h.entry k hk hv
    exact ⟨ph, hph, j, hj, hslot⟩
  · rintro ⟨ph, hph, j, hj, rfl⟩
    obtain ⟨pa, hpa⟩ := h.word ph hph j hj
    rw [hpa]
    exact isValid_leafWord _ _

theorem Image.append (h : Image L tf T segs) (hva : ph.vaddr % pgSize = 0)
    (hseg : SegInv L R ph content s T F s' T' F' (pages ph.memsz)) :
    Image L tf T' (segs ++ [ph]) where
  kernel := hseg.kernel h.kernel
  entry := by
    intro k hk hv
    by_cases hmem : ∃ j, j < pages ph.memsz ∧ ph.slot j = k
    · obtain ⟨j, hj, rfl⟩ := hmem
      exact ⟨ph, by simp, j, hj, rfl, hseg.word j hj⟩
    · have hother := hseg.other k fun j hj heq => hmem ⟨j, hj, heq⟩
      rw [hother] at hv ⊢
      obtain ⟨ph', hph', rest⟩ := h.entry k hk hv
      exact ⟨ph', mem_append_left _ hph', rest⟩
  word := by
    intro ph' hph' j hj
    rcases mem_append.mp hph' with hm | hm
    · obtain ⟨pa, hpa⟩ := h.word ph' hm j hj
      refine ⟨pa, ?_⟩
      rw [hseg.other, hpa]
      intro i hi heq
      have hfresh := hseg.fresh i hi
      rw [heq, hpa, isValid_leafWord] at hfresh
      exact absurd hfresh (by decide)
    · obtain rfl := mem_singleton.mp hm
      exact hseg.word j hj
  aligned := by
    intro ph' hph'
    rcases mem_append.mp hph' with hm | hm
    · exact h.aligned ph' hm
    · rw [mem_singleton.mp hm]
      exact hva

/-- The pages of the segments belong to the process, are apart and hold the
segments' bytes; the file has all of its part. -/
structure Holds (content : List UInt8) (s : Ram) (T : Tree) (segs : List Phdr) : Prop where
  le : ∀ ph ∈ segs, ph.filesz ≤ ph.memsz
  chunk : ∀ ph ∈ segs, ∀ j, j < pages ph.memsz → ph.chunk content j
  user : ∀ ph ∈ segs, ∀ j, j < pages ph.memsz → ph.slot j ∈ userSlots
  apart : segs.Pairwise fun p q =>
    ∀ i, i < pages p.memsz → ∀ j, j < pages q.memsz → p.slot i ≠ q.slot j
  bytes : ∀ ph ∈ segs, ∀ j, j < pages ph.memsz → ∀ off, off < pgSize →
    s.mem (ptePa (T.pte (ph.slot j)) + off) = ph.byte content (j * pgSize + off)

theorem Holds.nil (content : List UInt8) (s : Ram) (T : Tree) : Holds content s T [] where
  le := fun _ h => absurd h not_mem_nil
  chunk := fun _ h => absurd h not_mem_nil
  user := fun _ h => absurd h not_mem_nil
  apart := List.Pairwise.nil
  bytes := fun _ h => absurd h not_mem_nil

/-- Loaded pages keep their bytes while further pages are mapped. -/
theorem Holds.page_kept (h : Holds content s T segs) (himg : Image L tf T segs)
    (hspace : AddrSpace L s T F R) (hkept : Kept s T F s' T' F') {q : Phdr} (hq : q ∈ segs) {j : ℕ}
    (hj : j < pages q.memsz) (hpte : T'.pte (q.slot j) = T.pte (q.slot j)) {off : ℕ}
    (hoff : off < pgSize) :
    s'.mem (ptePa (T'.pte (q.slot j)) + off) = q.byte content (j * pgSize + off) := by
  obtain ⟨pa, hw⟩ := himg.word q hq j hj
  have hv : isValid (T.pte (q.slot j)) = true := by
    rw [hw]
    exact isValid_leafWord pa q.perm
  rw [hpte, hkept.user_page hspace (h.user q hq j hj) hv hoff]
  exact h.bytes q hq j hj off hoff

/-- The entries of a segment are none of those loaded before it. -/
theorem Image.apart_of_fresh (himg : Image L tf T segs)
    (hseg : SegInv L R ph content s T F s' T' F' (pages ph.memsz)) {q : Phdr} (hq : q ∈ segs)
    {i j : ℕ} (hi : i < pages q.memsz) (hj : j < pages ph.memsz) : q.slot i ≠ ph.slot j := by
  intro heq
  obtain ⟨pa, hw⟩ := himg.word q hq i hi
  have hfresh := hseg.fresh j hj
  rw [← heq, hw, isValid_leafWord] at hfresh
  exact Bool.noConfusion hfresh

theorem Holds.append (h : Holds content s T segs) (himg : Image L tf T segs)
    (hspace : AddrSpace L s T F R) (hle : ph.filesz ≤ ph.memsz)
    (hseg : SegInv L R ph content s T F s' T' F' (pages ph.memsz))
    (hdata : SegData ph content s T F s' T' F' (pages ph.memsz)) :
    Holds content s' T' (segs ++ [ph]) where
  le := by
    intro q hq
    rcases mem_append.mp hq with hq | hq
    · exact h.le q hq
    · obtain rfl := mem_singleton.mp hq
      exact hle
  chunk := by
    intro q hq j hj
    rcases mem_append.mp hq with hq | hq
    · exact h.chunk q hq j hj
    · obtain rfl := mem_singleton.mp hq
      exact hseg.data j hj
  user := by
    intro q hq j hj
    rcases mem_append.mp hq with hq | hq
    · exact h.user q hq j hj
    · obtain rfl := mem_singleton.mp hq
      exact himg.kernel.user (vpn_lt _) (hseg.fresh j hj)
  apart := by
    refine pairwise_append.mpr ⟨h.apart, pairwise_singleton _ _, ?_⟩
    intro p hp q hq i hi j hj
    obtain rfl := mem_singleton.mp hq
    exact himg.apart_of_fresh hseg hp hi hj
  bytes := by
    intro q hq j hj off hoff
    rcases mem_append.mp hq with hq | hq
    · refine h.page_kept himg hspace hdata.kept hq hj (hseg.other _ fun i hi heq => ?_) hoff
      exact himg.apart_of_fresh hseg hq hj hi heq.symm
    · obtain rfl := mem_singleton.mp hq
      exact hdata.bytes j hj off hoff

/-- A dense image is small: memory has no more pages. -/
theorem AddrSpace.dense_le (h : AddrSpace L s T F R) (hd : T.Dense sz) :
    pages sz ≤ managedCount L := by
  have hmax := managedCount_lt L
  have hmin : min (pages sz) (2 ^ 15) ≤ managedCount L := by
    refine AddrSpace.count_le h (fun j => j) (fun j _ j' hj' => by omega) ?_ ?_
    · intro j hj
      rw [mem_userSlots]
      omega
    · exact fun j hj => isValid_of_isLeaf (hd j (by omega))
  omega

theorem Tree.SameEntries.dense_iff {R' : Multiset ℕ} (h : T.SameEntries T')
    (hs : AddrSpace L s T F R) (hs' : AddrSpace L s' T' F' R') : T'.Dense sz ↔ T.Dense sz := by
  have hmax := managedCount_lt L
  constructor
  · intro hd k hk
    have hle := AddrSpace.dense_le hs' hd
    have hleaf := hd k hk
    rcases h k (by omega) with heq | ⟨hz, -⟩
    · rwa [← heq]
    · rw [hz] at hleaf
      exact absurd hleaf (by decide)
  · intro hd k hk
    have hle := AddrSpace.dense_le hs hd
    rw [h.valid (by omega) (isValid_of_isLeaf (hd k hk))]
    exact hd k hk

/-- The tree of an image is dense when the segments are. -/
theorem Image.dense_iff (h : Image L tf T segs)
    (hsmall : T.Dense (imageEnd segs) → pages (imageEnd segs) ≤ managedCount L) :
    T.Dense (imageEnd segs) ↔ DenseSegments segs := by
  constructor
  · intro hd
    have hle := hsmall hd
    have hmax := managedCount_lt L
    have hend := @pages_mul_le (imageEnd segs)
    refine ⟨?_, ?_, ?_⟩
    · intro ph hph hpos
      have hzero : 0 < pages ph.memsz := lt_pages_iff.mpr (by omega)
      obtain ⟨pa, hpa⟩ := h.word ph hph 0 hzero
      have hleaf := hd _ (Phdr.slot_lt hzero (le_imageEnd hph))
      rwa [hpa, ph.isLeaf_word] at hleaf
    · unfold userStack maxVa pgSize at *
      omega
    · intro k hk
      have hv := isValid_of_isLeaf (hd k hk)
      exact mem_slotsOf.mp ((h.valid_iff k (mem_userSlots.mpr (by omega))).mp hv)
  · intro hd k hk
    obtain ⟨ph, hph, n, hn, rfl⟩ := hd.dense k hk
    obtain ⟨pa, hpa⟩ := h.word ph hph n hn
    have hpos : 0 < ph.memsz := by
      have := lt_pages_iff.mp hn
      omega
    rw [hpa, ph.isLeaf_word]
    exact hd.leaf ph hph hpos

theorem Tree.Blank.formed (h : T.Blank L tf) : T.Formed 0 where
  trampoline := by
    rw [h.kernel.trampoline, isLeaf_leafWord]
    decide
  trapframe := by
    rw [h.kernel.trapframe, isLeaf_leafWord]
    decide
  below := zero_le _
  image := fun k hk => absurd hk (not_lt_zero k)
  stack := by
    intro hv
    rw [h.user _ (by rw [mem_userSlots]; omega)] at hv
    exact absurd hv (by decide)
  rest := fun k hk _ h1 h2 _ => h.user k (mem_userSlots.mpr ⟨hk, h1, h2⟩)

theorem Tree.Fixed.flat (h : T.Fixed L tf)
    (huser : ∀ k ∈ userSlots, isValid (T.pte k) = true → isLeaf (T.pte k) = true) : T.Flat := by
  intro k hk hv
  by_cases hmem : k ∈ userSlots
  · exact huser k hmem hv
  · by_cases h1 : k = 2 ^ 26 - 1
    · rw [h1, h.trampoline, isLeaf_leafWord]
      decide
    · by_cases h2 : k = 2 ^ 26 - 2
      · rw [h2, h.trapframe, isLeaf_leafWord]
        decide
      · exact absurd (mem_userSlots.mpr ⟨hk, h1, h2⟩) hmem

theorem wp_cleanupUser (h : AddrSpace L s T F R) (hker : T.Fixed L tf)
    (hcov : ∀ k ∈ userSlots, isValid (T.pte k) = true → k < pages sz) {Q : Unit → Ram → Prop}
    (hE : T.Dense sz ∨ ∀ e, E e)
    (hQ : ∀ s' T' F', T.Dense sz → Moved L R s T F s' T' F' → T'.Blank L tf → Q () s') :
    (cleanupUser L T.root sz).wp E Q s := by
  have hdiv : pages sz * pgSize / pgSize = pages sz := Nat.mul_div_cancel _ (by decide)
  have hmax := managedCount_lt L
  simp only [cleanupUser, wp_bind, wp_pageRoundUp, hdiv, wp_ite, wp_pure]
  refine ⟨fun _ => ⟨fun hpos => ?_, fun hzero => ?_⟩, fun hover => ?_⟩
  · refine wp_unmap_image h hpos ?_ ?_
    · refine hE.imp ?_ id
      intro hd
      have hle := AddrSpace.dense_le h hd
      exact ⟨by omega, hd⟩
    · intro s' T' F' hm hleaf hpte hsmall
      refine hQ s' T' F' (fun k hk => hleaf k (by omega) hk) hm ⟨⟨?_, ?_⟩, ?_⟩
      · rw [hpte _ (by omega), if_neg (by omega)]
        exact hker.trampoline
      · rw [hpte _ (by omega), if_neg (by omega)]
        exact hker.trapframe
      · intro k hk
        rw [hpte k (mem_userSlots.mp hk).1]
        by_cases hlt : k < pages sz
        · rw [if_pos hlt]
          rfl
        · rw [if_neg hlt]
          by_contra hv
          exact hlt (hcov k hk (by simpa using hv))
  · refine hQ s T F (fun k hk => absurd hk (by omega)) (Moved.refl h) ⟨hker, ?_⟩
    intro k hk
    by_contra hv
    have := hcov k hk (by simpa using hv)
    omega
  · rcases hE with hd | hall
    · have hle := AddrSpace.dense_le h hd
      have hsz : sz ≤ pages sz * pgSize := pages_mul_le
      unfold usizeSize pgSize at *
      omega
    · exact hall _

/-- The outcomes of the loop over the program headers, with the memory that
`G` and `FG` stand for. -/
structure HeadersPost (L : Layout) (R : Multiset ℕ) (tf : ℕ) (content : List UInt8) (e : Ehdr)
    (G : Tree) (FG : List ℕ) (s : Ram) (T : Tree) (F : List ℕ) (stop : ℕ)
    (Q : Option ℕ → Ram → Prop) : Prop where
  cut : ∀ i s' T' F', Moved L R s T F s' T' F' → i < stop → Fitting content e G FG.length i →
    readPhdr content e i = none → Image L tf T' (segments content e i) →
    Holds content s' T' (segments content e i) → Q none s'
  fail : ∀ i ph s' T' F', i < stop → Fitting content e G FG.length i →
    loadable content e i = some ph →
    ph.Stops content G FG.length (slotsOf (segments content e i)) →
    DenseSegments (segments content e i) → Moved L R s T F s' T' F' → T'.Blank L tf → Q none s'
  done : ∀ s' T' F', Fitting content e G FG.length stop →
    Paid G FG (slotsOf (segments content e stop)) T' F' → Moved L R s T F s' T' F' →
    Image L tf T' (segments content e stop) → Holds content s' T' (segments content e stop) →
    Q (some (imageEnd (segments content e stop))) s'

theorem HeadersPost.move {e : Ehdr} {FG : List ℕ} {stop : ℕ}
    (h : HeadersPost L R tf content e G FG s T F stop Q) (hm : Moved L R s T F s' T' F') :
    HeadersPost L R tf content e G FG s' T' F' stop Q where
  cut := fun i s'' T'' F'' hm' => h.cut i s'' T'' F'' (hm.trans hm')
  fail := fun i ph s'' T'' F'' hi hfit hl hstop hd hm' =>
    h.fail i ph s'' T'' F'' hi hfit hl hstop hd (hm.trans hm')
  done := fun s'' T'' F'' hfit hpaid hm' => h.done s'' T'' F'' hfit hpaid (hm.trans hm')

theorem loadable_of_load {e : Ehdr} {i : ℕ} (h : readPhdr content e i = some ph)
    (ht : ph.typ = ptLoad) : loadable content e i = some ph := by
  simp [loadable, h, ht, Option.filter]

theorem loadable_of_skip {e : Ehdr} {i : ℕ} (h : readPhdr content e i = some ph)
    (ht : ph.typ ≠ ptLoad) : loadable content e i = none := by
  simp [loadable, h, ht, Option.filter]

theorem Fitting.mono {e : Ehdr} {free i j : ℕ} (h : Fitting content e G free i) (hle : j ≤ i) :
    Fitting content e G free j := fun n hn => h n (by omega)

theorem Fitting.succ {e : Ehdr} {free i : ℕ} (h : Fitting content e G free i)
    (hr : readPhdr content e i = some ph)
    (hl : ∀ q, loadable content e i = some q →
      q.Loads content G free (slotsOf (segments content e i))) :
    Fitting content e G free (i + 1) := by
  intro j hj
  by_cases hji : j = i
  · subst hji
    exact ⟨by rw [hr]; exact Option.some_ne_none ph, hl⟩
  · exact h j (by omega)

/-- A header that was loaded does not reach the end of the address range. -/
theorem Phdr.Loads.end_lt {free : ℕ} {V : Finset ℕ} (h : ph.Loads content G free V)
    (hb : ph.vaddr < 2 ^ 64) : ph.vaddr + ph.memsz < usizeSize := by
  by_cases hzero : ph.memsz = 0
  · rw [hzero, Nat.add_zero]
    exact hb
  · have hpos : 0 < pages ph.memsz := lt_pages_iff.mpr (by omega)
    have hlast := h.fits.low (pages ph.memsz - 1) (by omega)
    have hle := @pages_mul_le ph.memsz
    rw [Nat.sub_mul] at hlast
    have hone : 1 * pgSize ≤ pages ph.memsz * pgSize := Nat.mul_le_mul_right _ hpos
    omega

theorem wp_loadHeaders {e : Ehdr} {FG : List ℕ} {n i : ℕ} (h : AddrSpace L s T F R)
    (himg : Image L tf T (segments content e i)) (hheld : Holds content s T (segments content e i))
    (hpaid : Paid G FG (slotsOf (segments content e i)) T F)
    (hfit : Fitting content e G FG.length i)
    (hE : Orderly content e G FG.length (i + n) ∨ ∀ err, E err)
    (hpost : HeadersPost L R tf content e G FG s T F (i + n) Q) :
    (loadHeaders L T.root content e n i (imageEnd (segments content e i))).wp E Q s := by
  induction n generalizing s T F i with
  | zero => exact hpost.done s T F hfit hpaid (Moved.refl h) himg hheld
  | succ n ih =>
    have hnext : i + 1 + n = i + (n + 1) := by omega
    unfold loadHeaders
    cases hr : readPhdr content e i with
    | none => exact hpost.cut i s T F (Moved.refl h) (by omega) hfit hr himg hheld
    | some ph =>
      obtain ⟨hoff, hvaddr, -⟩ := readPhdr_bounds hr
      by_cases ht : ph.typ = ptLoad
      · simp only [ht, ne_eq, not_true_eq_false, if_false, wp_bind]
        have hload := loadable_of_load hr ht
        have hsegs : segments content e (i + 1) = segments content e i ++ [ph] := by
          rw [segments_succ, hload]
          rfl
        refine wp_loadSegment h himg.kernel hpaid himg.valid_iff hoff ?_ ?_ ?_
        · rcases hE with hord | hall
          · rcases hord i ph (by omega) hfit hload with hl | ⟨hstop, -⟩
            · exact Or.inl hl
            · exact Or.inr (Or.inl hstop)
          · exact Or.inr (Or.inr hall)
        · -- the header is refused: the image so far is removed
          intro s' T' F' hstop hm hsame
          simp only [wp_bind, wp_pure]
          rw [← hm.root]
          refine wp_cleanupUser hm.space (hsame.kernel himg.kernel) ?_ ?_ ?_
          · intro k hk hv
            rw [hsame.isValid_eq (mem_userSlots.mp hk).1] at hv
            exact himg.covered hk hv
          · refine hE.imp_left fun hord => (hsame.dense_iff h hm.space).mpr ?_
            rw [himg.dense_iff (AddrSpace.dense_le h)]
            rcases hord i ph (by omega) hfit hload with hl | ⟨-, hd⟩
            · exact absurd hstop hl.not_stops
            · exact hd
          · intro s'' T'' F'' hd hm' hb
            rw [hsame.dense_iff h hm.space, himg.dense_iff (AddrSpace.dense_le h)] at hd
            exact hpost.fail i ph s'' T'' F'' (by omega) hfit hload hstop hd (hm.trans hm') hb
        · intro s' T' F' hl hpaid' hseg hdata
          have hmaxEq : (if imageEnd (segments content e i) < ph.vaddr + ph.memsz
              then ph.vaddr + ph.memsz else imageEnd (segments content e i)) =
              imageEnd (segments content e (i + 1)) := by
            rw [hsegs, imageEnd_append]
            split_ifs <;> omega
          have hlt := hl.end_lt hvaddr
          simp only [wp_bind, wp_addUsize]
          rw [hmaxEq, ← hseg.moved.root]
          refine ⟨fun _ => ih hseg.moved.space (hsegs ▸ himg.append hl.aligned hseg)
            (hsegs ▸ hheld.append himg h hl.le hseg hdata) ?_ (hfit.succ hr fun q hq => ?_) ?_ ?_,
            fun hover => absurd hover (by omega)⟩
          · rw [hsegs, slotsOf_append]
            exact hpaid'
          · obtain rfl := Option.some.inj (hload.symm.trans hq)
            exact hl
          · rw [hnext]
            exact hE
          · rw [hnext]
            exact hpost.move hseg.moved
      · simp only [ht, ne_eq, not_false_eq_true, if_true]
        have hskip := loadable_of_skip hr ht
        have hsegs : segments content e (i + 1) = segments content e i := by
          rw [segments_succ, hskip]
          exact append_nil _
        have hrec := ih (i := i + 1) h (by rw [hsegs]; exact himg) (by rw [hsegs]; exact hheld)
          (by rw [hsegs]; exact hpaid)
          (hfit.succ hr fun q hq => absurd (hskip.symm.trans hq) (by simp))
          (by rw [hnext]; exact hE) (by rw [hnext]; exact hpost)
        rwa [hsegs] at hrec

end Images

end ToyOs
