import ToyOs.Grow
import ToyOs.Tables
import ToyOs.ExecFailure

/-!
The address space after a successful `exec_from_inode`. The loader does not
look at the addresses and flags of the segments, so the new table is well
formed exactly for files whose segments grant access, end below the stack and
cover every page below their end. The operations that rely on a well-formed
table then return.
-/
namespace ToyOs

open Bytes Prog Function

/-- The page table maps the pages below the size for the user, the stack page
and the two kernel pages, and nothing else. -/
structure TableFormed (m : Store) (root sz : ℕ) : Prop where
  aligned : sz % pgSize = 0
  below : sz ≤ userStack
  image : ∀ j, j < sz / pgSize → isLeaf (pteAt m root j) = true ∧ pteAt m root j &&& pteU ≠ 0
  stack : ∃ pa, pteAt m root (vpn userStack) = leafWord pa (pteU ||| pteR ||| pteW)
  kernel : ∀ j, j = vpn trapframeVa ∨ j = vpn trampolineVa →
    isLeaf (pteAt m root j) = true ∧ pteAt m root j &&& pteU = 0
  rest : ∀ j, j < 2 ^ 27 → sz / pgSize ≤ j → j ≠ vpn userStack → j ≠ vpn trapframeVa →
    j ≠ vpn trampolineVa → isValid (pteAt m root j) = false

/-- The page table of a process is well formed. -/
def ImageFormed (k : Kernel) (i : ProcRef) : Prop :=
  TableFormed k.ram.mem (k.procs i).pagetable (k.procs i).sz

/-- What later operations on an address space need: `fork` can copy it, `sbrk`
can grow it and it can be taken down. -/
structure Serviceable (L : Layout) (R : Multiset ℕ) (T : Tree) (sz : ℕ) : Prop where
  fork : ∀ s N F, Twin L R T s N F → ∃ r s', uvmcopy L T.root N.root sz s = .ok (r, s')
  forkStack : ∀ s N F, Twin L R T s N F → ∃ r s', uvmcopyStack L T.root N.root s = .ok (r, s')
  sbrk : ∀ s F newsz, AddrSpace L s T F R → sz ≤ newsz → newsz ≤ userStack →
    ∃ r s', uvmalloc L T.root sz newsz s = .ok (r, s')
  teardown : ∀ s F, AddrSpace L s T F R → ∃ s', procFreepagetable L T.root sz s = .ok ((), s')

section Formed

variable {L : Layout} {R : Multiset ℕ} {tf sz : ℕ} {segs : List Phdr} {T N : Tree}

/-- The pages of a loaded tree below the stack are those of its segments. -/
theorem Loaded.entry (h : Loaded L tf segs N) {j : ℕ} (hj : j ∈ userSlots) (h3 : j ≠ 2 ^ 26 - 3)
    (hv : isValid (N.pte j) = true) :
    ∃ ph ∈ segs, ∃ n, n < pages ph.memsz ∧ ph.slot n = j ∧ ∃ pa, N.pte j = leafWord pa ph.perm := by
  obtain ⟨T0, pa, himg, -, hpte⟩ := h.image
  rw [hpte, update_of_ne h3] at hv ⊢
  exact himg.entry j hj hv

theorem Loaded.word (h : Loaded L tf segs N) {ph : Phdr} (hph : ph ∈ segs) {n : ℕ}
    (hn : n < pages ph.memsz) :
    ph.slot n ≠ 2 ^ 26 - 3 ∧ ∃ pa, N.pte (ph.slot n) = leafWord pa ph.perm := by
  obtain ⟨T0, pa, himg, hinv, hpte⟩ := h.image
  obtain ⟨pa', hpa'⟩ := himg.word ph hph n hn
  have h3 : ph.slot n ≠ 2 ^ 26 - 3 := by
    intro heq
    rw [← heq, hpa', isValid_leafWord] at hinv
    exact absurd hinv (by decide)
  refine ⟨h3, pa', ?_⟩
  rw [hpte, update_of_ne h3]
  exact hpa'

theorem Loaded.stack (h : Loaded L tf segs N) :
    ∃ pa, N.pte (2 ^ 26 - 3) = leafWord pa (pteU ||| pteR ||| pteW) := by
  obtain ⟨T0, pa, -, -, hpte⟩ := h.image
  exact ⟨pa, by rw [hpte, update_self]⟩

theorem Phdr.memsz_pos {ph : Phdr} {n : ℕ} (hn : n < pages ph.memsz) : 0 < ph.memsz := by
  have := lt_pages_iff.mp hn
  omega

/-- Every page of a dense image can be copied. -/
theorem Loaded.userLeaf (h : Loaded L tf segs N) (hd : DenseSegments segs) {j : ℕ}
    (hj : j < pages (imageEnd segs)) : N.UserLeaf j := by
  obtain ⟨ph, hph, n, hn, rfl⟩ := hd.dense j hj
  obtain ⟨-, pa, hpa⟩ := h.word hph hn
  refine ⟨?_, ?_⟩
  · rw [hpa, ph.isLeaf_word]
    exact hd.leaf ph hph (Phdr.memsz_pos hn)
  · rw [hpa]
    exact ph.user_word pa

theorem Loaded.serviceable (h : Loaded L tf segs N) (hd : DenseSegments segs) :
    Serviceable L R N (pages (imageEnd segs) * pgSize) := by
  have hle := pages_le_stack hd.low
  have hsmall : pages (imageEnd segs) * pgSize + pgSize < usizeSize := by
    unfold pgSize usizeSize
    omega
  have hleaf : ∀ j, j < pages (pages (imageEnd segs) * pgSize) → N.UserLeaf j := by
    rw [pages_rounded]
    exact fun j hj => h.userLeaf hd hj
  refine ⟨?_, ?_, ?_, ?_⟩
  · intro s N' F htwin
    have hrun : (uvmcopy L N.root N'.root (pages (imageEnd segs) * pgSize)).wp (fun _ => False)
        (fun _ _ => True) s :=
      wp_uvmcopy htwin (Or.inl ⟨hsmall, hleaf⟩) (fun _ _ _ _ _ _ => trivial)
        fun _ _ _ _ _ _ _ => trivial
    obtain ⟨r, s', hok, -⟩ := exists_ok hrun
    exact ⟨r, s', hok⟩
  · intro s N' F htwin
    have hrun : (uvmcopyStack L N.root N'.root).wp (fun _ => False) (fun _ _ => True) s :=
      wp_uvmcopyStack htwin (fun _ _ _ _ _ _ => trivial) fun _ _ _ _ _ _ _ _ _ _ _ _ => trivial
    obtain ⟨r, s', hok, -⟩ := exists_ok hrun
    exact ⟨r, s', hok⟩
  · intro s F newsz hspace hgrow hnew
    have hrun : (uvmalloc L N.root (pages (imageEnd segs) * pgSize) newsz).wp (fun _ => False)
        (fun _ _ => True) s :=
      wp_uvmalloc hspace h.kernel hgrow hnew (fun _ _ _ _ _ _ => trivial)
        (fun _ _ _ _ _ _ => trivial) fun _ _ _ _ _ _ => trivial
    obtain ⟨r, s', hok, -⟩ := exists_ok hrun
    exact ⟨r, s', hok⟩
  · intro s F hspace
    have hdense := (h.dense_iff hspace).mpr hd
    have hformed := h.formed hdense (AddrSpace.dense_le hspace hdense)
    have hrun : (procFreepagetable L N.root (pages (imageEnd segs) * pgSize)).wp (fun _ => False)
        (fun _ _ => True) s :=
      wp_procFreepagetable hspace h.covered
        (Or.inl ⟨by rw [pages_rounded]; exact hformed, hsmall⟩) fun _ _ _ _ => trivial
    obtain ⟨_, s', hok, -⟩ := exists_ok hrun
    exact ⟨s', hok⟩

end Formed

section Success

variable {L : Layout} {R : Multiset ℕ} {k k' : Kernel} {i : ProcRef} {T N : Tree} {F F' : List ℕ}
  {s' : Ram} {segs : List Phdr} {tf : ℕ} {content : List UInt8} {argv : KernelArgs}

theorem pages_mul_le_stack {n : ℕ} : pages n * pgSize ≤ userStack ↔ n ≤ userStack := by
  unfold pages userStack maxVa pgSize
  omega

/-- A table that holds a loaded tree is well formed exactly for dense segments. -/
theorem Loaded.tableFormed_iff (h : Loaded L tf segs N) (hspace : AddrSpace L s' N F' R) :
    TableFormed s'.mem N.root (pages (imageEnd segs) * pgSize) ↔ DenseSegments segs := by
  have hpte : ∀ j, j < 2 ^ 27 → pteAt s'.mem N.root j = N.pte j :=
    fun j hj => hspace.rep.pteAt (L := L) (fun p hp => hspace.table_managed hp) hj
  have hdiv : pages (imageEnd segs) * pgSize / pgSize = pages (imageEnd segs) :=
    Nat.mul_div_cancel _ (by decide)
  have hfixed := h.kernel
  constructor
  · rintro ⟨-, hbelow, himage, -, -, -⟩
    rw [hdiv] at himage
    have hsmall := pages_le_stack (pages_mul_le_stack.mp hbelow)
    refine (h.dense_iff hspace).mp fun j hj => ?_
    rw [← hpte j (by omega)]
    exact (himage j hj).1
  · intro hd
    have hsmall := pages_le_stack hd.low
    refine ⟨Nat.mul_mod_left _ _, pages_mul_le_stack.mpr hd.low, ?_, ?_, ?_, ?_⟩
    · rw [hdiv]
      intro j hj
      rw [hpte j (by omega)]
      exact h.userLeaf hd hj
    · rw [vpn_userStack, hpte _ (by omega)]
      exact h.stack
    · rintro j (rfl | rfl)
      · rw [vpn_trapframe, hpte _ (by omega), hfixed.trapframe, isLeaf_leafWord,
          leafWord_and (by decide)]
        decide
      · rw [vpn_trampoline, hpte _ (by omega), hfixed.trampoline, isLeaf_leafWord,
          leafWord_and (by decide)]
        decide
    · rw [hdiv, vpn_userStack, vpn_trapframe, vpn_trampoline]
      intro j hj hge h3 h2 h1
      rw [hpte j hj]
      by_contra hv
      obtain ⟨ph, hph, n, hn, rfl, -⟩ := h.entry (mem_userSlots.mpr ⟨hj, h1, h2⟩) h3
        (by simpa using hv)
      have hslot := Phdr.slot_lt hn (le_imageEnd hph)
      omega

theorem execed_pagetable (k : Kernel) (i : ProcRef) (ram : Ram) (root sz : ℕ) :
    ((k.execed i ram root sz).procs i).pagetable = root := by
  simp [Kernel.execed, Kernel.setProc]

theorem execed_sz (k : Kernel) (i : ProcRef) (ram : Ram) (root sz : ℕ) :
    ((k.execed i ram root sz).procs i).sz = sz := by
  simp [Kernel.execed, Kernel.setProc]

/-- After a successful `exec_from_inode` the page table is well formed exactly
when the segments of the file are dense; then `fork`, `sbrk` and the teardown
of the process do not panic. -/
theorem exec_success_formed_iff (hcur : k.cpu.proc = some i)
    (h : Resident L k.ram (k.procs i) T F R) (hcov : T.Covered (k.procs i).sz)
    (hrun : execFromInode L content argv k = .ok (some (), k')) :
    ∃ e N F', readEhdr content = some e ∧ N.root = (k'.procs i).pagetable ∧
      AddrSpace L k'.ram N F' R ∧
      (ImageFormed k' i ↔ DenseSegments (segments content e e.phnum)) ∧
      (DenseSegments (segments content e e.phnum) → Serviceable L R N (k'.procs i).sz) := by
  have hwp : (execFromInode L content argv).wp (fun _ => True) (fun r k' => r = some () →
      ∃ e N F', readEhdr content = some e ∧ N.root = (k'.procs i).pagetable ∧
        AddrSpace L k'.ram N F' R ∧
        (ImageFormed k' i ↔ DenseSegments (segments content e e.phnum)) ∧
        (DenseSegments (segments content e e.phnum) → Serviceable L R N (k'.procs i).sz)) k := by
    refine wp_execFromInode hcur h hcov (Or.inr fun _ => trivial)
      (fun _ _ _ _ hn => absurd hn (by simp)) ?_
    intro e s' N F' _ hload _ _ hr _
    unfold ImageFormed
    rw [execed_pagetable, execed_sz]
    exact ⟨e, N, F', hload.header, rfl, hr.space, hr.loaded.tableFormed_iff hr.space,
      fun hd => hr.loaded.serviceable hd⟩
  exact wp_ok hwp hrun rfl

end Success

section Sample

variable {content : List UInt8} {e : Ehdr} {flags vaddr filesz : ℕ}

/-- A file with one page of memory is executed, and its table is well formed
exactly when that page is dense. -/
theorem PageFile.exec_succeeds (h : PageFile content e flags vaddr filesz)
    (hread : ∀ j, j < e.phnum → readPhdr content e j ≠ none) :
    ∃ (k k' : Kernel) (T : Tree) (F : List ℕ) (R : Multiset ℕ), k.cpu.proc = some slot0 ∧
      Resident smallLayout k.ram (k.procs slot0) T F R ∧ TornDown T (k.procs slot0).sz ∧
      execFromInode smallLayout content oneArg k = .ok (some (), k') ∧
      (ImageFormed k' slot0 ↔ DenseSegments [pageSegment flags vaddr filesz]) := by
  obtain ⟨k, T, F, R, hcur, hres, hold, hlen⟩ := exists_solo
  have hargs : oneArg.bytes ≤ pgSize := by decide
  have hrun : (execFromInode smallLayout content oneArg).wp (fun _ => False) (fun r k' =>
      r = some () ∧ (ImageFormed k' slot0 ↔ DenseSegments [pageSegment flags vaddr filesz])) k := by
    have hload : Loadable content Tree.fresh (F.length - 3) e := h.loads (by omega) hread
    refine wp_execFromInode hcur hres hold.covered (Or.inl (Or.inr (.done e hload hargs hold))) ?_ ?_
    · intro s' _ _ hwhy
      have := hwhy e hload
      omega
    · intro e' s' N F' _ hload' _ _ hr
      obtain rfl := Option.some.inj (h.header.symm.trans hload'.header)
      unfold ImageFormed
      rw [execed_pagetable, execed_sz, ← h.segments (le_refl _) h.some_header]
      exact ⟨rfl, hr.loaded.tableFormed_iff hr.space⟩
  obtain ⟨r, k', hok, rfl, hiff⟩ := exists_ok hrun
  exact ⟨k, k', T, F, R, hcur, hres, hold, hok, hiff⟩

theorem pageFile_of_one (h : readEhdr content = some e) (hnum : e.phnum = 1)
    (hfirst : readPhdr content e 0 = some (pageSegment flags vaddr filesz)) (ha : vaddr % pgSize = 0)
    (hl : vaddr + pgSize ≤ userStack) (hfile : filesz ≤ content.length) (hpage : filesz ≤ pgSize) :
    PageFile content e flags vaddr filesz ∧ ∀ j, j < e.phnum → readPhdr content e j ≠ none := by
  refine ⟨⟨⟨h, hfirst, ha, hl, hfile, hpage⟩, by omega, fun i hi hi0 => absurd hi (by omega)⟩, ?_⟩
  intro j hj
  obtain rfl : j = 0 := by omega
  rw [hfirst]
  exact Option.some_ne_none _

/-- One readable page at address 0, with the headers as its file data. -/
def denseElf : List UInt8 := elfHeader 1 ++ loadHeader pfR 0 120 pgSize

theorem denseElf_pageFile : ∃ e, PageFile denseElf e pfR 0 120 ∧
    ∀ j, j < e.phnum → readPhdr denseElf e j ≠ none := by
  obtain ⟨e, he, hnum, h0⟩ : ∃ e, readEhdr denseElf = some e ∧ e.phnum = 1 ∧
      readPhdr denseElf e 0 = some (pageSegment pfR 0 120) :=
    ⟨Ehdr.ofBytes (denseElf.take 64), by decide +kernel⟩
  exact ⟨e, pageFile_of_one he hnum h0 (by decide) (by decide) (by decide) (by decide)⟩

/-- The table of a dense file is well formed. -/
theorem exec_success_formed_dense : ∃ k', ImageFormed k' slot0 ∧
    ∃ k, execFromInode smallLayout denseElf oneArg k = .ok (some (), k') := by
  obtain ⟨e, hfile, hread⟩ := denseElf_pageFile
  obtain ⟨k, k', T, F, R, hcur, hres, hold, hok, -⟩ := hfile.exec_succeeds hread
  obtain ⟨e', N, F', he', -, -, hiff, -⟩ := exec_success_formed_iff hcur hres hold.covered hok
  obtain rfl := Option.some.inj (hfile.header.symm.trans he')
  refine ⟨k', hiff.mpr ?_, k, hok⟩
  rw [hfile.segments (le_refl _) hfile.some_header]
  exact denseSegments_page

/-- One readable page at the second page of the address space. -/
def sparseElf : List UInt8 := elfHeader 1 ++ loadHeader pfR pgSize 0 pgSize

theorem sparseElf_pageFile : ∃ e, PageFile sparseElf e pfR pgSize 0 ∧
    ∀ j, j < e.phnum → readPhdr sparseElf e j ≠ none := by
  obtain ⟨e, he, hnum, h0⟩ : ∃ e, readEhdr sparseElf = some e ∧ e.phnum = 1 ∧
      readPhdr sparseElf e 0 = some (pageSegment pfR pgSize 0) :=
    ⟨Ehdr.ofBytes (sparseElf.take 64), by decide +kernel⟩
  exact ⟨e, pageFile_of_one he hnum h0 (by decide) (by decide) (by decide) (by decide)⟩

/-- A file that leaves out page 0 is accepted, and its table is not well formed. -/
theorem exec_success_sparse : ∃ (k k' : Kernel) (T : Tree) (F : List ℕ) (R : Multiset ℕ),
    k.cpu.proc = some slot0 ∧ Resident smallLayout k.ram (k.procs slot0) T F R ∧
      TornDown T (k.procs slot0).sz ∧
      execFromInode smallLayout sparseElf oneArg k = .ok (some (), k') ∧
      ¬ ImageFormed k' slot0 := by
  obtain ⟨e, hfile, hread⟩ := sparseElf_pageFile
  obtain ⟨k, k', T, F, R, hcur, hres, hold, hok, hiff⟩ := hfile.exec_succeeds hread
  refine ⟨k, k', T, F, R, hcur, hres, hold, hok, fun hformed => ?_⟩
  obtain ⟨ph, hph, n, hn, hslot⟩ := (hiff.mp hformed).dense 0 (by decide)
  obtain rfl := List.mem_singleton.mp hph
  rw [pageSegment_pages] at hn
  obtain rfl : n = 0 := by omega
  exact absurd hslot (by decide)

end Sample

end ToyOs
