import ToyOs.CopySpace
import ToyOs.Freewalk
import ToyOs.LoadElf
import ToyOs.PushArgv
import ToyOs.Kernel.Proc

/-!
`exec_from_inode` on the address space of the current process. While the new
image is built, the old one is part of its frame; at the end one of the two is
taken down. The spec lists every way the call can end, and when it returns
with every page in its place.
-/
namespace ToyOs

open Bytes Prog Function Multiset

variable {Q : Unit → Ram → Prop}

/-- The address space of a process: its tree, the free list and all other pages. -/
structure Resident (L : Layout) (ram : Ram) (p : Process) (T : Tree) (F : List ℕ)
    (R : Multiset ℕ) : Prop where
  space : AddrSpace L ram T F R
  root : p.pagetable = T.root
  kernel : T.Fixed L p.trapframe
  trapframe : p.trapframe ∈ R

/-- The old image can be taken down. -/
structure TornDown (T : Tree) (sz : ℕ) : Prop where
  formed : T.Formed (pages sz)
  size : sz + pgSize < usizeSize

/-- Entries that are no leaves lie below the size. -/
def Tree.Covered (T : Tree) (sz : ℕ) : Prop :=
  ∀ k, k < 2 ^ 27 → isValid (T.pte k) = true → isLeaf (T.pte k) = false → k < pages sz

/-- The pages of segments that `proc_freepagetable` can free with size 0: the
stack page, and pages without access that look like empty tables. -/
def CutClean (content : List UInt8) (segs : List Phdr) : Prop :=
  ∀ ph ∈ segs, ∀ j, j < pages ph.memsz →
    if ph.leaf = true then ph.slot j = 2 ^ 26 - 3 else BlankAt (ph.byte content) (j * pgSize)

/-- How `exec_from_inode` ends when it has made a page table with the tables of
`G` and `free` pages are left: the file cannot be loaded, its header table is
cut off, the arguments do not fit, or the new image replaces the old one. -/
inductive ExecEnds (content : List UInt8) (argv : KernelArgs) (T : Tree) (sz : ℕ) (G : Tree)
    (free : ℕ) : Prop
  | fails (h : LoadFails content G free)
  | cut (e : Ehdr) (i : ℕ) (h : CutAt content G free e i)
      (hclean : CutClean content (segments content e i))
  | long (e : Ehdr) (h : Loadable content G free e) (hargs : pgSize < argv.bytes)
      (hdense : DenseSegments (segments content e e.phnum))
  | done (e : Ehdr) (h : Loadable content G free e) (hargs : argv.bytes ≤ pgSize)
      (hold : TornDown T sz)

/-- `exec_from_inode` with `free` pages on the free list returns and loses no page. -/
def ExecClean (content : List UInt8) (argv : KernelArgs) (T : Tree) (sz free : ℕ) : Prop :=
  free < 3 ∨ ExecEnds content argv T sz Tree.fresh (free - 3)

section Trees

variable {L : Layout} {R : Multiset ℕ} {s s' s'' : Ram} {T N : Tree} {F F' F'' : List ℕ}
  {tf : ℕ} {segs : List Phdr} {content : List UInt8} {E : Panic → Prop}

theorem AddrSpace.twin (h : AddrSpace L s T F R) (hc : Carved L (T.owned + R) s F s' N F') :
    Twin L R T s' N F' := by
  refine ⟨hc.space, h.rep.congr (L := L) hc.agree ?_ ?_ ?_⟩
  · exact fun p hp => h.free_managed hp
  · exact fun p hp => h.table_managed hp
  · exact fun p hp => h.table_not_free hp

theorem AddrSpace.pool (h : AddrSpace L s T F R) : Pool L s F (T.owned + R) := by
  have heq : T.owned + R = T.tables + (T.mapped + R) := by
    unfold Tree.owned
    rw [add_assoc]
  rw [heq]
  exact Space.toPool h

/-- What remains when the old tree is taken down. -/
theorem Twin.reclaimed (h : Twin L R T s N F) (hr : Reclaimed s T.owned F s' F') :
    AddrSpace L s' N F' R := by
  have hown : ∀ p ∈ T.owned + (↑F : Multiset ℕ), Managed L p := by
    intro p hp
    rcases mem_add.mp hp with hp' | hp'
    · exact h.space.frame_managed (mem_add.mpr (Or.inr (mem_add.mpr (Or.inl hp'))))
    · exact h.space.free_managed hp'
  refine Space.of_pool_eq h.space ?_ (h.space.rep.congr (L := L) hr.agree hown ?_ ?_) hr.free
  · rw [hr.pool]
    abel
  · exact fun p hp => h.space.table_managed hp
  · intro p hp hp'
    rcases mem_add.mp hp' with hp' | hp'
    · exact h.space.table_not_frame hp
        (mem_add.mpr (Or.inr (mem_add.mpr (Or.inl hp'))))
    · exact h.space.table_not_free hp hp'

/-- Entries of a loaded tree that are no leaves lie below its size. -/
theorem Loaded.covered (h : Loaded L tf segs N) : N.Covered (pages (imageEnd segs) * pgSize) := by
  obtain ⟨T0, pa, himg, -, hpte⟩ := h.image
  intro k hk hv hnl
  rw [pages_rounded]
  by_cases h3 : k = 2 ^ 26 - 3
  · rw [hpte, h3, update_self, isLeaf_leafWord] at hnl
    exact absurd hnl (by decide)
  · rw [hpte, update_of_ne h3] at hv hnl
    by_cases hmem : k ∈ userSlots
    · exact himg.covered hmem hv
    · by_cases h1 : k = 2 ^ 26 - 1
      · rw [h1, himg.kernel.trampoline, isLeaf_leafWord] at hnl
        exact absurd hnl (by decide)
      · by_cases h2 : k = 2 ^ 26 - 2
        · rw [h2, himg.kernel.trapframe, isLeaf_leafWord] at hnl
          exact absurd hnl (by decide)
        · exact absurd (mem_userSlots.mpr ⟨hk, h1, h2⟩) hmem

theorem Loaded.kernel (h : Loaded L tf segs N) : N.Fixed L tf := by
  obtain ⟨T0, pa, himg, -, hpte⟩ := h.image
  refine ⟨?_, ?_⟩
  · rw [hpte, update_of_ne (by omega)]
    exact himg.kernel.trampoline
  · rw [hpte, update_of_ne (by omega)]
    exact himg.kernel.trapframe

/-- A dense loaded image can be taken down. -/
theorem Loaded.formed (h : Loaded L tf segs N) (hd : N.Dense (imageEnd segs))
    (hle : pages (imageEnd segs) ≤ managedCount L) : N.Formed (pages (imageEnd segs)) := by
  have hmax := managedCount_lt L
  have hk := h.kernel
  obtain ⟨T0, pa, himg, -, hpte⟩ := h.image
  refine ⟨?_, ?_, by omega, hd, ?_, ?_⟩
  · rw [hk.trampoline, isLeaf_leafWord]
    decide
  · rw [hk.trapframe, isLeaf_leafWord]
    decide
  · intro _
    rw [hpte, update_self, isLeaf_leafWord, leafWord_and (by decide)]
    decide
  · intro k hkl hge h1 h2 h3
    rw [hpte, update_of_ne h3]
    by_contra hv
    have := himg.covered (mem_userSlots.mpr ⟨hkl, h1, h2⟩) (by simpa using hv)
    omega

/-- The stack page can be written to. -/
theorem Loaded.writable (h : Loaded L tf segs N) : N.Writable (userStack + pgSize - pgSize) pgSize := by
  obtain ⟨T0, pa, -, -, hpte⟩ := h.image
  rw [Nat.add_sub_cancel]
  refine (Tree.stack_of_word pa ?_).writable
  rw [hpte, update_self]

theorem Phdr.user_word (ph : Phdr) (pa : ℕ) : leafWord pa ph.perm &&& pteU ≠ 0 := by
  rw [leafWord_and (by decide)]
  unfold Phdr.perm
  split_ifs <;> decide

/-- The entries of the segments belong to the user part. -/
theorem Image.user_slot (h : Image L tf T segs) {ph : Phdr} (hph : ph ∈ segs) {j : ℕ}
    (hj : j < pages ph.memsz) : ph.slot j ∈ userSlots := by
  obtain ⟨pa, hpa⟩ := h.word ph hph j hj
  refine h.kernel.user_of_pteU (vpn_lt _) ?_
  rw [hpa]
  exact ph.user_word pa

theorem blankAt_congr {m m' : Store} {p q : ℕ} (h : ∀ off, off < pgSize → m (p + off) = m' (q + off)) :
    BlankAt m p ↔ BlankAt m' q := by
  have hload : ∀ i, i < 512 → load 8 m (p + 8 * i) = load 8 m' (q + 8 * i) := by
    intro i hi
    refine leNat_congr 8 _ _ fun n hn => ?_
    rw [Nat.add_assoc, Nat.add_assoc]
    exact h _ (by unfold pgSize; omega)
  exact forall_congr' fun i => forall_congr' fun hi => by rw [hload i hi]

/-- An entry that is left belongs to a segment, and not to a stack page with access. -/
theorem Image.of_stripped (h : Image L tf T segs) (hst : Stripped T N) {k : ℕ} (hk : k < 2 ^ 27)
    (hv : isValid (N.pte k) = true) : N.pte k = T.pte k ∧
      ∃ ph ∈ segs, ∃ j, j < pages ph.memsz ∧ ph.slot j = k ∧ isLeaf (T.pte k) = ph.leaf ∧
        ¬ (ph.leaf = true ∧ k = 2 ^ 26 - 3) := by
  have h1 : k ≠ 2 ^ 26 - 1 := by
    rintro rfl
    rw [hst.kernel.1] at hv
    exact absurd hv (by decide)
  have h2 : k ≠ 2 ^ 26 - 2 := by
    rintro rfl
    rw [hst.kernel.2] at hv
    exact absurd hv (by decide)
  have heq : N.pte k = T.pte k := by
    rcases hst.pte hk with hz | heq
    · simp [hz, isValid_zero] at hv
    · exact heq
  rw [heq] at hv
  obtain ⟨ph, hph, j, hj, hslot, pa, hpa⟩ := h.entry k (mem_userSlots.mpr ⟨hk, h1, h2⟩) hv
  have hleaf : isLeaf (T.pte k) = ph.leaf := by rw [hpa, ph.isLeaf_word]
  refine ⟨heq, ph, hph, j, hj, hslot, hleaf, ?_⟩
  rintro ⟨hl, rfl⟩
  rcases hst.stack with ⟨hz, -⟩ | ⟨-, hnot⟩
  · rw [← heq, hz, isValid_zero] at hv
    exact absurd hv (by decide)
  · exact hnot ⟨hleaf.trans hl, hpa ▸ ph.user_word pa⟩

/-- Of an image whose kernel entries and stack page are gone, `freewalk` frees
all that is left exactly for clean segments. -/
theorem Image.swept_iff (h : Image L tf T segs) (hheld : Holds content s T segs)
    (hst : Stripped T N) (hsp : Spared s T s' N) : N.Swept s'.mem ↔ CutClean content segs := by
  -- a page of a segment is still mapped, except a stack page with access
  have hleft : ∀ ph ∈ segs, ∀ j, j < pages ph.memsz →
      ¬ (ph.leaf = true ∧ ph.slot j = 2 ^ 26 - 3) → N.pte (ph.slot j) = T.pte (ph.slot j) := by
    intro ph hph j hj hnot
    obtain ⟨hk, h1, h2⟩ := mem_userSlots.mp (h.user_slot hph hj)
    by_cases h3 : ph.slot j = 2 ^ 26 - 3
    · rw [h3]
      refine (hst.stack.resolve_left ?_).1
      rintro ⟨-, hl, -⟩
      obtain ⟨pa, hpa⟩ := h.word ph hph j hj
      rw [← h3, hpa, ph.isLeaf_word] at hl
      exact hnot ⟨hl, h3⟩
    · exact hst.other _ hk h1 h2 h3
  have hblank : ∀ ph ∈ segs, ∀ j, j < pages ph.memsz → N.pte (ph.slot j) = T.pte (ph.slot j) →
      (BlankAt s'.mem (ptePa (N.pte (ph.slot j))) ↔ BlankAt (ph.byte content) (j * pgSize)) := by
    intro ph hph j hj heq
    obtain ⟨pa, hpa⟩ := h.word ph hph j hj
    refine blankAt_congr fun off hoff => ?_
    rw [heq, (hsp _ (h.user_slot hph hj) (by rw [heq, hpa, isValid_leafWord])).2 off hoff]
    exact hheld.bytes ph hph j hj off hoff
  constructor
  · intro hsw ph hph j hj
    obtain ⟨pa, hpa⟩ := h.word ph hph j hj
    obtain ⟨hk, -, -⟩ := mem_userSlots.mp (h.user_slot hph hj)
    split_ifs with hl
    · by_contra h3
      have hnl := hsw.leaf (ph.slot j) hk
      rw [hleft ph hph j hj fun hnot => h3 hnot.2, hpa, ph.isLeaf_word, hl] at hnl
      exact absurd hnl (by decide)
    · have heq := hleft ph hph j hj fun hnot => hl hnot.1
      refine (hblank ph hph j hj heq).mp (hsw.blank _ (h.user_slot hph hj) ?_)
      rw [heq, hpa, isValid_leafWord]
  · intro hclean
    have hnl : ∀ k, k < 2 ^ 27 → isValid (N.pte k) = true → isLeaf (T.pte k) = false := by
      intro k hk hv
      obtain ⟨-, ph, hph, j, hj, rfl, hleaf, hnot⟩ := h.of_stripped hst hk hv
      have hc := hclean ph hph j hj
      rw [hleaf]
      by_contra hl
      rw [if_pos (by simpa using hl)] at hc
      exact hnot ⟨by simpa using hl, hc⟩
    refine ⟨?_, ?_⟩
    · intro k hk
      by_contra hl
      have hv := isValid_of_isLeaf (by simpa using hl)
      rw [(h.of_stripped hst hk hv).1, hnl k hk hv] at hl
      exact hl rfl
    · intro k hk hv
      have hk' := (mem_userSlots.mp hk).1
      obtain ⟨heq, ph, hph, j, hj, rfl, hleaf, -⟩ := h.of_stripped hst hk' hv
      have hc := hclean ph hph j hj
      rw [← hleaf, hnl _ hk' hv, if_neg (by decide)] at hc
      exact (hblank ph hph j hj heq).mpr hc

/-- A loaded tree is dense when the segments are. -/
theorem Loaded.dense_iff (h : Loaded L tf segs N) (hspace : AddrSpace L s N F R) :
    N.Dense (imageEnd segs) ↔ DenseSegments segs := by
  have hmax := managedCount_lt L
  obtain ⟨T0, pa, himg, hinv, hpte⟩ := h.image
  have hdense : N.Dense (imageEnd segs) ↔ T0.Dense (imageEnd segs) := by
    constructor
    · intro hd k hk
      have hle := AddrSpace.dense_le hspace hd
      have hleaf := hd k hk
      rwa [hpte, update_of_ne (by omega)] at hleaf
    · intro hd k hk
      have hleaf := hd k hk
      rw [hpte, update_of_ne]
      · exact hleaf
      · rintro rfl
        rw [isValid_of_isLeaf hleaf] at hinv
        exact absurd hinv (by decide)
  rw [hdense]
  exact himg.dense_iff fun hd => AddrSpace.dense_le hspace (hdense.mpr hd)

theorem Tree.Formed.tornDown {sz : ℕ} (h : T.Formed (pages sz)) : TornDown T sz := by
  have hbelow := h.below
  have hle := @pages_mul_le sz
  refine ⟨h, ?_⟩
  unfold usizeSize pgSize at *
  omega

/-- Memory and file admit the load. -/
theorem ExecEnds.safe {argv : KernelArgs} {sz free : ℕ} {G : Tree} {e : Ehdr}
    (h : ExecEnds content argv T sz G free) (he : readEhdr content = some e) :
    LoadSafe content G free e := by
  cases h with
  | fails h => exact h.safe he
  | cut e' i h hclean =>
    obtain rfl := Option.some.inj (he.symm.trans h.header)
    exact h.safe
  | long e' h hargs hdense =>
    obtain rfl := Option.some.inj (he.symm.trans h.header)
    exact h.safe
  | done e' h hargs hold =>
    obtain rfl := Option.some.inj (he.symm.trans h.header)
    exact h.safe

/-- The only way a call can end well when the header table is cut off. -/
theorem CutAt.clean {argv : KernelArgs} {sz free i : ℕ} {G : Tree} {e : Ehdr}
    (h : CutAt content G free e i) (hends : ExecEnds content argv T sz G free) :
    CutClean content (segments content e i) := by
  cases hends with
  | fails hf => exact absurd hf h.not_fails
  | cut e' j h' hclean =>
    obtain ⟨rfl, rfl⟩ := h.unique h'
    exact hclean
  | long e' hl hargs hdense => exact absurd hl h.not_loadable
  | done e' hl hargs hold => exact absurd hl h.not_loadable

theorem Tree.Blank.covered_zero (h : T.Blank L tf) : T.Covered 0 := by
  have hflat := h.kernel.flat fun k hk hv => by
    rw [h.user k hk] at hv
    exact absurd hv (by decide)
  intro k hk hv hnl
  rw [hflat k hk hv] at hnl
  exact absurd hnl (by decide)

theorem Tree.KernelOnly.tornDown (h : T.KernelOnly L tf) : TornDown T 0 :=
  ⟨h.formed, by decide⟩

theorem TornDown.covered {sz : ℕ} (h : TornDown T sz) : T.Covered sz := by
  intro k hk hv hnl
  rw [h.formed.flat k hk hv] at hnl
  exact absurd hnl (by decide)

theorem Tree.Blank.tornDown (h : T.Blank L tf) : TornDown T 0 :=
  ⟨h.formed, by decide⟩

/-- The registers of the new image lie in the trap frame. -/
theorem wp_execRegs {argc argvVa entry sp : ℕ}
    (hQ : ∀ m, AgreeOff {tf} s.mem m → Q () { s with mem := m }) :
    (execRegs tf argc argvVa entry sp).wp E Q s := by
  have hreg : ∀ (m : Store) (reg v : ℕ), reg + 8 ≤ pgSize →
      AgreeOff {tf} m (store 8 m (tf + reg) v) :=
    fun m reg v hreg => agreeOff_store m tf (tf + reg) v (by omega) (by omega)
  simp only [execRegs, setReg, wp_bind, wp_modify]
  exact hQ _ ((hreg _ tfA0 argc (by decide)).trans ((hreg _ tfA1 argvVa (by decide)).trans
    ((hreg _ tfEpc entry (by decide)).trans (hreg _ tfSp sp (by decide)))))

end Trees

/-- The state after a successful `exec_from_inode`. -/
def Kernel.execed (k : Kernel) (i : ProcRef) (ram : Ram) (root sz : ℕ) : Kernel :=
  { k.setProc i { k.procs i with pagetable := root, sz := sz } with ram := ram }

/-- The new image has replaced the old one. -/
structure Replaced (L : Layout) (R : Multiset ℕ) (tf : ℕ) (content : List UInt8) (s : Ram) (T : Tree)
    (F : List ℕ) (e : Ehdr) (s' : Ram) (N : Tree) (F' : List ℕ) : Prop where
  loaded : Loaded L tf (segments content e e.phnum) N
  space : AddrSpace L s' N F' R
  pool : N.owned + (↑F' : Multiset ℕ) = T.owned + ↑F
  agree : AgreeOff ({tf} + (T.owned + ↑F)) s.mem s'.mem

section Spec

variable {L : Layout} {R : Multiset ℕ} {k : Kernel} {i : ProcRef} {T : Tree} {F : List ℕ}
  {content : List UInt8} {argv : KernelArgs} {E : Panic → Prop}

theorem wp_discard {s s' : Ram} {N : Tree} {F' : List ℕ} {sz : ℕ}
    (hc : Carved L (T.owned + R) s F s' N F') (hcov : N.Covered sz) (hE : TornDown N sz ∨ ∀ e, E e)
    (hQ : ∀ s'' F'', Reclaimed s 0 F s'' F'' → N.Formed (pages sz) → Q () s'') :
    (procFreepagetable L N.root sz).wp E Q s' :=
  wp_procFreepagetable hc.space hcov (hE.imp (fun h => ⟨h.formed, h.size⟩) id)
    fun s'' F'' hr hf => hQ s'' F'' (hc.reclaimed hr) hf

theorem wp_swap {s s' : Ram} {N : Tree} {F' : List ℕ} {e : Ehdr} {p : Process} (argc argvVa sp : ℕ)
    (h : Resident L s p T F R) (hc : Carved L (T.owned + R) s F s' N F')
    (hl : Loaded L p.trapframe (segments content e e.phnum) N) (hcov : T.Covered p.sz)
    (hE : TornDown T p.sz ∨ ∀ err, E err)
    (hQ : ∀ s'' F'', TornDown T p.sz → Replaced L R p.trapframe content s T F e s'' N F'' →
      Q () s'') :
    (do execRegs p.trapframe argc argvVa e.entry sp
        procFreepagetable L T.root p.sz : RamM Unit).wp E Q s' := by
  rw [wp_bind]
  refine wp_execRegs ?_
  intro m hm
  have htwin := h.space.twin hc
  have htf : ∀ q ∈ ({p.trapframe} : Multiset ℕ), q ∈ T.owned + R := by
    intro q hq
    rw [mem_singleton.mp hq]
    exact mem_add.mpr (Or.inr h.trapframe)
  have hspace : AddrSpace L { s' with mem := m } N F' (T.owned + R) :=
    Space.write_frame hc.space (P := {p.trapframe})
      (fun q hq => mem_add.mpr (Or.inr (htf q hq))) hm
  have hold : AddrSpace L { s' with mem := m } T F' (N.owned + R) := by
    refine Space.write_frame htwin.swap (P := {p.trapframe}) ?_ hm
    intro q hq
    rw [mem_singleton.mp hq]
    exact mem_add.mpr (Or.inr (mem_add.mpr (Or.inr h.trapframe)))
  refine wp_procFreepagetable hold hcov (hE.imp (fun hd => ⟨hd.formed, hd.size⟩) id) ?_
  intro s'' F'' hr hformed
  have htwin' : Twin L R T { s' with mem := m } N F' := ⟨hspace, hold.rep⟩
  refine hQ s'' F'' hformed.tornDown ⟨hl, htwin'.reclaimed hr, ?_, ?_⟩
  · rw [hr.pool, ← hc.pool]
    abel
  · refine (hc.agree.mono ?_).trans ((hm.mono ?_).trans (hr.agree.mono ?_))
    · exact fun q hq => mem_add.mpr (Or.inr (mem_add.mpr (Or.inr hq)))
    · exact fun q hq => mem_add.mpr (Or.inl hq)
    · intro q hq
      refine mem_add.mpr (Or.inr ?_)
      rcases mem_add.mp hq with hq' | hq'
      · exact mem_add.mpr (Or.inl hq')
      · rw [← hc.pool]
        exact mem_add.mpr (Or.inr (mem_add.mpr (Or.inr hq')))

/-- Taking down the part of an image that is left when the header table is cut off. -/
theorem wp_discardCut {s s' : Ram} {N : Tree} {F' : List ℕ} {tf : ℕ} {segs : List Phdr}
    (hc : Carved L (T.owned + R) s F s' N F') (himg : Image L tf N segs)
    (hheld : Holds content s' N segs) (hE : CutClean content segs ∨ ∀ e, E e)
    (hQ : ∀ s'', (CutClean content segs → ∃ F'', Reclaimed s 0 F s'' F'') →
      ((∃ F'', FreeList s''.mem s''.head F'' ∧ F''.Perm F) ∨
        (∀ ph ∈ segs, 0 < ph.memsz → ph.leaf = true) → CutClean content segs) → Q () s'') :
    (procFreepagetable L N.root 0).wp E Q s' := by
  refine wp_strip hc.space (Or.inl ⟨?_, ?_⟩) ?_
  · rw [himg.kernel.trampoline, isLeaf_leafWord]
    decide
  · rw [himg.kernel.trapframe, isLeaf_leafWord]
    decide
  intro s1 N1 F1 hm hsp _ _ hst
  have hsw := himg.swept_iff hheld hst hsp
  rw [← hm.root]
  simp only [uvmfree, wp_bind, wp_pageRoundUp, wp_ite]
  refine ⟨fun _ => ⟨fun hpos => absurd hpos (by decide), fun _ => ?_⟩,
    fun hover => absurd hover (by decide)⟩
  refine wp_freewalk_iff hm.space ?_ (hE.imp_left hsw.mpr) ?_
  · intro k hk hout
    by_cases h1 : k = 2 ^ 26 - 1
    · rw [h1, hst.kernel.1]
      rfl
    · by_cases h2 : k = 2 ^ 26 - 2
      · rw [h2, hst.kernel.2]
        rfl
      · exact absurd (mem_userSlots.mpr ⟨hk, h1, h2⟩) hout
  · intro s2 hfree hback
    refine hQ s2 ?_ ?_
    · intro hclean
      obtain ⟨F2, hr⟩ := hfree (hsw.mpr hclean)
      exact ⟨F2, hc.reclaimed (.of_moved hm hr)⟩
    · rintro (⟨F2, hlist, hperm⟩ | hleaf)
      · refine hsw.mp (hback (Or.inl ⟨F2, hlist, ?_⟩))
        rw [hm.pool, hc.pool]
        exact coe_eq_coe.mpr hperm
      · refine hsw.mp (hback (Or.inr fun k hk hv => ?_))
        obtain ⟨heq, ph, hph, j, hj, -, hl, -⟩ := himg.of_stripped hst hk hv
        rw [heq, hl]
        refine hleaf ph hph ?_
        have := lt_pages_iff.mp hj
        omega

/-- The outcomes of `exec_from_inode`. A call that fails gives every page back
exactly in the cases of `ExecClean`; in other cases it loses pages or panics,
and it panics when no segment without access comes before a cut. -/
theorem wp_execFromInode (hcur : k.cpu.proc = some i) (h : Resident L k.ram (k.procs i) T F R)
    (hcov : T.Covered (k.procs i).sz) {Q : Option Unit → Kernel → Prop}
    (hE : ExecClean content argv T (k.procs i).sz F.length ∨ ∀ err, E err)
    (hnone : ∀ s', (ExecClean content argv T (k.procs i).sz F.length →
        ∃ F', Reclaimed k.ram 0 F s' F') →
      ((∃ F', FreeList s'.mem s'.head F' ∧ F'.Perm F) ∨
          (∀ e j, CutAt content Tree.fresh (F.length - 3) e j →
            ∀ ph ∈ segments content e j, 0 < ph.memsz → ph.leaf = true) →
        ExecClean content argv T (k.procs i).sz F.length) →
      (∀ e, Loadable content Tree.fresh (F.length - 3) e → F.length < 3 ∨ pgSize < argv.bytes) →
      Q none { k with ram := s' })
    (hsome : ∀ e s' N F', 3 ≤ F.length → Loadable content Tree.fresh (F.length - 3) e →
      argv.bytes ≤ pgSize → TornDown T (k.procs i).sz →
      Replaced L R (k.procs i).trapframe content k.ram T F e s' N F' →
      Q (some ()) (k.execed i s' N.root
        (pages (imageEnd (segments content e e.phnum)) * pgSize))) :
    (execFromInode L content argv).wp E Q k := by
  have htfm := h.space.frame_managed (mem_add.mpr (Or.inr h.trapframe))
  have hback : ∀ s' F', ExecClean content argv T (k.procs i).sz F.length →
      (∀ e, Loadable content Tree.fresh (F.length - 3) e → F.length < 3 ∨ pgSize < argv.bytes) →
      Reclaimed k.ram 0 F s' F' → Q none { k with ram := s' } :=
    fun s' F' hclean hwhy hr => hnone s' (fun _ => ⟨F', hr⟩) (fun _ => hclean) hwhy
  simp only [execFromInode, myproc, getProc, onRam, modifyProc, wp_bind, wp_get,
    wp_expect, wp_pure, wp_zoom, hcur]
  refine ⟨?_, by simp⟩
  intro i' hi'
  obtain rfl := Option.some.inj hi'
  refine wp_procPagetable h.space.pool htfm ?_ ?_
  · exact fun s' F' hr hshort => hback s' F' (Or.inl hshort) (fun _ _ => Or.inl hshort) hr
  intro s1 N1 F1 hc1 hko htab hlen
  have hF1 : F1.length = F.length - 3 := by omega
  have hends : ExecEnds content argv T (k.procs i).sz Tree.fresh (F.length - 3) ∨ ∀ err, E err :=
    hE.imp_left fun hclean => hclean.resolve_left (by omega)
  simp only [wp_bind, wp_zoom]
  refine wp_loadElf hc1.space hko htab ?_ ?_
  · rw [hF1]
    exact hends.imp_left fun hs e he => hs.safe he
  refine ⟨?_, ?_, ?_⟩ <;> rw [hF1]
  · -- the header table is cut off: the new table is freed with size 0
    intro e j s2 N2 F2 hcut hm himg hheld
    have hend : CutClean content (segments content e j) →
        ExecEnds content argv T (k.procs i).sz Tree.fresh (F.length - 3) := .cut e j hcut
    simp only [wp_bind, wp_zoom, wp_pure]
    rw [← hm.root]
    have honly : ExecClean content argv T (k.procs i).sz F.length →
        CutClean content (segments content e j) :=
      fun hclean => hcut.clean (hclean.resolve_left (by omega))
    refine wp_discardCut (hc1.moved hm) himg hheld (hE.imp_left honly) ?_
    intro s3 hfree hlist
    exact hnone s3 (fun hclean => hfree (honly hclean))
      (fun hl => Or.inr (hend (hlist (hl.imp_right fun hleaf => hleaf e j hcut))))
      fun e' hl => absurd hl hcut.not_loadable
  · intro s2 N2 F2 hwhy hm hblank
    simp only [wp_bind, wp_zoom, wp_pure]
    rw [← hm.root]
    refine wp_discard (hc1.moved hm) hblank.covered_zero (Or.inl hblank.tornDown) ?_
    exact fun s3 F3 hr _ => hback s3 F3 (Or.inr (.fails hwhy))
      (fun e hl => absurd hl hwhy.not_loadable) hr
  · intro e s2 N2 F2 hload hm hl _
    have hc2 := hc1.moved hm
    simp only [wp_bind, wp_zoom]
    rw [← hm.root]
    refine wp_pushArgv hm.space hl.kernel (by omega) (by decide) hl.writable ?_
    intro r s3 hm3 hlong
    have hc3 := hc2.moved hm3
    have hunique : ∀ e', Loadable content Tree.fresh (F.length - 3) e' → e' = e := fun e' hl' =>
      Option.some.inj (hl'.header.symm.trans hload.header)
    cases r with
    | none =>
      simp only [wp_bind, wp_zoom, wp_pure]
      have hargs := hlong.mp rfl
      refine wp_discard hc3 hl.covered ?_ ?_
      · refine hends.imp_left fun hend => ?_
        have hdense : DenseSegments (segments content e e.phnum) := by
          cases hend with
          | fails hf => exact absurd hload hf.not_loadable
          | cut e' j hcut hclean => exact absurd hload hcut.not_loadable
          | long e' hl' hargs' hdense => exact hunique e' hl' ▸ hdense
          | done e' hl' hargs' hold => omega
        have hd := (hl.dense_iff hc3.space).mpr hdense
        refine Tree.Formed.tornDown ?_
        rw [pages_rounded]
        exact hl.formed hd (AddrSpace.dense_le hc3.space hd)
      · intro s4 F4 hr hf
        rw [pages_rounded] at hf
        exact hback s4 F4 (Or.inr (.long e hload hargs ((hl.dense_iff hc3.space).mp hf.image)))
          (fun _ _ => Or.inr hargs) hr
    | some r =>
      simp only [wp_bind, wp_zoom, wp_modify, wp_pure]
      have hargs : argv.bytes ≤ pgSize := by
        by_contra hmore
        exact absurd (hlong.mpr (by omega)) (by simp)
      have hold : TornDown T (k.procs i).sz ∨ ∀ err, E err := by
        refine hends.imp_left fun hend => ?_
        cases hend with
        | fails hf => exact absurd hload hf.not_loadable
        | cut e' j hcut hclean => exact absurd hload hcut.not_loadable
        | long e' hl' hargs' hdense => omega
        | done e' hl' hargs' hold => exact hold
      have hswap := wp_swap argv.argc r.2 r.1 h hc3 hl hcov hold
        (Q := fun _ s4 => Q (some ()) (k.execed i s4 N2.root
          (pages (imageEnd (segments content e e.phnum)) * pgSize)))
        fun s4 F4 hgone hr => hsome e s4 N2 F4 (by omega) hload hargs hgone hr
      rw [wp_bind] at hswap
      rw [h.root]
      exact hswap

end Spec

end ToyOs
