import ToyOs.ExecImage
import ToyOs.LoadInode
import ToyOs.Fs.FullDisk

/-!
The address space that an executable describes, as a user of the page table
sees it, and the proof that a successful `load_elf_from_inode` builds it.
-/
namespace ToyOs

open Bytes Prog Nat

/-- The byte that an access to a virtual address reaches. -/
def userByte (m : Store) (root va : ℕ) : UInt8 :=
  m (ptePa (pteAt m root (vpn va)) + va % pgSize)

/-- The page table maps the segments and one stack page, with their bytes and
nothing else. -/
structure Described (content : List UInt8) (segs : List Phdr) (m : Store) (root : ℕ) : Prop where
  flags : ∀ ph ∈ segs, ∀ i, i < ph.memsz →
    pteFlags (pteAt m root (vpn (ph.vaddr + i))) = ph.perm ||| pteV ||| pteA ||| pteD
  file : ∀ ph ∈ segs, ∀ i, i < ph.filesz →
    content[ph.offset + i]? = some (userByte m root (ph.vaddr + i))
  zero : ∀ ph ∈ segs, ∀ i, ph.filesz ≤ i → i < pages ph.memsz * pgSize →
    userByte m root (ph.vaddr + i) = 0
  apart : segs.Pairwise fun p q =>
    ∀ i, i < p.memsz → ∀ j, j < q.memsz → (p.vaddr + i) / pgSize ≠ (q.vaddr + j) / pgSize
  stackFlags : pteFlags (pteAt m root (vpn userStack)) =
    pteU ||| pteR ||| pteW ||| pteV ||| pteA ||| pteD
  stack : ∀ i, i < pgSize → userByte m root (userStack + i) = 0
  rest : ∀ k, k < 2 ^ 27 → k ≠ vpn trapframeVa → k ≠ vpn trampolineVa → k ≠ vpn userStack →
    isValid (pteAt m root k) = true → ∃ ph ∈ segs, ∃ i, i < ph.memsz ∧ vpn (ph.vaddr + i) = k

section Pages

variable {L : Layout} {R : Multiset ℕ} {s : Ram} {T : Tree} {F : List ℕ} {tf : ℕ}
  {segs : List Phdr} {content : List UInt8} {ph : Phdr} {i : ℕ}

/-- An address of a segment lies in the page of its offset. -/
theorem Phdr.vpn_add (ph : Phdr) (ha : ph.vaddr % pgSize = 0) (i : ℕ) :
    vpn (ph.vaddr + i) = ph.slot (i / pgSize) ∧ (ph.vaddr + i) % pgSize = i % pgSize := by
  unfold Phdr.slot vpn pgSize at *
  constructor
  · congr 1
    omega
  · omega

theorem lt_pages_of_lt {i n : ℕ} (h : i < pages n * pgSize) : i / pgSize < pages n :=
  Nat.div_lt_of_lt_mul (by rwa [Nat.mul_comm])

/-- The bytes of a segment in terms of the page table. -/
theorem Holds.userByte (h : Holds content s T segs) (hspace : AddrSpace L s T F R)
    (hph : ph ∈ segs) (ha : ph.vaddr % pgSize = 0) (hi : i < pages ph.memsz * pgSize) :
    userByte s.mem T.root (ph.vaddr + i) = ph.byte content i := by
  obtain ⟨hslot, hoff⟩ := ph.vpn_add ha i
  have hT : ∀ p ∈ T.tables, Managed L p := fun p hp => hspace.table_managed hp
  have hmod : i % pgSize < pgSize := mod_lt _ (by decide)
  unfold ToyOs.userByte
  rw [hoff, hspace.rep.pteAt hT (vpn_lt _), hslot, h.bytes ph hph _ (lt_pages_of_lt hi) _ hmod,
    div_add_mod' i pgSize]

/-- A byte of the file part is in the file. -/
theorem Holds.getElem? (h : Holds content s T segs) (hph : ph ∈ segs) (hi : i < ph.filesz) :
    content[ph.offset + i]? = some (ph.byte content i) := by
  have hmem := lt_of_lt_of_le hi (h.le ph hph)
  have hj : i / pgSize < pages ph.memsz := lt_pages_iff.mpr (by
    have := div_mul_le_self i pgSize
    omega)
  have hchunk := (h.chunk ph hph (i / pgSize) hj
    (lt_of_le_of_lt (div_mul_le_self i pgSize) hi)).2
  have hlt : ph.offset + i < content.length := by
    have := div_add_mod' i pgSize
    have : i % pgSize < pgSize := mod_lt _ (by decide)
    omega
  rw [Phdr.byte, if_pos hi, List.getD_eq_getElem _ _ hlt, List.getElem?_eq_getElem hlt]

theorem lt_pages_mul {i n : ℕ} (h : i < n) : i < pages n * pgSize :=
  lt_of_lt_of_le h pages_mul_le

/-- A loaded tree is what the file describes. -/
theorem Loaded.described (h : Loaded L tf segs T) (hbytes : Loaded.Bytes content segs s T)
    (hspace : AddrSpace L s T F R) (hlow : ∀ ph ∈ segs, ph.vaddr + ph.memsz ≤ userStack) :
    Described content segs s.mem T.root := by
  have hT : ∀ p ∈ T.tables, Managed L p := fun p hp => hspace.table_managed hp
  obtain ⟨T0, pa, himg, -, -⟩ := h.image
  have hbelow : ∀ ph ∈ segs, ∀ i, i < ph.memsz →
      (ph.vaddr + i) / pgSize = vpn (ph.vaddr + i) := by
    intro ph hph i hi
    have hend := hlow ph hph
    unfold vpn
    unfold userStack maxVa pgSize at *
    omega
  refine ⟨?_, ?_, ?_, ?_, ?_, ?_, ?_⟩
  · intro ph hph i hi
    obtain ⟨-, pa, hw⟩ := h.word hph (lt_pages_of_lt (lt_pages_mul hi))
    rw [hspace.rep.pteAt hT (vpn_lt _), (ph.vpn_add (himg.aligned ph hph) i).1, hw]
    exact pteFlags_leafWord ph.perm_lt
  · intro ph hph i hi
    have hmem := lt_of_lt_of_le hi (hbytes.image.le ph hph)
    rw [hbytes.image.userByte hspace hph (himg.aligned ph hph) (lt_pages_mul hmem)]
    exact hbytes.image.getElem? hph hi
  · intro ph hph i hle hi
    rw [hbytes.image.userByte hspace hph (himg.aligned ph hph) hi]
    exact if_neg (by omega)
  · refine hbytes.image.apart.imp_of_mem fun {p q} hp hq hne i hi j hj => ?_
    rw [hbelow p hp i hi, hbelow q hq j hj, (p.vpn_add (himg.aligned p hp) i).1,
      (q.vpn_add (himg.aligned q hq) j).1]
    exact hne _ (lt_pages_of_lt (lt_pages_mul hi)) _ (lt_pages_of_lt (lt_pages_mul hj))
  · obtain ⟨pa, hw⟩ := h.stack
    rw [hspace.rep.pteAt hT (vpn_lt _), vpn_userStack, hw]
    exact pteFlags_leafWord (by decide)
  · intro i hi
    have hslot : vpn (userStack + i) = 2 ^ 26 - 3 ∧ (userStack + i) % pgSize = i := by
      unfold vpn userStack maxVa pgSize at *
      omega
    unfold ToyOs.userByte
    rw [hslot.2, hspace.rep.pteAt hT (vpn_lt _), hslot.1]
    exact hbytes.stack i hi
  · intro k hk h1 h2 h3 hv
    rw [vpn_trapframe] at h1
    rw [vpn_trampoline] at h2
    rw [vpn_userStack] at h3
    rw [hspace.rep.pteAt hT hk] at hv
    obtain ⟨ph, hph, n, hn, rfl, -⟩ := h.entry (mem_userSlots.mpr ⟨hk, h2, h1⟩) h3 hv
    have hlt := lt_pages_iff.mp hn
    refine ⟨ph, hph, n * pgSize, hlt, rfl⟩

end Pages

section Spec

variable {L : Layout} {R : Multiset ℕ} {T : Tree} {F : List ℕ} {tf : ℕ} {content : List UInt8}
  {k k' : Kernel} {inode : Fs.InodeRef} {image : LoadedImage}

/-- A successful `load_elf_from_inode` on a fresh page table builds the image
that the file describes. -/
theorem load_elf_image (hfile : OnInode.FileAt k.fs inode content)
    (hspace : AddrSpace L k.ram T F R) (hfresh : T.KernelOnly L tf)
    (hlow : ∀ e, readEhdr content = some e →
      ∀ ph ∈ segments content e e.phnum, ph.vaddr + ph.memsz ≤ userStack)
    (hrun : OnInode.loadElfFromInode L T.root inode k = .ok (some image, k')) :
    ∃ e, readEhdr content = some e ∧ (∀ j, j < e.phnum → readPhdr content e j ≠ none) ∧
      image.entry = e.entry ∧
      image.sz = pages (imageEnd (segments content e e.phnum)) * pgSize ∧
      Described content (segments content e e.phnum) k'.ram.mem T.root := by
  obtain ⟨r, ram, hload, hr, hbeside⟩ :=
    sim_ok_left (OnInode.sim_loadElfFromInode (OnInode.Beside.start hfile)) hrun
  subst hr
  rw [hbeside.ram_eq]
  have hwp : (loadElfFromInode L T.root content).wp (fun _ => True) (fun r s' =>
      ∀ img, r = some img → ∃ e, readEhdr content = some e ∧
        (∀ j, j < e.phnum → readPhdr content e j ≠ none) ∧ img.entry = e.entry ∧
        img.sz = pages (imageEnd (segments content e e.phnum)) * pgSize ∧
        Described content (segments content e e.phnum) s'.mem T.root) k.ram := by
    refine wp_loadElf hspace hfresh (Tree.Tabled.refl T) (Or.inr fun _ => trivial) ⟨?_, ?_, ?_⟩
    · intro e i s' T' F' _ _ _ _ img himg
      cases himg
    · intro s' T' F' _ _ _ img himg
      cases himg
    · intro e s' T' F' hload hm hl hb img himg
      cases himg
      rw [← hm.root]
      exact ⟨e, hload.header, fun j hj => (hload.fitting j hj).1, rfl, rfl,
        hl.described hb hm.space (hlow e hload.header)⟩
  have hpost := wp_ok hwp hload
  exact hpost image rfl

end Spec

section Sample

variable {L : Layout} {R : Multiset ℕ} {s : Ram} {T : Tree} {F : List ℕ} {tf : ℕ}
  {content : List UInt8}

/-- `load_elf_from_inode` returns an image exactly for files that can be loaded. -/
theorem load_succeeds_iff (hspace : AddrSpace L s T F R) (hfresh : T.KernelOnly L tf) :
    (∃ image s', loadElfFromInode L T.root content s = .ok (some image, s')) ↔
      ∃ e, Loadable content T F.length e := by
  constructor
  · rintro ⟨image, s', hrun⟩
    have hwp : (loadElfFromInode L T.root content).wp (fun _ => True)
        (fun r _ => r = some image → ∃ e, Loadable content T F.length e) s := by
      refine wp_loadElf hspace hfresh (Tree.Tabled.refl T) (Or.inr fun _ => trivial) ⟨?_, ?_, ?_⟩
      · exact fun _ _ _ _ _ _ _ _ _ hsome => absurd hsome (by simp)
      · exact fun _ _ _ _ _ _ hsome => absurd hsome (by simp)
      · exact fun e _ _ _ hload _ _ _ _ => ⟨e, hload⟩
    exact wp_ok hwp hrun rfl
  · rintro ⟨e, hload⟩
    have hwp : (loadElfFromInode L T.root content).wp (fun _ => False)
        (fun r _ => ∃ image, r = some image) s := by
      refine wp_loadElf hspace hfresh (Tree.Tabled.refl T) (Or.inl fun e' he => ?_) ⟨?_, ?_, ?_⟩
      · obtain rfl := Option.some.inj (hload.header.symm.trans he)
        exact hload.safe
      · exact fun _ _ _ _ _ hcut _ _ _ => absurd hload hcut.not_loadable
      · exact fun _ _ _ hfails _ _ => absurd hload hfails.not_loadable
      · exact fun _ _ _ _ _ _ _ _ => ⟨_, rfl⟩
    obtain ⟨r, s', hrun, image, rfl⟩ := exists_ok hwp
    exact ⟨image, s', hrun⟩

/-- Memory, a fresh page table and a file that can be loaded, loaded from its inode. -/
theorem exists_load {e : Ehdr} (hsize : content.length ≤ Fs.maxfile * Fs.bsize)
    (hload : ∀ (G : Tree) (free : ℕ), 6 ≤ free → Loadable content G free e) :
    ∃ (k k' : Kernel) (T : Tree) (F : List ℕ) (R : Multiset ℕ) (tf : ℕ) (inode : Fs.InodeRef)
      (image : LoadedImage), OnInode.FileAt k.fs inode content ∧
      AddrSpace smallLayout k.ram T F R ∧ T.KernelOnly smallLayout tf ∧
      OnInode.loadElfFromInode smallLayout T.root inode k = .ok (some image, k') := by
  obtain ⟨k₀, -, -, -, -⟩ := exists_solo
  obtain ⟨s, T, F, tf, ks, hspace, hfresh, hlen⟩ := exists_space smallLayout (n := 1000) (by decide)
  obtain ⟨fs, inode, -, n, hreach, -, -, hdata, href, -⟩ := Fs.exists_file hsize
  obtain ⟨N, htidy⟩ := hreach.tidy
  have hfile : OnInode.FileAt fs inode content := ⟨htidy.stable, n, 1, href, hdata⟩
  obtain ⟨image, s', hrun⟩ := (load_succeeds_iff hspace hfresh).mpr ⟨e, hload T _ (by omega)⟩
  obtain ⟨r, k', hrun', hr, -⟩ := sim_ok (OnInode.sim_loadElfFromInode
    (OnInode.Beside.start (k := { k₀ with ram := s, fs := fs }) hfile)) hrun
  subst hr
  exact ⟨_, k', T, F, _, tf, inode, image, hfile, hspace, hfresh, hrun'⟩

theorem load_elf_image_dense : ∃ (k k' : Kernel) (T : Tree) (F : List ℕ) (R : Multiset ℕ) (tf : ℕ)
    (inode : Fs.InodeRef) (image : LoadedImage) (e : Ehdr),
    OnInode.FileAt k.fs inode denseElf ∧ AddrSpace smallLayout k.ram T F R ∧
      T.KernelOnly smallLayout tf ∧
      OnInode.loadElfFromInode smallLayout T.root inode k = .ok (some image, k') ∧
      readEhdr denseElf = some e ∧ image.entry = e.entry ∧
      Described denseElf (segments denseElf e e.phnum) k'.ram.mem T.root := by
  obtain ⟨e, hpage, hread⟩ := denseElf_pageFile
  obtain ⟨k, k', T, F, R, tf, inode, image, hfile, hspace, hfresh, hrun⟩ :=
    exists_load (by decide) fun G free hfree => hpage.loads hfree hread
  have hlow : ∀ e, readEhdr denseElf = some e →
      ∀ ph ∈ segments denseElf e e.phnum, ph.vaddr + ph.memsz ≤ userStack := by
    intro e' he' ph hph
    obtain rfl := Option.some.inj (hpage.header.symm.trans he')
    rw [hpage.segments (le_refl _) hpage.some_header] at hph
    rw [List.mem_singleton.mp hph]
    exact hpage.low
  obtain ⟨e', he', -, hentry, -, hdesc⟩ := load_elf_image hfile hspace hfresh hlow hrun
  exact ⟨k, k', T, F, R, tf, inode, image, e', hfile, hspace, hfresh, hrun, he', hentry, hdesc⟩

end Sample

end ToyOs
