import ToyOs.LoadSpec

/-!
The two loaders side by side. `load_elf` checks the header table and the file
range of every segment against the length of the file; `load_elf_from_inode`
finds out by short reads. The checks differ where nothing is read: an empty
header table, or a segment without file bytes, that lies behind the end of
the file is refused by the first loader and accepted by the second.
-/
namespace ToyOs

open Bytes Prog List Option Nat

/-- Both page tables map the same pages, with the same flags and bytes. -/
structure SameSpace (m m' : Store) (root : ℕ) : Prop where
  flags : ∀ k, k < 2 ^ 27 → pteFlags (pteAt m root k) = pteFlags (pteAt m' root k)
  bytes : ∀ va, isValid (pteAt m root (vpn va)) = true → userByte m root va = userByte m' root va

/-- One loader succeeds exactly when the other one does, with the same image. -/
structure LoadersAgree (L : Layout) (k : Kernel) (pt : ℕ) (inode : Fs.InodeRef)
    (elf : List UInt8) : Prop where
  fromSlice : ∀ image s, loadElf L pt elf k.ram = .ok (some image, s) →
    ∃ k', OnInode.loadElfFromInode L pt inode k = .ok (some image, k') ∧
      SameSpace s.mem k'.ram.mem pt
  fromInode : ∀ image k', OnInode.loadElfFromInode L pt inode k = .ok (some image, k') →
    ∃ s, loadElf L pt elf k.ram = .ok (some image, s) ∧ SameSpace s.mem k'.ram.mem pt

/-- The file part of a segment ends within the file. -/
def Phdr.Within (ph : Phdr) (elf : List UInt8) : Prop := ph.offset + ph.filesz ≤ elf.length

/-- An empty header table or an empty file part lies behind the end of the file. -/
def Astray (elf : List UInt8) : Prop :=
  ∃ e, readEhdr elf = some e ∧ (e.phnum = 0 ∧ elf.length < e.phoff ∨
    ∃ ph ∈ segments elf e e.phnum, ph.filesz = 0 ∧ elf.length < ph.offset)

section Segment

variable {L : Layout} {pt : ℕ} {ph : Phdr} {elf : List UInt8}

/-- A read within the file fills the page. -/
theorem fillPage_eq (hw : ph.Within elf) (hlen : elf.length < 2 ^ 32) (pa off : ℕ) :
    fillPage ph elf pa off = copySegment ph elf pa off >>= fun _ => pure true := by
  unfold fillPage copySegment
  by_cases hoff : off < ph.filesz
  · unfold Phdr.Within at hw
    have hadd : ph.offset + off < usizeSize := by
      unfold usizeSize
      omega
    have hfull : ((elf.drop (ph.offset + off)).take (min pgSize (ph.filesz - off))).length =
        min pgSize (ph.filesz - off) := by
      rw [length_take, length_drop]
      omega
    rw [if_pos hoff, if_pos hoff, addUsize_apply hadd]
    simp only [Prog.pure_bind, readi, if_pos (show ph.offset + off < 2 ^ 32 by omega), hfull,
      beq_self_eq_true]
  · rw [if_neg hoff, if_neg hoff]
    rfl

/-- On a segment within the file the page loops are the same. -/
theorem loadSegmentLoop_eq (hw : ph.Within elf) (hlen : elf.length < 2 ^ 32) (n mapped : ℕ) :
    loadSegmentLoop L pt ph elf n mapped = loadSegmentPages L pt ph elf n mapped := by
  induction n generalizing mapped with
  | zero => rfl
  | succ n ih =>
    unfold loadSegmentLoop loadSegmentPages
    refine congrArg (kallocZeroed >>= ·) (funext fun o => ?_)
    cases o with
    | none => rfl
    | some pa =>
      simp only [fillPage_eq hw hlen, Prog.bind_assoc, Prog.pure_bind, if_true, ih]

theorem loadSegment_eq (hw : ph.Within elf) (hlen : elf.length < 2 ^ 32) :
    loadSegmentFromInode L pt ph elf = loadSegment L pt ph elf := by
  have hadd : ph.offset + ph.filesz < usizeSize := by
    unfold Phdr.Within at hw
    unfold usizeSize
    omega
  unfold loadSegmentFromInode loadSegment
  rw [addUsize_apply hadd, loadSegmentLoop_eq hw hlen, Prog.pure_bind,
    if_neg (Nat.not_lt_of_le hw)]

/-- A page that was filled had its bytes in the file. -/
theorem wp_fillPage_chunk {pa j : ℕ} {s : Ram} :
    (fillPage ph elf pa (j * pgSize)).wp (fun _ => True) (fun b _ => b = true → ph.chunk elf j)
      s := by
  unfold fillPage
  by_cases hoff : j * pgSize < ph.filesz
  · simp only [if_pos hoff, wp_bind, wp_addUsize]
    refine ⟨fun _ => ?_, fun _ => trivial⟩
    unfold readi
    by_cases hlow : ph.offset + j * pgSize < 2 ^ 32
    · simp only [if_pos hlow, wp_bind, wp_modify, wp_pure, beq_iff_eq,
        length_take, length_drop]
      intro hfull _
      refine ⟨hlow, ?_⟩
      unfold pgSize at *
      omega
    · simp only [if_neg hlow, wp_pure]
      exact fun h => absurd h Bool.false_ne_true
  · rw [if_neg hoff, wp_pure]
    exact fun _ h => absurd h hoff

/-- A loaded segment has all of its file bytes. -/
theorem wp_loadSegmentLoop_chunk {n mapped : ℕ} {s : Ram} :
    (loadSegmentLoop L pt ph elf n mapped).wp (fun _ => True)
      (fun r _ => r = some () → ∀ j, mapped ≤ j → j < mapped + n → ph.chunk elf j) s := by
  induction n generalizing mapped s with
  | zero => exact fun _ j h1 h2 => absurd h2 (by omega)
  | succ n ih =>
    simp only [loadSegmentLoop, wp_bind]
    refine wp_trivial (fun _ => trivial) fun o s1 => ?_
    cases o with
    | none =>
      rw [wp_bind]
      exact wp_trivial (fun _ => trivial) fun _ _ h => nomatch h
    | some pa =>
      rw [wp_bind]
      refine wp_post wp_fillPage_chunk fun b s2 hchunk => ?_
      cases b with
      | false =>
        simp only [Bool.false_eq_true, if_false, wp_bind]
        refine wp_trivial (fun _ => trivial) fun _ s3 => ?_
        exact wp_trivial (fun _ => trivial) fun _ _ h => nomatch h
      | true =>
        simp only [if_true, wp_bind]
        refine wp_trivial (fun _ => trivial) fun va s3 => ?_
        refine wp_trivial (fun _ => trivial) fun o s4 => ?_
        cases o with
        | none =>
          simp only [wp_bind]
          refine wp_trivial (fun _ => trivial) fun _ s5 => ?_
          exact wp_trivial (fun _ => trivial) fun _ _ h => nomatch h
        | some _ =>
          simp only [wp_bind]
          refine wp_trivial (fun _ => trivial) fun _ s5 => ?_
          refine wp_post ih fun r t hrest hr j h1 h2 => ?_
          by_cases hj : j = mapped
          · exact hj ▸ hchunk rfl
          · exact hrest hr j (by omega) (by omega)

theorem Phdr.within_of_chunks (hle : ph.filesz ≤ ph.memsz)
    (h : ∀ j, j < pages ph.memsz → ph.chunk elf j) (hpos : ph.filesz ≠ 0) : ph.Within elf := by
  have hlast : (ph.filesz - 1) / pgSize < pages ph.memsz := lt_pages_iff.mpr (by
    have := div_mul_le_self (ph.filesz - 1) pgSize
    omega)
  have hchunk := (h _ hlast (by
    have := div_mul_le_self (ph.filesz - 1) pgSize
    omega)).2
  unfold Phdr.Within
  unfold pgSize at *
  omega

/-- A segment that the loader of inodes accepts has no file bytes, or has them in the file. -/
theorem wp_loadSegmentFromInode_within {s : Ram} :
    (loadSegmentFromInode L pt ph elf).wp (fun _ => True)
      (fun r _ => r = some () → ph.filesz = 0 ∨ ph.Within elf) s := by
  unfold loadSegmentFromInode
  simp only [wp_ite, wp_pure]
  have hno : (none : Option Unit) = some () → ph.filesz = 0 ∨ ph.Within elf := fun h =>
    absurd h.symm (some_ne_none ())
  refine ⟨fun _ => hno, fun _ => ⟨fun _ => hno, fun hle => ?_⟩⟩
  refine wp_post wp_loadSegmentLoop_chunk fun r t hchunk hr => ?_
  by_cases hzero : ph.filesz = 0
  · exact Or.inl hzero
  · exact Or.inr (ph.within_of_chunks (by omega)
      (fun j hj => hchunk hr j (zero_le j) (by omega)) hzero)

/-- A segment that the loader of slices accepts ends within the file. -/
theorem wp_loadSegment_within {s : Ram} :
    (loadSegment L pt ph elf).wp (fun _ => True) (fun r _ => r = some () → ph.Within elf) s := by
  unfold loadSegment
  simp only [wp_ite, wp_pure, wp_bind, wp_addUsize]
  have hno : (none : Option Unit) = some () → ph.Within elf := fun h =>
    absurd h.symm (some_ne_none ())
  refine ⟨fun _ => hno, fun _ => ⟨fun _ => hno, fun _ => ⟨fun _ => ?_, fun _ => trivial⟩⟩⟩
  refine ⟨fun _ => hno, fun hw => ?_⟩
  exact wp_trivial (fun _ => trivial) fun _ _ _ => Nat.le_of_not_lt hw

end Segment

section Headers

variable {L : Layout} {pt : ℕ} {elf : List UInt8} {e : Ehdr} {n i sz : ℕ} {s : Ram}

theorem readPhdr_eq (h : readPhdr elf e i ≠ none) : readPhdr elf e i = some (phdrAt elf e i) := by
  unfold readPhdr readExactInode readi at *
  by_cases hlow : e.phoff + i * e.phentsize < 2 ^ 32
  · simp only [if_pos hlow] at h ⊢
    by_cases hfull : ((elf.drop (e.phoff + i * e.phentsize)).take phdrSize).length = phdrSize
    · rw [if_pos hfull]
      rfl
    · rw [if_neg hfull] at h
      exact absurd rfl h
  · simp only [if_neg hlow] at h
    exact absurd rfl h

theorem readPhdr_ne_none (hlen : elf.length < 2 ^ 32)
    (h : e.phoff + i * e.phentsize + phdrSize ≤ elf.length) : readPhdr elf e i ≠ none := by
  have hfull : ((elf.drop (e.phoff + i * e.phentsize)).take phdrSize).length = phdrSize := by
    rw [length_take, length_drop]
    omega
  unfold readPhdr readExactInode readi
  simp only [if_pos (show e.phoff + i * e.phentsize < 2 ^ 32 by omega), if_pos hfull]
  exact some_ne_none _

theorem phdr_end_le (h : readPhdr elf e i ≠ none) :
    e.phoff + i * e.phentsize + phdrSize ≤ elf.length := by
  unfold readPhdr readExactInode readi at h
  by_contra hend
  have hshort : ((elf.drop (e.phoff + i * e.phentsize)).take phdrSize).length ≠ phdrSize := by
    rw [length_take, length_drop]
    have : phdrSize = 56 := rfl
    omega
  by_cases hlow : e.phoff + i * e.phentsize < 2 ^ 32
  · simp only [if_pos hlow, if_neg hshort] at h
    exact h rfl
  · simp only [if_neg hlow] at h
    exact h rfl

/-- The headers from `i` on are read and their segments end within the file. -/
def TableWithin (elf : List UInt8) (e : Ehdr) (n i : ℕ) : Prop :=
  ∀ j, i ≤ j → j < i + n → readPhdr elf e j ≠ none ∧
    ((phdrAt elf e j).typ = ptLoad → (phdrAt elf e j).Within elf)

theorem loadHeaders_eq (h : TableWithin elf e n i) (hlen : elf.length < 2 ^ 32) :
    loadHeaders L pt elf e n i sz = loadElfHeaders L pt elf e n i sz := by
  induction n generalizing i sz with
  | zero => rfl
  | succ n ih =>
    have hnext : TableWithin elf e n (i + 1) := fun j h1 h2 => h j (by omega) (by omega)
    obtain ⟨hread, hw⟩ := h i (le_refl i) (by omega)
    unfold loadHeaders loadElfHeaders
    rw [readPhdr_eq hread]
    generalize phdrAt elf e i = ph at hw
    by_cases ht : ph.typ = ptLoad
    · simp only [ht, ne_eq, not_true_eq_false, if_false, loadSegment_eq (hw ht) hlen, ih hnext]
    · simp only [ht, ne_eq, not_false_eq_true, if_true, ih hnext]

/-- The loader of inodes has read every header that it goes past. -/
theorem wp_loadHeaders_read : (loadHeaders L pt elf e n i sz).wp (fun _ => True)
    (fun r _ => r ≠ none → ∀ j, i ≤ j → j < i + n → readPhdr elf e j ≠ none ∧
      ((phdrAt elf e j).typ = ptLoad →
        (phdrAt elf e j).filesz = 0 ∨ (phdrAt elf e j).Within elf)) s := by
  induction n generalizing i sz s with
  | zero => exact fun _ j h1 h2 => absurd h2 (by omega)
  | succ n ih =>
    unfold loadHeaders
    by_cases hread : readPhdr elf e i = none
    · rw [hread]
      exact fun h => absurd rfl h
    · rw [readPhdr_eq hread]
      generalize hph : phdrAt elf e i = ph
      by_cases ht : ph.typ = ptLoad
      · simp only [ht, ne_eq, not_true_eq_false, if_false, wp_bind]
        refine wp_post wp_loadSegmentFromInode_within fun o s1 hseg => ?_
        cases o with
        | none =>
          rw [wp_bind]
          exact wp_trivial (fun _ => trivial) fun _ _ h => absurd rfl h
        | some _ =>
          rw [wp_bind]
          refine wp_trivial (fun _ => trivial) fun stop s2 => ?_
          refine wp_post ih fun r t hrest hr j h1 h2 => ?_
          by_cases hj : j = i
          · subst hj
            rw [hph]
            exact ⟨hread, fun _ => hseg rfl⟩
          · exact hrest hr j (by omega) (by omega)
      · simp only [ht, ne_eq, not_false_eq_true, if_true]
        refine wp_post ih fun r t hrest hr j h1 h2 => ?_
        by_cases hj : j = i
        · subst hj
          rw [hph]
          exact ⟨hread, fun h => absurd h ht⟩
        · exact hrest hr j (by omega) (by omega)

/-- The loader of slices has checked every segment that it goes past. -/
theorem wp_loadElfHeaders_within : (loadElfHeaders L pt elf e n i sz).wp (fun _ => True)
    (fun r _ => r ≠ none → ∀ j, i ≤ j → j < i + n →
      (phdrAt elf e j).typ = ptLoad → (phdrAt elf e j).Within elf) s := by
  induction n generalizing i sz s with
  | zero => exact fun _ j h1 h2 => absurd h2 (by omega)
  | succ n ih =>
    unfold loadElfHeaders
    generalize hph : phdrAt elf e i = ph
    by_cases ht : ph.typ = ptLoad
    · simp only [ht, ne_eq, not_true_eq_false, if_false, wp_bind]
      refine wp_post wp_loadSegment_within fun o s1 hseg => ?_
      cases o with
      | none =>
        rw [wp_bind]
        exact wp_trivial (fun _ => trivial) fun _ _ h => absurd rfl h
      | some _ =>
        rw [wp_bind]
        refine wp_trivial (fun _ => trivial) fun stop s2 => ?_
        refine wp_post ih fun r t hrest hr j h1 h2 => ?_
        by_cases hj : j = i
        · subst hj
          rw [hph]
          exact fun _ => hseg rfl
        · exact hrest hr j (by omega) (by omega)
    · simp only [ht, ne_eq, not_false_eq_true, if_true]
      refine wp_post ih fun r t hrest hr j h1 h2 => ?_
      by_cases hj : j = i
      · subst hj
        rw [hph]
        exact fun h => absurd h ht
      · exact hrest hr j (by omega) (by omega)

end Headers

section Whole

variable {L : Layout} {pt : ℕ} {elf : List UInt8} {e : Ehdr} {s s' : Ram} {image : LoadedImage}

theorem Ehdr.phentsize_of_accepted (h : e.accepted = true) : e.phentsize = phdrSize := by
  unfold Ehdr.accepted at h
  simp only [Bool.and_eq_true, beq_iff_eq] at h
  exact h.2

/-- What the checks of the header have found. -/
theorem readEhdr_some (h : readEhdr elf = some e) :
    ehdrSize ≤ elf.length ∧ Ehdr.ofBytes (elf.take ehdrSize) = e ∧ e.accepted = true ∧
      e.phoff + e.phnum * e.phentsize < usizeSize := by
  unfold readEhdr readExactInode readi at h
  simp only [show (0 : ℕ) < 2 ^ 32 by decide, if_true, drop_zero] at h
  by_cases hfull : (elf.take ehdrSize).length = ehdrSize
  · rw [if_pos hfull] at h
    simp only at h
    generalize Ehdr.ofBytes (elf.take ehdrSize) = e' at h
    by_cases hacc : e'.accepted = true
    · rw [if_pos hacc] at h
      unfold checkedMul at h
      by_cases hmul : e'.phnum * e'.phentsize < usizeSize
      · rw [if_pos hmul] at h
        simp only [checkedAdd] at h
        by_cases hadd : e'.phoff + e'.phnum * e'.phentsize < usizeSize
        · rw [if_pos hadd] at h
          obtain rfl := Option.some.inj h
          rw [length_take] at hfull
          exact ⟨by omega, rfl, hacc, hadd⟩
        · rw [if_neg hadd] at h
          cases h
      · rw [if_neg hmul] at h
        cases h
    · rw [if_neg hacc] at h
      cases h
  · rw [if_neg hfull] at h
    cases h

theorem readEhdr_eq (hlen : ehdrSize ≤ elf.length) (he : Ehdr.ofBytes (elf.take ehdrSize) = e)
    (hacc : e.accepted = true) (hend : e.phoff + e.phnum * e.phentsize < usizeSize) :
    readEhdr elf = some e := by
  have hfull : (elf.take ehdrSize).length = ehdrSize := by
    rw [length_take]
    omega
  unfold readEhdr readExactInode readi
  simp only [show (0 : ℕ) < 2 ^ 32 by decide, if_true, drop_zero]
  rw [if_pos hfull]
  simp only
  rw [he, if_pos hacc, checkedMul, if_pos (by omega)]
  simp only [checkedAdd]
  rw [if_pos hend]

/-- With the table and the segments within the file the loaders are the same program. -/
theorem loadElfFromInode_eq (he : readEhdr elf = some e)
    (htable : e.phoff + e.phnum * e.phentsize ≤ elf.length) (hw : TableWithin elf e e.phnum 0)
    (hlen : elf.length < 2 ^ 32) : loadElfFromInode L pt elf = loadElf L pt elf := by
  obtain ⟨hsize, hbytes, hacc, hend⟩ := readEhdr_some he
  unfold loadElfFromInode loadElf
  rw [he, if_neg (Nat.not_lt_of_le hsize), hbytes, if_pos hacc]
  unfold loadElfTable
  rw [addUsize_apply hend, Prog.pure_bind, if_neg (Nat.not_lt_of_le htable)]
  simp only [loadHeaders_eq hw hlen]

/-- What a successful `load_elf` has checked. -/
theorem loadElf_within (hlen : elf.length < 2 ^ 32)
    (h : loadElf L pt elf s = .ok (some image, s')) :
    ∃ e, readEhdr elf = some e ∧ e.phoff + e.phnum * e.phentsize ≤ elf.length ∧
      TableWithin elf e e.phnum 0 := by
  have hwp : (loadElf L pt elf).wp (fun _ => True) (fun r _ => r ≠ none → ∃ e,
      readEhdr elf = some e ∧ e.phoff + e.phnum * e.phentsize ≤ elf.length ∧
        TableWithin elf e e.phnum 0) s := by
    unfold loadElf
    simp only [wp_ite, wp_pure]
    refine ⟨fun _ hr => absurd rfl hr, fun hsize => ⟨fun hacc => ?_, fun _ hr => absurd rfl hr⟩⟩
    generalize hbytes : Ehdr.ofBytes (elf.take ehdrSize) = e at hacc
    unfold loadElfTable
    simp only [wp_bind, wp_addUsize, wp_ite, wp_pure]
    refine ⟨fun hend => ⟨fun _ hr => absurd rfl hr, fun htable => ?_⟩, fun _ => trivial⟩
    have he := readEhdr_eq (Nat.le_of_not_lt hsize) hbytes hacc hend
    have hent := e.phentsize_of_accepted hacc
    refine wp_post wp_loadElfHeaders_within fun o s1 hin => ?_
    cases o with
    | none => exact fun hr => absurd rfl hr
    | some sz =>
      refine wp_trivial (fun _ => trivial) fun r t _ => ?_
      refine ⟨e, he, Nat.le_of_not_lt htable, fun j h1 h2 => ⟨?_, ?_⟩⟩
      · refine readPhdr_ne_none hlen ?_
        have hmul : (j + 1) * e.phentsize ≤ e.phnum * e.phentsize :=
          Nat.mul_le_mul_right _ (by omega)
        rw [Nat.succ_mul] at hmul
        omega
      · exact hin (some_ne_none sz) j h1 h2
  have hpost := wp_ok hwp h
  exact hpost (some_ne_none image)

/-- What a successful `load_elf_from_inode` has found out. -/
theorem loadElfFromInode_read (h : loadElfFromInode L pt elf s = .ok (some image, s')) :
    ∃ e, readEhdr elf = some e ∧ ∀ j, j < e.phnum → readPhdr elf e j ≠ none ∧
      ((phdrAt elf e j).typ = ptLoad →
        (phdrAt elf e j).filesz = 0 ∨ (phdrAt elf e j).Within elf) := by
  have hwp : (loadElfFromInode L pt elf).wp (fun _ => True) (fun r _ => r ≠ none → ∃ e,
      readEhdr elf = some e ∧ ∀ j, j < e.phnum → readPhdr elf e j ≠ none ∧
        ((phdrAt elf e j).typ = ptLoad →
          (phdrAt elf e j).filesz = 0 ∨ (phdrAt elf e j).Within elf)) s := by
    unfold loadElfFromInode
    cases he : readEhdr elf with
    | none => exact fun hr => absurd rfl hr
    | some e =>
      simp only [wp_bind]
      refine wp_post wp_loadHeaders_read fun o s1 hin => ?_
      cases o with
      | none => exact fun hr => absurd rfl hr
      | some sz =>
        refine wp_trivial (fun _ => trivial) fun r t _ => ⟨e, rfl, fun j hj => ?_⟩
        exact hin (some_ne_none sz) j (zero_le j) (by omega)
  have hpost := wp_ok hwp h
  exact hpost (some_ne_none image)

/-- Nothing astray: the table ends within the file, and so does every segment. -/
theorem within_of_not_astray (he : readEhdr elf = some e) (hastray : ¬ Astray elf)
    (h : ∀ j, j < e.phnum → readPhdr elf e j ≠ none ∧ ((phdrAt elf e j).typ = ptLoad →
      (phdrAt elf e j).filesz = 0 ∨ (phdrAt elf e j).Within elf)) :
    e.phoff + e.phnum * e.phentsize ≤ elf.length ∧ TableWithin elf e e.phnum 0 := by
  have hent := e.phentsize_of_accepted (readEhdr_some he).2.2.1
  refine ⟨?_, fun j _ hj => ⟨(h j (by omega)).1, fun ht => ?_⟩⟩
  · by_cases hnum : e.phnum = 0
    · rw [hnum, Nat.zero_mul, Nat.add_zero]
      by_contra hlt
      exact hastray ⟨e, he, Or.inl ⟨hnum, Nat.lt_of_not_le hlt⟩⟩
    · have hlast := phdr_end_le (h (e.phnum - 1) (by omega)).1
      have hmul : e.phnum * e.phentsize = (e.phnum - 1) * e.phentsize + e.phentsize := by
        rw [← Nat.succ_mul, Nat.succ_eq_add_one, Nat.sub_add_cancel (Nat.pos_of_ne_zero hnum)]
      omega
  · rcases (h j (by omega)).2 ht with hzero | hin
    · unfold Phdr.Within
      rw [hzero, Nat.add_zero]
      by_contra hlt
      refine hastray ⟨e, he, Or.inr ⟨phdrAt elf e j, ?_, hzero, Nat.lt_of_not_le hlt⟩⟩
      exact mem_segments.mpr ⟨j, by omega, loadable_of_load (readPhdr_eq (h j (by omega)).1) ht⟩
    · exact hin

theorem not_astray_of_within (he : readEhdr elf = some e)
    (htable : e.phoff + e.phnum * e.phentsize ≤ elf.length) (hw : TableWithin elf e e.phnum 0) :
    ¬ Astray elf := by
  rintro ⟨e', he', hcase⟩
  obtain rfl := Option.some.inj (he.symm.trans he')
  rcases hcase with ⟨hnum, hlt⟩ | ⟨ph, hph, hzero, hlt⟩
  · omega
  · obtain ⟨j, hj, hload⟩ := mem_segments.mp hph
    obtain ⟨hread, hin⟩ := hw j (zero_le j) (by omega)
    unfold loadable at hload
    rw [readPhdr_eq hread, filter_some] at hload
    by_cases ht : (phdrAt elf e j).typ = ptLoad
    · rw [if_pos (by simpa using ht)] at hload
      obtain rfl := Option.some.inj hload
      have hend := hin ht
      unfold Phdr.Within at hend
      omega
    · rw [if_neg (by simpa using ht)] at hload
      cases hload

end Whole

section Agreement

variable {L : Layout} {k : Kernel} {pt : ℕ} {inode : Fs.InodeRef} {elf : List UInt8}

theorem OnInode.FileAt.length_lt (h : OnInode.FileAt k.fs inode elf) : elf.length < 2 ^ 32 := by
  obtain ⟨hst, n, c, href, rfl⟩ := h
  have hsize := (hst.intact n (hst.live inode n c href).1).dense.size
  have hlen : (k.fs.file n).data.length = (k.fs.node n).size := Fs.content_length _ _
  rw [hlen]
  exact lt_of_le_of_lt hsize (by decide)

theorem SameSpace.refl (m : Store) (root : ℕ) : SameSpace m m root :=
  ⟨fun _ _ => rfl, fun _ _ => rfl⟩

/-- On any page table the loaders agree when the one that reads the inode fails
or nothing of the file is astray. -/
theorem loadersAgree_iff_run (hfile : OnInode.FileAt k.fs inode elf) :
    LoadersAgree L k pt inode elf ↔
      ∀ image k', OnInode.loadElfFromInode L pt inode k = .ok (some image, k') → ¬ Astray elf := by
  have hlen := hfile.length_lt
  have hsim : Prog.Sim (OnInode.loadElfFromInode L pt inode) (loadElfFromInode L pt elf)
      (OnInode.Same k inode elf) k k.ram :=
    OnInode.sim_loadElfFromInode (OnInode.Beside.start hfile)
  constructor
  · intro h image k' hrun
    obtain ⟨s, hslice, -⟩ := h.fromInode image k' hrun
    obtain ⟨e, he, htable, hw⟩ := loadElf_within hlen hslice
    exact not_astray_of_within he htable hw
  · intro h
    refine ⟨fun image s hslice => ?_, fun image k' hrun => ?_⟩
    · obtain ⟨e, he, htable, hw⟩ := loadElf_within hlen hslice
      rw [← loadElfFromInode_eq he htable hw hlen] at hslice
      obtain ⟨r, k', hrun, hr, hbeside⟩ := sim_ok hsim hslice
      subst hr
      rw [← hbeside.ram_eq]
      exact ⟨k', hrun, SameSpace.refl _ _⟩
    · obtain ⟨r, s, hload, hr, hbeside⟩ := sim_ok_left hsim hrun
      subst hr
      obtain ⟨e, he, hread⟩ := loadElfFromInode_read hload
      obtain ⟨htable, hw⟩ := within_of_not_astray he (h image k' hrun) hread
      rw [loadElfFromInode_eq he htable hw hlen] at hload
      rw [hbeside.ram_eq]
      exact ⟨s, hload, SameSpace.refl _ _⟩

/-- The loaders agree on a fresh page table, unless there is memory to load the
file and something of it is astray. -/
theorem loaders_agree_iff {R : Multiset ℕ} {T : Tree} {F : List ℕ} {tf : ℕ}
    (hfile : OnInode.FileAt k.fs inode elf) (hspace : AddrSpace L k.ram T F R)
    (hfresh : T.KernelOnly L tf) :
    LoadersAgree L k T.root inode elf ↔ ∀ e, Loadable elf T F.length e → ¬ Astray elf := by
  have hsim : Prog.Sim (OnInode.loadElfFromInode L T.root inode) (loadElfFromInode L T.root elf)
      (OnInode.Same k inode elf) k k.ram :=
    OnInode.sim_loadElfFromInode (OnInode.Beside.start hfile)
  rw [loadersAgree_iff_run hfile]
  constructor
  · intro h e hload
    obtain ⟨image, s, hrun⟩ := (load_succeeds_iff hspace hfresh).mpr ⟨e, hload⟩
    obtain ⟨r, k', hrun', hr, -⟩ := sim_ok hsim hrun
    subst hr
    exact h image k' hrun'
  · intro h image k' hrun
    obtain ⟨r, s, hrun', hr, -⟩ := sim_ok_left hsim hrun
    subst hr
    obtain ⟨e, hload⟩ := (load_succeeds_iff hspace hfresh).mp ⟨image, s, hrun'⟩
    exact h e hload

/-- The file with one page and its data. -/
theorem loaders_agree_iff_dense : ∃ (k k' : Kernel) (pt : ℕ) (inode : Fs.InodeRef)
    (image : LoadedImage), OnInode.FileAt k.fs inode denseElf ∧
    OnInode.loadElfFromInode smallLayout pt inode k = .ok (some image, k') ∧
    LoadersAgree smallLayout k pt inode denseElf := by
  obtain ⟨e, hpage, hread⟩ := denseElf_pageFile
  obtain ⟨k, k', T, F, R, tf, inode, image, hfile, hspace, hfresh, hrun⟩ :=
    exists_load (by decide) fun G free hfree => hpage.loads hfree hread
  refine ⟨k, k', T.root, inode, image, hfile, hrun,
    (loaders_agree_iff hfile hspace hfresh).mpr fun _ _ => ?_⟩
  rintro ⟨e', he', hcase⟩
  obtain rfl := Option.some.inj (hpage.header.symm.trans he')
  rcases hcase with ⟨hnum, -⟩ | ⟨ph, hph, hzero, -⟩
  · have := hpage.some_header
    omega
  · rw [hpage.segments (le_refl _) hpage.some_header] at hph
    rw [List.mem_singleton.mp hph] at hzero
    exact absurd hzero (by decide)

end Agreement

section Sample

/-- An ELF header without program headers whose table starts at `phoff`. -/
def bareElf (phoff : ℕ) : List UInt8 :=
  elfMagic ++ [elfclass64, elfdata2lsb, 1] ++ leBytes 9 0 ++ leBytes 2 etExec ++ leBytes 2 emRiscv ++
    leBytes 4 1 ++ leBytes 8 0 ++ leBytes 8 phoff ++ leBytes 8 0 ++ leBytes 4 0 ++
    leBytes 2 ehdrSize ++ leBytes 2 phdrSize ++ leBytes 2 0 ++ leBytes 6 0

/-- A file without program headers can be loaded. -/
theorem loadable_of_bare {content : List UInt8} {e : Ehdr} (he : readEhdr content = some e)
    (hnum : e.phnum = 0) {G : Tree} {free : ℕ} (hfree : 3 ≤ free) : Loadable content G free e := by
  have hsegs : segments content e e.phnum = [] := by
    rw [hnum]
    rfl
  refine ⟨he, fun j hj => absurd hj (by omega), ?_, ?_⟩
  · rw [hsegs]
    decide
  · rw [hsegs]
    exact ⟨by simp [slotsOf], le_trans (G.need_card_le _) (by simpa [slotsOf] using hfree)⟩

/-- A header table that is empty and lies behind the end of the file is
accepted from an inode and refused from memory. -/
theorem loaders_disagree : ∃ (k k' : Kernel) (T : Tree) (F : List ℕ) (R : Multiset ℕ) (tf : ℕ)
    (inode : Fs.InodeRef) (image : LoadedImage), OnInode.FileAt k.fs inode (bareElf 65) ∧
    AddrSpace smallLayout k.ram T F R ∧ T.KernelOnly smallLayout tf ∧
    OnInode.loadElfFromInode smallLayout T.root inode k = .ok (some image, k') ∧
    loadElf smallLayout T.root (bareElf 65) k.ram = .ok (none, k.ram) := by
  obtain ⟨e, he, hnum, hoff⟩ : ∃ e, readEhdr (bareElf 65) = some e ∧ e.phnum = 0 ∧ e.phoff = 65 :=
    ⟨Ehdr.ofBytes ((bareElf 65).take 64), by decide +kernel⟩
  obtain ⟨k, k', T, F, R, tf, inode, image, hfile, hspace, hfresh, hrun⟩ :=
    exists_load (by decide) fun G free hfree =>
      loadable_of_bare he hnum (by omega)
  refine ⟨k, k', T, F, R, tf, inode, image, hfile, hspace, hfresh, hrun, ?_⟩
  obtain ⟨hsize, hbytes, hacc, hend⟩ := readEhdr_some he
  have hshort : (bareElf 65).length < e.phoff + e.phnum * e.phentsize := by
    rw [hnum, hoff, Nat.zero_mul]
    decide
  unfold loadElf
  rw [if_neg (Nat.not_lt_of_le hsize), hbytes, if_pos hacc]
  unfold loadElfTable
  rw [addUsize_apply hend, Prog.pure_bind, if_pos hshort]
  rfl

end Sample

end ToyOs
