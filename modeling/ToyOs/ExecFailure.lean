import ToyOs.Exec
import ToyOs.Boot

/-!
A failed `exec_from_inode`. Whether the call returns, and changes nothing but
the order and the bytes of the free pages when it fails, can be told from the
file, the arguments, the number of free pages and the old image. A header table
that is cut off after its first segment makes the call panic.
-/
namespace ToyOs

open Bytes Prog Finset

/-- Nothing but the free pages has changed: they are the same pages, in some
order, and all bytes outside of them are as before. -/
structure Unchanged (F : List ℕ) (k k' : Kernel) : Prop where
  rest : k' = { k with ram := k'.ram }
  free : ∃ F', FreeList k'.ram.mem k'.ram.head F' ∧ F'.Perm F
  bytes : ∀ x, (∀ p ∈ F, x < p ∨ p + pgSize ≤ x) → k'.ram.mem x = k.ram.mem x

section Failure

variable {L : Layout} {R : Multiset ℕ} {k : Kernel} {i : ProcRef} {T : Tree} {F F' : List ℕ}
  {s' : Ram}

theorem Reclaimed.unchanged (h : Reclaimed k.ram 0 F s' F') :
    Unchanged F k { k with ram := s' } where
  rest := rfl
  free := by
    refine ⟨F', h.free, Multiset.coe_eq_coe.mp ?_⟩
    rw [h.pool, zero_add]
  bytes := by
    intro x hx
    refine h.agree x ?_
    intro p hp
    rw [zero_add] at hp
    exact hx p hp

/-- `exec_from_inode` returns, with nothing changed when it fails, exactly in
the cases of `ExecClean`. -/
theorem exec_failure_unchanged_iff (hcur : k.cpu.proc = some i)
    (h : Resident L k.ram (k.procs i) T F R) (hcov : T.Covered (k.procs i).sz)
    (content : List UInt8) (argv : KernelArgs) :
    (∃ r k', execFromInode L content argv k = .ok (r, k') ∧ (r = none → Unchanged F k k')) ↔
      ExecClean content argv T (k.procs i).sz F.length := by
  constructor
  · rintro ⟨r, k', hrun, hfail⟩
    have hwp : (execFromInode L content argv).wp (fun _ => True) (fun r k' =>
        (r = none → Unchanged F k k') → ExecClean content argv T (k.procs i).sz F.length) k := by
      refine wp_execFromInode hcur h hcov (Or.inr fun _ => trivial) ?_ ?_
      · exact fun s' _ hlist _ hfail => hlist (Or.inl (hfail rfl).free)
      · exact fun e s' N F' _ hload hargs hold _ _ => Or.inr (.done e hload hargs hold)
    exact wp_ok hwp hrun hfail
  · intro hclean
    have hwp : (execFromInode L content argv).wp (fun _ => False)
        (fun r k' => r = none → Unchanged F k k') k := by
      refine wp_execFromInode hcur h hcov (Or.inl hclean) ?_ ?_
      · intro s' hback _ _ _
        obtain ⟨F', hr⟩ := hback hclean
        exact hr.unchanged
      · exact fun _ _ _ _ _ _ _ _ _ hnone => absurd hnone (by simp)
    exact exists_ok hwp

/-- Only files that can be loaded are executed. -/
theorem exec_loadable (hcur : k.cpu.proc = some i) (h : Resident L k.ram (k.procs i) T F R)
    (hcov : T.Covered (k.procs i).sz) {content : List UInt8} {argv : KernelArgs} {k' : Kernel}
    (hrun : execFromInode L content argv k = .ok (some (), k')) :
    ∃ e, Loadable content Tree.fresh (F.length - 3) e := by
  have hwp : (execFromInode L content argv).wp (fun _ => True) (fun r _ => r = some () →
      ∃ e, Loadable content Tree.fresh (F.length - 3) e) k := by
    refine wp_execFromInode hcur h hcov (Or.inr fun _ => trivial) ?_ ?_
    · exact fun _ _ _ _ hsome => absurd hsome (by simp)
    · exact fun e _ _ _ _ hload _ _ _ _ => ⟨e, hload⟩
  exact wp_ok hwp hrun rfl

end Failure

section Sample

def slot0 : ProcRef := ⟨0, by decide⟩

/-- A kernel in which slot 0 runs on the given memory. -/
def soloKernel (ram : Ram) (p : Process) : Kernel where
  ram := ram
  fs := Fs.blank
  ftable := fun _ => File.unused
  pipes := fun _ => Pipe.unused
  input := { buf := fun _ => 0, r := 0, w := 0, e := 0 }
  uart := []
  procs := Function.update (fun _ => Process.unused) slot0 p
  nextPid := 2
  initproc := some slot0
  cpu := { noff := 0, intena := false, sie := false, proc := some slot0 }
  held := fun _ => false

/-- A process without an image. -/
def bareProcess (pagetable trapframe kstack : ℕ) : Process :=
  { Process.unused with
    state := .running, pid := 1, pagetable := pagetable, trapframe := trapframe, kstack := kstack }

/-- A running process with many free pages around it. -/
theorem exists_solo : ∃ (k : Kernel) (T : Tree) (F : List ℕ) (R : Multiset ℕ),
    k.cpu.proc = some slot0 ∧ Resident smallLayout k.ram (k.procs slot0) T F R ∧
      TornDown T (k.procs slot0).sz ∧ 1000 ≤ F.length := by
  obtain ⟨s, T, F, tf, ks, hspace, hko, hlen⟩ := exists_space smallLayout (n := 1000) (by decide)
  refine ⟨soloKernel s (bareProcess T.root tf ks), T, F, {ks} + {tf}, rfl, ?_, hko.tornDown, hlen⟩
  exact ⟨hspace, rfl, hko.kernel, by simp [soloKernel, bareProcess]⟩

/-- Bytes of a number, lowest first. -/
def leBytes (n v : ℕ) : List UInt8 := (List.range n).map (byteAt v)

/-- An ELF header that `load_elf_from_inode` accepts, with its table right behind it. -/
def elfHeader (phnum : ℕ) : List UInt8 :=
  elfMagic ++ [elfclass64, elfdata2lsb, 1] ++ leBytes 9 0 ++ leBytes 2 etExec ++ leBytes 2 emRiscv ++
    leBytes 4 1 ++ leBytes 8 0 ++ leBytes 8 ehdrSize ++ leBytes 8 0 ++ leBytes 4 0 ++
    leBytes 2 ehdrSize ++ leBytes 2 phdrSize ++ leBytes 2 phnum ++ leBytes 6 0

/-- A PT_LOAD header whose file data are the first bytes of the file. -/
def loadHeader (flags vaddr filesz memsz : ℕ) : List UInt8 :=
  leBytes 4 ptLoad ++ leBytes 4 flags ++ leBytes 8 0 ++ leBytes 8 vaddr ++ leBytes 8 vaddr ++
    leBytes 8 filesz ++ leBytes 8 memsz ++ leBytes 8 pgSize

/-- An argument vector with one empty string. -/
def oneArg : KernelArgs := ⟨[[]]⟩

theorem oneArg_wf : oneArg.Wf := ⟨by decide, by decide, by decide⟩

/-- A segment of one page that starts with the first bytes of the file. -/
def pageSegment (flags vaddr filesz : ℕ) : Phdr where
  typ := ptLoad
  flags := flags
  offset := 0
  vaddr := vaddr
  filesz := filesz
  memsz := pgSize

/-- A file whose first segment is one page below the stack. -/
structure FirstPage (content : List UInt8) (e : Ehdr) (flags vaddr filesz : ℕ) : Prop where
  header : readEhdr content = some e
  first : readPhdr content e 0 = some (pageSegment flags vaddr filesz)
  aligned : vaddr % pgSize = 0
  low : vaddr + pgSize ≤ userStack
  file : filesz ≤ content.length
  page : filesz ≤ pgSize

/-- A file whose only segment is one page below the stack. -/
structure PageFile (content : List UInt8) (e : Ehdr) (flags vaddr filesz : ℕ) : Prop extends
    FirstPage content e flags vaddr filesz where
  some_header : 0 < e.phnum
  rest : ∀ i, i < e.phnum → i ≠ 0 → loadable content e i = none

section PageFiles

variable {content : List UInt8} {e : Ehdr} {flags vaddr filesz free : ℕ} {G : Tree}

theorem pageSegment_slot (flags filesz : ℕ) (ha : vaddr % pgSize = 0)
    (hl : vaddr + pgSize ≤ userStack) : (pageSegment flags vaddr filesz).slot 0 < 2 ^ 26 - 3 := by
  have hslot : (pageSegment flags vaddr filesz).slot 0 = vpn (vaddr + 0 * pgSize) := rfl
  rw [hslot]
  unfold vpn
  unfold userStack maxVa pgSize at *
  omega

theorem pageSegment_pages (flags vaddr filesz : ℕ) :
    pages (pageSegment flags vaddr filesz).memsz = 1 :=
  (by decide : pages pgSize = 1)

theorem slotsOf_pageSegment (flags vaddr filesz : ℕ) :
    slotsOf [pageSegment flags vaddr filesz] = {(pageSegment flags vaddr filesz).slot 0} := by
  simp [slotsOf, pageSegment_pages, Phdr.slots]

theorem FirstPage.loadable (h : FirstPage content e flags vaddr filesz) :
    loadable content e 0 = some (pageSegment flags vaddr filesz) := loadable_of_load h.first rfl

theorem FirstPage.segments_one (h : FirstPage content e flags vaddr filesz) :
    segments content e 1 = [pageSegment flags vaddr filesz] := by
  rw [segments_succ, h.loadable]
  rfl

/-- The segment is loaded when there are pages for it and its tables. -/
theorem FirstPage.fitting (h : FirstPage content e flags vaddr filesz) (hf : 3 ≤ free) :
    Fitting content e G free 1 := by
  have hslot := pageSegment_slot flags filesz h.aligned h.low
  have hlow := h.low
  intro j hj
  obtain rfl : j = 0 := by omega
  refine ⟨by rw [h.first]; exact Option.some_ne_none _, fun ph hload => ?_⟩
  obtain rfl := Option.some.inj (h.loadable.symm.trans hload)
  refine ⟨h.aligned, h.page, ?_⟩
  rw [pageSegment_pages]
  refine ⟨?_, ?_, ?_, le_trans (G.need_card_le _) ?_⟩
  · intro j hj _
    obtain rfl : j = 0 := by omega
    have hfile := h.file
    simp only [pageSegment]
    omega
  · intro j hj
    obtain rfl : j = 0 := by omega
    simp only [pageSegment]
    unfold usizeSize userStack maxVa pgSize at *
    omega
  · intro j hj
    obtain rfl : j = 0 := by omega
    exact ⟨mem_userSlots.mpr (by omega), by simp [slotsOf, segments, Phdr.slots]⟩
  · simpa [slotsOf, segments, Phdr.slots] using hf

theorem PageFile.segments (h : PageFile content e flags vaddr filesz) {n : ℕ} (hn : n ≤ e.phnum)
    (hn0 : 0 < n) : segments content e n = [pageSegment flags vaddr filesz] := by
  induction n, hn0 using Nat.le_induction with
  | base => exact h.segments_one
  | succ n hpos ih =>
    rw [segments_succ, ih (by omega), h.rest n (by omega) (by omega)]
    rfl

theorem PageFile.fitting (h : PageFile content e flags vaddr filesz) (hf : 3 ≤ free) {n : ℕ}
    (hn : n ≤ e.phnum) (hread : ∀ j, j < n → readPhdr content e j ≠ none) :
    Fitting content e G free n := by
  intro j hj
  by_cases hj0 : j = 0
  · subst hj0
    exact h.toFirstPage.fitting hf 0 (by omega)
  · refine ⟨hread j hj, fun ph hload => ?_⟩
    rw [h.rest j (by omega) hj0] at hload
    exact absurd hload (by simp)

/-- Such a file can be loaded when there are pages for the segment, the stack and their tables. -/
theorem PageFile.loads (h : PageFile content e flags vaddr filesz) (hf : 6 ≤ free)
    (hread : ∀ j, j < e.phnum → readPhdr content e j ≠ none) : Loadable content G free e := by
  have hslot := pageSegment_slot flags filesz h.aligned h.low
  have hlow := h.low
  have hsegs := h.segments (le_refl _) h.some_header
  refine ⟨h.header, h.fitting (by omega) (le_refl _) hread, ?_, ?_⟩
  · rw [hsegs]
    have hend : imageEnd [pageSegment flags vaddr filesz] = vaddr + pgSize := by
      simp [imageEnd, pageSegment]
    rw [hend]
    unfold usizeSize userStack maxVa pgSize at *
    omega
  · rw [hsegs]
    refine ⟨?_, le_trans (G.need_card_le _) ?_⟩
    · rw [slotsOf_pageSegment, mem_singleton]
      omega
    · have hcard := card_union_le (slotsOf [pageSegment flags vaddr filesz]) {2 ^ 26 - 3}
      rw [slotsOf_pageSegment, card_singleton, card_singleton] at hcard
      rw [slotsOf_pageSegment]
      omega

end PageFiles

theorem denseSegments_page : DenseSegments [pageSegment pfR 0 120] where
  leaf := by
    intro ph hph _
    rw [List.mem_singleton.mp hph]
    decide
  low := by decide
  dense := by
    intro j hj
    have hone : pages (imageEnd [pageSegment pfR 0 120]) = 1 := by decide
    rw [hone] at hj
    obtain rfl : j = 0 := by omega
    exact ⟨_, List.mem_singleton_self _, 0, by decide, by decide⟩

/-- A readable page at address 0, and a second header that is not aligned. -/
def haltElf : List UInt8 := elfHeader 2 ++ loadHeader pfR 0 120 pgSize ++ loadHeader pfR 1 0 pgSize

theorem haltElf_fails {G : Tree} {free : ℕ} (hf : 3 ≤ free) : LoadFails haltElf G free := by
  obtain ⟨e, he, hnum, h0, h1⟩ : ∃ e, readEhdr haltElf = some e ∧ e.phnum = 2 ∧
      readPhdr haltElf e 0 = some (pageSegment pfR 0 120) ∧
      readPhdr haltElf e 1 = some (pageSegment pfR 1 0) :=
    ⟨Ehdr.ofBytes (haltElf.take 64), by decide +kernel⟩
  have hfile : FirstPage haltElf e pfR 0 120 :=
    ⟨he, h0, by decide, by decide, by decide +kernel, by decide⟩
  refine .stopped e 1 _ he (by omega) (hfile.fitting hf) (loadable_of_load h1 rfl)
    (Or.inl (by decide)) ?_
  rw [hfile.segments_one]
  exact denseSegments_page

/-- The first segment is loaded and removed again. -/
theorem exec_failure_unchanged_halfway : ∃ (k k' : Kernel) (F : List ℕ),
    k.cpu.proc = some slot0 ∧ execFromInode smallLayout haltElf oneArg k = .ok (none, k') ∧
      Unchanged F k k' := by
  obtain ⟨k, T, F, R, hcur, h, hold, hlen⟩ := exists_solo
  have hfails : LoadFails haltElf Tree.fresh (F.length - 3) := haltElf_fails (by omega)
  obtain ⟨r, k', hrun, hun⟩ :=
    (exec_failure_unchanged_iff hcur h hold.covered haltElf oneArg).mpr (Or.inr (.fails hfails))
  cases r with
  | none => exact ⟨k, k', F, hcur, hrun, hun rfl⟩
  | some u =>
    obtain ⟨e, hload⟩ := exec_loadable hcur h hold.covered hrun
    exact absurd hload hfails.not_loadable

/-- Two headers are announced and the second one is missing. -/
def cutElf : List UInt8 := elfHeader 2 ++ loadHeader pfR 0 0 pgSize

theorem cutElf_firstPage : ∃ e, FirstPage cutElf e pfR 0 0 ∧ 1 < e.phnum ∧
    readPhdr cutElf e 1 = none := by
  obtain ⟨e, he, hnum, h0, h1⟩ : ∃ e, readEhdr cutElf = some e ∧ e.phnum = 2 ∧
      readPhdr cutElf e 0 = some (pageSegment pfR 0 0) ∧ readPhdr cutElf e 1 = none :=
    ⟨Ehdr.ofBytes (cutElf.take 64), by decide +kernel⟩
  exact ⟨e, ⟨he, h0, by decide, by decide, by decide, by decide⟩, by omega, h1⟩

/-- A file that ends inside its header table makes `exec_from_inode` panic. -/
theorem exec_cut_panics : ∃ (k : Kernel) (T : Tree) (F : List ℕ) (R : Multiset ℕ),
    k.cpu.proc = some slot0 ∧ Resident smallLayout k.ram (k.procs slot0) T F R ∧
      TornDown T (k.procs slot0).sz ∧ oneArg.Wf ∧
      ∃ err, execFromInode smallLayout cutElf oneArg k = .error err := by
  obtain ⟨k, T, F, R, hcur, h, hold, hlen⟩ := exists_solo
  obtain ⟨e, hfile, hnum, hnone⟩ := cutElf_firstPage
  refine ⟨k, T, F, R, hcur, h, hold, oneArg_wf, ?_⟩
  have hcut : CutAt cutElf Tree.fresh (F.length - 3) e 1 :=
    ⟨hfile.header, hnum, hfile.fitting (by omega), hnone⟩
  have hleaf : (pageSegment pfR 0 0).leaf = true := by decide
  have hdirty : ¬ ExecClean cutElf oneArg T (k.procs slot0).sz F.length := by
    intro hclean
    have hstack := hcut.clean (hclean.resolve_left (by omega)) (pageSegment pfR 0 0)
      (by rw [hfile.segments_one]; exact List.mem_singleton_self _) 0 (by decide)
    rw [if_pos hleaf] at hstack
    have hslot := pageSegment_slot pfR 0 hfile.aligned hfile.low
    omega
  have hrun : (execFromInode smallLayout cutElf oneArg).wp (fun _ => True) (fun _ _ => False) k := by
    refine wp_execFromInode hcur h hold.covered (Or.inr fun _ => trivial) ?_ ?_
    · intro s' _ hlist _
      refine hdirty (hlist (Or.inr fun e' j hcut' ph hph _ => ?_))
      obtain ⟨rfl, rfl⟩ := hcut.unique hcut'
      rw [hfile.segments_one] at hph
      rw [List.mem_singleton.mp hph]
      exact hleaf
    · exact fun e' s' N F' _ hload _ _ _ => hcut.not_loadable hload
  unfold Prog.wp at hrun
  cases hres : execFromInode smallLayout cutElf oneArg k with
  | ok r => simp [hres] at hrun
  | error err => exact ⟨err, rfl⟩

end Sample

end ToyOs
