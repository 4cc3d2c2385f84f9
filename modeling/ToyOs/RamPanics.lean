import ToyOs.Kernel.Trap

/-!
The functions on physical memory never stop with an assertion of the process
layer, whatever the memory holds.
-/
namespace ToyOs

open Prog

/-- The program can only stop with a panic of its own layer. -/
abbrev Mild {α : Type} (m : RamM α) : Prop := Keeps Panic.Benign (fun _ => True) m

variable {L : Layout} {pt va pa n i : ℕ}

theorem mild_addUsize {a b : ℕ} : Mild (addUsize a b) := by
  unfold addUsize
  exact keeps_ite keeps_pure (keeps_panic trivial)

theorem mild_mulUsize {a b : ℕ} : Mild (mulUsize a b) := by
  unfold mulUsize
  exact keeps_ite keeps_pure (keeps_panic trivial)

theorem mild_pageRoundUp {x : ℕ} : Mild (pageRoundUp x) := keeps_bind mild_addUsize fun _ => keeps_pure

theorem mild_kalloc : Mild kalloc :=
  keeps_bind keeps_get fun _ => keeps_ite keeps_pure (keeps_bind keeps_modify_true fun _ => keeps_pure)

theorem mild_kallocZeroed : Mild kallocZeroed :=
  keeps_option mild_kalloc keeps_pure fun _ => keeps_bind keeps_modify_true fun _ => keeps_pure

theorem mild_kfree : Mild (kfree L pa) := by
  refine keeps_bind (keeps_assert trivial) fun _ => keeps_bind (keeps_assert trivial) fun _ => ?_
  exact keeps_bind (keeps_assert trivial) fun _ => keeps_modify_true

theorem mild_loadPte {a : ℕ} : Mild (loadPte a) := keeps_bind keeps_get fun _ => keeps_pure

theorem mild_storePte {a w : ℕ} : Mild (storePte a w) := keeps_modify_true

theorem mild_newTable : Mild (newTable pa) := keeps_bind (keeps_assert trivial) fun _ => keeps_pure

theorem mild_newLeaf {flags : ℕ} : Mild (newLeaf pa flags) :=
  keeps_bind (keeps_assert trivial) fun _ => keeps_pure

theorem mild_walkLevels {alloc : Bool} {levels : List ℕ} :
    Mild (walkLevels va alloc levels pt) := by
  induction levels generalizing pt with
  | nil => exact keeps_pure
  | cons level rest ih =>
    unfold walkLevels
    refine keeps_bind mild_loadPte fun pte => keeps_ite (keeps_ite keeps_pure ih) (keeps_ite ?_ keeps_pure)
    refine keeps_option mild_kallocZeroed keeps_pure fun pa => keeps_bind mild_newTable fun w => ?_
    exact keeps_bind mild_storePte fun _ => ih

theorem mild_walk {alloc : Bool} : Mild (walk pt va alloc) :=
  keeps_option mild_walkLevels keeps_pure fun _ => keeps_pure

theorem mild_walkUserPerm {perm : ℕ} : Mild (walkUserPerm pt va perm) := by
  refine keeps_ite keeps_pure (keeps_option mild_walk keeps_pure fun a => keeps_bind mild_loadPte fun pte => ?_)
  exact keeps_ite keeps_pure (keeps_ite keeps_pure (keeps_ite keeps_pure (keeps_ite keeps_pure keeps_pure)))

theorem mild_mappagesLoop {flags : ℕ} : Mild (mappagesLoop pt flags n va pa) := by
  induction n generalizing va pa with
  | zero => exact keeps_pure
  | succ n ih =>
    unfold mappagesLoop
    refine keeps_option mild_walk keeps_pure fun a => keeps_bind mild_loadPte fun pte => ?_
    refine keeps_ite keeps_pure (keeps_bind mild_newLeaf fun w => keeps_bind mild_storePte fun _ => ?_)
    exact keeps_bind mild_addUsize fun _ => keeps_bind mild_addUsize fun _ => ih

theorem mild_mappages {size flags : ℕ} : Mild (mappages pt va size pa flags) := by
  refine keeps_bind (keeps_assert trivial) fun _ => keeps_bind (keeps_assert trivial) fun _ => ?_
  refine keeps_bind (keeps_assert trivial) fun _ => keeps_bind mild_addUsize fun _ => ?_
  exact keeps_bind mild_pageRoundUp fun _ => mild_mappagesLoop

theorem mild_uvmunmapLoop {doFree : Bool} : Mild (uvmunmapLoop L pt va doFree n i) := by
  induction n generalizing i with
  | zero => exact keeps_pure
  | succ n ih =>
    unfold uvmunmapLoop
    refine keeps_bind mild_mulUsize fun _ => keeps_bind mild_addUsize fun a => ?_
    refine keeps_bind mild_walk fun _ => keeps_bind (keeps_expect trivial) fun p => ?_
    refine keeps_bind mild_loadPte fun pte => keeps_ite (keeps_panic trivial) ?_
    refine keeps_ite (keeps_panic trivial) (keeps_ite (keeps_bind mild_kfree fun _ => ?_) ?_)
    · exact keeps_bind mild_storePte fun _ => ih
    · exact keeps_bind mild_storePte fun _ => ih

theorem mild_uvmunmap {doFree : Bool} : Mild (uvmunmap L pt va n doFree) := by
  refine keeps_bind (keeps_assert trivial) fun _ => keeps_bind (keeps_assert trivial) fun _ => ?_
  exact mild_uvmunmapLoop

theorem mild_freewalk {depth : ℕ} : Mild (freewalk L depth pt) := by
  induction depth generalizing pt with
  | zero => exact keeps_panic trivial
  | succ depth ih =>
    unfold freewalk
    refine keeps_bind (keeps_forEach fun i => keeps_bind mild_loadPte fun pte => ?_) fun _ => mild_kfree
    exact keeps_ite (keeps_bind ih fun _ => mild_storePte) (keeps_ite (keeps_panic trivial) keeps_pure)

theorem mild_uvmfree {sz : ℕ} : Mild (uvmfree L pt sz) :=
  keeps_bind mild_pageRoundUp fun _ => keeps_ite (keeps_bind mild_uvmunmap fun _ => mild_freewalk) mild_freewalk

theorem mild_procFreepagetable {sz : ℕ} : Mild (procFreepagetable L pt sz) := by
  refine keeps_bind mild_uvmunmap fun _ => keeps_bind mild_uvmunmap fun _ => ?_
  refine keeps_bind mild_walkUserPerm fun _ => ?_
  exact keeps_ite (keeps_bind mild_uvmunmap fun _ => mild_uvmfree) mild_uvmfree

theorem mild_procPagetable {trapframe : ℕ} : Mild (procPagetable L trapframe) := by
  refine keeps_option mild_kallocZeroed keeps_pure fun pt => keeps_option mild_mappages ?_ fun _ =>
    keeps_option mild_mappages ?_ fun _ => keeps_pure
  · exact keeps_bind mild_freewalk fun _ => keeps_pure
  · exact keeps_bind mild_uvmunmap fun _ => keeps_bind mild_freewalk fun _ => keeps_pure

theorem mild_uvmcopyLoop {old new : ℕ} : Mild (uvmcopyLoop L old new n i) := by
  induction n generalizing i with
  | zero => exact keeps_pure
  | succ n ih =>
    unfold uvmcopyLoop
    refine keeps_bind mild_mulUsize fun a => keeps_bind mild_walkUserPerm fun w => ?_
    refine keeps_bind (keeps_expect trivial) fun pte => keeps_option mild_kallocZeroed ?_ fun dst => ?_
    · exact keeps_ite (keeps_bind mild_uvmunmap fun _ => keeps_pure) keeps_pure
    · refine keeps_bind keeps_modify_true fun _ => keeps_option mild_mappages ?_ fun _ => ih
      refine keeps_bind mild_kfree fun _ => ?_
      exact keeps_ite (keeps_bind mild_uvmunmap fun _ => keeps_pure) keeps_pure

theorem mild_uvmcopy {old new sz : ℕ} : Mild (uvmcopy L old new sz) :=
  keeps_bind mild_pageRoundUp fun _ => mild_uvmcopyLoop

theorem mild_uvmcopyStack {old new : ℕ} : Mild (uvmcopyStack L old new) := by
  refine keeps_option mild_walkUserPerm keeps_pure fun pte => ?_
  refine keeps_option mild_kallocZeroed keeps_pure fun dst => keeps_bind keeps_modify_true fun _ => ?_
  exact keeps_option mild_mappages (keeps_bind mild_kfree fun _ => keeps_pure) fun _ => keeps_pure

theorem mild_uvmallocLoop {a0 : ℕ} : Mild (uvmallocLoop L pt a0 n va) := by
  induction n generalizing va with
  | zero => exact keeps_pure
  | succ n ih =>
    unfold uvmallocLoop
    refine keeps_option mild_kallocZeroed keeps_pure fun pa => keeps_option mild_mappages ?_ fun _ =>
      keeps_bind mild_addUsize fun _ => ih
    refine keeps_bind mild_kfree fun _ => ?_
    exact keeps_ite (keeps_bind mild_uvmunmap fun _ => keeps_pure) keeps_pure

theorem mild_uvmalloc {oldsz newsz : ℕ} : Mild (uvmalloc L pt oldsz newsz) :=
  keeps_bind mild_pageRoundUp fun _ => keeps_bind mild_pageRoundUp fun _ => mild_uvmallocLoop

theorem mild_copyoutLoop {src : List UInt8} : Mild (copyoutLoop pt va src n i) := by
  induction n generalizing i with
  | zero => exact keeps_pure
  | succ n ih =>
    unfold copyoutLoop
    refine keeps_ite ?_ keeps_pure
    cases checkedAdd va i with
    | none => exact keeps_pure
    | some a =>
      refine keeps_ite keeps_pure (keeps_option mild_walkUserPerm keeps_pure fun pte => ?_)
      exact keeps_bind keeps_modify_true fun _ => ih

theorem mild_copyout {src : List UInt8} : Mild (copyout pt va src) := mild_copyoutLoop

theorem mild_copyinLoop {len : ℕ} {got : List UInt8} :
    Mild (copyinLoop pt va len n got) := by
  induction n generalizing got with
  | zero => exact keeps_pure
  | succ n ih =>
    unfold copyinLoop
    refine keeps_ite ?_ keeps_pure
    cases checkedAdd va got.length with
    | none => exact keeps_pure
    | some a =>
      refine keeps_ite keeps_pure (keeps_option mild_walkUserPerm keeps_pure fun pte => ?_)
      exact keeps_bind keeps_get fun _ => ih

theorem mild_copyin {len : ℕ} : Mild (copyin pt va len) := mild_copyinLoop

theorem mild_copyinstrLoop {len : ℕ} {got : List UInt8} :
    Mild (copyinstrLoop pt va len n got) := by
  induction n generalizing got with
  | zero => exact keeps_pure
  | succ n ih =>
    unfold copyinstrLoop
    refine keeps_ite ?_ keeps_pure
    cases checkedAdd va got.length with
    | none => exact keeps_pure
    | some a =>
      refine keeps_ite keeps_pure (keeps_option mild_walkUserPerm keeps_pure fun pte => ?_)
      exact keeps_bind keeps_get fun _ => keeps_ite keeps_pure ih

theorem mild_copyinstr {len : ℕ} : Mild (copyinstr pt va len) := mild_copyinstrLoop

theorem mild_copyArgvLoop {got : List (List UInt8)} : Mild (copyArgvLoop pt va n got) := by
  induction n generalizing got with
  | zero => exact keeps_pure
  | succ n ih =>
    unfold copyArgvLoop
    cases checkedAdd va (got.length * 8) with
    | none => exact keeps_pure
    | some a =>
      refine keeps_option mild_copyin keeps_pure fun bytes => ?_
      dsimp only
      generalize field bytes 0 8 = ptr
      refine keeps_ite (keeps_ite keeps_pure keeps_pure) (keeps_ite keeps_pure ?_)
      exact keeps_option mild_copyinstr keeps_pure fun _ => ih

theorem mild_copyArgv : Mild (copyArgv pt va) := keeps_ite keeps_pure mild_copyArgvLoop

theorem mild_pushStrings {bottom sp : ℕ} {args : List (List UInt8)} {ptrs : List ℕ} :
    Mild (pushStrings pt bottom args sp ptrs) := by
  induction args generalizing sp ptrs with
  | nil => exact keeps_pure
  | cons arg rest ih =>
    unfold pushStrings
    cases checkedSub sp (arg.length + 1) with
    | none => exact keeps_pure
    | some sp => exact keeps_ite keeps_pure (keeps_option mild_copyout keeps_pure fun _ => ih)

theorem mild_pushPointers {ptrs : List ℕ} : Mild (pushPointers pt va ptrs i) := by
  induction ptrs generalizing i with
  | nil => exact keeps_pure
  | cons ptr rest ih => exact keeps_option mild_copyout keeps_pure fun _ => ih

theorem mild_pushArgv {top : ℕ} {kargs : KernelArgs} : Mild (pushArgv pt top kargs) := by
  refine keeps_option mild_pushStrings keeps_pure fun r => ?_
  dsimp only
  cases checkedSub r.1 ((kargs.argc + 1) * 8) with
  | none => exact keeps_pure
  | some sp =>
    generalize top - pgSize = bottom
    exact keeps_ite keeps_pure (keeps_option mild_pushPointers keeps_pure fun _ => keeps_pure)

section Load

variable {ph : Phdr} {content : List UInt8} {e : Ehdr} {sz : ℕ}

theorem mild_unmapSegment : Mild (unmapSegment L pt va n) := keeps_ite mild_uvmunmap keeps_pure

theorem mild_fillPage {off : ℕ} : Mild (fillPage ph content pa off) := by
  refine keeps_ite (keeps_bind mild_addUsize fun o => ?_) keeps_pure
  cases readi content o (min pgSize (ph.filesz - off)) with
  | none => exact keeps_pure
  | some bytes => exact keeps_bind keeps_modify_true fun _ => keeps_pure

/-- The exits of the page loops that give the page back. -/
theorem mild_giveBack {α : Type} :
    Mild (do kfree L pa; unmapSegment L pt va n; pure (none : Option α)) :=
  keeps_bind mild_kfree fun _ => keeps_bind mild_unmapSegment fun _ => keeps_pure

theorem mild_loadSegmentLoop : Mild (loadSegmentLoop L pt ph content n i) := by
  induction n generalizing i with
  | zero => exact keeps_pure
  | succ n ih =>
    unfold loadSegmentLoop
    refine keeps_option mild_kallocZeroed (keeps_bind mild_unmapSegment fun _ => keeps_pure) fun pa => ?_
    refine keeps_bind mild_fillPage fun filled => keeps_ite (keeps_bind mild_addUsize fun _ => ?_) mild_giveBack
    exact keeps_option mild_mappages mild_giveBack fun _ => keeps_bind mild_addUsize fun _ => ih

theorem mild_loadSegmentFromInode : Mild (loadSegmentFromInode L pt ph content) :=
  keeps_ite keeps_pure (keeps_ite keeps_pure mild_loadSegmentLoop)

theorem mild_cleanupUser : Mild (cleanupUser L pt sz) :=
  keeps_bind mild_pageRoundUp fun _ => keeps_ite mild_uvmunmap keeps_pure

theorem mild_loadHeaders : Mild (loadHeaders L pt content e n i sz) := by
  induction n generalizing i sz with
  | zero => exact keeps_pure
  | succ n ih =>
    unfold loadHeaders
    cases readPhdr content e i with
    | none => exact keeps_pure
    | some ph =>
      refine keeps_ite ih (keeps_option mild_loadSegmentFromInode ?_ fun _ => keeps_bind mild_addUsize fun _ => ih)
      exact keeps_bind mild_cleanupUser fun _ => keeps_pure

theorem mild_loadStack : Mild (loadStack L pt sz) := by
  refine keeps_option mild_kallocZeroed (keeps_bind mild_cleanupUser fun _ => keeps_pure) fun pa => ?_
  refine keeps_option mild_mappages (keeps_bind mild_kfree fun _ => ?_) fun _ => keeps_pure
  exact keeps_bind mild_cleanupUser fun _ => keeps_pure

theorem mild_loadElfFromInode : Mild (loadElfFromInode L pt content) := by
  unfold loadElfFromInode
  cases readEhdr content with
  | none => exact keeps_pure
  | some e =>
    refine keeps_option mild_loadHeaders keeps_pure fun sz => keeps_bind mild_pageRoundUp fun sz => ?_
    exact keeps_option mild_loadStack keeps_pure fun _ => keeps_pure

theorem mild_copySegment {off : ℕ} : Mild (copySegment ph content pa off) :=
  keeps_ite (keeps_bind mild_addUsize fun _ => keeps_modify_true) keeps_pure

theorem mild_loadSegmentPages : Mild (loadSegmentPages L pt ph content n i) := by
  induction n generalizing i with
  | zero => exact keeps_pure
  | succ n ih =>
    unfold loadSegmentPages
    refine keeps_option mild_kallocZeroed (keeps_bind mild_unmapSegment fun _ => keeps_pure) fun pa => ?_
    refine keeps_bind mild_copySegment fun _ => keeps_bind mild_addUsize fun va => ?_
    exact keeps_option mild_mappages mild_giveBack fun _ => keeps_bind mild_addUsize fun _ => ih

theorem mild_loadSegment : Mild (loadSegment L pt ph content) := by
  refine keeps_ite keeps_pure (keeps_ite keeps_pure (keeps_bind mild_addUsize fun _ => ?_))
  exact keeps_ite keeps_pure mild_loadSegmentPages

theorem mild_loadElfHeaders : Mild (loadElfHeaders L pt content e n i sz) := by
  induction n generalizing i sz with
  | zero => exact keeps_pure
  | succ n ih =>
    unfold loadElfHeaders
    generalize phdrAt content e i = ph
    refine keeps_ite ih (keeps_option mild_loadSegment ?_ fun _ => keeps_bind mild_addUsize fun _ => ih)
    exact keeps_bind mild_cleanupUser fun _ => keeps_pure

theorem mild_loadElf : Mild (loadElf L pt content) := by
  refine keeps_ite keeps_pure (keeps_ite (keeps_bind mild_addUsize fun _ => keeps_ite keeps_pure ?_) keeps_pure)
  refine keeps_option mild_loadElfHeaders keeps_pure fun sz => keeps_bind mild_pageRoundUp fun sz => ?_
  exact keeps_option mild_loadStack keeps_pure fun _ => keeps_pure

end Load

section Registers

variable {tf reg : ℕ}

theorem mild_setReg {v : ℕ} : Mild (setReg tf reg v) := keeps_modify_true

theorem mild_getReg : Mild (getReg tf reg) := keeps_bind keeps_get fun _ => keeps_pure

theorem mild_execRegs {argc argvVa entry sp : ℕ} :
    Mild (execRegs tf argc argvVa entry sp) := by
  refine keeps_bind mild_setReg fun _ => keeps_bind mild_setReg fun _ => ?_
  exact keeps_bind mild_setReg fun _ => mild_setReg

end Registers

end ToyOs
