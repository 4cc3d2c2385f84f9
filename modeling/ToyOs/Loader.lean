import ToyOs.Vm

/-!
The ELF loaders of `loader.rs`, one that reads an inode and one that reads a
file in memory, and the argument pushing of `exec`. The inode enters as the
list of its bytes: `readi` is the slice the file system delivers for that
content.
-/
namespace ToyOs

open Bytes

/-- `fs::readi` on a file with this content; `none` is the result -1. -/
def readi (content : List UInt8) (off len : ℕ) : Option (List UInt8) :=
  if off < 2 ^ 32 then some ((content.drop off).take len) else none

/-- `read_exact_inode`: a short read is a failure. -/
def readExactInode (content : List UInt8) (off len : ℕ) : Option (List UInt8) :=
  match readi content off len with
  | none => none
  | some bytes => if bytes.length = len then some bytes else none

/-- A C structure laid over a byte buffer: the field of `n` bytes at `off`. -/
def field (buf : List UInt8) (off n : ℕ) : ℕ := load n (fun k => buf.getD k 0) off

structure Ehdr where
  ident : List UInt8
  typ : ℕ
  machine : ℕ
  entry : ℕ
  phoff : ℕ
  phentsize : ℕ
  phnum : ℕ
  deriving DecidableEq, Repr

def ehdrSize : ℕ := 64

def Ehdr.ofBytes (buf : List UInt8) : Ehdr where
  ident := buf.take 16
  typ := field buf 16 2
  machine := field buf 18 2
  entry := field buf 24 8
  phoff := field buf 32 8
  phentsize := field buf 54 2
  phnum := field buf 56 2

structure Phdr where
  typ : ℕ
  flags : ℕ
  offset : ℕ
  vaddr : ℕ
  filesz : ℕ
  memsz : ℕ
  deriving DecidableEq, Repr

def phdrSize : ℕ := 56

def Phdr.ofBytes (buf : List UInt8) : Phdr where
  typ := field buf 0 4
  flags := field buf 4 4
  offset := field buf 8 8
  vaddr := field buf 16 8
  filesz := field buf 32 8
  memsz := field buf 40 8

def elfMagic : List UInt8 := [0x7f, 0x45, 0x4c, 0x46]

def elfclass64 : UInt8 := 2

def elfdata2lsb : UInt8 := 1

def etExec : ℕ := 2

def emRiscv : ℕ := 243

def ptLoad : ℕ := 1

def pfX : ℕ := 1

def pfW : ℕ := 2

def pfR : ℕ := 4

/-- The header checks of `load_elf_from_inode`, in their order. -/
def Ehdr.accepted (e : Ehdr) : Bool :=
  e.ident.take 4 == elfMagic &&
  e.ident.getD 4 0 == elfclass64 &&
  e.ident.getD 5 0 == elfdata2lsb &&
  e.machine == emRiscv &&
  e.typ == etExec &&
  e.phentsize == phdrSize

/-- Permission bits of a segment. -/
def Phdr.perm (p : Phdr) : ℕ :=
  pteU ||| (if p.flags &&& pfR ≠ 0 then pteR else 0)
    ||| (if p.flags &&& pfW ≠ 0 then pteW else 0)
    ||| (if p.flags &&& pfX ≠ 0 then pteX else 0)

structure LoadedImage where
  entry : ℕ
  sp : ℕ
  sz : ℕ
  deriving DecidableEq, Repr

variable (L : Layout)

/-- The rollback of a segment of which `mapped` pages are mapped. -/
def unmapSegment (pt va mapped : ℕ) : RamM Unit :=
  if 0 < mapped then uvmunmap L pt va mapped true else pure ()

/-- Fill a fresh page with the file bytes of a segment at `off`; false is a short read. -/
def fillPage (ph : Phdr) (content : List UInt8) (pa off : ℕ) : RamM Bool :=
  if off < ph.filesz then do
    let n := min pgSize (ph.filesz - off)
    let o ← addUsize ph.offset off
    match readi content o n with
    | none => pure false
    | some bytes =>
      Prog.modify fun s => { s with mem := write s.mem pa bytes }
      pure (bytes.length == n)
  else
    pure true

/-- The page loop of `load_segment_from_inode`: `n` pages are left, `mapped` are done. -/
def loadSegmentLoop (pt : ℕ) (ph : Phdr) (content : List UInt8) : ℕ → ℕ → RamM (Option Unit)
  | 0, _ => pure (some ())
  | n + 1, mapped => do
    let off := mapped * pgSize
    match ← kallocZeroed with
    | none =>
      unmapSegment L pt ph.vaddr mapped
      pure none
    | some pa =>
      if ← fillPage ph content pa off then
        let va ← addUsize ph.vaddr off
        match ← mappages pt va pgSize pa ph.perm with
        | none =>
          kfree L pa
          unmapSegment L pt ph.vaddr mapped
          pure none
        | some _ =>
          let _ ← addUsize off pgSize
          loadSegmentLoop pt ph content n (mapped + 1)
      else
        kfree L pa
        unmapSegment L pt ph.vaddr mapped
        pure none

def loadSegmentFromInode (pt : ℕ) (ph : Phdr) (content : List UInt8) : RamM (Option Unit) :=
  if ph.vaddr % pgSize ≠ 0 then
    pure none
  else if ph.memsz < ph.filesz then
    pure none
  else
    loadSegmentLoop L pt ph content (pages ph.memsz) 0

def cleanupUser (pt sz : ℕ) : RamM Unit := do
  let stop ← pageRoundUp sz
  if 0 < stop / pgSize then
    uvmunmap L pt 0 (stop / pgSize) true

/-- Program header `i`, or nothing when the file ends before it does. -/
def readPhdr (content : List UInt8) (e : Ehdr) (i : ℕ) : Option Phdr :=
  (readExactInode content (e.phoff + i * e.phentsize) phdrSize).map Phdr.ofBytes

/-- The loop over the program headers: `n` are left, `i` are done. A header
that cannot be read leaves at once, without `cleanup_user`. -/
def loadHeaders (pt : ℕ) (content : List UInt8) (e : Ehdr) : ℕ → ℕ → ℕ → RamM (Option ℕ)
  | 0, _, sz => pure (some sz)
  | n + 1, i, sz =>
    match readPhdr content e i with
    | none => pure none
    | some ph =>
      if ph.typ ≠ ptLoad then
        loadHeaders pt content e n (i + 1) sz
      else do
        match ← loadSegmentFromInode L pt ph content with
        | none =>
          cleanupUser L pt sz
          pure none
        | some _ =>
          let stop ← addUsize ph.vaddr ph.memsz
          loadHeaders pt content e n (i + 1) (if sz < stop then stop else sz)

/-- Map the stack page; a failure removes the loaded image. -/
def loadStack (pt sz : ℕ) : RamM (Option Unit) := do
  match ← kallocZeroed with
  | none =>
    cleanupUser L pt sz
    pure none
  | some pa =>
    match ← mappages pt userStack pgSize pa (pteU ||| pteR ||| pteW) with
    | none =>
      kfree L pa
      cleanupUser L pt sz
      pure none
    | some _ => pure (some ())

/-- The ELF header, when the file has one and `load_elf_from_inode` accepts it. -/
def readEhdr (content : List UInt8) : Option Ehdr :=
  match readExactInode content 0 ehdrSize with
  | none => none
  | some buf =>
    let e := Ehdr.ofBytes buf
    if e.accepted then
      match checkedMul e.phnum e.phentsize with
      | none => none
      | some size =>
        match checkedAdd e.phoff size with
        | none => none
        | some _ => some e
    else
      none

def loadElfFromInode (pt : ℕ) (content : List UInt8) : RamM (Option LoadedImage) :=
  match readEhdr content with
  | none => pure none
  | some e => do
    match ← loadHeaders L pt content e e.phnum 0 0 with
    | none => pure none
    | some sz =>
      let sz ← pageRoundUp sz
      match ← loadStack L pt sz with
      | none => pure none
      | some _ => pure (some { entry := e.entry, sp := userStack + pgSize, sz := sz })

/-- The file bytes of a segment at `off`, copied to a fresh page. -/
def copySegment (ph : Phdr) (elf : List UInt8) (pa off : ℕ) : RamM Unit :=
  if off < ph.filesz then do
    let n := min pgSize (ph.filesz - off)
    let o ← addUsize ph.offset off
    Prog.modify fun s => { s with mem := write s.mem pa ((elf.drop o).take n) }
  else
    pure ()

/-- The page loop of `load_segment`: `n` pages are left, `mapped` are done. -/
def loadSegmentPages (pt : ℕ) (ph : Phdr) (elf : List UInt8) : ℕ → ℕ → RamM (Option Unit)
  | 0, _ => pure (some ())
  | n + 1, mapped => do
    let off := mapped * pgSize
    match ← kallocZeroed with
    | none =>
      unmapSegment L pt ph.vaddr mapped
      pure none
    | some pa =>
      copySegment ph elf pa off
      let va ← addUsize ph.vaddr off
      match ← mappages pt va pgSize pa ph.perm with
      | none =>
        kfree L pa
        unmapSegment L pt ph.vaddr mapped
        pure none
      | some _ =>
        let _ ← addUsize off pgSize
        loadSegmentPages pt ph elf n (mapped + 1)

def loadSegment (pt : ℕ) (ph : Phdr) (elf : List UInt8) : RamM (Option Unit) :=
  if ph.vaddr % pgSize ≠ 0 then
    pure none
  else if ph.memsz < ph.filesz then
    pure none
  else do
    let stop ← addUsize ph.offset ph.filesz
    if elf.length < stop then
      pure none
    else
      loadSegmentPages L pt ph elf (pages ph.memsz) 0

/-- Program header `i` of a file in memory; the table lies within the file. -/
def phdrAt (elf : List UInt8) (e : Ehdr) (i : ℕ) : Phdr :=
  Phdr.ofBytes ((elf.drop (e.phoff + i * e.phentsize)).take phdrSize)

/-- The loop of `load_elf` over the program headers. -/
def loadElfHeaders (pt : ℕ) (elf : List UInt8) (e : Ehdr) : ℕ → ℕ → ℕ → RamM (Option ℕ)
  | 0, _, sz => pure (some sz)
  | n + 1, i, sz =>
    if (phdrAt elf e i).typ ≠ ptLoad then
      loadElfHeaders pt elf e n (i + 1) sz
    else do
      match ← loadSegment L pt (phdrAt elf e i) elf with
      | none =>
        cleanupUser L pt sz
        pure none
      | some _ =>
        let stop ← addUsize (phdrAt elf e i).vaddr (phdrAt elf e i).memsz
        loadElfHeaders pt elf e n (i + 1) (if sz < stop then stop else sz)

/-- `load_elf` behind the checks of the header; the end of the table is not
checked for overflow. -/
def loadElfTable (pt : ℕ) (elf : List UInt8) (e : Ehdr) : RamM (Option LoadedImage) := do
  let tableEnd ← addUsize e.phoff (e.phnum * e.phentsize)
  if elf.length < tableEnd then
    pure none
  else
    match ← loadElfHeaders L pt elf e e.phnum 0 0 with
    | none => pure none
    | some sz =>
      let sz ← pageRoundUp sz
      match ← loadStack L pt sz with
      | none => pure none
      | some _ => pure (some { entry := e.entry, sp := userStack + pgSize, sz := sz })

def loadElf (pt : ℕ) (elf : List UInt8) : RamM (Option LoadedImage) :=
  if elf.length < ehdrSize then
    pure none
  else if (Ehdr.ofBytes (elf.take ehdrSize)).accepted then
    loadElfTable L pt elf (Ehdr.ofBytes (elf.take ehdrSize))
  else
    pure none

def maxArg : ℕ := 16

def maxArgLen : ℕ := 128

/-- The kernel's copy of the argument vector; `lens[i]` is the length of `args[i]`. -/
structure KernelArgs where
  args : List (List UInt8)

def KernelArgs.argc (k : KernelArgs) : ℕ := k.args.length

/-- What `copy_argv` can produce. -/
structure KernelArgs.Wf (k : KernelArgs) : Prop where
  argc_pos : 0 < k.argc
  argc_le : k.argc ≤ maxArg
  len_lt : ∀ a ∈ k.args, a.length < maxArgLen

/-- The loop of `copy_argv`, with the arguments copied so far. -/
def copyArgvLoop (pt argvVa : ℕ) : ℕ → List (List UInt8) → RamM (Option KernelArgs)
  | 0, _ => pure none
  | fuel + 1, got =>
    match checkedAdd argvVa (got.length * 8) with
    | none => pure none
    | some ptrVa => do
      match ← copyin pt ptrVa 8 with
      | none => pure none
      | some bytes =>
        let argVa := field bytes 0 8
        if argVa = 0 then
          if got = [] then pure none else pure (some ⟨got⟩)
        else if maxArg ≤ got.length then
          pure none
        else
          match ← copyinstr pt argVa maxArgLen with
          | none => pure none
          | some arg => copyArgvLoop pt argvVa fuel (got ++ [arg])

def copyArgv (pt argvVa : ℕ) : RamM (Option KernelArgs) :=
  if argvVa = 0 then pure none else copyArgvLoop pt argvVa (maxArg + 1) []

/-- `to_ne_bytes` of a `usize`. -/
def usizeBytes (v : ℕ) : List UInt8 := (List.range 8).map (byteAt v)

/-- The first loop of `push_argv`: the strings from the last one down. The
result is the stack pointer and the pointers of the strings, first one first. -/
def pushStrings (pt bottom : ℕ) :
    List (List UInt8) → ℕ → List ℕ → RamM (Option (ℕ × List ℕ))
  | [], sp, ptrs => pure (some (sp, ptrs))
  | arg :: rest, sp, ptrs =>
    match checkedSub sp (arg.length + 1) with
    | none => pure none
    | some sp =>
      if sp < bottom then
        pure none
      else do
        match ← copyout pt sp (arg ++ [0]) with
        | none => pure none
        | some _ => pushStrings pt bottom rest sp (sp :: ptrs)

/-- The second loop of `push_argv`: the pointer array with its final null. -/
def pushPointers (pt argvVa : ℕ) : List ℕ → ℕ → RamM (Option Unit)
  | [], _ => pure (some ())
  | ptr :: rest, i => do
    match ← copyout pt (argvVa + i * 8) (usizeBytes ptr) with
    | none => pure none
    | some _ => pushPointers pt argvVa rest (i + 1)

def alignDown (x align : ℕ) : ℕ := x / align * align

def pushArgv (pt stackTop : ℕ) (kargs : KernelArgs) : RamM (Option (ℕ × ℕ)) := do
  let bottom := stackTop - pgSize
  match ← pushStrings pt bottom kargs.args.reverse stackTop [] with
  | none => pure none
  | some (sp, ptrs) =>
    match checkedSub sp ((kargs.argc + 1) * 8) with
    | none => pure none
    | some sp =>
      let sp := alignDown sp 16
      if sp < bottom then
        pure none
      else
        match ← pushPointers pt sp (ptrs ++ [0]) 0 with
        | none => pure none
        | some _ => pure (some (sp, sp))

end ToyOs
