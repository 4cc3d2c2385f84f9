import ToyOs.Kernel.Proc

/-!
System calls. The arguments are read from the trap frame of the caller; a
call ends with a value for `a0`, with a replaced image, or blocked. A call
that was blocked is finished by the functions `finishRead`, `finishWrite` and
`finishWait` when its process runs again.
-/
namespace ToyOs

open Bytes

variable (L : Layout)

def oWronly : ℕ := 0x001

def oRdwr : ℕ := 0x002

def oCreate : ℕ := 0x200

def oTrunc : ℕ := 0x400

def oAppend : ℕ := 0x800

def syserr : ℤ := -1

inductive SyscallResult
  | ret (v : ℤ)
  | replaced
  deriving DecidableEq

abbrev Result := Outcome SyscallResult

def Result.ret (v : ℤ) : Result := .done (.ret v)

def Result.err : Result := Result.ret syserr

/-- A 64-bit register as a signed number. -/
def toIsize (v : ℕ) : ℤ := if v < 2 ^ 63 then v else (v : ℤ) - 2 ^ 64

/-- A register truncated to `i32`. -/
def toI32 (v : ℕ) : ℤ := if v % 2 ^ 32 < 2 ^ 31 then (v % 2 ^ 32 : ℕ) else ((v % 2 ^ 32 : ℕ) : ℤ) - 2 ^ 32

/-- The file behind a descriptor of the process. -/
def Process.fdFile (p : Process) (fd : ℕ) : Option FileRef :=
  if h : fd < nofile then p.ofile ⟨fd, h⟩ else none

def fdallocTry (i : ProcRef) (f : FileRef) (fd : Fin nofile) : KernelM (Option (Fin nofile)) := do
  let p ← getProc i
  if p.ofile fd = none then
    modifyProc i fun p => { p with ofile := Function.update p.ofile fd (some f) }
    pure (some fd)
  else
    pure none

def fdalloc (i : ProcRef) (f : FileRef) : KernelM (Option (Fin nofile)) :=
  Prog.firstSome fds (fdallocTry i f)

def chunkSize : ℕ := 128

/-- The checks of `sys_read` and `sys_write` on the buffer: the result of the
call, or the number of bytes to move. -/
def ioLength (buf len : ℕ) : ℤ ⊕ ℕ :=
  if len = 0 then
    .inl 0
  else if 2 ^ 63 ≤ len then
    .inl syserr
  else
    match checkedAdd buf len with
    | none => .inl syserr
    | some stop => if maxVa < stop then .inl syserr else .inr (min chunkSize len)

/-- The end of `sys_write`. -/
def finishWrite : Outcome (Option ℕ) → KernelM Result
  | .blocked => pure .blocked
  | .done none => pure Result.err
  | .done (some n) => pure (if n = 0 then Result.err else Result.ret n)

def sysWrite (tf : ℕ) : KernelM Result := do
  let i ← myproc
  let p ← getProc i
  let fd ← onRam (getReg tf tfA0)
  let buf ← onRam (getReg tf tfA1)
  let len ← onRam (getReg tf tfA2)
  match p.fdFile fd with
  | none => pure Result.err
  | some f =>
    let k ← Prog.get
    if !(k.ftable f).writable then
      pure Result.err
    else
      match ioLength buf len with
      | .inl v => pure (Result.ret v)
      | .inr n =>
        match ← onRam (copyin p.pagetable buf n) with
        | none => pure Result.err
        | some chunk => fileWrite f chunk >>= finishWrite

/-- The end of `sys_read`: the bytes go to the user's buffer. -/
def finishRead (pagetable buf : ℕ) : Outcome (Option (List UInt8)) → KernelM Result
  | .blocked => pure .blocked
  | .done none => pure Result.err
  | .done (some bytes) => do
    match ← onRam (copyout pagetable buf bytes) with
    | none => pure Result.err
    | some _ => pure (Result.ret bytes.length)

def sysRead (tf : ℕ) : KernelM Result := do
  let i ← myproc
  let p ← getProc i
  let fd ← onRam (getReg tf tfA0)
  let buf ← onRam (getReg tf tfA1)
  let len ← onRam (getReg tf tfA2)
  match p.fdFile fd with
  | none => pure Result.err
  | some f =>
    let k ← Prog.get
    if !(k.ftable f).readable then
      pure Result.err
    else
      match ioLength buf len with
      | .inl v => pure (Result.ret v)
      | .inr n => fileRead f n buf >>= finishRead p.pagetable buf

def sysFork : KernelM Result := do
  match ← fork L with
  | some pid => pure (Result.ret pid)
  | none => pure Result.err

/-- The four bytes of an `i32`. -/
def fdBytes (fd : Fin nofile) : List UInt8 := (List.range 4).map (byteAt fd)

/-- Close both ends of a new pipe. -/
def closeEnds (readFp writeFp : FileRef) : KernelM Result := do
  fileClose readFp
  fileClose writeFp
  pure Result.err

def clearFd (i : ProcRef) (fd : Fin nofile) : KernelM Unit :=
  modifyProc i fun p => { p with ofile := Function.update p.ofile fd none }

/-- `sys_pipe` with the files of both ends at hand. -/
def sysPipeFds (i : ProcRef) (fdsVa : ℕ) (readFp writeFp : FileRef) : KernelM Result := do
  match ← fdalloc i readFp with
  | none => closeEnds readFp writeFp
  | some readFd =>
    match ← fdalloc i writeFp with
    | none =>
      clearFd i readFd
      closeEnds readFp writeFp
    | some writeFd =>
      let p ← getProc i
      match ← onRam (copyout p.pagetable fdsVa (fdBytes readFd ++ fdBytes writeFd)) with
      | none =>
        clearFd i readFd
        clearFd i writeFd
        closeEnds readFp writeFp
      | some _ => pure (Result.ret 0)

def sysPipe (tf : ℕ) : KernelM Result := do
  let i ← myproc
  let fdsVa ← onRam (getReg tf tfA0)
  match ← pipeAlloc with
  | none => pure Result.err
  | some pipe =>
    match ← fileAlloc with
    | none =>
      pipeFreeAllocated pipe
      pure Result.err
    | some readFp =>
      match ← fileAlloc with
      | none =>
        fileClose readFp
        pipeFreeAllocated pipe
        pure Result.err
      | some writeFp =>
        modifyFile readFp fun f => { f with readable := true, writable := false, kind := .pipe pipe }
        modifyFile writeFp fun f => { f with readable := false, writable := true, kind := .pipe pipe }
        sysPipeFds i fdsVa readFp writeFp

/-- The end of `sys_wait`. -/
def finishWait : Outcome ℤ → KernelM Result
  | .blocked => pure .blocked
  | .done v => pure (Result.ret v)

def sysWait (tf : ℕ) : KernelM Result := do
  let statusVa ← onRam (getReg tf tfA0)
  wait L statusVa >>= finishWait

def sysGetpid : KernelM Result := do
  let i ← myproc
  let p ← getProc i
  pure (Result.ret p.pid)

/-- The 16 bytes of a `Stat`; the gaps behind the two `i16` fields are not
initialised in the source and are zero here. -/
def statBytes (st : Fs.Stat) : List UInt8 :=
  (List.range 4).map (byteAt (st.typ % 2 ^ 16).toNat) ++ (List.range 4).map (byteAt st.ino) ++
    (List.range 4).map (byteAt (st.nlink % 2 ^ 16).toNat) ++ (List.range 4).map (byteAt st.size)

/-- The end of `sys_fstat`: the record goes to the user's buffer. -/
def finishStat (pagetable statVa : ℕ) : Option Fs.Stat → KernelM Result
  | none => pure Result.err
  | some st => do
    match ← onRam (copyout pagetable statVa (statBytes st)) with
    | none => pure Result.err
    | some _ => pure (Result.ret 0)

def sysFstat (tf : ℕ) : KernelM Result := do
  let i ← myproc
  let p ← getProc i
  let fd ← onRam (getReg tf tfA0)
  let statVa ← onRam (getReg tf tfA1)
  match p.fdFile fd with
  | none => pure Result.err
  | some f => fileStat f >>= finishStat p.pagetable statVa

def maxPath : ℕ := 128

/-- The path argument of a call. -/
def pathArg (pagetable tf : ℕ) : KernelM (Option (List UInt8)) := do
  let pathVa ← onRam (getReg tf tfA0)
  onRam (copyinstr pagetable pathVa maxPath)

/-- `sys_exec` with the page of the arguments at hand. -/
def sysExecArgs (pagetable argvVa kargsPa : ℕ) (inode : Fs.InodeRef) : KernelM Result := do
  match ← onRam (copyArgv pagetable argvVa) with
  | none =>
    onRam (kfree L kargsPa)
    onFs (Fs.iput inode)
    pure Result.err
  | some kargs =>
    let content ← onFs (fileContent inode)
    let r ← execFromInode L content kargs
    onFs (Fs.iput inode)
    onRam (kfree L kargsPa)
    pure (if r = none then Result.err else .done .replaced)

def sysExec (tf : ℕ) : KernelM Result := do
  let i ← myproc
  let p ← getProc i
  match ← pathArg p.pagetable tf with
  | none => pure Result.err
  | some path =>
    match ← onFs (Fs.namei p.cwd path) with
    | none => pure Result.err
    | some inode =>
      let argvVa ← onRam (getReg tf tfA1)
      match ← onRam kallocZeroed with
      | none =>
        onFs (Fs.iput inode)
        pure Result.err
      | some kargsPa => sysExecArgs L p.pagetable argvVa kargsPa inode

def sysChdir (tf : ℕ) : KernelM Result := do
  let i ← myproc
  let p ← getProc i
  match ← pathArg p.pagetable tf with
  | none => pure Result.err
  | some path =>
    match ← onFs (Fs.namei p.cwd path) with
    | none => pure Result.err
    | some inode =>
      match ← onFs (Fs.inodeType inode) with
      | .dir =>
        onFs (Fs.iput p.cwd)
        modifyProc i fun p => { p with cwd := inode }
        pure (Result.ret 0)
      | _ =>
        onFs (Fs.iput inode)
        pure Result.err

def sysDup (tf : ℕ) : KernelM Result := do
  let i ← myproc
  let p ← getProc i
  let fd ← onRam (getReg tf tfA0)
  match p.fdFile fd with
  | none => pure Result.err
  | some f =>
    match ← fdalloc i f with
    | none => pure Result.err
    | some newfd =>
      fileDup f
      pure (Result.ret newfd)

/-- The exits of `sys_open` that drop the inode. -/
def dropInode (inode : Fs.InodeRef) : KernelM Result := do
  onFs (Fs.iput inode)
  pure Result.err

/-- Point a new file at what was opened. A device needs no inode. -/
def openKind (f : FileRef) (typ : Fs.InodeType) (inode : Fs.InodeRef) (append : Bool) :
    KernelM Unit :=
  match typ with
  | .file => modifyFile f fun x => { x with kind := .inode inode 0 append }
  | .device major => do
    modifyFile f fun x => { x with kind := .device major }
    onFs (Fs.iput inode)
  | .dir => modifyFile f fun x => { x with kind := .inode inode 0 false }

/-- `sys_open` once the inode is found and may be opened. -/
def sysOpenFile (i : ProcRef) (inode : Fs.InodeRef) (typ : Fs.InodeType)
    (readable writable truncate append : Bool) : KernelM Result := do
  match ← fileAlloc with
  | none => dropInode inode
  | some f =>
    modifyFile f fun x => { x with readable := readable, writable := writable }
    openKind f typ inode append
    match ← fdalloc i f with
    | none =>
      fileClose f
      pure Result.err
    | some fd =>
      if truncate then
        onFs (Fs.trunc inode)
      pure (Result.ret fd)

def sysOpen (tf : ℕ) : KernelM Result := do
  let i ← myproc
  let p ← getProc i
  match ← pathArg p.pagetable tf with
  | none => pure Result.err
  | some path =>
    let flags ← onRam (getReg tf tfA1)
    let truncate := flags &&& oTrunc != 0
    let append := flags &&& oAppend != 0
    match ← onFs (if flags &&& oCreate != 0 then Fs.create p.cwd path else Fs.namei p.cwd path) with
    | none => pure Result.err
    | some inode =>
      let typ ← onFs (Fs.inodeType inode)
      let readable := flags &&& oWronly == 0
      let writable := flags &&& (oWronly ||| oRdwr) != 0
      if typ = .dir ∧ writable then
        dropInode inode
      else if truncate ∧ ¬ (typ = .file ∧ writable) then
        dropInode inode
      else
        sysOpenFile i inode typ readable writable truncate append

def sysMkdir (tf : ℕ) : KernelM Result := do
  let i ← myproc
  let p ← getProc i
  match ← pathArg p.pagetable tf with
  | none => pure Result.err
  | some path =>
    match ← onFs (Fs.mkdir p.cwd path) with
    | none => pure Result.err
    | some inode =>
      onFs (Fs.iput inode)
      pure (Result.ret 0)

def sysClose (tf : ℕ) : KernelM Result := do
  let i ← myproc
  let p ← getProc i
  let fd ← onRam (getReg tf tfA0)
  if h : fd < nofile then
    match p.ofile ⟨fd, h⟩ with
    | none => pure Result.err
    | some f =>
      clearFd i ⟨fd, h⟩
      fileClose f
      pure (Result.ret 0)
  else
    pure Result.err

/-- The checks of `sys_sbrk`: the new size. -/
def sbrkSize (oldsz : ℕ) (n : ℤ) : Option ℕ :=
  if n < 0 then
    none
  else
    match checkedAdd oldsz n.toNat with
    | none => none
    | some newsz =>
      match checkedAdd newsz (pgSize - 1) with
      | none => none
      | some v => if userStack < v / pgSize * pgSize then none else some newsz

def sysSbrk (tf : ℕ) : KernelM Result := do
  let i ← myproc
  let p ← getProc i
  let n ← onRam (getReg tf tfA0)
  match sbrkSize p.sz (toIsize n) with
  | none => pure Result.err
  | some newsz =>
    match ← onRam (uvmalloc L p.pagetable p.sz newsz) with
    | none => pure Result.err
    | some _ =>
      modifyProc i fun p => { p with sz := newsz }
      pure (Result.ret p.sz)

/-- The decimal digits of a number. -/
def decimal (n : ℕ) : List UInt8 := (Nat.toDigits 10 n).map fun c => UInt8.ofNat c.toNat

/-- The bytes of a text. -/
def text (s : String) : List UInt8 := s.toList.map fun c => UInt8.ofNat c.toNat

/-- The calls by their numbers. -/
inductive Sysno
  | fork
  | exit
  | wait
  | pipe
  | read
  | exec
  | fstat
  | chdir
  | dup
  | getpid
  | sbrk
  | «open»
  | write
  | mkdir
  | close
  deriving DecidableEq, Repr

def Sysno.ofNum : ℕ → Option Sysno
  | 1 => some .fork
  | 2 => some .exit
  | 3 => some .wait
  | 4 => some .pipe
  | 5 => some .read
  | 7 => some .exec
  | 8 => some .fstat
  | 9 => some .chdir
  | 10 => some .dup
  | 11 => some .getpid
  | 12 => some .sbrk
  | 15 => some .open
  | 16 => some .write
  | 20 => some .mkdir
  | 21 => some .close
  | _ => none

/-- `exit` does not return: the process is switched out for good. -/
def sysExit (tf : ℕ) : KernelM Result := do
  let code ← onRam (getReg tf tfA0)
  exit (toI32 code)
  pure .blocked

def unknownSyscall (num : ℕ) : KernelM Result := do
  consoleWriteBytes (text "unknown syscall " ++ decimal num ++ [newline])
  pure Result.err

def dispatch (tf num : ℕ) : KernelM Result :=
  match Sysno.ofNum num with
  | some .exit => sysExit tf
  | some .fork => sysFork L
  | some .pipe => sysPipe tf
  | some .write => sysWrite tf
  | some .wait => sysWait L tf
  | some .getpid => sysGetpid
  | some .read => sysRead tf
  | some .exec => sysExec L tf
  | some .fstat => sysFstat tf
  | some .chdir => sysChdir tf
  | some .dup => sysDup tf
  | some .open => sysOpen tf
  | some .mkdir => sysMkdir tf
  | some .close => sysClose tf
  | some .sbrk => sysSbrk L tf
  | none => unknownSyscall num

end ToyOs
