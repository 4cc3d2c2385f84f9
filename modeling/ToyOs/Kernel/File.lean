import ToyOs.Kernel.State

/-!
The console, pipes and open files. An operation that may sleep ends with
`blocked` when the process was switched out; its `Cont` then says how it goes
on. A result of -1 is `none`.
-/
namespace ToyOs

/-- The end of a piece of kernel code that may sleep. -/
inductive Outcome (α : Type)
  | done (a : α)
  | blocked
  deriving DecidableEq

def Outcome.map {α β : Type} (f : α → β) : Outcome α → Outcome β
  | .done a => .done (f a)
  | .blocked => .blocked

def backspace : UInt8 := 0x08

def delete : UInt8 := 0x7f

def eof : UInt8 := 0x04

def newline : UInt8 := 0x0a

def carriageReturn : UInt8 := 0x0d

def putc (b : UInt8) : KernelM Unit := Prog.modify fun k => { k with uart := k.uart ++ [b] }

def modifyInput (f : Input → Input) : KernelM Unit :=
  Prog.modify fun k => { k with input := f k.input }

/-- `a - b` on `usize`. -/
def subUsize {σ : Type} (a b : ℕ) : Prog Panic σ ℕ :=
  if b ≤ a then pure (a - b) else Prog.panic .overflow

/-- Store a byte at the end of the edit line. -/
def Input.push (x : Input) (b : UInt8) : Input :=
  { x with buf := Function.update x.buf (x.e % inputBuf) b, e := x.e + 1 }

/-- Append one received byte; the result says whether readers are to be woken. -/
def inputPutc (c : UInt8) : KernelM Bool := do
  let b := if c = carriageReturn then newline else c
  let k ← Prog.get
  if b = backspace ∨ b = delete then
    if k.input.e ≠ k.input.w then
      let e ← subUsize k.input.e 1
      modifyInput fun x => { x with e := e }
      putc 0x08
      putc 0x20
      putc 0x08
    pure false
  else
    let fill ← subUsize k.input.e k.input.r
    if inputBuf ≤ fill then
      pure false
    else if b = eof then
      modifyInput fun x => { x.push b with w := x.e + 1 }
      pure true
    else
      modifyInput fun x => x.push b
      putc b
      let k ← Prog.get
      let fill ← subUsize k.input.e k.input.r
      if b = newline ∨ fill = inputBuf then
        modifyInput fun x => { x with w := x.e }
        pure true
      else
        pure false

/-- The loop of `console::intr` over the bytes the UART holds. -/
def intrLoop : List UInt8 → Bool → KernelM Bool
  | [], doWakeup => pure doWakeup
  | b :: rest, doWakeup => do
    let w ← inputPutc b
    intrLoop rest (doWakeup || w)

def consoleIntr (bytes : List UInt8) : KernelM Unit := do
  acquire .console
  let doWakeup ← intrLoop bytes false
  release .console
  if doWakeup then
    wakeup (some .input)

/-- The end of `console::read`. -/
def consoleFinish (got : List UInt8) : KernelM (Outcome (List UInt8)) := do
  release .console
  pure (.done got)

/-- The loops of `console::read`; `got` are the bytes of the line so far. -/
def consoleReadLoop (cap buf : ℕ) : ℕ → List UInt8 → KernelM (Outcome (List UInt8))
  | 0, got => consoleFinish got
  | fuel + 1, got => do
    let k ← Prog.get
    if k.input.r ≠ k.input.w then
      let c := k.input.buf (k.input.r % inputBuf)
      modifyInput fun x => { x with r := x.r + 1 }
      if c = eof then
        if 0 < got.length then
          modifyInput fun x => { x with r := x.r - 1 }
        consoleFinish got
      else if c = newline then
        consoleFinish (got ++ [c])
      else
        consoleReadLoop cap buf fuel (got ++ [c])
    else
      sleep .input .console (.consoleRead got cap buf)
      pure .blocked

def consoleRead (cap buf : ℕ) : KernelM (Outcome (List UInt8)) :=
  if cap = 0 then
    pure (.done [])
  else do
    acquire .console
    consoleReadLoop cap buf cap []

def consoleWriteBytes (bytes : List UInt8) : KernelM Unit := do
  acquire .console
  Prog.forEach bytes putc
  release .console

def readChan (p : PipeRef) : Option Chan := some (.pipeRead p)

def writeChan (p : PipeRef) : Option Chan := some (.pipeWrite p)

def pipeAllocTry (p : PipeRef) : KernelM (Option PipeRef) := do
  let k ← Prog.get
  if !(k.pipes p).used then
    modifyPipe p fun x =>
      { x with used := true, nread := 0, nwrite := 0, readopen := true, writeopen := true }
    pure (some p)
  else
    pure none

def pipeAlloc : KernelM (Option PipeRef) := do
  acquire .pipeTable
  let r ← Prog.firstSome (List.finRange npipe) pipeAllocTry
  release .pipeTable
  pure r

def pipeFreeAllocated (p : PipeRef) : KernelM Unit := do
  acquire (.pipe p)
  modifyPipe p fun x => { x with readopen := false, writeopen := false, nread := 0, nwrite := 0 }
  release (.pipe p)
  acquire .pipeTable
  modifyPipe p fun x => { x with used := false }
  release .pipeTable

def pipeClose (p : PipeRef) (writable : Bool) : KernelM Unit := do
  acquire (.pipe p)
  if writable then
    modifyPipe p fun x => { x with writeopen := false }
    wakeup (readChan p)
  else
    modifyPipe p fun x => { x with readopen := false }
    wakeup (writeChan p)
  let k ← Prog.get
  let doFree := !(k.pipes p).readopen && !(k.pipes p).writeopen
  release (.pipe p)
  if doFree then
    acquire .pipeTable
    modifyPipe p fun x => { x with used := false }
    release .pipeTable

/-- The copy loop of `pipe::read`. -/
def pipeTake (p : PipeRef) : ℕ → List UInt8 → KernelM (List UInt8)
  | 0, got => pure got
  | n + 1, got => do
    let k ← Prog.get
    if (k.pipes p).nread ≠ (k.pipes p).nwrite then
      let b := (k.pipes p).data ((k.pipes p).nread % pipesize)
      modifyPipe p fun x => { x with nread := x.nread + 1 }
      pipeTake p n (got ++ [b])
    else
      pure got

/-- `pipe::read` from its wait loop on. -/
def pipeReadLoop (p : PipeRef) (cap buf : ℕ) : KernelM (Outcome (List UInt8)) := do
  let k ← Prog.get
  if (k.pipes p).nread = (k.pipes p).nwrite ∧ (k.pipes p).writeopen then
    sleep (.pipeRead p) (.pipe p) (.pipeRead p cap buf)
    pure .blocked
  else
    let got ← pipeTake p cap []
    wakeup (writeChan p)
    release (.pipe p)
    pure (.done got)

def pipeRead (p : PipeRef) (cap buf : ℕ) : KernelM (Outcome (List UInt8)) := do
  acquire (.pipe p)
  pipeReadLoop p cap buf

/-- `pipe::write` with `n` bytes already in the pipe. -/
def pipeWriteLoop (p : PipeRef) (src : List UInt8) : ℕ → ℕ → KernelM (Outcome (Option ℕ))
  | 0, n => do
    wakeup (readChan p)
    release (.pipe p)
    pure (.done (some n))
  | fuel + 1, n => do
    let k ← Prog.get
    if (k.pipes p).nwrite = (k.pipes p).nread + pipesize then
      if !(k.pipes p).readopen then
        release (.pipe p)
        pure (.done none)
      else
        wakeup (readChan p)
        sleep (.pipeWrite p) (.pipe p) (.pipeWrite p src n)
        pure .blocked
    else if !(k.pipes p).readopen then
      release (.pipe p)
      pure (.done none)
    else
      modifyPipe p fun x =>
        { x with
          data := Function.update x.data (x.nwrite % pipesize) (src.getD n 0)
          nwrite := x.nwrite + 1 }
      pipeWriteLoop p src fuel (n + 1)

def pipeWrite (p : PipeRef) (src : List UInt8) : KernelM (Outcome (Option ℕ)) := do
  acquire (.pipe p)
  pipeWriteLoop p src src.length 0

def consoleMajor : ℕ := 1

def fileAllocTry (f : FileRef) : KernelM (Option FileRef) := do
  let k ← Prog.get
  if (k.ftable f).refcnt = 0 then
    modifyFile f fun _ => { File.unused with refcnt := 1 }
    pure (some f)
  else
    pure none

def fileAlloc : KernelM (Option FileRef) := do
  acquire .ftable
  let r ← Prog.firstSome (List.finRange nfile) fileAllocTry
  release .ftable
  pure r

def fileDup (f : FileRef) : KernelM Unit := do
  acquire .ftable
  let k ← Prog.get
  Prog.assert .dupInvalidRefcnt (0 < (k.ftable f).refcnt)
  modifyFile f fun x => { x with refcnt := x.refcnt + 1 }
  release .ftable

def fileClose (f : FileRef) : KernelM Unit := do
  acquire .ftable
  let k ← Prog.get
  Prog.assert .closeInvalidRefcnt (0 < (k.ftable f).refcnt)
  modifyFile f fun x => { x with refcnt := x.refcnt - 1 }
  if (k.ftable f).refcnt = 1 then
    modifyFile f fun x => { x with kind := .none, readable := false, writable := false }
    release .ftable
    match (k.ftable f).kind with
    | .inode ip _ _ => onFs (Fs.iput ip)
    | .pipe p => pipeClose p (k.ftable f).writable
    | _ => pure ()
  else
    release .ftable

/-- Move the offset of an open inode. -/
def advance (f : FileRef) (ip : Fs.InodeRef) (off : ℕ) (append : Bool) : KernelM Unit :=
  modifyFile f fun x => { x with kind := .inode ip off append }

def fileRead (f : FileRef) (cap buf : ℕ) : KernelM (Outcome (Option (List UInt8))) := do
  let k ← Prog.get
  if !(k.ftable f).readable then
    pure (.done none)
  else
    match (k.ftable f).kind with
    | .device major =>
      if major = consoleMajor then
        match ← consoleRead cap buf with
        | .done bytes => pure (.done (some bytes))
        | .blocked => pure .blocked
      else
        pure (.done none)
    | .inode ip off append =>
      match ← onFs (Fs.readi ip off cap) with
      | none => pure (.done none)
      | some bytes =>
        if 0 < bytes.length then
          advance f ip (off + bytes.length) append
        pure (.done (some bytes))
    | .pipe p =>
      match ← pipeRead p cap buf with
      | .done bytes => pure (.done (some bytes))
      | .blocked => pure .blocked
    | .none => pure (.done none)

def fileWrite (f : FileRef) (src : List UInt8) : KernelM (Outcome (Option ℕ)) := do
  let k ← Prog.get
  if !(k.ftable f).writable then
    pure (.done none)
  else
    match (k.ftable f).kind with
    | .device major =>
      if major = consoleMajor then
        consoleWriteBytes src
        pure (.done (some src.length))
      else
        pure (.done none)
    | .inode ip off append =>
      if append then
        let (n, newOff) ← onFs (Fs.appendi ip src)
        if 0 < n then
          advance f ip newOff append
        pure (.done (some n))
      else
        match ← onFs (Fs.writei ip off src) with
        | none => pure (.done none)
        | some n =>
          if 0 < n then
            advance f ip (off + n) append
          pure (.done (some n))
    | .pipe p => pipeWrite p src
    | .none => pure (.done none)

def fileStat (f : FileRef) : KernelM (Option Fs.Stat) := do
  let k ← Prog.get
  match (k.ftable f).kind with
  | .inode ip _ _ =>
    let st ← onFs (Fs.stati ip)
    pure (some st)
  | _ => pure none

end ToyOs
