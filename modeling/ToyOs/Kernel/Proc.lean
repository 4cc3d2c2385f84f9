import ToyOs.Kernel.File

/-!
The process table: allocation and freeing of slots, `fork`, `exit`, `wait`
and `exec`. The loader of `exec` reads the inode; here the bytes of the file
are fetched once and the loader works on them.
-/
namespace ToyOs

open Bytes

variable (L : Layout)

def fds : List (Fin nofile) := List.finRange nofile

/-- Close the descriptors that are open, clearing each entry after its file. -/
def freeprocFiles (i : ProcRef) : KernelM Unit :=
  Prog.forEach fds fun fd => do
    let p ← getProc i
    match p.ofile fd with
    | none => pure ()
    | some f =>
      fileClose f
      modifyProc i fun p => { p with ofile := Function.update p.ofile fd none }

/-- The fields `freeproc` resets at its end. -/
def Process.reset (p : Process) : Process :=
  { p with
    trapframe := 0, pagetable := 0, sz := 0, kstack := 0, pid := 0, cont := .forkret
    state := .unused, parent := none, xstate := 0, chan := none, cwd := Fs.rootPlaceholder }

def freeproc (i : ProcRef) : KernelM Unit := do
  let k ← Prog.get
  Prog.assert .freeprocLock (k.held (.proc i))
  let p := k.procs i
  if p.trapframe ≠ 0 then
    onRam (kfree L p.trapframe)
  if p.pagetable ≠ 0 then
    onRam (procFreepagetable L p.pagetable p.sz)
  if p.kstack ≠ 0 then
    onRam (kfree L p.kstack)
  freeprocFiles i
  onFs (Fs.iput p.cwd)
  modifyProc i Process.reset

/-- The fields `allocproc` sets before it allocates memory. -/
def Process.fresh (p : Process) (pid : ℕ) (cwd : Fs.InodeRef) : Process :=
  { p with
    pid := pid, state := .used, cont := .forkret, parent := none, xstate := 0, chan := none
    pagetable := 0, trapframe := 0, sz := 0, kstack := 0, ofile := fun _ => none, cwd := cwd }

/-- The exits of `allocproc` that run out of memory. -/
def allocprocFail (i : ProcRef) : KernelM (Option ProcRef) := do
  freeproc L i
  release (.proc i)
  pure none

def allocprocInit (i : ProcRef) : KernelM (Option ProcRef) := do
  let k ← Prog.get
  Prog.modify fun k => { k with nextPid := (k.nextPid + 1) % usizeSize }
  let cwd ← onFs Fs.root
  modifyProc i fun p => p.fresh k.nextPid cwd
  match ← onRam kallocZeroed with
  | none => allocprocFail L i
  | some trapframe =>
    modifyProc i fun p => { p with trapframe := trapframe }
    match ← onRam (procPagetable L trapframe) with
    | none => allocprocFail L i
    | some pagetable =>
      modifyProc i fun p => { p with pagetable := pagetable }
      match ← onRam kalloc with
      | none => allocprocFail L i
      | some kstack =>
        modifyProc i fun p => { p with kstack := kstack }
        pure (some i)

/-- One slot of the search of `allocproc`. -/
def allocprocTry (i : ProcRef) : KernelM (Option (Option ProcRef)) := do
  acquire (.proc i)
  let p ← getProc i
  if p.state ≠ .unused then
    release (.proc i)
    pure none
  else
    let r ← allocprocInit L i
    pure (some r)

def allocproc : KernelM (Option ProcRef) := do
  match ← Prog.firstSome procRefs (allocprocTry L) with
  | none => pure none
  | some r => pure r

def closeOpenFiles (i : ProcRef) : KernelM Unit :=
  Prog.forEach fds fun fd => do
    let p ← getProc i
    match p.ofile fd with
    | none => pure ()
    | some f =>
      modifyProc i fun p => { p with ofile := Function.update p.ofile fd none }
      fileClose f

/-- The loop of `reparent`; the result is `need_wakeup`. -/
def reparentLoop (parent init : ProcRef) : List ProcRef → Bool → KernelM Bool
  | [], needWakeup => pure needWakeup
  | child :: rest, needWakeup => do
    acquire (.proc child)
    let p ← getProc child
    if p.parent = some parent then
      modifyProc child fun p => { p with parent := some init }
      release (.proc child)
      reparentLoop parent init rest true
    else
      release (.proc child)
      reparentLoop parent init rest needWakeup

def reparent (parent : ProcRef) : KernelM Unit := do
  let k ← Prog.get
  match k.initproc with
  | none => pure ()
  | some init =>
    if parent = init then
      pure ()
    else
      let needWakeup ← reparentLoop parent init procRefs false
      if needWakeup then
        wakeup (some (.proc init))

def exit (code : ℤ) : KernelM Unit := do
  let i ← myproc
  closeOpenFiles i
  acquire .wait
  reparent i
  let p ← getProc i
  wakeup (p.parent.map Chan.proc)
  acquire (.proc i)
  modifyProc i fun p => { p with xstate := code, state := .zombie }
  release .wait
  sched i .yield

def trapframeSize : ℕ := 288

def tfEpc : ℕ := 24

def tfSp : ℕ := 48

def tfA0 : ℕ := 112

def tfA1 : ℕ := 120

def tfA2 : ℕ := 128

def tfA7 : ℕ := 168

/-- Write a register of a trap frame. -/
def setReg (trapframe reg v : ℕ) : RamM Unit :=
  Prog.modify fun s => s.setWord (trapframe + reg) v

def getReg (trapframe reg : ℕ) : RamM ℕ := do
  let s ← Prog.get
  pure (load 8 s.mem (trapframe + reg))

/-- The exits of `fork` after `allocproc`. -/
def forkFail (child : ProcRef) : KernelM (Option ℕ) := do
  freeproc L child
  release (.proc child)
  pure none

/-- Duplicate the descriptors of the parent. -/
def forkFiles (parent child : ProcRef) : KernelM Unit :=
  Prog.forEach fds fun fd => do
    let p ← getProc parent
    match p.ofile fd with
    | none => pure ()
    | some f =>
      fileDup f
      modifyProc child fun c => { c with ofile := Function.update c.ofile fd (some f) }

def fork : KernelM (Option ℕ) := do
  let parent ← myproc
  match ← allocproc L with
  | none => pure none
  | some child =>
    modifyProc child fun c => { c with parent := some parent }
    let p ← getProc parent
    let c ← getProc child
    match ← onRam (uvmcopy L p.pagetable c.pagetable p.sz) with
    | none => forkFail L child
    | some _ =>
      modifyProc child fun c => { c with sz := p.sz }
      onRam (Prog.modify fun s => { s with mem := copy s.mem p.trapframe c.trapframe trapframeSize })
      onRam (setReg c.trapframe tfA0 0)
      match ← onRam (uvmcopyStack L p.pagetable c.pagetable) with
      | none => forkFail L child
      | some _ =>
        modifyProc child fun c => { c with cont := .forkret }
        forkFiles parent child
        let cwd ← onFs (Fs.idup p.cwd)
        modifyProc child fun c => { c with cwd := cwd, state := .runnable }
        release (.proc child)
        pure (some c.pid)

/-- The 4 bytes of an exit status. -/
def statusBytes (xstate : ℤ) : List UInt8 :=
  (List.range 4).map (byteAt (xstate % 2 ^ 32).toNat)

/-- Reap a zombie child; a status that cannot be copied out returns -1. -/
def reap (parent child : ProcRef) (statusVa : ℕ) : KernelM ℤ := do
  let c ← getProc child
  let p ← getProc parent
  let copied ← if statusVa ≠ 0 then onRam (copyout p.pagetable statusVa (statusBytes c.xstate))
    else pure (some ())
  match copied with
  | none =>
    release (.proc child)
    pure (-1)
  | some _ =>
    freeproc L child
    release (.proc child)
    release .wait
    pure (c.pid : ℤ)

/-- The scan of `wait`: the result of the call, or whether there is a child. -/
def waitScan (parent : ProcRef) (statusVa : ℕ) : List ProcRef → Bool → KernelM (ℤ ⊕ Bool)
  | [], haveChild => pure (.inr haveChild)
  | child :: rest, haveChild => do
    acquire (.proc child)
    let c ← getProc child
    if c.parent = some parent then
      if c.state = .zombie then
        let r ← reap L parent child statusVa
        pure (.inl r)
      else
        release (.proc child)
        waitScan parent statusVa rest true
    else
      release (.proc child)
      waitScan parent statusVa rest haveChild

/-- One round of the loop of `wait`. -/
def waitLoop (parent : ProcRef) (statusVa : ℕ) : KernelM (Outcome ℤ) := do
  match ← waitScan L parent statusVa procRefs false with
  | .inl r => pure (.done r)
  | .inr false =>
    release .wait
    pure (.done (-1))
  | .inr true =>
    sleep (.proc parent) .wait (.wait statusVa)
    pure .blocked

def wait (statusVa : ℕ) : KernelM (Outcome ℤ) := do
  let parent ← myproc
  acquire .wait
  waitLoop L parent statusVa

/-- The bytes of a file, as `readi` delivers them. -/
def fileContent (r : Fs.InodeRef) : Fs.FsM (List UInt8) := do
  match ← Fs.readi r 0 (Fs.maxfile * Fs.bsize) with
  | none => pure []
  | some bytes => pure bytes

/-- The registers a new image starts with. -/
def execRegs (trapframe argc argvVa entry sp : ℕ) : RamM Unit := do
  setReg trapframe tfA0 argc
  setReg trapframe tfA1 argvVa
  setReg trapframe tfEpc entry
  setReg trapframe tfSp sp

/-- `exec_from_inode` on the bytes of the file. -/
def execFromInode (content : List UInt8) (argv : KernelArgs) : KernelM (Option Unit) := do
  let i ← myproc
  let p ← getProc i
  match ← onRam (procPagetable L p.trapframe) with
  | none => pure none
  | some newPt =>
    match ← onRam (loadElfFromInode L newPt content) with
    | none =>
      onRam (procFreepagetable L newPt 0)
      pure none
    | some image =>
      match ← onRam (pushArgv newPt image.sp argv) with
      | none =>
        onRam (procFreepagetable L newPt image.sz)
        pure none
      | some (sp, argvVa) =>
        modifyProc i fun p => { p with pagetable := newPt, sz := image.sz }
        onRam (execRegs p.trapframe argv.argc argvVa image.entry sp)
        onRam (procFreepagetable L p.pagetable p.sz)
        pure (some ())

end ToyOs
