import ToyOs.Fs.Namei
import ToyOs.Loader

/-!
The state of the single-hart kernel: physical memory, the file system, the
tables of files, pipes and processes, the console, the hart and the locks.
Pointers into a table are indices, a null pointer is `none`. A process that
is switched out inside the kernel keeps its place there as a `Cont`.
-/
namespace ToyOs

def nproc : ℕ := 16

def nfile : ℕ := 100

def nofile : ℕ := 16

def npipe : ℕ := 64

def pipesize : ℕ := 512

def inputBuf : ℕ := 128

abbrev ProcRef := Fin nproc

abbrev FileRef := Fin nfile

abbrev PipeRef := Fin npipe

inductive ProcState
  | unused
  | used
  | runnable
  | running
  | zombie
  | sleeping
  deriving DecidableEq, Repr

/-- Sleep channels: addresses of different objects of the kernel. -/
inductive Chan
  | proc (p : ProcRef)
  | pipeRead (p : PipeRef)
  | pipeWrite (p : PipeRef)
  | input
  deriving DecidableEq

inductive FileKind
  | none
  | device (major : ℕ)
  | inode (ip : Fs.InodeRef) (off : ℕ) (append : Bool)
  | pipe (p : PipeRef)
  deriving DecidableEq

structure File where
  refcnt : ℕ
  readable : Bool
  writable : Bool
  kind : FileKind
  deriving DecidableEq

def File.unused : File where
  refcnt := 0
  readable := false
  writable := false
  kind := .none

structure Pipe where
  used : Bool
  data : ℕ → UInt8
  nread : ℕ
  nwrite : ℕ
  readopen : Bool
  writeopen : Bool

def Pipe.unused : Pipe where
  used := false
  data := fun _ => 0
  nread := 0
  nwrite := 0
  readopen := false
  writeopen := false

/-- The cooked input of the console. -/
structure Input where
  buf : ℕ → UInt8
  r : ℕ
  w : ℕ
  e : ℕ

/-- Where a process goes on when it is scheduled again. -/
inductive Cont
  | forkret
  | yield
  | wait (statusVa : ℕ)
  | pipeRead (p : PipeRef) (cap buf : ℕ)
  | pipeWrite (p : PipeRef) (src : List UInt8) (n : ℕ)
  | consoleRead (got : List UInt8) (cap buf : ℕ)
  deriving DecidableEq

structure Process where
  state : ProcState
  pid : ℕ
  parent : Option ProcRef
  xstate : ℤ
  chan : Option Chan
  pagetable : ℕ
  trapframe : ℕ
  sz : ℕ
  kstack : ℕ
  ofile : Fin nofile → Option FileRef
  cwd : Fs.InodeRef
  cont : Cont
  intena : Bool

def Process.unused : Process where
  state := .unused
  pid := 0
  parent := none
  xstate := 0
  chan := none
  pagetable := 0
  trapframe := 0
  sz := 0
  kstack := 0
  ofile := fun _ => none
  cwd := Fs.rootPlaceholder
  cont := .forkret
  intena := false

inductive Lock
  | wait
  | ftable
  | pipeTable
  | console
  | proc (p : ProcRef)
  | pipe (p : PipeRef)
  deriving DecidableEq

/-- The hart: the interrupt nesting, `sstatus.SIE` and the current process. -/
structure Cpu where
  noff : ℕ
  intena : Bool
  sie : Bool
  proc : Option ProcRef
  deriving DecidableEq

structure Kernel where
  ram : Ram
  fs : Fs.State
  ftable : FileRef → File
  pipes : PipeRef → Pipe
  input : Input
  uart : List UInt8
  procs : ProcRef → Process
  nextPid : ℕ
  initproc : Option ProcRef
  cpu : Cpu
  held : Lock → Bool

abbrev KernelM := Prog Panic Kernel

def onRam {α : Type} (m : RamM α) : KernelM α :=
  Prog.zoom Kernel.ram (fun r k => { k with ram := r }) m

def onFs {α : Type} (m : Fs.FsM α) : KernelM α :=
  Prog.zoom Kernel.fs (fun f k => { k with fs := f }) m

def Kernel.setProc (k : Kernel) (i : ProcRef) (p : Process) : Kernel :=
  { k with procs := Function.update k.procs i p }

def Kernel.setFile (k : Kernel) (f : FileRef) (x : File) : Kernel :=
  { k with ftable := Function.update k.ftable f x }

def Kernel.setPipe (k : Kernel) (p : PipeRef) (x : Pipe) : Kernel :=
  { k with pipes := Function.update k.pipes p x }

def modifyProc (i : ProcRef) (f : Process → Process) : KernelM Unit :=
  Prog.modify fun k => k.setProc i (f (k.procs i))

def modifyFile (f : FileRef) (g : File → File) : KernelM Unit :=
  Prog.modify fun k => k.setFile f (g (k.ftable f))

def modifyPipe (p : PipeRef) (g : Pipe → Pipe) : KernelM Unit :=
  Prog.modify fun k => k.setPipe p (g (k.pipes p))

def getProc (i : ProcRef) : KernelM Process := do
  let k ← Prog.get
  pure (k.procs i)

def pushOff : KernelM Unit :=
  Prog.modify fun k => { k with cpu := { k.cpu with
    sie := false
    intena := if k.cpu.noff = 0 then k.cpu.sie else k.cpu.intena
    noff := k.cpu.noff + 1 } }

def popOff : KernelM Unit := do
  let k ← Prog.get
  Prog.assert .popOffEnabled (!k.cpu.sie)
  Prog.assert .popOffNotPushed (1 ≤ k.cpu.noff)
  Prog.modify fun k => { k with cpu := { k.cpu with
    noff := k.cpu.noff - 1
    sie := if k.cpu.noff = 1 ∧ k.cpu.intena then true else k.cpu.sie } }

def acquire (l : Lock) : KernelM Unit := do
  pushOff
  let k ← Prog.get
  Prog.assert .acquireHolding (!k.held l)
  Prog.modify fun k => { k with held := Function.update k.held l true }

def release (l : Lock) : KernelM Unit := do
  let k ← Prog.get
  Prog.assert .releaseNotHolding (k.held l)
  Prog.modify fun k => { k with held := Function.update k.held l false }
  popOff

/-- `myproc()`, unwrapped. -/
def myproc : KernelM ProcRef := do
  let k ← Prog.get
  Prog.expect .noProc k.cpu.proc

def procRefs : List ProcRef := List.finRange nproc

/-- The body of the loop of `wakeup`. -/
def wakeupOne (chan : Option Chan) (i : ProcRef) : KernelM Unit := do
  acquire (.proc i)
  let p ← getProc i
  if p.state = .sleeping ∧ p.chan = chan then
    modifyProc i fun p => { p with state := .runnable }
  release (.proc i)

def wakeup (chan : Option Chan) : KernelM Unit := Prog.forEach procRefs (wakeupOne chan)

/-- The checks of `sched` and the switch to the scheduler, which clears the
current process and releases its lock. -/
def sched (i : ProcRef) (cont : Cont) : KernelM Unit := do
  let k ← Prog.get
  Prog.assert .schedLock (k.held (.proc i))
  Prog.assert .schedRunning ((k.procs i).state != .running)
  Prog.assert .schedInterrupts (!k.cpu.sie)
  Prog.assert .schedNoff (k.cpu.noff == 1)
  modifyProc i fun p => { p with cont := cont, intena := k.cpu.intena }
  Prog.modify fun k => { k with cpu := { k.cpu with proc := none } }
  release (.proc i)

/-- `sleep` up to the switch; `cont` is what follows when the process runs again. -/
def sleep (chan : Chan) (lock : Lock) (cont : Cont) : KernelM Unit := do
  let i ← myproc
  acquire (.proc i)
  release lock
  modifyProc i fun p => { p with chan := some chan, state := .sleeping }
  sched i cont

/-- The rest of `sleep` after the switch back. -/
def wake (i : ProcRef) (lock : Lock) : KernelM Unit := do
  modifyProc i fun p => { p with chan := none }
  release (.proc i)
  acquire lock

def yieldCpu : KernelM Unit := do
  let i ← myproc
  acquire (.proc i)
  modifyProc i fun p => { p with state := .runnable }
  sched i .yield

end ToyOs
