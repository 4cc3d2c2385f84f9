import ToyOs.Kernel.Trap

/-!
Boot: the kernel before the first process, and `userinit`, which makes init
from the image that is built into the kernel.
-/
namespace ToyOs

variable (L : Layout)

/-- The kernel when `userinit` starts. Memory and the file system are set up by
then and interrupts are on; the tables are as they were linked. -/
def Kernel.initial (ram : Ram) (fs : Fs.State) (uart : List UInt8) (intena : Bool) : Kernel where
  ram := ram
  fs := fs
  ftable := fun _ => File.unused
  pipes := fun _ => Pipe.unused
  input := { buf := fun _ => 0, r := 0, w := 0, e := 0 }
  uart := uart
  procs := fun _ => Process.unused
  nextPid := 1
  initproc := none
  cpu := { noff := 0, intena := intena, sie := true, proc := none }
  held := fun _ => false

def stdin : Fin nofile := ⟨0, by decide⟩

def stdout : Fin nofile := ⟨1, by decide⟩

def stderr : Fin nofile := ⟨2, by decide⟩

def openConsole (readable writable : Bool) : KernelM (Option FileRef) := do
  match ← fileAlloc with
  | none => pure none
  | some f =>
    modifyFile f fun x =>
      { x with readable := readable, writable := writable, kind := .device consoleMajor }
    pure (some f)

/-- Open the console and give it to a descriptor of the new process. -/
def initFd (i : ProcRef) (fd : Fin nofile) (readable writable : Bool) : KernelM Unit := do
  let f ← openConsole readable writable >>= Prog.expect .userinit
  modifyProc i fun p => { p with ofile := Function.update p.ofile fd (some f) }

def userinit (initElf : List UInt8) : KernelM ProcRef := do
  let i ← allocproc L >>= Prog.expect .userinit
  Prog.modify fun k => { k with initproc := if k.initproc = none then some i else k.initproc }
  let p ← getProc i
  let image ← onRam (loadElf L p.pagetable initElf) >>= Prog.expect .userinit
  modifyProc i fun p => { p with sz := image.sz }
  onRam (setReg p.trapframe tfEpc image.entry)
  onRam (setReg p.trapframe tfSp image.sp)
  modifyProc i fun p => { p with cont := .forkret, state := .runnable }
  initFd i stdin true false
  initFd i stdout false true
  initFd i stderr false true
  release (.proc i)
  pure i

end ToyOs
