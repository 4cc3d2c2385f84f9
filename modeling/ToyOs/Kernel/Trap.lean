import ToyOs.Kernel.Syscall

/-!
Traps, the scheduler and boot: the kernel as a transition system. Between two
steps the hart either runs a process in user mode or is in the scheduler. A
step is the kernel code from one such point to the next: a trap of the
running process, or the scheduler resuming a process where it was switched
out. The model assumes that no interrupt comes between the release of `forkret`
and the return to user mode, where interrupts are on: the timer would switch the
process out inside `kerneltrap`.
-/
namespace ToyOs

open Bytes

/-- Constants of the kernel that `usertrapret` leaves in a trap frame. -/
structure KernelEntry where
  satp : ℕ
  trap : ℕ
  hartid : ℕ

variable (L : Layout) (X : KernelEntry)

def tfKernelSatp : ℕ := 0

def tfKernelSp : ℕ := 8

def tfKernelTrap : ℕ := 16

def tfKernelHartid : ℕ := 32

/-- Where the user registers start; they follow in the order `x1`, `x2`, and so on. -/
def tfRegs : ℕ := 40

def setSie (b : Bool) : KernelM Unit := Prog.modify fun k => { k with cpu := { k.cpu with sie := b } }

def usertrapret : KernelM Unit := do
  let k ← Prog.get
  Prog.assert .usertrapret (k.cpu.noff == 0)
  let i ← myproc
  setSie false
  let p ← getProc i
  onRam (setReg p.trapframe tfKernelSatp X.satp)
  onRam (setReg p.trapframe tfKernelSp (p.kstack + pgSize))
  onRam (setReg p.trapframe tfKernelTrap X.trap)
  onRam (setReg p.trapframe tfKernelHartid X.hartid)

/-- The end of `syscall`, and back to user mode. -/
def finish (trapframe : ℕ) : Result → KernelM Unit
  | .blocked => pure ()
  | .done (.ret v) => do
    onRam (setReg trapframe tfA0 (v % 2 ^ 64).toNat)
    usertrapret X
  | .done .replaced => usertrapret X

/-- What makes a process in user mode enter the kernel. -/
inductive Cause
  | syscall
  | timer
  | external (bytes : List UInt8)
  | exception (scause sepc stval : ℕ)

/-- The user registers `x1` to `x31`. -/
abbrev Regs := Fin 31 → ℕ

def saveRegs (trapframe : ℕ) (regs : Regs) : RamM Unit :=
  Prog.forEach (List.finRange 31) fun r => setReg trapframe (tfRegs + 8 * r) (regs r)

/-- `timer::handle`; setting the next deadline has no effect on the model. -/
def timerHandle : KernelM Unit := do
  let k ← Prog.get
  match k.cpu.proc with
  | none => pure ()
  | some _ => yieldCpu

/-- A number in hexadecimal. -/
def hex (n : ℕ) : List UInt8 := text "0x" ++ (Nat.toDigits 16 n).map fun c => UInt8.ofNat c.toNat

def killMessage (pid scause sepc stval : ℕ) : List UInt8 :=
  text "usertrap: killing pid " ++ decimal pid ++ text " scause=" ++ hex scause ++ text " sepc=" ++
    hex sepc ++ text " stval=" ++ hex stval ++ [newline]

/-- `uservec` and `usertrap`: the hart has switched interrupts off, the
registers are saved and the cause is handled. -/
def usertrap (cause : Cause) (regs : Regs) (pc : ℕ) : KernelM Unit := do
  setSie false
  let i ← myproc
  let p ← getProc i
  onRam (saveRegs p.trapframe regs)
  onRam (setReg p.trapframe tfEpc pc)
  match cause with
  | .timer => timerHandle
  | .external bytes => do
    consoleIntr bytes
    usertrapret X
  | .syscall => do
    onRam (setReg p.trapframe tfEpc (pc + 4))
    let num ← onRam (getReg p.trapframe tfA7)
    dispatch L p.trapframe num >>= finish X p.trapframe
  | .exception scause sepc stval => do
    consoleWriteBytes (killMessage p.pid scause sepc stval)
    exit (-1)

/-- The rest of `sched` on the side of the process. -/
def restoreIntena (i : ProcRef) : KernelM Unit :=
  Prog.modify fun k => { k with cpu := { k.cpu with intena := (k.procs i).intena } }

/-- Where a process goes on after the switch to it. -/
def resume (i : ProcRef) (p : Process) : KernelM Unit :=
  match p.cont with
  | .forkret => do
    release (.proc i)
    usertrapret X
  | .yield => do
    restoreIntena i
    release (.proc i)
    usertrapret X
  | .wait statusVa => do
    restoreIntena i
    wake i .wait
    waitLoop L i statusVa >>= finishWait >>= finish X p.trapframe
  | .pipeRead pipe cap buf => do
    restoreIntena i
    wake i (.pipe pipe)
    let r ← pipeReadLoop pipe cap buf
    finishRead p.pagetable buf (r.map some) >>= finish X p.trapframe
  | .pipeWrite pipe src n => do
    restoreIntena i
    wake i (.pipe pipe)
    pipeWriteLoop pipe src (src.length - n) n >>= finishWrite >>= finish X p.trapframe
  | .consoleRead got cap buf => do
    restoreIntena i
    wake i .console
    let r ← consoleReadLoop cap buf (cap - got.length) got
    finishRead p.pagetable buf (r.map some) >>= finish X p.trapframe

/-- One slot of the loop of `scheduler`; `fresh` says that the loop has just
switched interrupts on. -/
def scheduleSlot (i : ProcRef) (fresh : Bool) : KernelM Unit := do
  if fresh then
    setSie true
  acquire (.proc i)
  let p ← getProc i
  if p.state = .runnable then
    modifyProc i fun p => { p with state := .running }
    Prog.modify fun k => { k with cpu := { k.cpu with proc := some i } }
    resume L X i p
  else
    release (.proc i)

end ToyOs
