import ToyOs.Lib.Prog
import ToyOs.Lib.Bytes
import Mathlib.Tactic.NormNum

/-!
The memory map of `memlayout.rs`, the panics of the kernel and the checked
arithmetic of its build. The kernel is built with the development profile,
so an addition that leaves the 64-bit range is a panic.
The addresses fixed by the linker script are a structure with the facts the
script establishes.
-/
namespace ToyOs

open Prog

/-- The places where the kernel stops. -/
inductive Panic
  | overflow
  | stackOverflow
  | newTableUnaligned
  | newLeafUnaligned
  | mappagesUnaligned
  | mappagesSize
  | kfreeUnaligned
  | kfreeBelowKernelEnd
  | kfreeBeyondPhystop
  | uvmunmapUnaligned
  | uvmunmapNpages
  | uvmunmapWalk
  | uvmunmapNotMapped
  | uvmunmapNotLeaf
  | freewalkLeaf
  | uvmcopyPte
  | acquireHolding
  | releaseNotHolding
  | deadlock
  | popOffEnabled
  | popOffNotPushed
  | bread
  | brelseNoRef
  | bfreeInvalid
  | freeingFree
  | readiHole
  | idupNoRef
  | iputNoRef
  | incNlinkOverflow
  | noRoot
  | populateRoot
  | dupInvalidRefcnt
  | closeInvalidRefcnt
  | freeprocLock
  | noProc
  | schedLock
  | schedRunning
  | schedInterrupts
  | schedNoff
  | userinit
  | usertrapret
  | kvmmake
  | unwrapNone
  deriving DecidableEq, Repr

/-- The panics that no code of the process layer and no lock is to blame for. The
assertions about locks, the hart, processes and files are not among them, nor is
the one about the references of a buffer. Those about the references of an inode
are: the process layer only passes such references on. -/
def Panic.Benign : Panic → Prop
  | .acquireHolding | .releaseNotHolding | .deadlock | .popOffEnabled | .popOffNotPushed
  | .brelseNoRef | .dupInvalidRefcnt | .closeInvalidRefcnt | .freeprocLock | .noProc
  | .schedLock | .schedRunning | .schedInterrupts | .schedNoff | .usertrapret => False
  | _ => True

theorem Panic.Benign.ne {e f : Panic} (he : e.Benign) (hf : ¬ f.Benign) : e ≠ f :=
  fun heq => hf (heq ▸ he)

def pgSize : ℕ := 4096

def kernBase : ℕ := 0x80200000

def physTop : ℕ := 0x88000000

def uart0 : ℕ := 0x10000000

def clint : ℕ := 0x2000000

def plic : ℕ := 0xc000000

def maxVa : ℕ := 2 ^ 38

def trampolineVa : ℕ := maxVa - pgSize

def trapframeVa : ℕ := maxVa - 2 * pgSize

def userStack : ℕ := maxVa - 3 * pgSize

/-- Number of values of a `usize`. -/
def usizeSize : ℕ := 2 ^ 64

/-- Symbols of the linker script. -/
structure Layout where
  kernelEnd : ℕ
  trampolineStart : ℕ
  kernelEnd_aligned : kernelEnd % pgSize = 0
  kernelEnd_above : kernBase < kernelEnd
  kernelEnd_below : kernelEnd ≤ physTop
  trampoline_aligned : trampolineStart % pgSize = 0
  trampoline_above : kernBase ≤ trampolineStart
  trampoline_below : trampolineStart < kernelEnd

/-- A page handed out by the physical allocator. -/
structure Managed (L : Layout) (p : ℕ) : Prop where
  aligned : p % pgSize = 0
  above : L.kernelEnd ≤ p
  below : p < physTop

section Arithmetic

variable {σ : Type} {Q : ℕ → σ → Prop}

/-- `a + b` with the overflow check. -/
@[irreducible] def addUsize (a b : ℕ) : Prog Panic σ ℕ :=
  if a + b < usizeSize then pure (a + b) else Prog.panic .overflow

/-- `a * b` with the overflow check. -/
@[irreducible] def mulUsize (a b : ℕ) : Prog Panic σ ℕ :=
  if a * b < usizeSize then pure (a * b) else Prog.panic .overflow

def checkedAdd (a b : ℕ) : Option ℕ :=
  if a + b < usizeSize then some (a + b) else none

def checkedMul (a b : ℕ) : Option ℕ :=
  if a * b < usizeSize then some (a * b) else none

def checkedSub (a b : ℕ) : Option ℕ :=
  if b ≤ a then some (a - b) else none

/-- `x & !(PGSIZE - 1)`. -/
def pageRoundDown (x : ℕ) : ℕ := x / pgSize * pgSize

/-- `(x + PGSIZE - 1) & !(PGSIZE - 1)`, evaluated from left to right. -/
def pageRoundUp (x : ℕ) : Prog Panic σ ℕ := do
  let y ← addUsize x pgSize
  pure (pageRoundDown (y - 1))

variable {E : Panic → Prop} {s : σ}

@[simp] theorem wp_addUsize {a b : ℕ} :
    (addUsize a b).wp E Q s ↔
      (a + b < usizeSize → Q (a + b) s) ∧ (usizeSize ≤ a + b → E .overflow) := by
  unfold addUsize
  rw [wp_ite]
  simp only [wp_pure, wp_panic, Nat.not_lt]

@[simp] theorem wp_mulUsize {a b : ℕ} :
    (mulUsize a b).wp E Q s ↔
      (a * b < usizeSize → Q (a * b) s) ∧ (usizeSize ≤ a * b → E .overflow) := by
  unfold mulUsize
  rw [wp_ite]
  simp only [wp_pure, wp_panic, Nat.not_lt]

/-- Number of pages that cover `x` bytes. -/
def pages (x : ℕ) : ℕ := (x + pgSize - 1) / pgSize

@[simp] theorem wp_pageRoundUp {x : ℕ} :
    (pageRoundUp x).wp E Q s ↔
      (x + pgSize < usizeSize → Q (pages x * pgSize) s) ∧
        (usizeSize ≤ x + pgSize → E .overflow) := by
  simp only [pageRoundUp, wp_bind, wp_addUsize, wp_pure, pageRoundDown, pages]

end Arithmetic

theorem pages_mul_le {x : ℕ} : x ≤ pages x * pgSize := by
  unfold pages pgSize
  omega

theorem lt_pages_iff {x k : ℕ} : k < pages x ↔ k * pgSize < x := by
  unfold pages pgSize
  omega

theorem checkedAdd_none {a b : ℕ} (h : checkedAdd a b = none) : usizeSize ≤ a + b := by
  unfold checkedAdd at h
  split_ifs at h
  omega

theorem checkedAdd_some {a b c : ℕ} (h : checkedAdd a b = some c) : a + b = c := by
  unfold checkedAdd at h
  split_ifs at h
  exact Option.some.inj h

end ToyOs
