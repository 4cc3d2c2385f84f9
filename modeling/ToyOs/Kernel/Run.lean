import ToyOs.Kernel.Resume
import ToyOs.Kernel.Start
import ToyOs.KernelMap

/-!
Runs of the kernel. A step is the kernel code between two points where the
hart is in user mode or in the scheduler, or a store of the running process.
Every kernel that a run reaches is sound, and each step is a `Change`.
-/
namespace ToyOs

open Bytes Prog

/-- What is fixed when the kernel is built. -/
structure Machine where
  layout : KernelLayout
  entry : KernelEntry
  embedded : Fs.Embedded
  initElf : List UInt8

variable {M : Machine} {k k' : Kernel} {i : ProcRef} {m : KernelM Unit}

/-- `kmain` up to the scheduler. -/
def Boots (M : Machine) (i : ProcRef) (k : Kernel) : Prop :=
  ∃ r₀ r pt fs₀ fs uart b, r₀.head = 0 ∧
    (kallocInit M.layout.toLayout >>= fun _ => kvmmake M.layout) r₀ = .ok (pt, r) ∧
    Fs.init M.embedded fs₀ = .ok ((), fs) ∧
    userinit M.layout.toLayout M.initElf (Kernel.initial r fs uart b) = .ok (i, k)

/-- The kernel code that a trap or the scheduler may run next. -/
inductive Code (M : Machine) (k : Kernel) : KernelM Unit → Prop
  | trap {i : ProcRef} (hcur : k.cpu.proc = some i) (cause : Cause) (regs : Regs) (pc : ℕ) :
      Code M k (usertrap M.layout.toLayout M.entry cause regs pc)
  | schedule (hcur : k.cpu.proc = none) (i : ProcRef) (fresh : Bool) :
      Code M k (scheduleSlot M.layout.toLayout M.entry i fresh)
  | interrupt (hcur : k.cpu.proc = none) (hsie : k.cpu.sie = true) (bytes : List UInt8) :
      Code M k (consoleIntr bytes)

inductive Step (M : Machine) (k : Kernel) : Kernel → Prop
  | code {m : KernelM Unit} {k' : Kernel} (hm : Code M k m) (h : m k = .ok ((), k')) : Step M k k'
  | store {i : ProcRef} {va : ℕ} {bytes : List UInt8} {r : Ram} (hcur : k.cpu.proc = some i)
      (h : copyout (k.procs i).pagetable va bytes k.ram = .ok (some (), r)) :
      Step M k { k with ram := r }

inductive Reachable (M : Machine) : Kernel → Prop
  | boot {i : ProcRef} {k : Kernel} (h : Boots M i k) : Reachable M k
  | step {k k' : Kernel} (h : Reachable M k) (hs : Step M k k') : Reachable M k'

/-- The code calls `wait` for a zombie whose status it cannot copy out, or goes
on in such a call. -/
inductive Code.Stuck (M : Machine) (k : Kernel) : KernelM Unit → Prop
  | call {i : ProcRef} {regs : Regs} {pc : ℕ} (hcur : k.cpu.proc = some i)
      (h : BadWait k i regs pc) :
      Code.Stuck M k (usertrap M.layout.toLayout M.entry .syscall regs pc)
  | rest {i z : ProcRef} {va : ℕ} {fresh : Bool} (hcur : k.cpu.proc = none)
      (hstate : (k.procs i).state = .runnable) (hcont : (k.procs i).cont = .wait va)
      (h : Unreapable i z va k) :
      Code.Stuck M k (scheduleSlot M.layout.toLayout M.entry i fresh)

/-- What the code between two points does to a sound kernel. -/
theorem Sound.wp_code (h : Sound k) (hm : Code M k m) {E : Panic → Prop}
    (hE : ∀ e, e.Benign → E e) (hstuck : Code.Stuck M k m → E .usertrapret) :
    m.wp E (fun _ k' => Sound k' ∧ ∃ e, Change k e k') k := by
  have hsteady := h.steady
  cases hm with
  | trap hcur cause regs pc =>
    rw [hcur] at hsteady
    refine wp_usertrap hE hsteady h.buffers ?_ fun k' hk' hc => ⟨hk', _, hc⟩
    rintro rfl hbad
    exact hstuck (.call hcur hbad)
  | schedule hcur i fresh =>
    rw [hcur] at hsteady
    refine wp_scheduleSlot hE hsteady h.buffers ?_ fun k' hk' hc => ⟨hk', _, hc⟩
    intro z va hstate hcont hun
    exact hstuck (.rest hcur hstate hcont hun)
  | interrupt hcur hsie bytes =>
    refine wp_receive hsteady h.buffers fun k' woke h' hb hr hw => ?_
    refine ⟨sound_of h' hb, _, .received hr ?_ h'.hart.proc⟩
    exact ⟨hw.procs, hw.lives, rfl, hw.fs, hw.ftable, hw.pipes, hw.input, hw.nextPid, hw.initproc⟩

theorem Sound.step (h : Sound k) (hs : Step M k k') : Sound k' ∧ ∃ e, Change k e k' := by
  cases hs with
  | code hm hrun =>
    have hwp := h.wp_code hm (E := fun _ => True) (fun _ _ => trivial) fun _ => trivial
    exact wp_ok (Q := fun _ k' => Sound k' ∧ ∃ e, Change k e k') hwp hrun
  | store hcur hcopy =>
    refine ⟨⟨h.steady.ram _, ⟨h.buffers.input, h.buffers.pipes⟩⟩, _, .idle ?_ rfl⟩
    exact ⟨rfl, rfl, rfl, rfl, rfl, rfl, rfl⟩

theorem Boots.started (h : Boots M i k) : Started [] i k := by
  obtain ⟨r₀, r, pt, fs₀, fs, uart, b, -, -, hfs, hrun⟩ := h
  have hlock : Fs.Resting fs := Fs.resting_init hfs
  exact wp_ok (wp_userinit (E := fun _ => True) (fun _ _ => trivial) hlock fun i k hk => hk) hrun

theorem Started.sound (h : Started [] i k) : Sound k := by
  refine sound_of h.steady ⟨?_, ?_⟩
  · rw [h.input]
    exact ⟨le_refl _, le_refl _, Nat.zero_le _⟩
  · intro p hp
    rw [h.pipes] at hp
    cases hp

/-- The kernel is sound at every point of every run. -/
theorem Reachable.sound (h : Reachable M k) : Sound k := by
  induction h with
  | boot h => exact h.started.sound
  | step _ hs ih => exact (ih.step hs).1

section Calls

variable {cont : Cont} {regs : Regs} {pc : ℕ}

/-- The step is a piece of the transfer of process `i` that has come to `cont`:
the call that starts it, or its rest after a sleep. -/
inductive TransferStep (M : Machine) (i : ProcRef) (cont : Cont) (k k' : Kernel) : Prop
  | call {regs : Regs} {pc : ℕ} (hcur : k.cpu.proc = some i)
      (hb : Begins i (k.calling i regs pc) cont)
      (h : usertrap M.layout.toLayout M.entry .syscall regs pc k = .ok ((), k'))
  | rest {fresh : Bool} (hcur : k.cpu.proc = none) (hstate : (k.procs i).state = .runnable)
      (hcont : (k.procs i).cont = cont)
      (h : scheduleSlot M.layout.toLayout M.entry i fresh k = .ok ((), k'))

/-- A call does what `Effect` says, or starts a transfer. -/
inductive CallStep (i : ProcRef) (regs : Regs) (pc : ℕ) (k k' : Kernel) : Prop
  | effect {r : Result} {e : Event} {k₂ : Kernel} (he : Effect i (k.calling i regs pc) r e k₂)
      (h : Ends i r k k₂ k')
  | transfer {cont : Cont} {e : Event} (hb : Begins i (k.calling i regs pc) cont)
      (h : Transferred i cont k e k')

theorem Sound.call (h : Sound k) (hcur : k.cpu.proc = some i)
    (hrun : usertrap M.layout.toLayout M.entry .syscall regs pc k = .ok ((), k')) :
    CallStep i regs pc k k' := by
  have hsteady := h.steady
  rw [hcur] at hsteady
  refine wp_ok (E := fun _ => True) (Q := fun _ k' => CallStep i regs pc k k') ?_ hrun
  exact wp_usertrap_call (fun _ _ => trivial) hsteady h.buffers (fun _ => trivial)
    (fun k₂ k' _ he hend => .effect he hend) fun k' _ hb ht => .transfer hb ht

/-- A piece of a transfer does what `Resumed` says. -/
theorem TransferStep.transferred (hs : TransferStep M i cont k k') (h : Sound k) (ht : cont.Transfer) :
    ∃ e, Transferred i cont k e k' := by
  cases hs with
  | call hcur hb hrun =>
    cases h.call hcur hrun with
    | effect he => exact absurd he hb.not_effect
    | transfer hb' htr => exact ⟨_, hb.unique hb' ▸ htr⟩
  | rest hcur hstate hcont hrun =>
    subst hcont
    have hsteady := h.steady
    rw [hcur] at hsteady
    refine wp_ok (E := fun _ => True) (Q := fun _ k' => ∃ e, Transferred i (k.procs i).cont k e k') ?_ hrun
    exact wp_scheduleSlot_transfer (fun _ _ => trivial) hsteady h.buffers hstate ht trivial
      fun k' _ htr => ⟨_, htr⟩

end Calls

end ToyOs
