import ToyOs.Kernel.Effects

/-!
What a step of the kernel can do. Between two steps the hart is in user mode
or in the scheduler; `Change` says once what lies between two such points, and
`Sound` what holds at each of them. A trap of the running process takes a
sound kernel to a sound kernel, unless it is a `wait` whose status cannot be
copied out.
-/
namespace ToyOs

open Bytes Prog Function

variable {L : Layout} {X : KernelEntry} {k k' : Kernel} {E : Panic → Prop} {i : ProcRef}

/-- The kernel between two steps. -/
structure Sound (k : Kernel) : Prop where
  steady : Steady [] [] none k.cpu.proc k
  buffers : k.Buffers

/-- The tables are the same. Memory, the hart and the UART may differ. -/
structure SameTables (k k' : Kernel) : Prop where
  procs : k'.procs = k.procs
  ftable : k'.ftable = k.ftable
  pipes : k'.pipes = k.pipes
  input : k'.input = k.input
  fs : k'.fs = k.fs
  nextPid : k'.nextPid = k.nextPid
  initproc : k'.initproc = k.initproc

/-- The result of a call of the process is in the register that holds it. -/
def Returned (i : ProcRef) (tf : ℕ) (r : Result) (k' : Kernel) : Prop :=
  ∀ v, r = .done (.ret v) → (k'.procs i).trapframe = tf →
    load 8 k'.ram.mem (tf + tfA0) = (v % 2 ^ 64).toNat

/-- Memory with the user registers in the trap frame. -/
def savedRegs (tf : ℕ) (regs : Regs) (s : Ram) : Ram :=
  (List.finRange 31).foldl (fun s (r : Fin 31) => s.setWord (tf + (tfRegs + 8 * r)) (regs r)) s

/-- The kernel when the cause of a trap is handled. -/
def Kernel.trapped (k : Kernel) (i : ProcRef) (regs : Regs) (pc : ℕ) : Kernel :=
  { k with
    ram := (savedRegs (k.procs i).trapframe regs k.ram).setWord ((k.procs i).trapframe + tfEpc) pc
    cpu := { k.cpu with sie := false } }

/-- The kernel when a system call is dispatched. -/
def Kernel.calling (k : Kernel) (i : ProcRef) (regs : Regs) (pc : ℕ) : Kernel :=
  { k.trapped i regs pc with
    ram := (k.trapped i regs pc).ram.setWord ((k.procs i).trapframe + tfEpc) (pc + 4) }

/-- The kernel when a process goes on that was switched out in the middle of a call. -/
def Kernel.goesOn (k : Kernel) (i : ProcRef) : Kernel :=
  { k with procs := Function.update k.procs i { k.procs i with state := .running, chan := none } }

/-- Process `i` runs the transfer that has come to `cont`: it makes the call that
starts it, or the scheduler lets it go on. -/
inductive Proceeds (i : ProcRef) (cont : Cont) (k : Kernel) : Kernel → Prop
  | begun {regs : Regs} {pc : ℕ} (hcur : k.cpu.proc = some i)
      (hb : Begins i (k.calling i regs pc) cont) : Proceeds i cont k (k.calling i regs pc)
  | goesOn {k₁ : Kernel} (hcur : k.cpu.proc = none) (hstate : (k.procs i).state = .runnable)
      (hcont : (k.procs i).cont = cont) (h : SameTables (k.goesOn i) k₁) (hram : k₁.ram = k.ram) :
      Proceeds i cont k k₁

/-- The call of process `i` ends with the result `r`. -/
structure Ends (i : ProcRef) (r : Result) (k k₂ k' : Kernel) : Prop where
  same : SameTables k₂ k'
  returned : Returned i (k.procs i).trapframe r k'
  memory : (k₂.procs i).trapframe = (k.procs i).trapframe →
    AgreeOff {(k.procs i).trapframe} k₂.ram.mem k'.ram.mem
  cur : k'.cpu.proc = r.cur i

/-- A piece of a transfer. -/
inductive Transferred (i : ProcRef) (cont : Cont) (k : Kernel) (e : Event) (k' : Kernel) : Prop
  | intro {r : Result} {k₁ k₂ : Kernel} (hp : Proceeds i cont k k₁) (hr : Resumed i k₁ cont r e k₂)
      (h : Ends i r k k₂ k')

/-- What a step of the kernel does, and which process runs afterwards. -/
inductive Change (k : Kernel) : Event → Kernel → Prop
  | idle {k' : Kernel} (h : SameTables k k') (hcur' : k'.cpu.proc = k.cpu.proc) : Change k .silent k'
  | received {bytes : List UInt8} {woke : Bool} {k' : Kernel}
      (hr : ReceivedAll k.input bytes k'.input woke)
      (h : Woken { k with ram := k'.ram, input := k'.input } k') (hcur' : k'.cpu.proc = k.cpu.proc) :
      Change k (.received bytes) k'
  | yielded {i : ProcRef} {b : Bool} {k' : Kernel} (hcur : k.cpu.proc = some i)
      (h : SameTables { k with
        procs := Function.update k.procs i { k.procs i with
          state := .runnable, cont := .yield, intena := b } } k') (hcur' : k'.cpu.proc = none) :
      Change k .silent k'
  | called {i : ProcRef} {regs : Regs} {pc : ℕ} {r : Result} {e : Event} {k₂ k' : Kernel}
      (hcur : k.cpu.proc = some i) (he : Effect i (k.calling i regs pc) r e k₂)
      (h : Ends i r k k₂ k') : Change k e k'
  | killed {i : ProcRef} {k₁ k' : Kernel} (hcur : k.cpu.proc = some i) (h₁ : SameTables k k₁)
      (h : Exited i (-1) k₁ k') (hcur' : k'.cpu.proc = none) : Change k (.exited i (-1)) k'
  | entered {i : ProcRef} {k' : Kernel} (hcur : k.cpu.proc = none)
      (hstate : (k.procs i).state = .runnable)
      (hcont : (k.procs i).cont = .forkret ∨ (k.procs i).cont = .yield)
      (h : SameTables { k with
        procs := Function.update k.procs i { k.procs i with state := .running } } k')
      (hcur' : k'.cpu.proc = some i) : Change k .silent k'
  | moved {i : ProcRef} {cont : Cont} {e : Event} {k' : Kernel} (h : Transferred i cont k e k') : Change k e k'

/-- At the start of a piece of a transfer the tables are those of before, but for
the state of the process. -/
theorem Proceeds.same {cont : Cont} {k₁ : Kernel} (h : Proceeds i cont k k₁) : ∃ st ch, SameTables { k with
    procs := update k.procs i { k.procs i with state := st, chan := ch } } k₁ := by
  cases h with
  | begun hcur hb =>
    refine ⟨(k.procs i).state, (k.procs i).chan, ?_, rfl, rfl, rfl, rfl, rfl, rfl⟩
    exact (update_eq_self ..).symm
  | goesOn hcur hstate hcont hs hram => exact ⟨.running, none, hs⟩

theorem SameTables.steady {ls ls' : List Lock} {x : List FileRef} {y : Option PipeRef}
    {cur : Option ProcRef} (hs : SameTables k k') (h : Steady ls x y cur k)
    (hh : Hart ls' cur k'.cpu k'.held) : Steady ls' x y cur k' := by
  refine ⟨hh, ?_, ?_⟩
  · rw [hs.procs, hs.ftable, hs.pipes, hs.input]
    exact h.tables
  · rw [hs.fs]
    exact h.fs

theorem SameTables.buffers (hs : SameTables k k') (hb : k.Buffers) : k'.Buffers where
  input := by
    rw [hs.input]
    exact hb.input
  pipes q hq := by
    rw [hs.pipes] at hq ⊢
    exact hb.pipes q hq

theorem SameTables.refl (k : Kernel) : SameTables k k := ⟨rfl, rfl, rfl, rfl, rfl, rfl, rfl⟩

theorem SameTables.eq (h : SameTables k k') :
    ∃ r u c held, k' = { k with ram := r, uart := u, cpu := c, held := held } := by
  obtain ⟨hprocs, hftable, hpipes, hinput, hfs, hnext, hinit⟩ := h
  refine ⟨k'.ram, k'.uart, k'.cpu, k'.held, ?_⟩
  rw [← hprocs, ← hftable, ← hpipes, ← hinput, ← hfs, ← hnext, ← hinit]

theorem sound_of {cur : Option ProcRef} (h : Steady [] [] none cur k) (hb : k.Buffers) : Sound k := by
  refine ⟨?_, hb⟩
  rw [h.hart.proc]
  exact h

/-- Without a lock the state of the interrupts does not matter. -/
theorem Hart.sie {cur : Option ProcRef} {c : Cpu} {held : Lock → Bool} (h : Hart [] cur c held)
    (b : Bool) : Hart [] cur { c with sie := b } held :=
  ⟨h.held, h.nodup, h.noff, fun hne => absurd rfl hne, h.proc⟩

theorem Hart.intena {ls : List Lock} {cur : Option ProcRef} {c : Cpu} {held : Lock → Bool}
    (h : Hart ls cur c held) (b : Bool) : Hart ls cur { c with intena := b } held :=
  ⟨h.held, h.nodup, h.noff, h.quiet, h.proc⟩

theorem wp_usertrapret (hh : Hart [] (some i) k.cpu k.held) {Q : Unit → Kernel → Prop}
    (hQ : ∀ k', SameTables k k' → Hart [] (some i) k'.cpu k'.held →
      load 8 k'.ram.mem ((k.procs i).trapframe + tfA0) =
        load 8 k.ram.mem ((k.procs i).trapframe + tfA0) →
      AgreeOff {(k.procs i).trapframe} k.ram.mem k'.ram.mem → Q () k') :
    (usertrapret X).wp E Q k := by
  have hnoff : k.cpu.noff = 0 := hh.noff
  simp only [usertrapret, wp_bind, wp_get, wp_assert, hnoff, beq_self_eq_true, true_implies,
    Bool.true_eq_false, false_implies, and_true]
  refine wp_myproc hh ?_
  refine hQ _ ⟨rfl, rfl, rfl, rfl, rfl, rfl, rfl⟩ (hh.sie false) ?_ ?_
  · simp only [Ram.setWord, tfKernelSatp, tfKernelSp, tfKernelTrap, tfKernelHartid, tfA0]
    rw [load_store_of_disjoint _ _ _ _ _ _ (by omega), load_store_of_disjoint _ _ _ _ _ _ (by omega),
      load_store_of_disjoint _ _ _ _ _ _ (by omega), load_store_of_disjoint _ _ _ _ _ _ (by omega)]
  · exact (agreeOff_setWord (i := 0) _ _ (by decide)).trans
      ((agreeOff_setWord (i := 1) _ _ (by decide)).trans
        ((agreeOff_setWord (i := 2) _ _ (by decide)).trans (agreeOff_setWord (i := 4) _ _ (by decide))))

theorem wp_usertrapret_stuck {l : Lock} (hh : Hart [l] (some i) k.cpu k.held)
    {Q : Unit → Kernel → Prop} (hE : E .usertrapret) : (usertrapret X).wp E Q k := by
  have hnoff : k.cpu.noff = 1 := hh.noff
  simp only [usertrapret, wp_bind, wp_get, wp_assert, hnoff]
  exact ⟨fun h => absurd h (by decide), fun _ => hE⟩

theorem wp_finish {tf : ℕ} {r : Result} (h : Settled i r k) {Q : Unit → Kernel → Prop}
    (hQ : ∀ k', SameTables k k' → Hart [] (r.cur i) k'.cpu k'.held → Returned i tf r k' →
      ((k.procs i).trapframe = tf → AgreeOff {tf} k.ram.mem k'.ram.mem) → Q () k') :
    (finish X tf r).wp E Q k := by
  cases r with
  | blocked =>
    refine hQ k (.refl k) h.steady.hart ?_ fun _ => AgreeOff.refl
    rintro v ⟨⟩
  | done v =>
    cases v with
    | ret v =>
      simp only [finish, wp_bind, wp_setReg]
      refine wp_usertrapret (by exact h.steady.hart) fun k' hs hh hword hmem => hQ k' ?_ hh ?_ ?_
      · exact ⟨hs.procs, hs.ftable, hs.pipes, hs.input, hs.fs, hs.nextPid, hs.initproc⟩
      · rintro _ ⟨⟩ htf
        rw [hs.procs] at htf
        have hmod : (v % 2 ^ 64).toNat % 256 ^ 8 = (v % 2 ^ 64).toNat := by
          rw [Nat.mod_eq_of_lt]
          omega
        rw [← htf, hword, htf]
        exact (load_store_same _ _ _ _).trans hmod
      · rintro rfl
        exact (agreeOff_setWord (i := 14) _ _ (by decide)).trans hmem
    | replaced =>
      refine wp_usertrapret h.steady.hart fun k' hs hh _ hmem => hQ k' hs hh ?_ fun htf => htf ▸ hmem
      rintro v ⟨⟩

theorem wp_finish_stuck {tf : ℕ} {l : Lock} (hh : Hart [l] (some i) k.cpu k.held)
    {Q : Unit → Kernel → Prop} (hE : E .usertrapret) : (finish X tf Result.err).wp E Q k := by
  simp only [Result.err, Result.ret, finish, wp_bind, wp_setReg]
  exact wp_usertrapret_stuck (by exact hh) hE

section Steps

variable {Q : Unit → Kernel → Prop} {regs : Regs} {pc : ℕ} {cause : Cause}

theorem wp_saveRegs {tf : ℕ} (hQ : Q () { k with ram := savedRegs tf regs k.ram }) :
    (onRam (saveRegs tf regs)).wp E Q k := by
  have hloop : ∀ (l : List (Fin 31)) (s : Ram),
      Prog.forEach (ε := Panic) l (fun (r : Fin 31) => setReg tf (tfRegs + 8 * r) (regs r)) s =
        .ok ((), l.foldl (fun s (r : Fin 31) => s.setWord (tf + (tfRegs + 8 * r)) (regs r)) s) := by
    intro l
    induction l with
    | nil => exact fun s => rfl
    | cons r rest ih => exact fun s => ih _
  rw [onRam, wp_zoom]
  exact wp_of_ok (hloop _ _) hQ

/-- The trap is a call of `wait` whose status cannot be copied out. -/
def BadWait (k : Kernel) (i : ProcRef) (regs : Regs) (pc : ℕ) : Prop :=
  (k.calling i regs pc).sysno i = some .wait ∧
    ∃ c, Unreapable i c ((k.calling i regs pc).arg i tfA0) (k.calling i regs pc)

theorem wp_timerHandle (hh : Hart [] (some i) k.cpu k.held)
    (hQ : ∀ c h b, Hart [] none c h →
      Q () { k with
        procs := update k.procs i
          { k.procs i with state := .runnable, cont := .yield, intena := b }
        cpu := c, held := h }) :
    timerHandle.wp E Q k := by
  simp only [timerHandle, wp_bind, wp_get]
  rw [hh.proc]
  exact wp_yieldCpu hh hQ

theorem wp_receive {cur : Option ProcRef} {bytes : List UInt8} (h : Steady [] [] none cur k)
    (hb : k.Buffers)
    (hQ : ∀ k' woke, Steady [] [] none cur k' → k'.Buffers →
      ReceivedAll k.input bytes k'.input woke → Woken { k with input := k'.input } k' → Q () k') :
    (consoleIntr bytes).wp E Q k := by
  refine wp_consoleIntr h.hart hb.input (fun x u c held hh hx => ?_) fun x u c held hh hx => ?_
  · refine hQ _ false ⟨hh, ?_, h.fs⟩ ⟨hx.ok, hb.pipes⟩ hx ?_
    · apply h.tables.setInput
      intro hr
      rw [hx.r, hx.quiet rfl]
      exact hr
    · exact ⟨fun j => ⟨_, rfl⟩, rfl, rfl, rfl, rfl, rfl, rfl, rfl, rfl⟩
  · refine hQ _ true ⟨hh, h.tables.wakeInput, h.fs⟩ ⟨hx.ok, hb.pipes⟩ hx ?_
    exact ⟨fun j => wakeProc_state _, woken_lives, rfl, rfl, rfl, rfl, rfl, rfl, rfl⟩

theorem life_runnable {q : Process} {b : Bool} (h : q.state = .running) :
    Process.life { q with state := .runnable, cont := .yield, intena := b } = q.life := by
  simp only [Process.life, h, ProcState.status]

theorem same_trapped : SameTables k (k.trapped i regs pc) :=
  ⟨rfl, rfl, rfl, rfl, rfl, rfl, rfl⟩

theorem same_calling : SameTables k (k.calling i regs pc) :=
  ⟨rfl, rfl, rfl, rfl, rfl, rfl, rfl⟩

theorem wp_usertrap_timer {k₁ : Kernel} (h : Steady [] [] none (some i) k) (hb : k.Buffers)
    (hs : SameTables k k₁) (hh : Hart [] (some i) k₁.cpu k₁.held)
    (hQ : ∀ {e} k', Sound k' → Change k e k' → Q () k') : timerHandle.wp E Q k₁ := by
  have h₁ := hs.steady h hh
  refine wp_timerHandle hh fun c held b hh' => ?_
  apply hQ (e := .silent)
  · have hb₁ := hs.buffers hb
    refine @sound_of _ none ?_ ⟨hb₁.input, hb₁.pipes⟩
    exact ⟨hh', h₁.tables.leave rfl (life_runnable h₁.running) trivial (.inl rfl), h₁.fs⟩
  · refine .yielded (b := b) h.hart.proc ⟨?_, hs.ftable, hs.pipes, hs.input, hs.fs, hs.nextPid,
      hs.initproc⟩ hh'.proc
    rw [hs.procs]

theorem wp_usertrap_external {k₁ : Kernel} {bytes : List UInt8} (h : Steady [] [] none (some i) k)
    (hb : k.Buffers) (hs : SameTables k k₁) (hh : Hart [] (some i) k₁.cpu k₁.held)
    (hQ : ∀ {e} k', Sound k' → Change k e k' → Q () k') :
    (consoleIntr bytes >>= fun _ => usertrapret X).wp E Q k₁ := by
  rw [wp_bind]
  refine wp_receive (hs.steady h hh) (hs.buffers hb) fun k₂ woke h₂ hb₂ hr hw => ?_
  refine wp_usertrapret h₂.hart fun k₃ hs₃ hh₃ _ _ => hQ (e := .received bytes) k₃ ?_ ?_
  · exact sound_of (hs₃.steady h₂ hh₃) (hs₃.buffers hb₂)
  · have hr' : ReceivedAll k.input bytes k₃.input woke := by
      rw [hs₃.input, ← hs.input]
      exact hr
    obtain ⟨r, u, c, held, rfl⟩ := hs.eq
    obtain ⟨r', u', c', held', rfl⟩ := hs₃.eq
    refine .received hr' ⟨hw.procs, hw.lives, rfl, hw.fs, hw.ftable, hw.pipes, rfl, hw.nextPid,
      hw.initproc⟩ (hh₃.proc.trans h.hart.proc.symm)

theorem wp_usertrap_syscall {k₁ : Kernel} (hE : ∀ e, e.Benign → E e)
    (h : Steady [] [] none (some i) k) (hb : k.Buffers) (hs : SameTables k k₁)
    (hh : Hart [] (some i) k₁.cpu k₁.held)
    (hstuck : ∀ c, k₁.sysno i = some .wait → Unreapable i c (k₁.arg i tfA0) k₁ → E .usertrapret)
    (hcall : ∀ {r e} k₂ k', Sound k' → Effect i k₁ r e k₂ → Ends i r k k₂ k' → Q () k')
    (hmove : ∀ {r e cont} k₂ k', Sound k' → Begins i k₁ cont → Resumed i k₁ cont r e k₂ →
      Ends i r k k₂ k' → Q () k') :
    (dispatch L (k.procs i).trapframe (k₁.arg i tfA7) >>= finish X (k.procs i).trapframe).wp E Q k₁ := by
  have hend : ∀ {r} k₂, Settled i r k₂ → (∀ k', Sound k' → Ends i r k k₂ k' → Q () k') →
      (finish X (k.procs i).trapframe r).wp E Q k₂ := fun k₂ hset hQ =>
    wp_finish hset fun k' hs' hh' hret hmem =>
      hQ k' (sound_of (hs'.steady hset.steady hh') (hs'.buffers hset.buffers)) ⟨hs', hret, hmem, hh'.proc⟩
  have htf : (k.procs i).trapframe = (k₁.procs i).trapframe := by rw [hs.procs]
  rw [htf] at hend ⊢
  rw [wp_bind]
  exact wp_dispatch hE (hs.steady h hh) (hs.buffers hb)
    (fun c r cpu held hnum hun hh' => wp_finish_stuck hh' (hstuck c hnum hun))
    (fun r k₂ hset he => hend k₂ hset fun k' hk' => hcall k₂ k' hk' he)
    fun r k₂ hset hbeg hr => hend k₂ hset fun k' hk' => hmove k₂ k' hk' hbeg hr

theorem wp_usertrap_exception {k₁ : Kernel} {bytes : List UInt8}
    (hE : ∀ e, e.Benign → E e) (h : Steady [] [] none (some i) k) (hb : k.Buffers)
    (hs : SameTables k k₁) (hh : Hart [] (some i) k₁.cpu k₁.held)
    (hQ : ∀ {e} k', Sound k' → Change k e k' → Q () k') :
    (consoleWriteBytes bytes >>= fun _ => exit (-1)).wp E Q k₁ := by
  rw [wp_bind]
  refine wp_consoleWriteBytes hh fun u c held hh' => ?_
  have hs' : SameTables k { k₁ with uart := u, cpu := c, held := held } :=
    ⟨hs.procs, hs.ftable, hs.pipes, hs.input, hs.fs, hs.nextPid, hs.initproc⟩
  have h' := hs'.steady h hh'
  refine wp_exit (fun _ => hE) h' fun k₂ h₂ he => hQ (e := .exited i (-1)) k₂ ?_ ?_
  · apply sound_of h₂
    exact (hs'.buffers hb).of_contents he.input he.contents fun q => used_of_lost h'.tables h₂.tables he.files
  · exact .killed h.hart.proc hs' he h₂.hart.proc

/-- The kernel code for a trap once the registers are saved. -/
def handle (L : Layout) (X : KernelEntry) (p : Process) (pc : ℕ) : Cause → KernelM Unit
  | .timer => timerHandle
  | .external bytes => consoleIntr bytes >>= fun _ => usertrapret X
  | .syscall => onRam (setReg p.trapframe tfEpc (pc + 4)) >>= fun _ =>
    onRam (getReg p.trapframe tfA7) >>= fun num =>
      dispatch L p.trapframe num >>= finish X p.trapframe
  | .exception scause sepc stval =>
    consoleWriteBytes (killMessage p.pid scause sepc stval) >>= fun _ => exit (-1)

theorem usertrap_eq :
    usertrap L X cause regs pc = setSie false >>= fun _ => myproc >>= fun i => getProc i >>= fun p =>
      onRam (saveRegs p.trapframe regs) >>= fun _ => onRam (setReg p.trapframe tfEpc pc) >>= fun _ =>
        handle L X p pc cause := by
  cases cause <;> simp only [usertrap, handle]

theorem wp_usertrap_handle (hh : Hart [] (some i) k.cpu k.held)
    (hQ : (handle L X (k.procs i) pc cause).wp E Q (k.trapped i regs pc)) :
    (usertrap L X cause regs pc).wp E Q k := by
  rw [usertrap_eq, wp_bind]
  generalize handle L X = m at hQ ⊢
  simp only [wp_bind, setSie, wp_modify]
  refine wp_myproc (hh.sie false) ?_
  simp only [wp_getProc]
  refine wp_saveRegs ?_
  exact hQ

theorem wp_handle_syscall :
    (handle L X (k.procs i) pc .syscall).wp E Q (k.trapped i regs pc) ↔
      (dispatch L (k.procs i).trapframe ((k.calling i regs pc).arg i tfA7) >>=
        finish X (k.procs i).trapframe).wp E Q (k.calling i regs pc) := by
  have hc : { k.trapped i regs pc with
    ram := (k.trapped i regs pc).ram.setWord ((k.procs i).trapframe + tfEpc) (pc + 4) } =
      k.calling i regs pc := rfl
  have harg : load 8 (k.calling i regs pc).ram.mem ((k.procs i).trapframe + tfA7) =
      (k.calling i regs pc).arg i tfA7 := by
    rw [Kernel.arg]
    rfl
  rw [handle, wp_bind, wp_setReg, hc, wp_bind, wp_getReg, harg]

theorem wp_usertrap_call (hE : ∀ e, e.Benign → E e) (h : Steady [] [] none (some i) k)
    (hb : k.Buffers) (hstuck : BadWait k i regs pc → E .usertrapret)
    (hcall : ∀ {r e} k₂ k', Sound k' → Effect i (k.calling i regs pc) r e k₂ → Ends i r k k₂ k' → Q () k')
    (hmove : ∀ {e cont} k', Sound k' → Begins i (k.calling i regs pc) cont → Transferred i cont k e k' →
      Q () k') : (usertrap L X .syscall regs pc).wp E Q k := by
  refine wp_usertrap_handle h.hart ?_
  rw [wp_handle_syscall]
  have hh : Hart [] (some i) (k.calling i regs pc).cpu (k.calling i regs pc).held := h.hart.sie false
  refine wp_usertrap_syscall hE h hb same_calling hh (fun c hnum hun => hstuck ⟨hnum, c, hun⟩) hcall ?_
  exact fun k₂ k' hk' hbeg hr hend => hmove k' hk' hbeg ⟨.begun h.hart.proc hbeg, hr, hend⟩

theorem wp_usertrap (hE : ∀ e, e.Benign → E e) (h : Steady [] [] none (some i) k) (hb : k.Buffers)
    (hstuck : cause = .syscall → BadWait k i regs pc → E .usertrapret)
    (hQ : ∀ {e} k', Sound k' → Change k e k' → Q () k') :
    (usertrap L X cause regs pc).wp E Q k := by
  have hs : SameTables k (k.trapped i regs pc) := same_trapped
  have hh : Hart [] (some i) (k.trapped i regs pc).cpu (k.trapped i regs pc).held := h.hart.sie false
  cases cause with
  | timer => exact wp_usertrap_handle h.hart (wp_usertrap_timer h hb hs hh hQ)
  | external bytes => exact wp_usertrap_handle h.hart (wp_usertrap_external h hb hs hh hQ)
  | syscall =>
    exact wp_usertrap_call hE h hb (hstuck rfl)
      (fun k₂ k' hk' he hend => hQ k' hk' (.called h.hart.proc he hend))
      fun k' hk' _ hm => hQ k' hk' (.moved hm)
  | exception scause sepc stval => exact wp_usertrap_handle h.hart (wp_usertrap_exception hE h hb hs hh hQ)

end Steps

end ToyOs
