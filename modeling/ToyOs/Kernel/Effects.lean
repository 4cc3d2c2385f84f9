import ToyOs.Kernel.FileIo
import ToyOs.UserCopy

/-!
The effects of system calls. Each call of a running process has one of the
effects below or starts a transfer, and the kernel it leaves is steady again.
The one exception is a call of `wait` whose status cannot be copied out.
-/
namespace ToyOs

open Bytes Prog Function List

variable {L : Layout} {k k' : Kernel} {E : Panic → Prop} {i : ProcRef} {tf : ℕ}

/-- A register of the call that process `i` makes. -/
def Kernel.arg (k : Kernel) (i : ProcRef) (reg : ℕ) : ℕ :=
  load 8 k.ram.mem ((k.procs i).trapframe + reg)

/-- The call that process `i` makes. -/
@[irreducible] def Kernel.sysno (k : Kernel) (i : ProcRef) : Option Sysno := Sysno.ofNum (k.arg i tfA7)

/-- The open file whose descriptor the call names. -/
def Kernel.argFile (k : Kernel) (i : ProcRef) : Option FileRef :=
  (k.procs i).fdFile (k.arg i tfA0)

/-- How much the call wants to read or write, or what it returns at once. -/
def Kernel.argLength (k : Kernel) (i : ProcRef) : ℤ ⊕ ℕ := ioLength (k.arg i tfA1) (k.arg i tfA2)

/-- A descriptor for something new that is no pipe. -/
structure Opened (i : ProcRef) (f : FileRef) (fd : Fin nofile) (k k' : Kernel) : Prop where
  free : (k.ftable f).refcnt = 0
  lowest : Lowest (k.procs i).ofile fd
  procs : k'.procs = (k.setFd i fd (some f)).procs
  file : (k'.ftable f).refcnt = 1 ∧ ∀ p, (k'.ftable f).kind ≠ .pipe p
  files : ∀ g, g ≠ f → k'.ftable g = k.ftable g
  pipes : k'.pipes = k.pipes
  input : k'.input = k.input
  nextPid : k'.nextPid = k.nextPid
  initproc : k'.initproc = k.initproc

/-- One more descriptor for an open file. -/
structure Dupped (i : ProcRef) (f : FileRef) (fd : Fin nofile) (k k' : Kernel) : Prop where
  lowest : Lowest (k.procs i).ofile fd
  eq : ∃ c held, k' = { k.setFd i fd (some f) with
    ftable := Function.update k.ftable f { k.ftable f with refcnt := (k.ftable f).refcnt + 1 }
    cpu := c, held := held }

/-- What a read returns once its bytes were copied out or not. -/
def readResult : Option Unit → List UInt8 → SyscallResult
  | some _, bytes => .ret bytes.length
  | none, _ => .ret syserr

/-- What a write returns. -/
def writeResult : Option ℕ → SyscallResult
  | none => .ret syserr
  | some n => if n = 0 then .ret syserr else .ret n

/-- What a step does with the pipes, the console and the processes. -/
inductive Event
  | silent
  /-- Bytes arrive at the console. -/
  | received (bytes : List UInt8)
  | piped (i : ProcRef) (p : PipeRef)
  /-- A write of `src` has stored the bytes from `n` to `m`. -/
  | put (i : ProcRef) (p : PipeRef) (src : List UInt8) (n m : ℕ)
  /-- A write has found the read end closed. -/
  | refused (i : ProcRef) (p : PipeRef)
  /-- A read has taken bytes, and they were copied out or not. -/
  | got (i : ProcRef) (p : PipeRef) (cap : ℕ) (bytes : List UInt8) (copied : Bool)
  /-- A read of the console that had some bytes already is done. -/
  | lineGot (i : ProcRef) (cap : ℕ) (had bytes : List UInt8) (copied : Bool)
  /-- A read of the console has taken all there was and waits. -/
  | lineDry (i : ProcRef) (cap : ℕ) (had more : List UInt8)
  | forked (i c : ProcRef) (pid : ℕ)
  | exited (i : ProcRef) (code : ℤ)
  | reaped (i c : ProcRef) (pid : ℕ) (code : ℤ)
  deriving DecidableEq

/-- Why a read or write reaches neither a pipe nor the input of the console, and
what it returns then. -/
inductive Barred (i : ProcRef) (k : Kernel) : Sysno → SyscallResult → Prop
  | noFile {n : Sysno} (h : k.argFile i = none) : Barred i k n (.ret syserr)
  | unreadable {f : FileRef} (hf : k.argFile i = some f) (h : (k.ftable f).readable = false) :
      Barred i k .read (.ret syserr)
  | unwritable {f : FileRef} (hf : k.argFile i = some f) (h : (k.ftable f).writable = false) :
      Barred i k .write (.ret syserr)
  | length {n : Sysno} {v : ℤ} (h : k.argLength i = .inl v) : Barred i k n (.ret v)
  | buffer {n : ℕ} (hlen : k.argLength i = .inr n)
      (h : ¬ Granted k.ram.mem (k.procs i).pagetable pteR (k.arg i tfA1) n) :
      Barred i k .write (.ret syserr)
  /-- The file is none, a device or an inode; only the console has input. -/
  | other {n : Sysno} {f : FileRef} {v : SyscallResult} (hf : k.argFile i = some f)
      (hp : ∀ p, (k.ftable f).kind ≠ .pipe p)
      (hc : n = .read → (k.ftable f).kind ≠ .device consoleMajor) : Barred i k n v

/-- The call may return `v` without an effect on the tables. -/
inductive Inert (i : ProcRef) (k : Kernel) (v : SyscallResult) : Prop
  | barred {n : Sysno} (hnum : k.sysno i = some n) (hn : n = .read ∨ n = .write) (h : Barred i k n v)
  | failed (hnum : k.sysno i = some .open ∨ k.sysno i = some .dup ∨ k.sysno i = some .close)
      (h : v = .ret syserr)
  | getpid (hnum : k.sysno i = some .getpid) (h : v = .ret (k.procs i).pid)
  | other (h : k.sysno i ∈ [none, some .exec, some .fstat, some .chdir, some .sbrk, some .mkdir])

/-- What a system call of process `i` does that is no transfer. -/
inductive Effect (i : ProcRef) (k : Kernel) : Result → Event → Kernel → Prop
  | quiet {v : SyscallResult} {k' : Kernel} (hv : Inert i k v) (h : Local i k k') :
      Effect i k (.done v) .silent k'
  | undone {k' : Kernel} (hnum : k.sysno i = some .open ∨ k.sysno i = some .pipe)
      (h : Undone { k with fs := k'.fs } k') : Effect i k Result.err .silent k'
  | opened {f : FileRef} {fd : Fin nofile} {k' : Kernel} (hnum : k.sysno i = some .open)
      (h : Opened i f fd k k') : Effect i k (Result.ret fd) .silent k'
  | dupped {f : FileRef} {fd : Fin nofile} {k' : Kernel} (hnum : k.sysno i = some .dup)
      (hf : k.argFile i = some f) (h : Dupped i f fd k k') : Effect i k (Result.ret fd) .silent k'
  | closed {f : FileRef} {fd : Fin nofile} {k' : Kernel} (hnum : k.sysno i = some .close)
      (harg : fd = k.arg i tfA0) (hfd : (k.procs i).ofile fd = some f)
      (h : Closing f (k.setFd i fd none) k') : Effect i k (Result.ret 0) .silent k'
  | piped {p : PipeRef} {r w : FileRef} {rfd wfd : Fin nofile} {k' : Kernel}
      (hnum : k.sysno i = some .pipe) (h : Piped i (k.arg i tfA0) p r w rfd wfd k k') :
      Effect i k (Result.ret 0) (.piped i p) k'
  | forked {c : ProcRef} {k' : Kernel} (hnum : k.sysno i = some .fork) (h : Forked i c k k') :
      Effect i k (Result.ret k.nextPid) (.forked i c k.nextPid) k'
  | unforked {k' : Kernel} (hnum : k.sysno i = some .fork) (h : Unforked k k') :
      Effect i k Result.err .silent k'
  | exited {k' : Kernel} (hnum : k.sysno i = some .exit)
      (h : Exited i (toI32 (k.arg i tfA0)) k k') :
      Effect i k .blocked (.exited i (toI32 (k.arg i tfA0))) k'

/-- The transfer that a call of process `i` starts. -/
inductive Begins (i : ProcRef) (k : Kernel) : Cont → Prop
  | wait (hnum : k.sysno i = some .wait) : Begins i k (.wait (k.arg i tfA0))
  | pipeRead {f : FileRef} {p : PipeRef} {cap : ℕ} (hnum : k.sysno i = some .read)
      (hf : k.argFile i = some f) (hkind : (k.ftable f).kind = .pipe p)
      (hr : (k.ftable f).readable = true) (hlen : k.argLength i = .inr cap) :
      Begins i k (.pipeRead p cap (k.arg i tfA1))
  | pipeWrite {f : FileRef} {p : PipeRef} {src : List UInt8} (hnum : k.sysno i = some .write)
      (hf : k.argFile i = some f) (hkind : (k.ftable f).kind = .pipe p)
      (hw : (k.ftable f).writable = true) (hlen : k.argLength i = .inr src.length)
      (hsrc : copyin (k.procs i).pagetable (k.arg i tfA1) src.length k.ram = .ok (some src, k.ram)) :
      Begins i k (.pipeWrite p src 0)
  | consoleRead {f : FileRef} {cap : ℕ} (hnum : k.sysno i = some .read)
      (hf : k.argFile i = some f) (hkind : (k.ftable f).kind = .device consoleMajor)
      (hr : (k.ftable f).readable = true) (hlen : k.argLength i = .inr cap) :
      Begins i k (.consoleRead [] cap (k.arg i tfA1))

/-- What a transfer does that has come to `cont`. -/
inductive Resumed (i : ProcRef) (k : Kernel) : Cont → Result → Event → Kernel → Prop
  | childless {va : ℕ} {k' : Kernel} (hnone : ∀ j, (k.procs j).parent ≠ some i)
      (htf : (k'.procs i).trapframe = (k.procs i).trapframe) (h : Local i k k') :
      Resumed i k (.wait va) Result.err .silent k'
  | reaped {c : ProcRef} {va : ℕ} {k' : Kernel} (h : Reaped i c va k k') :
      Resumed i k (.wait va) (Result.ret (k.procs c).pid)
        (.reaped i c (k.procs c).pid (k.procs c).xstate) k'
  | waiting {va : ℕ} {k' : Kernel} (h : Dozing i (.wait va) k k') :
      Resumed i k (.wait va) .blocked .silent k'
  | pipeGot {p : PipeRef} {cap va : ℕ} {got : List UInt8} {c : Option Unit} {k₁ : Kernel} {r : Ram}
      (hcap : 0 < cap) (hend : HoldsEnd i p false k) (h : PipeGot p cap got k k₁)
      (hcopy : copyout (k.procs i).pagetable va got k.ram = .ok (c, r)) :
      Resumed i k (.pipeRead p cap va) (.done (readResult c got)) (.got i p cap got c.isSome)
        { k₁ with ram := r }
  | pipeDry {p : PipeRef} {cap va : ℕ} {k' : Kernel} (hcap : 0 < cap) (hend : HoldsEnd i p false k)
      (h : PipeDry i p cap va k k') : Resumed i k (.pipeRead p cap va) .blocked .silent k'
  | pipePut {p : PipeRef} {src : List UInt8} {n : ℕ} {k' : Kernel} (hend : HoldsEnd i p true k)
      (hn : n ≤ src.length) (h : PipePut p src n k k') :
      Resumed i k (.pipeWrite p src n) (.done (writeResult (some src.length)))
        (.put i p src n src.length) k'
  | pipeShut {p : PipeRef} {src : List UInt8} {n : ℕ} {k' : Kernel} (hend : HoldsEnd i p true k)
      (hshut : (k.pipes p).readopen = false) (h : Woken k k') :
      Resumed i k (.pipeWrite p src n) (.done (writeResult none)) (.refused i p) k'
  | pipeFull {p : PipeRef} {src : List UInt8} {n m : ℕ} {k' : Kernel} (hend : HoldsEnd i p true k)
      (h : PipeFull i p src n m k k') :
      Resumed i k (.pipeWrite p src n) .blocked (.put i p src n m) k'
  | lineGot {cap va : ℕ} {got bytes : List UInt8} {c : Option Unit} {k₁ : Kernel} {r : Ram}
      (hcap : got.length < cap) (h : LineGot cap got bytes k k₁)
      (hcopy : copyout (k.procs i).pagetable va bytes k.ram = .ok (c, r)) :
      Resumed i k (.consoleRead got cap va) (.done (readResult c bytes))
        (.lineGot i cap got bytes c.isSome) { k₁ with ram := r }
  | lineDry {cap va : ℕ} {got more : List UInt8} {k' : Kernel} (hcap : got.length < cap)
      (h : LineDry i cap va got more k k') :
      Resumed i k (.consoleRead got cap va) .blocked (.lineDry i cap got more) k'

theorem Begins.not_barred {cont : Cont} {n : Sysno} {v : SyscallResult} (h : Begins i k cont)
    (hnum : k.sysno i = some n) (hb : Barred i k n v) : n = .wait := by
  cases h with
  | wait h => simpa [hnum] using h
  | pipeRead h hf hkind hr hlen =>
    obtain rfl : n = .read := by simpa [hnum] using h
    cases hb <;> simp_all
  | pipeWrite h hf hkind hw hlen hsrc =>
    obtain rfl : n = .write := by simpa [hnum] using h
    cases hb with
    | buffer hlen' hg =>
      obtain rfl := Sum.inr.inj (hlen.symm.trans hlen')
      cases hsrc.symm.trans (copyin_run.2 hg)
    | _ => simp_all
  | consoleRead h hf hkind hr hlen =>
    obtain rfl : n = .read := by simpa [hnum] using h
    cases hb <;> simp_all

/-- A call that starts a transfer does nothing else. -/
theorem Begins.not_effect {cont : Cont} {r : Result} {e : Event} (h : Begins i k cont) :
    ¬ Effect i k r e k' := by
  have hn : k.sysno i = some .wait ∨ k.sysno i = some .read ∨ k.sysno i = some .write := by
    cases h with
    | wait h => exact .inl h
    | pipeRead h | consoleRead h => exact .inr (.inl h)
    | pipeWrite h => exact .inr (.inr h)
  intro he
  cases he with
  | quiet hv hl =>
    cases hv with
    | barred hnum hio hb =>
      rw [h.not_barred hnum hb] at hio
      simp at hio
    | _ => rcases hn with hn | hn | hn <;> simp_all
  | _ => rcases hn with hn | hn | hn <;> simp_all

theorem Begins.unique {cont cont' : Cont} (h : Begins i k cont) (h' : Begins i k cont') :
    cont = cont' := by
  cases h <;> cases h' <;> simp_all

/-- The state of the hart does not matter. -/
theorem Resumed.of_hart {cont : Cont} {c : Cpu} {held : Lock → Bool} {r : Result} {e : Event}
    (h : Resumed i { k with cpu := c, held := held } cont r e k') : Resumed i k cont r e k' := by
  cases h with
  | childless hnone htf hl =>
    exact .childless hnone htf
      ⟨hl.others, hl.ofile, hl.life, hl.files, hl.pipes, hl.input, hl.nextPid, hl.initproc⟩
  | reaped hr =>
    exact .reaped ⟨⟨hr.zombie, hr.parent, hr.first⟩, hr.memory, hr.procs, hr.ftable, hr.pipes, hr.input,
      hr.nextPid, hr.initproc⟩
  | waiting hd => exact .waiting (Dozing.of_hart hd)
  | pipeGot hcap hend hg hcopy =>
    exact .pipeGot hcap hend ⟨hg.ready, hg.front, Woken.of_hart hg.woken⟩ hcopy
  | pipeDry hcap hend hd =>
    exact .pipeDry hcap hend ⟨hd.empty, hd.writeopen, Dozing.of_hart hd.dozing⟩
  | pipePut hend hn hp => exact .pipePut hend hn ⟨hp.stored, Woken.of_hart hp.woken⟩
  | pipeShut hend hshut hw => exact .pipeShut hend hshut (Woken.of_hart hw)
  | pipeFull hend hf =>
    exact .pipeFull hend
      ⟨hf.le, hf.lt, hf.stored, hf.full, hf.readopen, Dozing.of_hart hf.dozing⟩
  | lineGot hcap hg hcopy =>
    exact .lineGot hcap ⟨hg.drained, hg.line, Woken.of_hart hg.woken⟩ hcopy
  | lineDry hcap hd =>
    exact .lineDry hcap ⟨hd.drained, hd.empty, hd.short, hd.line, Dozing.of_hart hd.dozing⟩

/-- The kernel after a piece of a call. -/
structure Settled (i : ProcRef) (r : Result) (k : Kernel) : Prop where
  steady : Steady [] [] none (r.cur i) k
  buffers : k.Buffers

theorem Local.refl {r : Ram} {s : Fs.State} {u : List UInt8} {c : Cpu} {held : Lock → Bool} :
    Local i k { k with ram := r, fs := s, uart := u, cpu := c, held := held } :=
  ⟨fun _ _ => rfl, rfl, rfl, .refl, rfl, rfl, rfl, rfl⟩

theorem Local.buffers (h : Local i k k') (hb : k.Buffers) : k'.Buffers := by
  refine ⟨?_, ?_⟩
  · rw [h.input]
    exact hb.input
  · rw [h.pipes]
    exact hb.pipes

/-- A call that has had no effect on the tables leaves a steady kernel. -/
theorem Quiet.effect {m : KernelM Result} (hm : Quiet E i k m) (hv : ∀ v, Inert i k v)
    (h : Steady [] [] none (some i) k) (hb : k.Buffers) {Q : Result → Kernel → Prop}
    (hQ : ∀ {e} r k', Settled i r k' → Effect i k r e k' → Q r k') : m.wp E Q k := by
  refine wp_post (hm k h.inCall) ?_
  rintro r k' ⟨hr, hk'⟩
  cases r with
  | blocked => exact absurd rfl hr
  | done v => exact hQ _ k' ⟨hk'.steady h, hk'.toLocal.buffers hb⟩ (.quiet (hv v) hk'.toLocal)

section Transfers

theorem ioLength_pos {va len n : ℕ} (h : ioLength va len = .inr n) : 0 < n := by
  unfold ioLength at h
  split_ifs at h with hlen hbig
  cases hadd : checkedAdd va len with
  | none =>
    rw [hadd] at h
    cases h
  | some stop =>
    rw [hadd] at h
    simp only at h
    split_ifs at h
    have hn := Sum.inr.inj h
    unfold chunkSize at hn
    omega

/-- The bytes of a read go to the user's buffer. -/
theorem wp_finishRead {k₁ : Kernel} {pt va : ℕ} {bytes : List UInt8} (hE : ∀ e, e.Benign → E e)
    (hram : k₁.ram = k.ram) {Q : Result → Kernel → Prop}
    (hQ : ∀ c r, copyout pt va bytes k.ram = .ok (c, r) →
      Q (.done (readResult c bytes)) { k₁ with ram := r }) :
    (finishRead pt va (.done (some bytes))).wp E Q k₁ := by
  simp only [finishRead, wp_bind]
  refine wp_onRam_run hE mild_copyout fun c r hc => ?_
  rw [hram] at hc
  cases c with
  | none => exact hQ none r hc
  | some _ => exact hQ (some ()) r hc

theorem finishWrite_done (m : Option ℕ) : finishWrite (.done m) = pure (.done (writeResult m)) := by
  cases m with
  | none => rfl
  | some m =>
    simp only [finishWrite, writeResult]
    split_ifs <;> rfl

variable {p : PipeRef} {f : FileRef} {cap va : ℕ} {k₁ : Kernel} {Q : Result → Kernel → Prop}

theorem wp_restPipeRead (hE : ∀ e, e.Benign → E e) (h : Steady [.pipe p] [] none (some i) k)
    (hb : k.Buffers) (hcap : 0 < cap) (hend : HoldsEnd i p false k)
    (hQ : ∀ {e} r k', Settled i r k' → Resumed i k (.pipeRead p cap va) r e k' → Q r k') :
    (pipeReadLoop p cap va >>= fun r =>
      finishRead (k.procs i).pagetable va (r.map some)).wp E Q k := by
  rw [wp_bind]
  refine wp_pipeGot h hb hcap hend (fun got k₁ hs hb' hg => ?_) fun k₁ hs hb' hd => ?_
  · refine wp_finishRead hE hg.woken.ram fun c r hc => ?_
    exact hQ _ _ ⟨hs.ram r, hb'.input, hb'.pipes⟩ (.pipeGot hcap hend hg hc)
  · exact hQ _ _ ⟨hs, hb'⟩ (.pipeDry hcap hend hd)

theorem wp_restConsoleRead (got : List UInt8) (hE : ∀ e, e.Benign → E e)
    (h : Steady [.console] [] none (some i) k) (hb : k.Buffers) (hcap : got.length < cap)
    (hQ : ∀ {e} r k', Settled i r k' → Resumed i k (.consoleRead got cap va) r e k' → Q r k') :
    (consoleReadLoop cap va (cap - got.length) got >>= fun r =>
      finishRead (k.procs i).pagetable va (r.map some)).wp E Q k := by
  rw [wp_bind]
  refine wp_lineGot h hb (Nat.le_of_lt hcap) (fun bytes k₁ hs hb' hg => ?_) fun more k₁ hs hb' hd => ?_
  · refine wp_finishRead hE hg.woken.ram fun c r hc => ?_
    exact hQ _ _ ⟨hs.ram r, hb'.input, hb'.pipes⟩ (.lineGot hcap hg hc)
  · exact hQ _ _ ⟨hs, hb'⟩ (.lineDry hcap hd)

theorem wp_restPipeWrite {src : List UInt8} {n : ℕ} (hn : n ≤ src.length)
    (h : Steady [.pipe p] [] none (some i) k) (hb : k.Buffers) (hend : HoldsEnd i p true k)
    (hQ : ∀ {e} r k', Settled i r k' → Resumed i k (.pipeWrite p src n) r e k' → Q r k') :
    (pipeWriteLoop p src (src.length - n) n >>= finishWrite).wp E Q k := by
  rw [wp_bind]
  refine wp_pipePut hn h hb hend (fun k₁ hs hb' hp => ?_) (fun k₁ hs hb' hro hw => ?_)
    fun m k₁ hs hb' hf => ?_
  · rw [finishWrite_done]
    exact hQ _ _ ⟨hs, hb'⟩ (.pipePut hend hn hp)
  · exact hQ _ _ ⟨hs, hb'⟩ (.pipeShut hend hro hw)
  · exact hQ _ _ ⟨hs, hb'⟩ (.pipeFull hend hf)

/-- What the offset of one file and the file system can change. -/
theorem Local.advance {ip : Fs.InodeRef} {off off' : ℕ} {append : Bool} {s : Fs.State}
    (hkind : (k.ftable f).kind = .inode ip off append) :
    Local i k { k with
      fs := s
      ftable := update k.ftable f { k.ftable f with kind := .inode ip off' append } } :=
  ⟨fun _ _ => rfl, rfl, rfl, Shifted.refl.advance hkind off', rfl, rfl, rfl, rfl⟩

section Others

variable {α : Type} (hE : ∀ e, e.Benign → E e) (h : Steady [] [] none (some i) k)
include h

/-- The offset of a file moves when bytes were transferred. -/
theorem wp_advance {ip : Fs.InodeRef} {off off' : ℕ} {append : Bool} {s : Fs.State} {n : ℕ} {o : Option α}
    {Q : Outcome (Option α) → Kernel → Prop}
    (hQ : ∀ o k', Steady [] [] none (some i) k' → Local i k k' → Q (.done o) k')
    (hkind : (k.ftable f).kind = .inode ip off append) (hs : Fs.Resting s) :
    Prog.wp (do
      if 0 < n then
        advance f ip off' append
      pure (.done o)) E Q { k with fs := s } := by
  simp only [wp_bind, wp_ite, advance, wp_modifyFile, wp_pure]
  refine ⟨fun _ => ?_, fun _ => ?_⟩
  · exact hQ _ _ ⟨h.hart, h.tables.shift (Shifted.refl.advance hkind off'), hs⟩ (.advance hkind)
  · exact hQ _ _ ⟨h.hart, h.tables, hs⟩ .refl

include hE

/-- A read of a file that is neither a pipe nor the console. -/
theorem wp_fileRead_other {buf : ℕ} (hp : ∀ p, (k.ftable f).kind ≠ .pipe p)
    (hc : (k.ftable f).kind ≠ .device consoleMajor) {Q : Outcome (Option (List UInt8)) → Kernel → Prop}
    (hQ : ∀ o k', Steady [] [] none (some i) k' → Local i k k' → Q (.done o) k') :
    (fileRead f cap buf).wp E Q k := by
  simp only [fileRead, wp_bind, wp_get, wp_ite, wp_pure]
  refine ⟨fun _ => hQ _ _ h .refl, fun _ => ?_⟩
  cases hkind : (k.ftable f).kind with
  | none => exact hQ _ _ h .refl
  | pipe p => exact absurd hkind (hp p)
  | device major =>
    have hmajor : ¬ major = consoleMajor := fun heq => hc (heq ▸ hkind)
    simp only [hmajor, if_false]
    exact hQ _ _ h .refl
  | inode ip off append =>
    simp only [wp_bind]
    refine wp_onFs hE Fs.calm_readi h.fs fun r s hs => ?_
    cases r with
    | none => exact hQ _ _ ⟨h.hart, h.tables, hs⟩ .refl
    | some bytes => exact wp_advance h hQ hkind hs

theorem wp_fileWrite_other {src : List UInt8} (hp : ∀ p, (k.ftable f).kind ≠ .pipe p)
    {Q : Outcome (Option ℕ) → Kernel → Prop}
    (hQ : ∀ o k', Steady [] [] none (some i) k' → Local i k k' → Q (.done o) k') :
    (fileWrite f src).wp E Q k := by
  simp only [fileWrite, wp_bind, wp_get, wp_ite, wp_pure]
  refine ⟨fun _ => hQ _ _ h .refl, fun _ => ?_⟩
  cases hkind : (k.ftable f).kind with
  | none => exact hQ _ _ h .refl
  | pipe p => exact absurd hkind (hp p)
  | device major =>
    simp only [wp_ite, wp_bind, wp_pure]
    refine ⟨fun _ => ?_, fun _ => hQ _ _ h .refl⟩
    exact wp_consoleWriteBytes h.hart fun u c held hh => hQ _ _ ⟨hh, h.tables, h.fs⟩ .refl
  | inode ip off append =>
    cases append with
    | true =>
      simp only [if_true, wp_bind]
      exact wp_onFs hE Fs.calm_appendi h.fs fun r s hs => wp_advance h hQ hkind hs
    | false =>
      simp only [Bool.false_eq_true, if_false, wp_bind]
      refine wp_onFs hE Fs.calm_writei h.fs fun r s hs => ?_
      cases r with
      | none => exact hQ _ _ ⟨h.hart, h.tables, hs⟩ .refl
      | some n => exact wp_advance h hQ hkind hs

end Others

/-- `copyin` leaves everything as it is. -/
theorem wp_onRam_copyin {pt n : ℕ} {Q : Option (List UInt8) → Kernel → Prop}
    (hnone : ¬ Granted k.ram.mem pt pteR va n → Q none k)
    (hsome : ∀ chunk, chunk.length = n → copyin pt va n k.ram = .ok (some chunk, k.ram) →
      Q (some chunk) k) : (onRam (copyin pt va n)).wp E Q k := by
  rw [onRam, wp_zoom]
  by_cases hg : Granted k.ram.mem pt pteR va n
  · exact wp_of_ok (copyin_run.1 hg) (hsome _ (read_length ..) (copyin_run.1 hg))
  · exact wp_of_ok (copyin_run.2 hg) (hnone hg)

section Calls

variable (hE : ∀ e, e.Benign → E e) (h : Steady [] [] none (some i) k) (hb : k.Buffers)
  (hQ : ∀ {e} r k', Settled i r k' → Effect i k r e k' → Q r k')
  (hT : ∀ {e cont} r k', Settled i r k' → Begins i k cont → Resumed i k cont r e k' → Q r k')
include hE h hb hQ hT

theorem effect_sysRead (hnum : k.sysno i = some .read) : (sysRead (k.procs i).trapframe).wp E Q k := by
  have hquiet : ∀ {v k'}, Steady [] [] none (some i) k' → Local i k k' → Barred i k .read v →
      Q (.done v) k' := fun hs hl hv =>
    hQ _ _ ⟨hs, hl.buffers hb⟩ (.quiet (.barred hnum (.inl rfl) hv) hl)
  simp only [sysRead, wp_bind]
  refine wp_myproc h.hart ?_
  simp only [wp_getProc, wp_getReg]
  cases hfile : (k.procs i).fdFile (load 8 k.ram.mem ((k.procs i).trapframe + tfA0)) with
  | none => exact hquiet h .refl (.noFile hfile)
  | some f =>
    simp only [wp_bind, wp_get, wp_ite, wp_pure, Bool.not_eq_true']
    refine ⟨fun hr => hquiet h .refl (.unreadable hfile hr), fun hr => ?_⟩
    rw [Bool.not_eq_false] at hr
    cases hlen : ioLength (load 8 k.ram.mem ((k.procs i).trapframe + tfA1))
        (load 8 k.ram.mem ((k.procs i).trapframe + tfA2)) with
    | inl v => exact hquiet h .refl (.length hlen)
    | inr n =>
      have hcap := ioLength_pos hlen
      rw [wp_bind]
      by_cases hpipe : ∃ p, (k.ftable f).kind = .pipe p
      · obtain ⟨p, hkind⟩ := hpipe
        simp only [fileRead, pipeRead, wp_bind, wp_get, hkind, hr, Bool.not_true, Bool.false_eq_true, if_false]
        refine wp_acquire h.hart not_mem_nil fun c held hh => ?_
        have hend : HoldsEnd i p false k := by
          obtain ⟨fd, -, hfd⟩ := Process.fdFile_eq_some hfile
          refine ⟨fd, f, hfd, hkind, ?_⟩
          have hway := h.tables.accounts.oneWay f p hkind
          cases hw : (k.ftable f).writable with
          | false => rfl
          | true => simp [hr, hw] at hway
        have hrest := wp_restPipeRead (k := { k with cpu := c, held := held }) hE ⟨hh, h.tables, h.fs⟩
          ⟨hb.input, hb.pipes⟩ hcap hend
          fun r k' hs hr' => hT r k' hs (.pipeRead hnum hfile hkind hr hlen) hr'.of_hart
        rw [wp_bind] at hrest
        refine wp_post hrest fun r k' hk' => ?_
        cases r <;> exact hk'
      by_cases hcons : (k.ftable f).kind = .device consoleMajor
      · have hpos : ¬ n = 0 := by omega
        simp only [fileRead, consoleRead, wp_bind, wp_get, hcons, hr, Bool.not_true, Bool.false_eq_true,
          if_false, if_true, hpos]
        refine wp_acquire h.hart not_mem_nil fun c held hh => ?_
        have hrest := wp_restConsoleRead (k := { k with cpu := c, held := held }) [] hE
          ⟨hh, h.tables, h.fs⟩ ⟨hb.input, hb.pipes⟩ hcap
          fun r k' hs hr' => hT r k' hs (.consoleRead hnum hfile hcons hr hlen) hr'.of_hart
        rw [wp_bind] at hrest
        refine wp_post hrest fun r k' hk' => ?_
        cases r <;> exact hk'
      have hp := not_exists.mp hpipe
      refine wp_fileRead_other hE h hp hcons fun o k' hs hl => ?_
      cases o with
      | none => exact hquiet hs hl (.other hfile hp fun _ => hcons)
      | some bytes =>
        refine wp_finishRead hE rfl fun c r _ => hquiet (hs.ram r) ?_ (.other hfile hp fun _ => hcons)
        exact ⟨hl.others, hl.ofile, hl.life, hl.files, hl.pipes, hl.input, hl.nextPid, hl.initproc⟩

theorem effect_sysWrite (hnum : k.sysno i = some .write) :
    (sysWrite (k.procs i).trapframe).wp E Q k := by
  have hquiet : ∀ {v k'}, Steady [] [] none (some i) k' → Local i k k' → Barred i k .write v →
      Q (.done v) k' := fun hs hl hv =>
    hQ _ _ ⟨hs, hl.buffers hb⟩ (.quiet (.barred hnum (.inr rfl) hv) hl)
  simp only [sysWrite, wp_bind]
  refine wp_myproc h.hart ?_
  simp only [wp_getProc, wp_getReg]
  cases hfile : (k.procs i).fdFile (load 8 k.ram.mem ((k.procs i).trapframe + tfA0)) with
  | none => exact hquiet h .refl (.noFile hfile)
  | some f =>
    simp only [wp_bind, wp_get, wp_ite, wp_pure, Bool.not_eq_true']
    refine ⟨fun hw => hquiet h .refl (.unwritable hfile hw), fun hw => ?_⟩
    rw [Bool.not_eq_false] at hw
    cases hlen : ioLength (load 8 k.ram.mem ((k.procs i).trapframe + tfA1))
        (load 8 k.ram.mem ((k.procs i).trapframe + tfA2)) with
    | inl v => exact hquiet h .refl (.length hlen)
    | inr n =>
      rw [wp_bind]
      refine wp_onRam_copyin (fun hg => hquiet h .refl (.buffer hlen hg)) fun chunk hchunk hsrc => ?_
      subst hchunk
      rw [wp_bind]
      by_cases hpipe : ∃ p, (k.ftable f).kind = .pipe p
      · obtain ⟨p, hkind⟩ := hpipe
        simp only [fileWrite, pipeWrite, wp_bind, wp_get, hkind, hw, Bool.not_true, Bool.false_eq_true,
          if_false]
        refine wp_acquire h.hart not_mem_nil fun c held hh => ?_
        obtain ⟨fd, -, hfd⟩ := Process.fdFile_eq_some hfile
        have hrest := wp_restPipeWrite (k := { k with cpu := c, held := held }) (E := E) (Nat.zero_le _)
          ⟨hh, h.tables, h.fs⟩ ⟨hb.input, hb.pipes⟩ ⟨fd, f, hfd, hkind, hw⟩
          fun r k' hs hr' => hT r k' hs (.pipeWrite hnum hfile hkind hw hlen hsrc) hr'.of_hart
        rwa [wp_bind] at hrest
      have hp := not_exists.mp hpipe
      refine wp_fileWrite_other hE h hp fun o k' hs hl => ?_
      rw [finishWrite_done]
      exact hquiet hs hl (.other hfile hp fun hn => by cases hn)

end Calls

end Transfers

section Buffers

variable {f : FileRef}

theorem contents_ok {q q' : Pipe} (h : q'.contents = q.contents) (hq : q.Ok) : q'.Ok := by
  have hread : q'.nread = q.nread := congrArg Contents.nread h
  have hwrite : q'.nwrite = q.nwrite := congrArg Contents.nwrite h
  have hle := hq.le
  have hfull := hq.full
  constructor <;> omega

/-- Nothing is put into a pipe and no pipe is taken. -/
theorem Kernel.Buffers.of_contents (hb : k.Buffers) (hin : k'.input = k.input)
    (hcontents : k'.obs.contents = k.obs.contents)
    (hused : ∀ q, (k'.pipes q).used = true → (k.pipes q).used = true) : k'.Buffers where
  input := by
    rw [hin]
    exact hb.input
  pipes q hq := contents_ok (congrFun hcontents q) (hb.pipes q (hused q hq))

/-- A pipe in use has a file, unless it is new. -/
theorem used_iff {x : List FileRef} {cur : Option ProcRef} {p : PipeRef}
    (h : Tables x none cur k.procs k.ftable k.pipes k.input) :
    (k.pipes p).used = true ↔ ∃ a, (k.ftable a).kind = .pipe p := by
  rw [h.accounts.used, h.accounts.reading, h.accounts.writing]
  simp only [reduceCtorEq, false_or, EndOpen]
  constructor
  · rintro (⟨a, ha, -⟩ | ⟨a, ha, -⟩)
    · exact ⟨a, ha⟩
    · exact ⟨a, ha⟩
  · rintro ⟨a, ha⟩
    cases hw : (k.ftable a).writable with
    | false => exact .inl ⟨a, ha, hw⟩
    | true => exact .inr ⟨a, ha, hw⟩

theorem Closing.lost (h : Closing f k k') (a : FileRef) : (k.ftable a).Lost (k'.ftable a) := by
  rw [h.ftable]
  by_cases ha : a = f
  · subst ha
    rw [update_self]
    exact (File.Lost.refl _).dropRef
  · rw [update_of_ne ha]
    exact .refl _

/-- Files lose references only. -/
theorem used_of_lost {x x' : List FileRef} {cur cur' : Option ProcRef} {p : PipeRef}
    (h : Tables x none cur k.procs k.ftable k.pipes k.input)
    (h' : Tables x' none cur' k'.procs k'.ftable k'.pipes k'.input)
    (hlost : ∀ a, (k.ftable a).Lost (k'.ftable a)) (hp : (k'.pipes p).used = true) :
    (k.pipes p).used = true := by
  obtain ⟨a, ha⟩ := (used_iff h').mp hp
  refine (used_iff h).mpr ⟨a, ?_⟩
  rcases hlost a with hun | ⟨n, hn⟩
  · rw [hun] at ha
    cases ha
  · rw [hn] at ha
    exact ha

end Buffers

section Descriptors

variable {Q : Result → Kernel → Prop} (hE : ∀ e, e.Benign → E e) (h : Steady [] [] none (some i) k)
  (hb : k.Buffers) (hQ : ∀ {e} r k', Settled i r k' → Effect i k r e k' → Q r k')
include h hb hQ

theorem effect_sysDup (hnum : k.sysno i = some .dup) : (sysDup (k.procs i).trapframe).wp E Q k := by
  have hv : Inert i k (.ret syserr) := .failed (.inr (.inl hnum)) rfl
  refine wp_sysDup h (fun _ => hQ _ _ ⟨h, hb⟩ (.quiet hv .refl)) fun f fd c held hf hfd h' => ?_
  exact hQ _ _ ⟨h', hb.input, hb.pipes⟩ (.dupped hnum hf ⟨hfd, c, held, rfl⟩)

theorem effect_sysGetpid (hnum : k.sysno i = some .getpid) : sysGetpid.wp E Q k := by
  simp only [sysGetpid, wp_bind]
  refine wp_myproc h.hart ?_
  exact hQ _ _ ⟨h, hb⟩ (.quiet (.getpid hnum rfl) .refl)

include hE

theorem effect_sysClose (hnum : k.sysno i = some .close) :
    (sysClose (k.procs i).trapframe).wp E Q k := by
  have hv : Inert i k (.ret syserr) := .failed (.inr (.inr hnum)) rfl
  refine wp_sysClose hE h (fun _ => hQ _ _ ⟨h, hb⟩ (.quiet hv .refl)) fun f fd k' hfd hf h' hc => ?_
  refine hQ _ _ ⟨h', ?_⟩ (.closed hnum hfd hf hc)
  have hobs := hc.obs.trans setFd_obs
  apply hb.of_contents (congrArg Obs.input hobs) (congrArg Obs.contents hobs)
  intro q
  exact used_of_lost h.tables h'.tables hc.lost

theorem effect_sysPipe (hnum : k.sysno i = some .pipe) : (sysPipe (k.procs i).trapframe).wp E Q k := by
  refine wp_sysPipe hE h (fun k' h' hu => ?_) fun p r w rfd wfd k' h' hp => ?_
  · refine hQ _ _ ⟨h', ?_, fun q hq => ?_⟩ (.undone (.inr hnum) ?_)
    · rw [hu.rest.1]
      exact hb.input
    · have hsame := hu.pipes q (.inr hq)
      rw [hsame] at hq ⊢
      exact hb.pipes q hq
    · rw [hu.fs]
      exact hu
  · refine hQ _ _ ⟨h', ?_⟩ (.piped hnum hp)
    obtain ⟨c, held, heq⟩ := hp.eq
    rw [heq]
    refine ⟨hb.input, fun q hq => ?_⟩
    by_cases hqp : q = p
    · subst hqp
      simp only [update_self]
      exact ⟨Nat.le_refl 0, Nat.zero_le _⟩
    · simp only [update_of_ne hqp] at hq ⊢
      exact hb.pipes q hq

theorem effect_sysFork (hnum : k.sysno i = some .fork) : (sysFork L).wp E Q k := by
  simp only [sysFork, wp_bind]
  refine wp_fork hE h (fun k' h' hu => ?_) fun c k' h' hf => ?_
  · refine hQ _ _ ⟨h', ?_, ?_⟩ (.unforked hnum hu)
    · rw [hu.input]
      exact hb.input
    · rw [hu.pipes]
      exact hb.pipes
  · refine hQ _ _ ⟨h', ?_, ?_⟩ (.forked hnum hf)
    · rw [hf.input]
      exact hb.input
    · rw [hf.pipes]
      exact hb.pipes

theorem effect_sysExit (hnum : k.sysno i = some .exit) : (sysExit (k.procs i).trapframe).wp E Q k := by
  simp only [sysExit, wp_bind, wp_getReg]
  refine wp_exit (fun _ => hE) h fun k' h' he => ?_
  refine hQ _ _ ⟨h', ?_⟩ (.exited hnum he)
  exact hb.of_contents he.input he.contents fun q => used_of_lost h.tables h'.tables he.files

end Descriptors

section Open

variable {Q : Result → Kernel → Prop} {f : FileRef} {inode : Fs.InodeRef} {typ : Fs.InodeType}

/-- A new file never stands for a pipe. -/
theorem wp_openKind {append : Bool} (hE : ∀ e, e.Benign → E e) (hfs : Fs.Resting k.fs)
    {Q : Unit → Kernel → Prop}
    (hQ : ∀ kind s, (∀ p, kind ≠ .pipe p) → Fs.Resting s →
      Q () { k with
        fs := s, ftable := update k.ftable f { k.ftable f with kind := kind } }) :
    (openKind f typ inode append).wp E Q k := by
  cases typ with
  | file => exact hQ _ k.fs (fun p => by simp) hfs
  | dir => exact hQ _ k.fs (fun p => by simp) hfs
  | device major =>
    simp only [openKind, wp_bind, wp_modifyFile]
    refine wp_onFs hE Fs.calm_iput (by exact hfs) fun _ s hs => ?_
    exact hQ _ s (fun p => by simp) hs

/-- A new file is made and gets a descriptor, or everything is given back. -/
theorem effect_sysOpenFile {k₁ : Kernel} {r : Ram} {s : Fs.State} {readable writable truncate append : Bool}
    (hE : ∀ e, e.Benign → E e) (h : Steady [] [] none (some i) k₁) (hb : k₁.Buffers)
    (hk₁ : k₁ = { k with ram := r, fs := s }) (hnum : k.sysno i = some .open)
    (hQ : ∀ {e} r k', Settled i r k' → Effect i k r e k' → Q r k') :
    (sysOpenFile i inode typ readable writable truncate append).wp E Q k₁ := by
  subst hk₁
  simp only [sysOpenFile, wp_bind]
  refine wp_fileAlloc h.hart not_mem_nil (fun c held hh => ?_) fun f c held hh hf => ?_
  · simp only [dropInode, wp_bind]
    refine wp_onFs hE Fs.calm_iput (by exact h.fs) fun _ s' hs' => ?_
    exact hQ _ _ ⟨⟨hh, h.tables, hs'⟩, hb.input, hb.pipes⟩ (.quiet (.failed (.inl hnum) rfl) .refl)
  · simp only [wp_bind, wp_modifyFile, update_self, update_idem]
    refine wp_openKind hE (by exact h.fs) fun kind s' hkind hs' => ?_
    simp only [update_self, update_idem]
    dsimp only at hf
    -- The file has a reference in flight and stands for no pipe.
    have h₁ : Steady [] [f] none (some i) { k with
        ram := r, fs := s'
        ftable := update k.ftable f ⟨1, readable, writable, kind⟩
        cpu := c, held := held } :=
      ⟨hh, h.tables.newFile hf hkind, hs'⟩
    refine wp_fdalloc (fun _ => ?_) fun fd hfd => ?_
    · simp only [wp_bind]
      refine wp_fileClose (fun _ => hE) h₁ fun k' h' hc => ?_
      have hpipes : k'.pipes = k.pipes := by
        rw [hc.pipes]
        simp only [update_self, File.dropPipes]
      have hfiles : ∀ g, g ≠ f → k'.ftable g = k.ftable g := by
        intro g hg
        rw [hc.ftable]
        simp only [update_of_ne hg]
      have hgone : (k'.ftable f).refcnt = 0 := by
        rw [hc.ftable]
        simp only [update_self]
        rfl
      refine hQ _ _ ⟨h', ?_, ?_⟩ (.undone (.inl hnum) ⟨hc.procs, congrArg Obs.lives hc.obs,
        ⟨congrArg Obs.input hc.obs, congrArg Obs.nextPid hc.obs, congrArg Obs.initproc hc.obs⟩,
        fun g hg => ?_, fun q _ => ?_, rfl⟩)
      · rw [show k'.input = k.input from congrArg Obs.input hc.obs]
        exact hb.input
      · rw [hpipes]
        exact hb.pipes
      · by_cases hgf : g = f
        · subst hgf
          rw [hf, hgone] at hg
          exact absurd hg (by decide)
        · exact hfiles g hgf
      · rw [hpipes]
    · have hopened : ∀ s'', Opened i f fd k { k with
          ram := r, fs := s'', procs := (k.setFd i fd (some f)).procs
          ftable := update k.ftable f ⟨1, readable, writable, kind⟩
          cpu := c, held := held } := by
        intro s''
        refine ⟨hf, hfd, rfl, ?_, fun g hg => ?_, rfl, rfl, rfl, rfl⟩
        · simp only [update_self, true_and]
          exact hkind
        · simp only [update_of_ne hg]
      have h₂ := h₁.link hfd.free
      simp only [wp_ite, wp_bind, wp_pure]
      constructor
      · intro _
        refine wp_onFs hE Fs.calm_trunc (by exact hs') fun _ s'' hs'' => ?_
        exact hQ _ _ ⟨⟨h₂.hart, h₂.tables, hs''⟩, hb.input, hb.pipes⟩ (.opened hnum (hopened s''))
      · intro _
        exact hQ _ _ ⟨h₂, hb.input, hb.pipes⟩ (.opened hnum (hopened s'))

theorem effect_sysOpen (hE : ∀ e, e.Benign → E e) (h : Steady [] [] none (some i) k) (hb : k.Buffers)
    (hQ : ∀ {e} r k', Settled i r k' → Effect i k r e k' → Q r k') (hnum : k.sysno i = some .open) :
    (sysOpen (k.procs i).trapframe).wp E Q k := by
  have hquiet : ∀ {k'}, Steady [] [] none (some i) k' → Local i k k' → Q Result.err k' := fun hs hl =>
    hQ _ _ ⟨hs, hl.buffers hb⟩ (.quiet (.failed (.inl hnum) rfl) hl)
  simp only [sysOpen, wp_bind]
  refine wp_myproc h.hart ?_
  simp only [wp_getProc, pathArg, wp_bind, wp_getReg]
  refine wp_onRam hE mild_copyinstr fun path r => ?_
  cases path with
  | none => exact hquiet (h.ram r) .refl
  | some path =>
    simp only [wp_bind, wp_getReg]
    generalize load 8 r.mem ((k.procs i).trapframe + tfA1) = flags
    have hcalm : Fs.Calm (if flags &&& oCreate != 0 then Fs.create (k.procs i).cwd path
        else Fs.namei (k.procs i).cwd path) := keeps_ite Fs.calm_create Fs.calm_namei
    refine wp_onFs hE hcalm (by exact h.fs) fun inode s hs => ?_
    cases inode with
    | none => exact hquiet ⟨h.hart, h.tables, hs⟩ .refl
    | some inode =>
      simp only [wp_bind]
      refine wp_onFs hE Fs.calm_inodeType (by exact hs) fun typ s' hs' => ?_
      have h' : Steady [] [] none (some i) { k with ram := r, fs := s' } := ⟨h.hart, h.tables, hs'⟩
      have hdrop : (dropInode inode).wp E Q { k with ram := r, fs := s' } := by
        simp only [dropInode, wp_bind]
        refine wp_onFs hE Fs.calm_iput (by exact hs') fun _ s'' hs'' => ?_
        exact hquiet ⟨h.hart, h.tables, hs''⟩ .refl
      simp only [wp_ite]
      refine ⟨fun _ => hdrop, fun _ => ⟨fun _ => hdrop, fun _ => ?_⟩⟩
      exact effect_sysOpenFile hE h' ⟨hb.input, hb.pipes⟩ rfl hnum hQ

end Open

section Wait

variable {va : ℕ} {Q : Result → Kernel → Prop}

theorem wp_restWait (hE : ∀ e, e.Benign → E e) (h : Steady [.wait] [] none (some i) k) (hb : k.Buffers)
    (hstuck : ∀ c r cpu held, Unreapable i c va k → Hart [.wait] (some i) cpu held →
      Q Result.err { k with ram := r, cpu := cpu, held := held })
    (hQ : ∀ {e} r k', Settled i r k' → Resumed i k (.wait va) r e k' → Q r k') :
    (waitLoop L i va >>= finishWait).wp E Q k := by
  rw [wp_bind]
  refine wp_waitLoop hE h hstuck (fun c' k' h' hr => ?_) (fun cpu held hnone hh => ?_)
    fun p b cpu held hp h' => ?_
  · refine hQ _ _ ⟨h', ?_, ?_⟩ (.reaped hr)
    · rw [hr.input]
      exact hb.input
    · rw [hr.pipes]
      exact hb.pipes
  · exact hQ _ _ ⟨⟨hh, h.tables, h.fs⟩, hb.input, hb.pipes⟩ (.childless hnone rfl .refl)
  · subst hp
    refine hQ _ _ ⟨h', hb.input, hb.pipes⟩ (.waiting ⟨?_, some (.proc i), b, ?_⟩)
    · simp only [update_self]
    · exact ⟨fun j => ⟨_, rfl⟩, rfl, rfl, rfl, rfl, rfl, rfl, rfl, rfl⟩

theorem effect_sysWait (hE : ∀ e, e.Benign → E e) (h : Steady [] [] none (some i) k) (hb : k.Buffers)
    (hstuck : ∀ c r cpu held, Unreapable i c (k.arg i tfA0) k →
      Hart [.wait] (some i) cpu held → Q Result.err { k with ram := r, cpu := cpu, held := held })
    (hT : ∀ {e cont} r k', Settled i r k' → Begins i k cont → Resumed i k cont r e k' → Q r k')
    (hnum : k.sysno i = some .wait) : (sysWait L (k.procs i).trapframe).wp E Q k := by
  simp only [sysWait, wait, wp_bind, wp_getReg]
  refine wp_myproc h.hart ?_
  refine wp_acquire h.hart not_mem_nil fun c held hh => ?_
  rw [← wp_bind]
  refine wp_restWait hE ⟨hh, h.tables, h.fs⟩ ⟨hb.input, hb.pipes⟩ (fun c' r cpu held' hun => ?_)
    fun r k' hs hr => hT r k' hs (.wait hnum) hr.of_hart
  exact hstuck c' r cpu held' ⟨⟨hun.zombie, hun.parent, hun.first⟩, hun.asked, hun.failed⟩

end Wait

/-- A system call has one of the effects, or is a `wait` that fails with its
lock held. -/
theorem wp_dispatch {Q : Result → Kernel → Prop} (hE : ∀ e, e.Benign → E e)
    (h : Steady [] [] none (some i) k) (hb : k.Buffers)
    (hstuck : ∀ c r cpu held, k.sysno i = some .wait → Unreapable i c (k.arg i tfA0) k →
      Hart [.wait] (some i) cpu held → Q Result.err { k with ram := r, cpu := cpu, held := held })
    (hQ : ∀ {e} r k', Settled i r k' → Effect i k r e k' → Q r k')
    (hT : ∀ {e cont} r k', Settled i r k' → Begins i k cont → Resumed i k cont r e k' → Q r k') :
    (dispatch L (k.procs i).trapframe (k.arg i tfA7)).wp E Q k := by
  have hinert : ∀ {n}, k.sysno i = n →
      n ∈ [none, some .exec, some .fstat, some .chdir, some .sbrk, some .mkdir] → ∀ v, Inert i k v :=
    fun hnum hn _ => .other (hnum ▸ hn)
  rw [dispatch, ← Kernel.sysno]
  cases hnum : k.sysno i with
  | none => exact quiet_unknownSyscall.effect (hinert hnum (by decide)) h hb hQ
  | some n =>
    cases n with
    | fork => exact effect_sysFork hE h hb hQ hnum
    | exit => exact effect_sysExit hE h hb hQ hnum
    | wait => exact effect_sysWait hE h hb (fun c r cpu held => hstuck c r cpu held hnum) hT hnum
    | pipe => exact effect_sysPipe hE h hb hQ hnum
    | read => exact effect_sysRead hE h hb hQ hT hnum
    | exec => exact (quiet_sysExec hE).effect (hinert hnum (by decide)) h hb hQ
    | fstat => exact (quiet_sysFstat hE).effect (hinert hnum (by decide)) h hb hQ
    | chdir => exact (quiet_sysChdir hE).effect (hinert hnum (by decide)) h hb hQ
    | dup => exact effect_sysDup h hb hQ hnum
    | getpid => exact effect_sysGetpid h hb hQ hnum
    | sbrk => exact (quiet_sysSbrk hE).effect (hinert hnum (by decide)) h hb hQ
    | «open» => exact effect_sysOpen hE h hb hQ hnum
    | write => exact effect_sysWrite hE h hb hQ hT hnum
    | mkdir => exact (quiet_sysMkdir hE).effect (hinert hnum (by decide)) h hb hQ
    | close => exact effect_sysClose hE h hb hQ hnum

-- the modules above never look into the trap frame
attribute [irreducible] Kernel.arg

end ToyOs
