import ToyOs.Kernel.Accounts
import ToyOs.Fs.Resting

/-!
The invariant of the process layer at a scheduling point, and what the
primitives do to it. It ties the process table to the files, the pipes and the
console: a process that sleeps waits for something that has not happened, and
a process that was switched out in the middle of a call still has what the
call works on. What most calls leave alone is collected in `Obs`.
-/
namespace ToyOs

open Function

/-- The bytes in a pipe and its two counters. -/
structure Contents where
  data : ℕ → UInt8
  nread : ℕ
  nwrite : ℕ

def Pipe.contents (q : Pipe) : Contents := ⟨q.data, q.nread, q.nwrite⟩

/-- The states of a process without the way it waits for the hart. -/
inductive Status
  | unused
  | used
  | alive
  | zombie
  deriving DecidableEq

def ProcState.status : ProcState → Status
  | .unused => .unused
  | .used => .used
  | .runnable => .alive
  | .running => .alive
  | .sleeping => .alive
  | .zombie => .zombie

theorem ProcState.eq_unused {s : ProcState} (h : s.status = .unused) : s = .unused := by
  cases s with
  | unused => rfl
  | _ => cases h

/-- What `fork`, `exit` and `wait` change of a process. -/
structure Life where
  status : Status
  pid : ℕ
  parent : Option ProcRef
  xstate : ℤ
  deriving DecidableEq

def Process.life (p : Process) : Life := ⟨p.state.status, p.pid, p.parent, p.xstate⟩

/-- The pages of a process, its size and its working directory. -/
def Process.holdings (p : Process) : ℕ × ℕ × ℕ × ℕ × Fs.InodeRef :=
  (p.trapframe, p.pagetable, p.kstack, p.sz, p.cwd)

structure Obs where
  input : Input
  contents : PipeRef → Contents
  lives : ProcRef → Life
  nextPid : ℕ
  initproc : Option ProcRef

def Kernel.obs (k : Kernel) : Obs where
  input := k.input
  contents := fun p => (k.pipes p).contents
  lives := fun i => (k.procs i).life
  nextPid := k.nextPid
  initproc := k.initproc

/-- The channel of a call that waits in `sleep`. -/
def Cont.chan (i : ProcRef) : Cont → Option Chan
  | .forkret => none
  | .yield => none
  | .wait _ => some (.proc i)
  | .pipeRead p _ _ => some (.pipeRead p)
  | .pipeWrite p _ _ => some (.pipeWrite p)
  | .consoleRead _ _ _ => some .input

/-- A process that sleeps on the channel has nothing to wake up for. -/
def Waits (lives : ProcRef → Life) (Pi : PipeRef → Pipe) (In : Input) : Chan → Prop
  | .proc i => (∃ j, (lives j).parent = some i ∧ (lives j).status ≠ .unused) ∧
      ∀ j, (lives j).parent = some i → (lives j).status ≠ .zombie
  | .pipeRead p => (Pi p).nread = (Pi p).nwrite ∧ (Pi p).writeopen = true
  | .pipeWrite p => (Pi p).nwrite = (Pi p).nread + pipesize ∧ (Pi p).readopen = true
  | .input => In.r = In.w

/-- What a process that was switched out relies on. -/
def Parked (Ft : FileRef → File) (p : Process) : Prop :=
  match p.cont with
  | .pipeRead q cap _ => 0 < cap ∧
    ∃ fd f, p.ofile fd = some f ∧ (Ft f).kind = .pipe q ∧ (Ft f).writable = false
  | .pipeWrite q src n => n < src.length ∧
    ∃ fd f, p.ofile fd = some f ∧ (Ft f).kind = .pipe q ∧ (Ft f).writable = true
  | .consoleRead got cap _ => got.length < cap
  | _ => True

/-- The invariant of the tables, with the process that runs. -/
structure Tables (x : List FileRef) (y : Option PipeRef) (cur : Option ProcRef)
    (P : ProcRef → Process) (Ft : FileRef → File) (Pi : PipeRef → Pipe) (In : Input) : Prop where
  accounts : Accounts x y P Ft Pi
  chan : ∀ i, (P i).state = .sleeping → (P i).chan = (P i).cont.chan i
  asleep : ∀ i, (P i).state = .sleeping →
    ∃ ch, (P i).chan = some ch ∧ Waits (fun j => (P j).life) Pi In ch
  parked : ∀ i, (P i).state = .sleeping ∨ (P i).state = .runnable → Parked Ft (P i)
  idle : ∀ i, (P i).state.status ≠ .alive → ∀ fd, (P i).ofile fd = none
  orphan : ∀ i, (P i).state = .unused → (P i).parent = none
  running : ∀ i, (P i).state = .running ↔ cur = some i

variable {x x' : List FileRef} {y y' : Option PipeRef} {cur : Option ProcRef}
  {P : ProcRef → Process} {Ft Ft' : FileRef → File} {Pi Pi' : PipeRef → Pipe} {In In' : Input}
  {i : ProcRef} {p : Process}

theorem wakeProc_life {chan : Option Chan} : (wakeProc chan p).life = p.life := by
  unfold wakeProc
  split_ifs with h
  · simp [Process.life, h.1, ProcState.status]
  · rfl

theorem wakeProc_ofile {chan : Option Chan} : (wakeProc chan p).ofile = p.ofile := by
  unfold wakeProc
  split_ifs <;> rfl

theorem wakeProc_holdings {chan : Option Chan} : (wakeProc chan p).holdings = p.holdings := by
  unfold wakeProc
  split_ifs <;> rfl

theorem wakeProc_cont {chan : Option Chan} : (wakeProc chan p).cont = p.cont := by
  unfold wakeProc
  split_ifs <;> rfl

theorem wakeProc_chan {chan : Option Chan} : (wakeProc chan p).chan = p.chan := by
  unfold wakeProc
  split_ifs <;> rfl

theorem wakeProc_sleeping {chan : Option Chan} :
    (wakeProc chan p).state = .sleeping ↔ p.state = .sleeping ∧ p.chan ≠ chan := by
  unfold wakeProc
  split_ifs with h
  · simp [h.2]
  · grind

theorem wakeProc_unused {chan : Option Chan} :
    (wakeProc chan p).state = .unused ↔ p.state = .unused := by
  unfold wakeProc
  split_ifs with h
  · simp [h.1]
  · rfl

theorem wakeProc_running {chan : Option Chan} :
    (wakeProc chan p).state = .running ↔ p.state = .running := by
  unfold wakeProc
  split_ifs with h
  · simp [h.1]
  · rfl

/-- A process that waits for the hart or for something did so before. -/
theorem wakeProc_waiting {chan : Option Chan}
    (h : (wakeProc chan p).state = .sleeping ∨ (wakeProc chan p).state = .runnable) :
    p.state = .sleeping ∨ p.state = .runnable := by
  unfold wakeProc at h
  split_ifs at h with hs
  · exact .inl hs.1
  · exact h

theorem Parked.congr {q : Process} (h : Parked Ft p) (hcont : q.cont = p.cont)
    (hofile : q.ofile = p.ofile) : Parked Ft q := by
  unfold Parked at *
  rw [hcont, hofile]
  exact h

/-- Only the pipe ends that the process has open matter. -/
theorem Parked.files (h : Parked Ft p)
    (hfiles : ∀ fd f q, p.ofile fd = some f → (Ft f).kind = .pipe q →
      (Ft' f).kind = .pipe q ∧ (Ft' f).writable = (Ft f).writable) : Parked Ft' p := by
  have hend : ∀ q w, (∃ fd f, p.ofile fd = some f ∧ (Ft f).kind = .pipe q ∧ (Ft f).writable = w) →
      ∃ fd f, p.ofile fd = some f ∧ (Ft' f).kind = .pipe q ∧ (Ft' f).writable = w := by
    rintro q w ⟨fd, f, hfd, hkind, hw⟩
    obtain ⟨hkind', hw'⟩ := hfiles fd f q hfd hkind
    exact ⟨fd, f, hfd, hkind', hw'.trans hw⟩
  unfold Parked at *
  cases hcont : p.cont with
  | pipeRead q cap buf =>
    rw [hcont] at h
    exact ⟨h.1, hend q false h.2⟩
  | pipeWrite q src n =>
    rw [hcont] at h
    exact ⟨h.1, hend q true h.2⟩
  | consoleRead got cap buf =>
    rw [hcont] at h
    exact h
  | forkret => trivial
  | yield => trivial
  | wait va => trivial

/-- The rest of the tables changes in a way that concerns only the sleepers on
one channel, and these are woken. -/
theorem Tables.wake {chan : Option Chan} (h : Tables x y cur P Ft Pi In)
    (hacc : Accounts x' y' P Ft' Pi')
    (hparked : ∀ i, (P i).state = .sleeping ∨ (P i).state = .runnable → Parked Ft' (P i))
    (hwaits : ∀ ch, some ch ≠ chan → Waits (fun j => (P j).life) Pi In ch →
      Waits (fun j => (P j).life) Pi' In' ch) :
    Tables x' y' cur (fun i => wakeProc chan (P i)) Ft' Pi' In' where
  accounts := hacc.congr fun i => wakeProc_ofile
  chan i hi := by
    rw [wakeProc_chan, wakeProc_cont]
    exact h.chan i (wakeProc_sleeping.mp hi).1
  asleep i hi := by
    obtain ⟨hs, hne⟩ := wakeProc_sleeping.mp hi
    obtain ⟨ch, hch, hw⟩ := h.asleep i hs
    refine ⟨ch, by rw [wakeProc_chan, hch], ?_⟩
    simp only [wakeProc_life]
    exact hwaits ch (hch ▸ hne) hw
  parked i hi := (hparked i (wakeProc_waiting hi)).congr wakeProc_cont wakeProc_ofile
  idle i hi := by
    have hstatus : (wakeProc chan (P i)).state.status = (P i).state.status :=
      congrArg Life.status wakeProc_life
    rw [wakeProc_ofile]
    exact h.idle i (hstatus ▸ hi)
  orphan i hi := by
    have hparent : (wakeProc chan (P i)).parent = (P i).parent :=
      congrArg Life.parent wakeProc_life
    rw [hparent]
    exact h.orphan i (wakeProc_unused.mp hi)
  running i := by
    rw [wakeProc_running]
    exact h.running i

/-- The files and pipes change and no sleeper is concerned. -/
theorem Tables.set (h : Tables x y cur P Ft Pi In) (hacc : Accounts x' y' P Ft' Pi')
    (hparked : ∀ i, (P i).state = .sleeping ∨ (P i).state = .runnable → Parked Ft' (P i))
    (hwaits : ∀ i ch, (P i).state = .sleeping → (P i).chan = some ch →
      Waits (fun j => (P j).life) Pi In ch → Waits (fun j => (P j).life) Pi' In' ch) :
    Tables x' y' cur P Ft' Pi' In' where
  accounts := hacc
  chan := h.chan
  asleep i hi := by
    obtain ⟨ch, hch, hw⟩ := h.asleep i hi
    exact ⟨ch, hch, hwaits i ch hi hch hw⟩
  parked := hparked
  idle := h.idle
  orphan := h.orphan
  running := h.running

/-- One file changes. A descriptor that points at it still finds the same end
of a pipe. -/
theorem Tables.setFile {f : FileRef} {g : File} (h : Tables x y cur P Ft Pi In)
    (hacc : Accounts x' y' P (update Ft f g) Pi)
    (hf : ∀ i fd q, (P i).ofile fd = some f → (Ft f).kind = .pipe q →
      g.kind = .pipe q ∧ g.writable = (Ft f).writable) :
    Tables x' y' cur P (update Ft f g) Pi In := by
  apply h.set hacc
  · intro i hi
    apply (h.parked i hi).files
    intro fd a q hfd hkind
    by_cases ha : a = f
    · subst ha
      rw [update_self]
      exact hf i fd q hfd hkind
    · rw [update_of_ne ha]
      exact ⟨hkind, rfl⟩
  · exact fun _ _ _ _ hw => hw

/-- A process that sleeps on a pipe has one of its ends open. -/
theorem Tables.sleeper_end {q : PipeRef} (h : Tables x y cur P Ft Pi In)
    (hs : (P i).state = .sleeping)
    (hch : (P i).chan = some (.pipeRead q) ∨ (P i).chan = some (.pipeWrite q)) :
    ∃ f, (Ft f).kind = .pipe q := by
  have hchan := h.chan i hs
  have hparked := h.parked i (Or.inl hs)
  unfold Parked at hparked
  cases hcont : (P i).cont with
  | pipeRead r cap buf =>
    rw [hcont] at hparked hchan
    obtain ⟨-, fd, f, -, hkind, -⟩ := hparked
    simp only [hchan, Cont.chan, Option.some.injEq, Chan.pipeRead.injEq, reduceCtorEq, or_false] at hch
    exact ⟨f, hch ▸ hkind⟩
  | pipeWrite r src n =>
    rw [hcont] at hparked hchan
    obtain ⟨-, fd, f, -, hkind, -⟩ := hparked
    simp only [hchan, Cont.chan, Option.some.injEq, Chan.pipeWrite.injEq, reduceCtorEq, false_or] at hch
    exact ⟨f, hch ▸ hkind⟩
  | forkret => simp [hchan, hcont, Cont.chan] at hch
  | yield => simp [hchan, hcont, Cont.chan] at hch
  | wait va => simp [hchan, hcont, Cont.chan] at hch
  | consoleRead got cap buf => simp [hchan, hcont, Cont.chan] at hch

/-- Whoever does not wait for the pipe is not concerned by it. -/
theorem Waits.setPipe {lives : ProcRef → Life} {r : PipeRef} {q : Pipe} {ch : Chan}
    (h : Waits lives Pi In ch) (hread : ch ≠ .pipeRead r) (hwrite : ch ≠ .pipeWrite r) :
    Waits lives (update Pi r q) In ch := by
  cases ch with
  | proc i => exact h
  | input => exact h
  | pipeRead s =>
    have hs : s ≠ r := fun heq => hread (heq ▸ rfl)
    simpa [Waits, update_of_ne hs] using h
  | pipeWrite s =>
    have hs : s ≠ r := fun heq => hwrite (heq ▸ rfl)
    simpa [Waits, update_of_ne hs] using h

/-- A pipe without files changes; nobody waits for it. -/
theorem Tables.setPipe {r : PipeRef} {q : Pipe} (h : Tables x y cur P Ft Pi In)
    (hacc : Accounts x' y' P Ft (update Pi r q)) (hnone : ∀ f, (Ft f).kind ≠ .pipe r) :
    Tables x' y' cur P Ft (update Pi r q) In := by
  apply h.set hacc h.parked
  intro i ch hs hch hw
  apply hw.setPipe
  · rintro rfl
    obtain ⟨f, hf⟩ := h.sleeper_end hs (Or.inl hch)
    exact hnone f hf
  · rintro rfl
    obtain ⟨f, hf⟩ := h.sleeper_end hs (Or.inr hch)
    exact hnone f hf

theorem life_update (hlife : p.life = (P i).life) :
    (fun j => (update P i p j).life) = fun j => (P j).life := by
  funext j
  by_cases hj : j = i
  · subst hj
    rw [update_self, hlife]
  · rw [update_of_ne hj]

/-- One process changes. The others are as before, and those that sleep are
not concerned. -/
theorem Tables.replace {cur' : Option ProcRef} (h : Tables x y cur P Ft Pi In)
    (hacc : Accounts x' y' (update P i p) Ft Pi)
    (hcur : ∀ j, j ≠ i → (cur' = some j ↔ cur = some j))
    (hwaits : ∀ j ch, (P j).state = .sleeping → (P j).chan = some ch →
      Waits (fun j => (P j).life) Pi In ch →
      Waits (fun j => (update P i p j).life) Pi In ch)
    (hrunning : p.state = .running ↔ cur' = some i)
    (hchan : p.state = .sleeping → p.chan = p.cont.chan i ∧
      ∃ ch, p.chan = some ch ∧ Waits (fun j => (update P i p j).life) Pi In ch)
    (hparked : p.state = .sleeping ∨ p.state = .runnable → Parked Ft p)
    (hidle : p.state.status ≠ .alive → ∀ fd, p.ofile fd = none)
    (horphan : p.state = .unused → p.parent = none) :
    Tables x' y' cur' (update P i p) Ft Pi In := by
  have hother : ∀ j, j ≠ i → update P i p j = P j := fun j hj => update_of_ne hj ..
  constructor
  · exact hacc
  · intro j hj
    by_cases hji : j = i
    · subst hji
      rw [update_self] at hj ⊢
      exact (hchan hj).1
    · rw [hother j hji] at hj ⊢
      exact h.chan j hj
  · intro j hj
    by_cases hji : j = i
    · subst hji
      rw [update_self] at hj
      obtain ⟨ch, hch, hw⟩ := (hchan hj).2
      exact ⟨ch, by rw [update_self, hch], hw⟩
    · rw [hother j hji] at hj
      obtain ⟨ch, hch, hw⟩ := h.asleep j hj
      exact ⟨ch, by rw [hother j hji, hch], hwaits j ch hj hch hw⟩
  · intro j hj
    by_cases hji : j = i
    · subst hji
      rw [update_self] at hj ⊢
      exact hparked hj
    · rw [hother j hji] at hj ⊢
      exact h.parked j hj
  · intro j hj
    by_cases hji : j = i
    · subst hji
      rw [update_self] at hj ⊢
      exact hidle hj
    · rw [hother j hji] at hj ⊢
      exact h.idle j hj
  · intro j hj
    by_cases hji : j = i
    · subst hji
      rw [update_self] at hj ⊢
      exact horphan hj
    · rw [hother j hji] at hj ⊢
      exact h.orphan j hj
  · intro j
    by_cases hji : j = i
    · subst hji
      rw [update_self]
      exact hrunning
    · rw [hother j hji, hcur j hji]
      exact h.running j

theorem ofile_update (hofile : p.ofile = (P i).ofile) (j : ProcRef) :
    (update P i p j).ofile = (P j).ofile := by
  by_cases hj : j = i
  · subst hj
    rw [update_self, hofile]
  · rw [update_of_ne hj]

/-- Something of a process changes that the tables do not speak of. -/
theorem Tables.refit (h : Tables x y cur P Ft Pi In) (hstate : p.state = (P i).state)
    (hlife : p.life = (P i).life) (hofile : p.ofile = (P i).ofile) (hchan : p.chan = (P i).chan)
    (hcont : p.cont = (P i).cont) : Tables x y cur (update P i p) Ft Pi In := by
  apply h.replace (h.accounts.congr (ofile_update hofile))
  · exact fun _ _ => Iff.rfl
  · rw [life_update hlife]
    exact fun _ _ _ _ hw => hw
  · rw [hstate]
    exact h.running i
  · intro hs
    rw [hstate] at hs
    rw [life_update hlife, hchan, hcont]
    exact ⟨h.chan i hs, h.asleep i hs⟩
  · intro hs
    rw [hstate] at hs
    exact (h.parked i hs).congr hcont hofile
  · intro hs
    rw [hstate] at hs
    rw [hofile]
    exact h.idle i hs
  · intro hs
    rw [hstate] at hs
    exact (congrArg Life.parent hlife).trans (h.orphan i hs)

/-- The running process changes something of its own. -/
theorem Tables.own (h : Tables x y (some i) P Ft Pi In)
    (hacc : Accounts x' y' (update P i p) Ft Pi) (hstate : p.state = .running)
    (hlife : p.life = (P i).life) : Tables x' y' (some i) (update P i p) Ft Pi In := by
  apply h.replace hacc
  · exact fun _ _ => Iff.rfl
  · rw [life_update hlife]
    exact fun _ _ _ _ hw => hw
  · simp [hstate]
  · simp [hstate]
  · simp [hstate]
  · exact fun hs => absurd (by rw [hstate]; rfl) hs
  · simp [hstate]

/-- The running process gives the hart up and can go on later. -/
theorem Tables.leave (h : Tables x y (some i) P Ft Pi In) (hofile : p.ofile = (P i).ofile)
    (hlife : p.life = (P i).life) (hparked : Parked Ft p)
    (hstate : p.state = .runnable ∨ p.state = .sleeping ∧ p.chan = p.cont.chan i ∧
      ∃ ch, p.chan = some ch ∧ Waits (fun j => (P j).life) Pi In ch) :
    Tables x y none (update P i p) Ft Pi In := by
  apply h.replace (h.accounts.congr (ofile_update hofile))
  · exact fun j hj => ⟨fun hn => absurd hn.symm (Option.some_ne_none j),
      fun hs => absurd (Option.some.inj hs).symm hj⟩
  · rw [life_update hlife]
    exact fun _ _ _ _ hw => hw
  · rcases hstate with hs | ⟨hs, -⟩ <;> simp [hs]
  · rw [life_update hlife]
    rcases hstate with hs | ⟨-, hs⟩
    · simp [hs]
    · exact fun _ => hs
  · exact fun _ => hparked
  · rcases hstate with hs | ⟨hs, -⟩ <;> exact fun hne => absurd (by rw [hs]; rfl) hne
  · rcases hstate with hs | ⟨hs, -⟩ <;> simp [hs]

theorem Tables.enter (h : Tables x y none P Ft Pi In) (hofile : p.ofile = (P i).ofile)
    (hlife : p.life = (P i).life) (hstate : p.state = .running) :
    Tables x y (some i) (update P i p) Ft Pi In := by
  apply h.replace (h.accounts.congr (ofile_update hofile))
  · exact fun j hj => ⟨fun hs => absurd (Option.some.inj hs).symm hj,
      fun hn => absurd hn.symm (Option.some_ne_none j)⟩
  · rw [life_update hlife]
    exact fun _ _ _ _ hw => hw
  · simp [hstate]
  · simp [hstate]
  · simp [hstate]
  · exact fun hs => absurd (by rw [hstate]; rfl) hs
  · simp [hstate]

end ToyOs
