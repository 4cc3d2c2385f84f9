import ToyOs.Kernel.Descriptors

/-!
Transfers through pipes and the console. The rules for the two kinds of queues
are lifted to steady kernels: a transfer takes bytes from the front of a queue
or appends to it and wakes those whom that concerns, or it puts its caller to
sleep with the rest of the call.
-/
namespace ToyOs

open Bytes Ring Function

variable {Q : Outcome (List UInt8) → Kernel → Prop}

/-- The cursors of the console and of the pipes in use are in order. -/
structure Kernel.Buffers (k : Kernel) : Prop where
  input : k.input.Ok
  pipes : ∀ q, (k.pipes q).used = true → (k.pipes q).Ok

/-- Processes were at most woken; nothing else of the tables has changed. -/
structure Woken (k k' : Kernel) : Prop where
  procs : ∀ j, ∃ st, k'.procs j = { k.procs j with state := st }
  lives : k'.obs.lives = k.obs.lives
  ram : k'.ram = k.ram
  fs : k'.fs = k.fs
  ftable : k'.ftable = k.ftable
  pipes : k'.pipes = k.pipes
  input : k'.input = k.input
  nextPid : k'.nextPid = k.nextPid
  initproc : k'.initproc = k.initproc

/-- The process sleeps and will go on with `cont`. -/
structure Dozing (i : ProcRef) (cont : Cont) (k k' : Kernel) : Prop where
  asleep : (k'.procs i).state = .sleeping
  woken : ∃ ch b, Woken { k with
    procs := Function.update k.procs i { k.procs i with
      chan := ch, state := .sleeping, cont := cont, intena := b } } k'

/-- The process has a descriptor for one end of the pipe. -/
def HoldsEnd (i : ProcRef) (p : PipeRef) (w : Bool) (k : Kernel) : Prop :=
  ∃ fd f, (k.procs i).ofile fd = some f ∧ (k.ftable f).kind = .pipe p ∧ (k.ftable f).writable = w

/-- A pipe with an end that somebody holds is in use. -/
theorem HoldsEnd.used {ls : List Lock} {x : List FileRef} {y : Option PipeRef} {cur : Option ProcRef}
    {k : Kernel} {i : ProcRef} {p : PipeRef} {w : Bool} (he : HoldsEnd i p w k)
    (h : Steady ls x y cur k) : (k.pipes p).used = true := by
  obtain ⟨fd, f, -, hkind, hw⟩ := he
  rw [h.tables.accounts.used]
  cases w with
  | false => exact .inl ((h.tables.accounts.reading p).mpr (.inr ⟨f, hkind, hw⟩))
  | true => exact .inr ((h.tables.accounts.writing p).mpr (.inr ⟨f, hkind, hw⟩))

section Tables

variable {x : List FileRef} {y : Option PipeRef} {cur : Option ProcRef} {P : ProcRef → Process}
  {Ft : FileRef → File} {Pi : PipeRef → Pipe} {In : Input} {p : PipeRef} {q : Pipe}

/-- The bytes of a pipe do not matter to the accounts. -/
theorem Accounts.setContents (h : Accounts x y P Ft Pi) (hused : q.used = (Pi p).used)
    (hread : q.readopen = (Pi p).readopen) (hwrite : q.writeopen = (Pi p).writeopen) :
    Accounts x y P Ft (update Pi p q) where
  count := h.count
  closed := h.closed
  oneWay := h.oneWay
  unique := h.unique
  reading r := by
    rw [← h.reading r]
    by_cases hr : r = p
    · subst hr
      rw [update_self, hread]
    · rw [update_of_ne hr]
  writing r := by
    rw [← h.writing r]
    by_cases hr : r = p
    · subst hr
      rw [update_self, hwrite]
    · rw [update_of_ne hr]
  used r := by
    by_cases hr : r = p
    · subst hr
      rw [update_self, hused, hread, hwrite]
      exact h.used r
    · rw [update_of_ne hr]
      exact h.used r
  new := h.new

/-- Bytes are taken from a pipe, and its writers are woken. -/
theorem Tables.takePipe {n : ℕ} (h : Tables x y cur P Ft Pi In)
    (hready : ¬ ((Pi p).nread = (Pi p).nwrite ∧ (Pi p).writeopen = true)) :
    Tables x y cur (fun j => wakeProc (writeChan p) (P j)) Ft
      (update Pi p ((Pi p).take n)) In := by
  have hacc : Accounts x y P Ft (update Pi p ((Pi p).take n)) :=
    h.accounts.setContents rfl rfl rfl
  apply h.wake hacc h.parked
  intro ch hch hwaits
  by_cases hp : ch = .pipeRead p
  · subst hp
    exact absurd hwaits hready
  · exact hwaits.setPipe hp fun hw => hch (congrArg some hw)

/-- Bytes are stored in a pipe, and its readers are woken. -/
theorem Tables.storePipe {bytes : List UInt8} (h : Tables x y cur P Ft Pi In)
    (hq : Stored (Pi p) bytes q) :
    Tables x y cur (fun j => wakeProc (readChan p) (P j)) Ft (update Pi p q) In := by
  apply h.wake (h.accounts.setContents hq.used hq.readopen hq.writeopen) h.parked
  intro ch hch hwaits
  by_cases hp : ch = .pipeWrite p
  · -- A full pipe has no room for more bytes, so none were stored.
    subst hp
    obtain ⟨hfull, hopen⟩ := hwaits
    have hok := hq.ok.full
    have hread := hq.nread
    have hwrite := hq.nwrite
    refine ⟨?_, ?_⟩
    · rw [update_self]
      omega
    · rw [update_self, hq.readopen, hopen]
  · exact hwaits.setPipe (fun hr => hch (congrArg some hr)) hp

/-- Bytes are received or taken at the console without a change of what is
committed, or its readers are woken. -/
theorem Tables.setInput {In' : Input} (h : Tables x y cur P Ft Pi In)
    (hin : In.r = In.w → In'.r = In'.w) : Tables x y cur P Ft Pi In' := by
  apply h.set h.accounts h.parked
  intro i ch _ _ hwaits
  cases ch with
  | input => exact hin hwaits
  | _ => exact hwaits

theorem Tables.wakeInput {In' : Input} (h : Tables x y cur P Ft Pi In) :
    Tables x y cur (fun j => wakeProc (some .input) (P j)) Ft Pi In' := by
  apply h.wake h.accounts h.parked
  intro ch hch hwaits
  cases ch with
  | input => exact absurd rfl hch
  | _ => exact hwaits

end Tables

variable {k : Kernel} {E : Panic → Prop} {i : ProcRef} {p : PipeRef} {cap buf : ℕ}

theorem woken_lives {chan : Option Chan} {P : ProcRef → Process} :
    (fun j => (wakeProc chan (P j)).life) = fun j => (P j).life := funext fun _ => wakeProc_life

/-- The running process goes to sleep without a change of its life. -/
theorem life_sleeping {q : Process} {ch : Option Chan} {cont : Cont} {b : Bool}
    (h : q.state = .running) :
    Process.life { q with chan := ch, state := .sleeping, cont := cont, intena := b } = q.life := by
  simp only [Process.life, h, ProcState.status]

theorem lives_sleeping {P : ProcRef → Process} {ch : Option Chan} {cont : Cont} {b : Bool}
    (h : (P i).state = .running) :
    (fun j => (update P i { P i with
      chan := ch, state := .sleeping, cont := cont, intena := b } j).life) = fun j => (P j).life :=
  life_update (life_sleeping h)

/-- A read of a pipe by a process that has its read end open. -/
theorem wp_readPipe (h : Steady [.pipe p] [] none (some i) k) (hok : (k.pipes p).Ok)
    (hcap : 0 < cap) (hend : HoldsEnd i p false k)
    (hdone : ∀ k', Steady [] [] none (some i) k' →
      ¬ ((k.pipes p).nread = (k.pipes p).nwrite ∧ (k.pipes p).writeopen = true) →
      Woken { k with
        pipes := update k.pipes p
          ((k.pipes p).take ((k.pipes p).queue.take cap).length) } k' →
      Q (.done ((k.pipes p).queue.take cap)) k')
    (hblock : ∀ k', Steady [] [] none none k' → (k.pipes p).nread = (k.pipes p).nwrite →
      (k.pipes p).writeopen = true → Dozing i (.pipeRead p cap buf) k k' → Q .blocked k') :
    (pipeReadLoop p cap buf).wp E Q k := by
  have hrun := (h.tables.running i).mpr rfl
  refine wp_pipeReadLoop h.hart hok (fun m c held hh hm hready => ?_) fun c held b hh heq hopen => ?_
  · subst hm
    apply hdone
    · exact ⟨hh, h.tables.takePipe hready, h.fs⟩
    · exact hready
    · exact ⟨fun j => wakeProc_state _, woken_lives, rfl, rfl, rfl, rfl, rfl, rfl, rfl⟩
  · apply hblock
    · refine ⟨hh, ?_, h.fs⟩
      apply h.tables.leave
      · rfl
      · exact life_sleeping hrun
      · exact ⟨hcap, hend⟩
      · exact .inr ⟨rfl, rfl, .pipeRead p, rfl, heq, hopen⟩
    · exact heq
    · exact hopen
    · refine ⟨?_, _, _, fun j => ⟨_, rfl⟩, rfl, rfl, rfl, rfl, rfl, rfl, rfl, rfl⟩
      simp only [update_self]

/-- A write to a pipe by a process that has its write end open. -/
theorem wp_writePipe {src : List UInt8} {n : ℕ} (hn : n ≤ src.length)
    (h : Steady [.pipe p] [] none (some i) k) (hok : (k.pipes p).Ok)
    (hend : HoldsEnd i p true k) {Q : Outcome (Option ℕ) → Kernel → Prop}
    (hdone : ∀ q k', Steady [] [] none (some i) k' → Stored (k.pipes p) (src.drop n) q →
      Woken { k with pipes := update k.pipes p q } k' → Q (.done (some src.length)) k')
    (hfail : ∀ k', Steady [] [] none (some i) k' → (k.pipes p).readopen = false → Woken k k' →
      Q (.done none) k')
    (hblock : ∀ q m k', Steady [] [] none none k' → n ≤ m → m < src.length →
      Stored (k.pipes p) ((src.take m).drop n) q → q.nwrite = q.nread + pipesize →
      (k.pipes p).readopen = true →
      Dozing i (.pipeWrite p src m) { k with pipes := update k.pipes p q } k' →
      Q .blocked k') :
    (pipeWriteLoop p src (src.length - n) n).wp E Q k := by
  have hrun := (h.tables.running i).mpr rfl
  refine wp_pipeWriteLoop hn h.hart hok (fun q c held hh hq => ?_) (fun c held hh hro => ?_)
    fun q c held b m hh hnm hm hq hfull hopen => ?_
  · apply hdone q
    · exact ⟨hh, h.tables.storePipe hq, h.fs⟩
    · exact hq
    · exact ⟨fun j => wakeProc_state _, woken_lives, rfl, rfl, rfl, rfl, rfl, rfl, rfl⟩
  · apply hfail
    · exact ⟨hh, h.tables, h.fs⟩
    · exact hro
    · exact ⟨fun j => ⟨_, rfl⟩, rfl, rfl, rfl, rfl, rfl, rfl, rfl, rfl⟩
  · have hrun' : (wakeProc (readChan p) (k.procs i)).state = .running := wakeProc_running.mpr hrun
    have htabs := h.tables.storePipe hq
    apply hblock q m
    · refine ⟨hh, ?_, h.fs⟩
      apply htabs.leave
      · rfl
      · exact life_sleeping hrun'
      · obtain ⟨fd, f, hfd, hf⟩ := hend
        refine ⟨hm, fd, f, ?_, hf⟩
        rw [wakeProc_ofile]
        exact hfd
      · refine .inr ⟨rfl, rfl, .pipeWrite p, rfl, ?_, ?_⟩
        · rw [update_self]
          exact hfull
        · rw [update_self, hq.readopen]
          exact hopen
    · exact hnm
    · exact hm
    · exact hq
    · exact hfull
    · exact hopen
    · refine ⟨?_, some (.pipeWrite p), b, fun j => ?_, ?_, rfl, rfl, rfl, rfl, rfl, rfl, rfl⟩
      · simp only [update_self]
      · by_cases hj : j = i
        · subst hj
          refine ⟨.sleeping, ?_⟩
          simp only [update_self]
          obtain ⟨st, hst⟩ := @wakeProc_state (readChan p) (k.procs j)
          rw [hst]
        · simp only [update_of_ne hj]
          exact wakeProc_state _
      · simp only [Kernel.obs]
        rw [lives_sleeping (P := fun j => wakeProc (readChan p) (k.procs j)) hrun', woken_lives,
          lives_sleeping hrun]

/-- An empty queue stays empty when a read takes bytes from it. -/
theorem readLine_empty {a b : Input} {got bytes : List UInt8} (h : Drained a b) (hr : a.r = a.w)
    (hline : readLine cap got a.line.queue = .done bytes b.line.queue) : b.r = b.w := by
  have hqueue : a.line.queue = [] := by
    change slice inputBuf a.buf a.r a.w = []
    rw [hr, slice_self]
  have hrest : b.line.queue = [] := by
    rw [hqueue, readLine] at hline
    split_ifs at hline
    exact (ReadEnd.done.inj hline).2.symm
  have hlen : b.line.queue.length = b.w - b.r := slice_length
  rw [hrest, List.length_nil] at hlen
  have hle := h.ok.r_le
  omega

/-- A read of the console that has got some bytes already. -/
theorem wp_readConsole {got : List UInt8} (h : Steady [.console] [] none (some i) k)
    (hok : k.input.Ok) (hgot : got.length ≤ cap)
    (hdone : ∀ In bytes k', Steady [] [] none (some i) k' → Drained k.input In →
      readLine cap got k.input.line.queue = .done bytes In.line.queue →
      Woken { k with input := In } k' → Q (.done bytes) k')
    (hblock : ∀ In more k', Steady [] [] none none k' → Drained k.input In → In.r = In.w →
      more.length < cap → readLine cap got k.input.line.queue = .blocked more →
      Dozing i (.consoleRead more cap buf) { k with input := In } k' → Q .blocked k') :
    (consoleReadLoop cap buf (cap - got.length) got).wp E Q k := by
  have hrun := (h.tables.running i).mpr rfl
  refine wp_consoleReadLoop h.hart hok hgot (fun In c held bytes hh hIn hline => ?_)
    fun In c held b more hh hIn hr hmore hline => ?_
  · apply hdone In bytes
    · exact ⟨hh, h.tables.setInput fun hr => readLine_empty hIn hr hline, h.fs⟩
    · exact hIn
    · exact hline
    · exact ⟨fun j => ⟨_, rfl⟩, rfl, rfl, rfl, rfl, rfl, rfl, rfl, rfl⟩
  · apply hblock In more
    · refine ⟨hh, ?_, h.fs⟩
      apply (h.tables.setInput fun _ => hr).leave
      · rfl
      · exact life_sleeping hrun
      · exact hmore
      · exact .inr ⟨rfl, rfl, .input, rfl, hr⟩
    · exact hIn
    · exact hr
    · exact hmore
    · exact hline
    · refine ⟨?_, _, _, fun j => ⟨_, rfl⟩, rfl, rfl, rfl, rfl, rfl, rfl, rfl, rfl⟩
      simp only [update_self]

end ToyOs
