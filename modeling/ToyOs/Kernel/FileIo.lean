import ToyOs.Kernel.Calls

/-!
Reading and writing open files. What a read or write does depends on what
the file stands for: the console, an inode with an offset, or the end of a
pipe. A read or write either ends or leaves its caller asleep.
-/
namespace ToyOs

open Bytes Prog Function

variable {k k' : Kernel} {E : Panic → Prop} {i : ProcRef} {f : FileRef} {p : PipeRef} {cap buf : ℕ}
  {Q : Outcome (List UInt8) → Kernel → Prop} {cont : Cont}

/-- The process the hart runs after a piece of a call. -/
def Outcome.cur {α : Type} (i : ProcRef) : Outcome α → Option ProcRef
  | .done _ => some i
  | .blocked => none

/-- A read took what the pipe had, up to its size. -/
structure PipeGot (p : PipeRef) (cap : ℕ) (got : List UInt8) (k k' : Kernel) : Prop where
  ready : ¬ ((k.pipes p).nread = (k.pipes p).nwrite ∧ (k.pipes p).writeopen = true)
  front : got = (k.pipes p).queue.take cap
  woken : Woken { k with pipes := Function.update k.pipes p ((k.pipes p).take got.length) } k'

/-- A read of an empty pipe that can still be written waits. -/
structure PipeDry (i : ProcRef) (p : PipeRef) (cap buf : ℕ) (k k' : Kernel) : Prop where
  empty : (k.pipes p).nread = (k.pipes p).nwrite
  writeopen : (k.pipes p).writeopen = true
  dozing : Dozing i (.pipeRead p cap buf) k k'

/-- A write has stored the rest of its bytes. -/
structure PipePut (p : PipeRef) (src : List UInt8) (n : ℕ) (k k' : Kernel) : Prop where
  stored : Stored (k.pipes p) (src.drop n) (k'.pipes p)
  woken : Woken { k with pipes := Function.update k.pipes p (k'.pipes p) } k'

/-- A write has filled the pipe and waits with the bytes that are left. -/
structure PipeFull (i : ProcRef) (p : PipeRef) (src : List UInt8) (n m : ℕ) (k k' : Kernel) : Prop where
  le : n ≤ m
  lt : m < src.length
  stored : Stored (k.pipes p) ((src.take m).drop n) (k'.pipes p)
  full : (k'.pipes p).nwrite = (k'.pipes p).nread + pipesize
  readopen : (k.pipes p).readopen = true
  dozing : Dozing i (.pipeWrite p src m) { k with pipes := Function.update k.pipes p (k'.pipes p) } k'

/-- A read took bytes of the console after those it had. -/
structure LineGot (cap : ℕ) (got bytes : List UInt8) (k k' : Kernel) : Prop where
  drained : Drained k.input k'.input
  line : readLine cap got k.input.line.queue = .done bytes k'.input.line.queue
  woken : Woken { k with input := k'.input } k'

/-- A read has taken all that was committed and waits for more. -/
structure LineDry (i : ProcRef) (cap buf : ℕ) (got more : List UInt8) (k k' : Kernel) : Prop where
  drained : Drained k.input k'.input
  empty : k'.input.r = k'.input.w
  short : more.length < cap
  line : readLine cap got k.input.line.queue = .blocked more
  dozing : Dozing i (.consoleRead more cap buf) { k with input := k'.input } k'

/-- The state of the hart does not matter. -/
theorem Woken.of_hart {c : Cpu} {held : Lock → Bool}
    (h : Woken { k with cpu := c, held := held } k') : Woken k k' :=
  ⟨h.procs, h.lives, h.ram, h.fs, h.ftable, h.pipes, h.input, h.nextPid, h.initproc⟩

theorem Dozing.of_hart {c : Cpu} {held : Lock → Bool}
    (h : Dozing i cont { k with cpu := c, held := held } k') : Dozing i cont k k' := by
  obtain ⟨hs, ch, b, hw⟩ := h
  exact ⟨hs, ch, b, Woken.of_hart hw⟩

theorem Woken.buffers (h : Woken k k') (hb : k.Buffers) : k'.Buffers where
  input := by
    rw [h.input]
    exact hb.input
  pipes q hq := by
    rw [h.pipes] at hq ⊢
    exact hb.pipes q hq

theorem Dozing.pipes (h : Dozing i cont k k') : k'.pipes = k.pipes := by
  obtain ⟨ch, b, hw⟩ := h.woken
  exact hw.pipes

theorem Dozing.input (h : Dozing i cont k k') : k'.input = k.input := by
  obtain ⟨ch, b, hw⟩ := h.woken
  exact hw.input

theorem Dozing.buffers (h : Dozing i cont k k') (hb : k.Buffers) : k'.Buffers := by
  obtain ⟨ch, b, hw⟩ := h.woken
  exact hw.buffers ⟨hb.input, hb.pipes⟩

theorem Kernel.Buffers.setPipe {q : Pipe} (hb : k.Buffers) (hq : q.Ok) :
    Kernel.Buffers { k with pipes := update k.pipes p q } where
  input := hb.input
  pipes r hr := by
    by_cases hrp : r = p
    · subst hrp
      simp only [update_self]
      exact hq
    · simp only [update_of_ne hrp] at hr ⊢
      exact hb.pipes r hr

/-- The rest of a read of a pipe, with its lock held. -/
theorem wp_pipeGot (h : Steady [.pipe p] [] none (some i) k) (hb : k.Buffers) (hcap : 0 < cap)
    (hend : HoldsEnd i p false k)
    (hgot : ∀ got k', Steady [] [] none (some i) k' → k'.Buffers → PipeGot p cap got k k' →
      Q (.done got) k')
    (hdry : ∀ k', Steady [] [] none none k' → k'.Buffers → PipeDry i p cap buf k k' → Q .blocked k')
    :
    (pipeReadLoop p cap buf).wp E Q k := by
  have hok := hb.pipes p (hend.used h)
  refine wp_readPipe h hok hcap hend (fun k' h' hready hw => ?_) fun k' h' heq hopen hd => ?_
  · have htake : ((k.pipes p).take ((k.pipes p).queue.take cap).length).Ok := by
      apply hok.take
      rw [List.length_take, Pipe.queue_length]
      omega
    exact hgot _ k' h' (hw.buffers (hb.setPipe htake)) ⟨hready, rfl, hw⟩
  · exact hdry k' h' (hd.buffers hb) ⟨heq, hopen, hd⟩

/-- The rest of a read of the console, with its lock held. -/
theorem wp_lineGot {got : List UInt8} (h : Steady [.console] [] none (some i) k) (hb : k.Buffers)
    (hlen : got.length ≤ cap)
    (hgot : ∀ bytes k', Steady [] [] none (some i) k' → k'.Buffers → LineGot cap got bytes k k' →
      Q (.done bytes) k')
    (hdry : ∀ more k', Steady [] [] none none k' → k'.Buffers → LineDry i cap buf got more k k' →
      Q .blocked k') :
    (consoleReadLoop cap buf (cap - got.length) got).wp E Q k := by
  refine wp_readConsole h hb.input hlen (fun In bytes k' h' hd hline hw => ?_)
    fun In more k' h' hd hr hmore hline hz => ?_
  · have hin : k'.input = In := hw.input
    subst hin
    exact hgot bytes k' h' (hw.buffers ⟨hd.ok, hb.pipes⟩) ⟨hd, hline, hw⟩
  · have hin : k'.input = In := hz.input
    subst hin
    exact hdry more k' h' (hz.buffers ⟨hd.ok, hb.pipes⟩) ⟨hd, hr, hmore, hline, hz⟩

/-- The rest of a write to a pipe, with its lock held. -/
theorem wp_pipePut {src : List UInt8} {n : ℕ} (hn : n ≤ src.length)
    (h : Steady [.pipe p] [] none (some i) k) (hb : k.Buffers) (hend : HoldsEnd i p true k)
    {Q : Outcome (Option ℕ) → Kernel → Prop}
    (hput : ∀ k', Steady [] [] none (some i) k' → k'.Buffers → PipePut p src n k k' →
      Q (.done (some src.length)) k')
    (hshut : ∀ k', Steady [] [] none (some i) k' → k'.Buffers → (k.pipes p).readopen = false →
      Woken k k' → Q (.done none) k')
    (hfull : ∀ m k', Steady [] [] none none k' → k'.Buffers → PipeFull i p src n m k k' →
      Q .blocked k') :
    (pipeWriteLoop p src (src.length - n) n).wp E Q k := by
  have hok := hb.pipes p (hend.used h)
  refine wp_writePipe hn h hok hend (fun q k' h' hq hw => ?_) (fun k' h' hro hw => ?_)
    fun q m k' h' hnm hm hq hfl hopen hd => ?_
  · have hpipe : k'.pipes p = q := by
      rw [hw.pipes]
      exact update_self ..
    subst hpipe
    exact hput k' h' (hw.buffers (hb.setPipe hq.ok)) ⟨hq, hw⟩
  · exact hshut k' h' (hw.buffers hb) hro hw
  · have hpipe : k'.pipes p = q := by
      rw [hd.pipes]
      exact update_self ..
    subst hpipe
    exact hfull m k' h' (hd.buffers (hb.setPipe hq.ok)) ⟨hnm, hm, hq, hfl, hopen, hd⟩

end ToyOs
