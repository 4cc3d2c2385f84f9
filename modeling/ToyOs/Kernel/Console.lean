import ToyOs.Kernel.Tables
import ToyOs.Lib.Ring

/-!
The line discipline of the console. The three cursors of the input buffer
stand for a queue of committed bytes and a line that is being edited. Received
bytes act on the line and move it to the queue; a read takes bytes from the
front of the queue.
-/
namespace ToyOs

open Ring Prog Function List

/-- The committed bytes and the line being edited. -/
structure Line where
  queue : List UInt8
  edit : List UInt8
  deriving DecidableEq

def Line.fill (l : Line) : ℕ := l.queue.length + l.edit.length

/-- What a received byte does. -/
def Line.receive (l : Line) (c : UInt8) : Line :=
  let b := if c = carriageReturn then newline else c
  if b = backspace ∨ b = delete then
    { l with edit := l.edit.dropLast }
  else if l.fill = inputBuf then
    l
  else if b = newline ∨ b = eof ∨ l.fill + 1 = inputBuf then
    ⟨l.queue ++ l.edit ++ [b], []⟩
  else
    ⟨l.queue, l.edit ++ [b]⟩

/-- The end of a read: bytes for the reader and the queue that is left, or the
bytes so far when the queue runs empty first. -/
inductive ReadEnd
  | done (bytes rest : List UInt8)
  | blocked (got : List UInt8)
  deriving DecidableEq

/-- A read of at most `cap` bytes that has got some already. -/
def readLine (cap : ℕ) : List UInt8 → List UInt8 → ReadEnd
  | got, [] => if cap ≤ got.length then .done got [] else .blocked got
  | got, c :: rest =>
    if cap ≤ got.length then
      .done got (c :: rest)
    else if c = eof then
      if got = [] then .done [] rest else .done got (c :: rest)
    else if c = newline then
      .done (got ++ [c]) rest
    else
      readLine cap (got ++ [c]) rest

/-- The cursors are in order and at most a buffer apart. -/
structure Input.Ok (x : Input) : Prop where
  r_le : x.r ≤ x.w
  w_le : x.w ≤ x.e
  e_le : x.e ≤ x.r + inputBuf

def Input.line (x : Input) : Line where
  queue := slice inputBuf x.buf x.r x.w
  edit := slice inputBuf x.buf x.w x.e

theorem Input.Ok.fill_eq {x : Input} (h : x.Ok) : x.line.fill = x.e - x.r := by
  have hrw := h.r_le
  have hwe := h.w_le
  simp only [Line.fill, Input.line, slice_length]
  omega

/-- What `input_putc` leaves behind. -/
structure Received (a : Input) (c : UInt8) (b : Input) (woke : Bool) : Prop where
  ok : b.Ok
  r : b.r = a.r
  line : b.line = a.line.receive c
  quiet : woke = false → b.w = a.w

variable {k : Kernel} {E : Panic → Prop} {c : UInt8}

theorem wp_subUsize {σ : Type} {s : σ} {a b : ℕ} (h : b ≤ a) {Q : ℕ → σ → Prop} (hQ : Q (a - b) s) :
    (subUsize a b : Prog Panic σ ℕ).wp E Q s := by
  rw [subUsize, if_pos h]
  exact hQ

theorem Input.Ok.erase {x : Input} (h : x.Ok)
    (hb : (if c = carriageReturn then newline else c) = backspace ∨
      (if c = carriageReturn then newline else c) = delete) :
    Received x c (if x.e ≠ x.w then { x with e := x.e - 1 } else x) false := by
  have hrw := h.r_le
  have hwe := h.w_le
  have her := h.e_le
  have hline : x.line.receive c = { x.line with edit := slice inputBuf x.buf x.w (x.e - 1) } := by
    simp only [Line.receive, if_pos hb, Input.line, slice_dropLast]
  by_cases he : x.e = x.w
  · rw [if_neg (not_not.mpr he)]
    refine ⟨h, rfl, ?_, fun _ => rfl⟩
    rw [hline, slice_eq_nil (by omega)]
    simp only [Input.line, he, slice_self]
  · rw [if_pos he]
    refine ⟨⟨hrw, ?_, ?_⟩, rfl, hline.symm, fun _ => rfl⟩
    · change x.w ≤ x.e - 1
      omega
    · change x.e - 1 ≤ x.r + inputBuf
      omega

theorem Input.Ok.full {x : Input} (h : x.Ok)
    (hb : ¬ ((if c = carriageReturn then newline else c) = backspace ∨
      (if c = carriageReturn then newline else c) = delete))
    (hfull : inputBuf ≤ x.e - x.r) : Received x c x false := by
  have hfill : x.line.fill = inputBuf := by
    have her := h.e_le
    rw [h.fill_eq]
    omega
  refine ⟨h, rfl, ?_, fun _ => rfl⟩
  simp only [Line.receive, if_neg hb, if_pos hfill]

/-- A byte is stored, and the line is committed or not. -/
theorem Input.Ok.push {x : Input} (commit : Bool) (h : x.Ok) {b : UInt8}
    (hc : (if c = carriageReturn then newline else c) = b) (hb : ¬ (b = backspace ∨ b = delete))
    (hroom : x.e - x.r < inputBuf)
    (hcommit : commit = true ↔ b = newline ∨ b = eof ∨ x.e - x.r + 1 = inputBuf) :
    Received x c (if commit then { x.push b with w := x.e + 1 } else x.push b) commit := by
  have hrw := h.r_le
  have hwe := h.w_le
  have hqueue : slice inputBuf (x.push b).buf x.r x.w = slice inputBuf x.buf x.r x.w :=
    slice_update (by omega) hwe
  have hedit : slice inputBuf (x.push b).buf x.w (x.e + 1) = slice inputBuf x.buf x.w x.e ++ [b] := by
    have hbuf : (x.push b).buf = update x.buf (x.e % inputBuf) b := rfl
    rw [slice_push hwe, hbuf, slice_update (by omega) (Nat.le_refl _), update_self]
  have hfill : x.line.fill ≠ inputBuf := by
    rw [h.fill_eq]
    omega
  have hreceive : x.line.receive c = if commit then ⟨x.line.queue ++ x.line.edit ++ [b], []⟩
      else ⟨x.line.queue, x.line.edit ++ [b]⟩ := by
    have hif : (b = newline ∨ b = eof ∨ x.line.fill + 1 = inputBuf) ↔ commit = true := by
      rw [hcommit, h.fill_eq]
    simp only [Line.receive, hc, if_neg hb, if_neg hfill, hif]
  cases commit with
  | false =>
    refine ⟨⟨hrw, ?_, ?_⟩, rfl, ?_, fun _ => rfl⟩
    · change x.w ≤ x.e + 1
      omega
    · change x.e + 1 ≤ x.r + inputBuf
      omega
    · rw [hreceive]
      exact Line.mk.injEq .. |>.mpr ⟨hqueue, hedit⟩
  | true =>
    refine ⟨⟨?_, ?_, ?_⟩, rfl, ?_, fun hf => absurd hf (by decide)⟩
    · change x.r ≤ x.e + 1
      omega
    · exact Nat.le_refl _
    · change x.e + 1 ≤ x.r + inputBuf
      omega
    · rw [hreceive]
      refine Line.mk.injEq .. |>.mpr ⟨?_, slice_self⟩
      change slice inputBuf (x.push b).buf x.r (x.e + 1) = _
      rw [← slice_append hrw (by omega : x.w ≤ x.e + 1), hqueue, hedit, append_assoc]
      rfl

/-- `input_putc` never underflows and acts as the line discipline says. -/
theorem wp_inputPutc (h : k.input.Ok) {Q : Bool → Kernel → Prop}
    (hQ : ∀ x u woke, Received k.input c x woke → Q woke { k with input := x, uart := u }) :
    (inputPutc c).wp E Q k := by
  have hrw := h.r_le
  have hwe := h.w_le
  unfold inputPutc
  generalize hc : (if c = carriageReturn then newline else c) = b
  simp only [wp_bind, wp_get, wp_ite, modifyInput, putc, wp_modify, wp_pure]
  constructor
  · intro hb
    have herase := h.erase (c := c) (by rwa [hc])
    constructor
    · intro he
      rw [if_pos he] at herase
      refine wp_subUsize (by omega) ?_
      exact hQ _ _ _ herase
    · intro he
      rw [if_neg he] at herase
      exact hQ _ _ _ herase
  · intro hb
    refine wp_subUsize (by omega) ⟨?_, ?_⟩
    · intro hfull
      exact hQ _ _ _ (h.full (by rwa [hc]) hfull)
    · intro hroom
      have hroom' : k.input.e - k.input.r < inputBuf := Nat.lt_of_not_le hroom
      constructor
      · intro heof
        exact hQ _ _ true (h.push true hc hb hroom' (by simp [heof]))
      · intro heof
        have hsub : k.input.r ≤ (k.input.push b).e := by
          change k.input.r ≤ k.input.e + 1
          omega
        have hfill : (k.input.push b).e - k.input.r = k.input.e - k.input.r + 1 := by
          change k.input.e + 1 - k.input.r = _
          omega
        refine wp_subUsize hsub ?_
        rw [show (k.input.push b).r = k.input.r from rfl, hfill]
        constructor
        · intro hnl
          exact hQ _ _ true (h.push true hc hb hroom' (by simp; tauto))
        · intro hnl
          exact hQ _ _ false (h.push false hc hb hroom' (by simp; tauto))

/-- A sequence of received bytes. -/
structure ReceivedAll (a : Input) (bytes : List UInt8) (b : Input) (woke : Bool) : Prop where
  ok : b.Ok
  r : b.r = a.r
  line : b.line = bytes.foldl Line.receive a.line
  quiet : woke = false → b.w = a.w

theorem wp_intrLoop {bytes : List UInt8} {woke : Bool} {a : Input} {before : List UInt8}
    (h : ReceivedAll a before k.input woke) {Q : Bool → Kernel → Prop}
    (hQ : ∀ x u woke, ReceivedAll a (before ++ bytes) x woke →
      Q woke { k with input := x, uart := u }) :
    (intrLoop bytes woke).wp E Q k := by
  induction bytes generalizing k woke before with
  | nil =>
    rw [append_nil] at hQ
    exact hQ k.input k.uart woke h
  | cons b rest ih =>
    simp only [intrLoop, wp_bind]
    refine wp_inputPutc h.ok fun x u w hx => ?_
    have hnext : ReceivedAll a (before ++ [b]) x (woke || w) := by
      refine ⟨hx.ok, hx.r.trans h.r, ?_, ?_⟩
      · rw [hx.line, h.line, foldl_append]
        rfl
      · intro hor
        obtain ⟨hwoke, hw⟩ := Bool.or_eq_false_iff.mp hor
        rw [hx.quiet hw, h.quiet hwoke]
    refine ih (k := { k with input := x, uart := u }) hnext fun x' u' w' hx' => ?_
    rw [append_assoc] at hx'
    exact hQ x' u' w' hx'

variable {cur : Option ProcRef}

/-- Received bytes are committed, and then readers are woken. -/
theorem wp_consoleIntr {bytes : List UInt8} (hh : Hart [] cur k.cpu k.held) (h : k.input.Ok)
    {Q : Unit → Kernel → Prop}
    (hquiet : ∀ x u c h, Hart [] cur c h → ReceivedAll k.input bytes x false →
      Q () { k with input := x, uart := u, cpu := c, held := h })
    (hwoke : ∀ x u c h, Hart [] cur c h → ReceivedAll k.input bytes x true →
      Q () { k with input := x, uart := u, procs := fun i => wakeProc (some .input) (k.procs i)
                    cpu := c, held := h }) :
    (consoleIntr bytes).wp E Q k := by
  simp only [consoleIntr, wp_bind]
  refine wp_acquire hh not_mem_nil fun c1 h1 hh1 => ?_
  have hstart : ReceivedAll k.input [] k.input false := ⟨h, rfl, rfl, fun _ => rfl⟩
  apply wp_intrLoop
  · exact hstart
  intro x u woke hx
  refine wp_release hh1 (mem_singleton_self _) fun c2 h2 hh2 => ?_
  rw [erase_cons_head] at hh2
  cases woke with
  | false => exact hquiet x u c2 h2 hh2 hx
  | true =>
    simp only [if_true]
    exact wp_wakeup hh2 (fun i => not_mem_nil) fun c3 h3 hh3 => hwoke x u c3 h3 hh3 hx

theorem wp_consoleWriteBytes {bytes : List UInt8} (hh : Hart [] cur k.cpu k.held)
    {Q : Unit → Kernel → Prop}
    (hQ : ∀ u c h, Hart [] cur c h → Q () { k with uart := u, cpu := c, held := h }) :
    (consoleWriteBytes bytes).wp E Q k := by
  simp only [consoleWriteBytes, wp_bind]
  refine wp_acquire hh not_mem_nil fun c h1 hh1 => ?_
  refine wp_post (wp_forEach (fun _ t => ∃ u, t = { k with uart := u, cpu := c, held := h1 })
    ⟨k.uart, rfl⟩ ?_) ?_
  · rintro b rest t - ⟨u, rfl⟩
    exact ⟨u ++ [b], rfl⟩
  · rintro - t ⟨u, rfl⟩
    refine wp_release hh1 (mem_singleton_self _) fun c' h' hh' => ?_
    rw [erase_cons_head] at hh'
    exact hQ u c' h' hh'

/-- A buffer from which a read has taken bytes. -/
structure Drained (a b : Input) : Prop where
  ok : b.Ok
  w : b.w = a.w
  edit : b.line.edit = a.line.edit

theorem Drained.refl {a : Input} (h : a.Ok) : Drained a a := ⟨h, rfl, rfl⟩

variable {i : ProcRef} {cap buf : ℕ} {got : List UInt8}

theorem Input.Ok.pop {x : Input} (h : x.Ok) (hne : x.r ≠ x.w) :
    Drained x { x with r := x.r + 1 } ∧
      x.line.queue = x.buf (x.r % inputBuf) :: ({ x with r := x.r + 1 } : Input).line.queue := by
  have hrw := h.r_le
  have hwe := h.w_le
  have her := h.e_le
  refine ⟨⟨⟨?_, hwe, ?_⟩, rfl, rfl⟩, slice_pop (by omega)⟩
  · change x.r + 1 ≤ x.w
    omega
  · change x.e ≤ x.r + 1 + inputBuf
    omega

/-- The end of the loop of a read that goes on with `got`, by the bytes that
are in the queue. -/
theorem wp_consoleReadLoop (hh : Hart [.console] (some i) k.cpu k.held) (h : k.input.Ok)
    (hgot : got.length ≤ cap) {Q : Outcome (List UInt8) → Kernel → Prop}
    (hdone : ∀ x c h bytes, Hart [] (some i) c h → Drained k.input x →
      readLine cap got k.input.line.queue = .done bytes x.line.queue →
      Q (.done bytes) { k with input := x, cpu := c, held := h })
    (hblock : ∀ x c h b more, Hart [] none c h → Drained k.input x → x.r = x.w →
      more.length < cap → readLine cap got k.input.line.queue = .blocked more →
      Q .blocked { k with
        input := x
        procs := update k.procs i { k.procs i with
          chan := some .input, state := .sleeping, cont := .consoleRead more cap buf, intena := b }
        cpu := c, held := h }) :
    (consoleReadLoop cap buf (cap - got.length) got).wp E Q k := by
  generalize hfuel : cap - got.length = fuel
  induction fuel generalizing k got with
  | zero =>
    have hfull : cap ≤ got.length := by omega
    simp only [consoleReadLoop, consoleFinish, wp_bind]
    refine wp_release hh (mem_singleton_self _) fun c h' hh' => ?_
    rw [erase_cons_head] at hh'
    refine hdone k.input c h' got hh' (Drained.refl h) ?_
    cases k.input.line.queue <;> simp [readLine, hfull]
  | succ fuel ih =>
    have hroom : ¬ cap ≤ got.length := by omega
    simp only [consoleReadLoop, wp_bind, wp_get, wp_ite]
    constructor
    · intro hne
      obtain ⟨hpop, hqueue⟩ := h.pop hne
      simp only [modifyInput, wp_modify, consoleFinish, wp_bind]
      refine ⟨fun heof => ⟨fun hlen => ?_, fun hlen => ?_⟩, fun heof => ⟨fun hnl => ?_, fun hnl => ?_⟩⟩
      · -- an end of file that ends a line stays in the queue
        refine wp_release (by exact hh) (mem_singleton_self _) fun c h' hh' => ?_
        rw [erase_cons_head] at hh'
        refine hdone _ c h' got hh' (Drained.refl h) ?_
        have hnil : got ≠ [] := ne_nil_of_length_pos hlen
        rw [hqueue, readLine, if_neg hroom, if_pos heof, if_neg hnil, ← hqueue]
        rfl
      · refine wp_release (by exact hh) (mem_singleton_self _) fun c h' hh' => ?_
        rw [erase_cons_head] at hh'
        obtain rfl : got = [] := eq_nil_of_length_eq_zero (by omega)
        refine hdone _ c h' [] hh' hpop ?_
        rw [hqueue, readLine, if_neg hroom, if_pos heof, if_pos rfl]
      · refine wp_release (by exact hh) (mem_singleton_self _) fun c h' hh' => ?_
        rw [erase_cons_head] at hh'
        refine hdone _ c h' _ hh' hpop ?_
        rw [hqueue, readLine, if_neg hroom, if_neg heof, if_pos hnl]
      · have hread : readLine cap got k.input.line.queue =
            readLine cap (got ++ [k.input.buf (k.input.r % inputBuf)])
              ({ k.input with r := k.input.r + 1 } : Input).line.queue := by
          rw [hqueue, readLine, if_neg hroom, if_neg heof, if_neg hnl]
        have hlen : (got ++ [k.input.buf (k.input.r % inputBuf)]).length = got.length + 1 := by
          rw [length_append, length_singleton]
        apply ih
        · exact hh
        · exact hpop.ok
        · omega
        · intro x c h' bytes hh' hx hend
          exact hdone x c h' bytes hh' ⟨hx.ok, hx.w, hx.edit⟩ (hread.trans hend)
        · intro x c h' b more hh' hx hrw hmore hend
          exact hblock x c h' b more hh' ⟨hx.ok, hx.w, hx.edit⟩ hrw hmore (hread.trans hend)
        · omega
    · intro heq
      have hempty : k.input.line.queue = [] := by
        rw [Input.line, not_not.mp heq, slice_self]
      refine wp_sleep hh Lock.noConfusion fun c h' b hh' => ?_
      refine hblock k.input c h' b got hh' (Drained.refl h) (not_not.mp heq) (by omega) ?_
      rw [hempty, readLine, if_neg hroom]

end ToyOs
