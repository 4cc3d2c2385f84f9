import ToyOs.Kernel.Tables
import ToyOs.Lib.Ring

/-!
Pipes as queues of bytes. The two counters of a pipe delimit the bytes that
were stored and not yet delivered; a write appends to them and a read takes
from their front.
-/
namespace ToyOs

open Ring Prog Function List Nat

variable {Q : Unit → Kernel → Prop} {n : ℕ}

/-- The bytes in a pipe, oldest first. -/
def Pipe.queue (q : Pipe) : List UInt8 := slice pipesize q.data q.nread q.nwrite

/-- The counters are in order and at most a buffer apart. -/
structure Pipe.Ok (q : Pipe) : Prop where
  le : q.nread ≤ q.nwrite
  full : q.nwrite ≤ q.nread + pipesize

theorem Pipe.queue_length {q : Pipe} : q.queue.length = q.nwrite - q.nread := by
  rw [Pipe.queue, slice_length]

/-- Bytes are appended. -/
structure Stored (q : Pipe) (bytes : List UInt8) (q' : Pipe) : Prop where
  ok : q'.Ok
  nread : q'.nread = q.nread
  nwrite : q'.nwrite = q.nwrite + bytes.length
  queue : q'.queue = q.queue ++ bytes
  used : q'.used = q.used
  readopen : q'.readopen = q.readopen
  writeopen : q'.writeopen = q.writeopen

theorem Stored.refl {q : Pipe} (h : q.Ok) : Stored q [] q :=
  ⟨h, rfl, rfl, (append_nil _).symm, rfl, rfl, rfl⟩

theorem Stored.trans {q q' q'' : Pipe} {a b : List UInt8} (h : Stored q a q') (h' : Stored q' b q'') :
    Stored q (a ++ b) q'' where
  ok := h'.ok
  nread := h'.nread.trans h.nread
  nwrite := by rw [h'.nwrite, h.nwrite, length_append, add_assoc]
  queue := by rw [h'.queue, h.queue, append_assoc]
  used := h'.used.trans h.used
  readopen := h'.readopen.trans h.readopen
  writeopen := h'.writeopen.trans h.writeopen

/-- One byte is stored. -/
def Pipe.push (q : Pipe) (b : UInt8) : Pipe :=
  { q with data := Function.update q.data (q.nwrite % pipesize) b, nwrite := q.nwrite + 1 }

theorem Pipe.Ok.push {q : Pipe} {b : UInt8} (h : q.Ok) (hroom : q.nwrite ≠ q.nread + pipesize) :
    Stored q [b] (q.push b) := by
  have hle := h.le
  have hfull := h.full
  refine ⟨⟨?_, ?_⟩, rfl, rfl, ?_, rfl, rfl, rfl⟩
  · change q.nread ≤ q.nwrite + 1
    omega
  · change q.nwrite + 1 ≤ q.nread + pipesize
    omega
  · change slice pipesize (update q.data (q.nwrite % pipesize) b) q.nread (q.nwrite + 1) = _
    rw [slice_push hle, slice_update (by omega) (le_refl _), update_self]
    rfl

/-- Bytes are taken from the front. -/
def Pipe.take (q : Pipe) (n : ℕ) : Pipe := { q with nread := q.nread + n }

theorem Pipe.take_queue {q : Pipe} (h : q.Ok) (hn : n ≤ q.nwrite - q.nread) :
    q.queue = q.queue.take n ++ (q.take n).queue := by
  have hle := h.le
  have hsplit : q.queue = slice pipesize q.data q.nread (q.nread + n) ++ (q.take n).queue :=
    (slice_append (le_add_right _ _) (by omega)).symm
  have htake : q.queue.take n = slice pipesize q.data q.nread (q.nread + n) := by
    rw [hsplit]
    apply take_left'
    rw [slice_length]
    omega
  rw [htake]
  exact hsplit

theorem Pipe.Ok.take {q : Pipe} (h : q.Ok) (hn : n ≤ q.nwrite - q.nread) : (q.take n).Ok := by
  have hle := h.le
  have hfull := h.full
  constructor
  · change q.nread + n ≤ q.nwrite
    omega
  · change q.nwrite ≤ q.nread + n + pipesize
    omega

variable {ls : List Lock} {cur : Option ProcRef} {k : Kernel} {E : Panic → Prop} {p : PipeRef}
  {i : ProcRef} {cap buf : ℕ}

theorem wp_pipeTake {got : List UInt8} (h : (k.pipes p).Ok) {Q : List UInt8 → Kernel → Prop}
    (hQ : ∀ m, m = min n ((k.pipes p).nwrite - (k.pipes p).nread) →
      Q (got ++ (k.pipes p).queue.take n)
        { k with pipes := update k.pipes p ((k.pipes p).take m) }) :
    (pipeTake p n got).wp E Q k := by
  induction n generalizing k got with
  | zero =>
    have hq := hQ 0 (by omega)
    simp only [Pipe.take, add_zero, update_eq_self, take_zero, append_nil] at hq
    exact hq
  | succ n ih =>
    have hle := h.le
    simp only [pipeTake, wp_bind, wp_get, wp_ite, wp_pure,
      wp_modifyPipe]
    constructor
    · intro hne
      have hone : 1 ≤ (k.pipes p).nwrite - (k.pipes p).nread := by omega
      have hpop : (k.pipes p).queue = (k.pipes p).data ((k.pipes p).nread % pipesize) ::
          ((k.pipes p).take 1).queue := slice_pop (by omega)
      apply ih
      · simp only [update_self]
        exact h.take hone
      · intro m hm
        simp only [update_self, update_idem] at hm ⊢
        have hq := hQ (m + 1) (by rw [hm]; omega)
        rw [hpop, take_succ_cons] at hq
        rw [append_assoc]
        rw [show ((k.pipes p).take (m + 1)) = (((k.pipes p).take 1).take m) by
          simp only [Pipe.take, add_assoc, add_comm m 1]] at hq
        exact hq
    · intro heq
      have heq' : (k.pipes p).nread = (k.pipes p).nwrite := not_not.mp heq
      have hq := hQ 0 (by omega)
      rw [show (k.pipes p).queue = [] by rw [Pipe.queue, heq', slice_self]] at hq
      simp only [Pipe.take, add_zero, update_eq_self, take_nil, append_nil] at hq
      exact hq

/-- A read waits while the pipe is empty and can still be written. -/
theorem wp_pipeReadLoop (hh : Hart [.pipe p] (some i) k.cpu k.held) (h : (k.pipes p).Ok)
    {Q : Outcome (List UInt8) → Kernel → Prop}
    (hdone : ∀ m c h, Hart [] (some i) c h → m = ((k.pipes p).queue.take cap).length →
      ¬ ((k.pipes p).nread = (k.pipes p).nwrite ∧ (k.pipes p).writeopen = true) →
      Q (.done ((k.pipes p).queue.take cap)) { k with
        pipes := update k.pipes p ((k.pipes p).take m)
        procs := fun j => wakeProc (writeChan p) (k.procs j)
        cpu := c, held := h })
    (hblock : ∀ c h b, Hart [] none c h → (k.pipes p).nread = (k.pipes p).nwrite →
      (k.pipes p).writeopen = true →
      Q .blocked { k with
        procs := update k.procs i { k.procs i with
          chan := some (.pipeRead p), state := .sleeping, cont := .pipeRead p cap buf, intena := b }
        cpu := c, held := h }) :
    (pipeReadLoop p cap buf).wp E Q k := by
  simp only [pipeReadLoop, wp_bind, wp_get, wp_ite]
  constructor
  · rintro ⟨heq, hopen⟩
    exact wp_sleep hh Lock.noConfusion fun c h' b hh' => hblock c h' b hh' heq hopen
  · intro hgo
    refine wp_pipeTake h fun m hm => ?_
    have hlen : ((k.pipes p).queue.take cap).length = m := by
      rw [length_take, Pipe.queue_length, hm]
    refine wp_wakeup (by exact hh) (fun j => by simp) fun c h1 hh1 => ?_
    refine wp_release hh1 (mem_singleton_self _) fun c' h' hh' => ?_
    rw [erase_cons_head] at hh'
    exact hdone m c' h' hh' hlen.symm hgo

/-- A write ends when all its bytes are stored, fails when nobody can read
them, and waits while the pipe is full. -/
theorem wp_pipeWriteLoop {src : List UInt8} (hn : n ≤ src.length)
    (hh : Hart [.pipe p] (some i) k.cpu k.held) (h : (k.pipes p).Ok)
    {Q : Outcome (Option ℕ) → Kernel → Prop}
    (hdone : ∀ q c h, Hart [] (some i) c h → Stored (k.pipes p) (src.drop n) q →
      Q (.done (some src.length)) { k with
        pipes := update k.pipes p q
        procs := fun j => wakeProc (readChan p) (k.procs j)
        cpu := c, held := h })
    (hfail : ∀ c h, Hart [] (some i) c h → (k.pipes p).readopen = false →
      Q (.done none) { k with cpu := c, held := h })
    (hblock : ∀ q c h b m, Hart [] none c h → n ≤ m → m < src.length →
      Stored (k.pipes p) ((src.take m).drop n) q → q.nwrite = q.nread + pipesize →
      (k.pipes p).readopen = true →
      Q .blocked { k with
        pipes := update k.pipes p q
        procs := update (fun j => wakeProc (readChan p) (k.procs j)) i
          { wakeProc (readChan p) (k.procs i) with
            chan := some (.pipeWrite p), state := .sleeping, cont := .pipeWrite p src m, intena := b }
        cpu := c, held := h }) :
    (pipeWriteLoop p src (src.length - n) n).wp E Q k := by
  generalize hfuel : src.length - n = fuel
  induction fuel generalizing k n with
  | zero =>
    obtain rfl : n = src.length := by omega
    simp only [pipeWriteLoop, wp_bind]
    refine wp_wakeup hh (fun j => by simp) fun c h1 hh1 => ?_
    refine wp_release hh1 (mem_singleton_self _) fun c' h' hh' => ?_
    rw [erase_cons_head] at hh'
    have hq := hdone (k.pipes p) c' h' hh' (by rw [drop_length]; exact Stored.refl h)
    simp only [update_eq_self] at hq
    exact hq
  | succ fuel ih =>
    simp only [pipeWriteLoop, wp_bind, wp_get, wp_ite, Bool.not_eq_true',
      Bool.not_eq_false]
    refine ⟨fun hfull => ⟨fun hro => ?_, fun hro => ?_⟩, fun hroom => ⟨fun hro => ?_, fun hro => ?_⟩⟩
    · refine wp_release hh (mem_singleton_self _) fun c h' hh' => ?_
      rw [erase_cons_head] at hh'
      exact hfail c h' hh' hro
    · refine wp_wakeup hh (fun j => by simp) fun c h1 hh1 => ?_
      refine wp_sleep hh1 Lock.noConfusion fun c' h' b hh' => ?_
      have hnil : (src.take n).drop n = [] := drop_eq_nil_of_le (length_take_le n src)
      have hq := hblock (k.pipes p) c' h' b n hh' (le_refl _) (by omega)
        (by rw [hnil]; exact Stored.refl h) hfull hro
      simp only [update_eq_self] at hq
      exact hq
    · refine wp_release hh (mem_singleton_self _) fun c h' hh' => ?_
      rw [erase_cons_head] at hh'
      exact hfail c h' hh' hro
    · have hlt : n < src.length := by omega
      have hbyte : src.getD n 0 = src[n] := by
        rw [getD_eq_getElem?_getD, List.getElem?_eq_getElem hlt, Option.getD_some]
      have hpush : Stored (k.pipes p) [src[n]] ((k.pipes p).push src[n]) := h.push hroom
      simp only [wp_modifyPipe]
      apply ih
      · omega
      · exact hh
      · simp only [update_self, hbyte]
        exact hpush.ok
      · intro q c h' hh' hq
        simp only [update_self, hbyte, update_idem] at hq ⊢
        apply hdone q c h' hh'
        rw [drop_eq_getElem_cons hlt]
        exact hpush.trans hq
      · intro c h' hh' hclosed
        simp only [update_self] at hclosed
        rw [hro] at hclosed
        exact absurd hclosed (by decide)
      · intro q c h' b m hh' hnm hm hq hfull _
        simp only [update_self, hbyte, update_idem] at hq ⊢
        refine hblock q c h' b m hh' (by omega) hm ?_ hfull hro
        have hsplit : (src.take m).drop n = src[n] :: (src.take m).drop (n + 1) := by
          rw [drop_eq_getElem_cons (by rw [length_take]; omega), getElem_take]
        rw [hsplit]
        exact hpush.trans hq
      · omega

theorem wp_pipeAlloc (hh : Hart [] cur k.cpu k.held) {Q : Option PipeRef → Kernel → Prop}
    (hnone : ∀ c h, Hart [] cur c h → Q none { k with cpu := c, held := h })
    (hsome : ∀ p c h, Hart [] cur c h → (k.pipes p).used = false →
      Q (some p) { k with
        pipes := update k.pipes p { k.pipes p with
          used := true, nread := 0, nwrite := 0, readopen := true, writeopen := true }
        cpu := c, held := h }) :
    pipeAlloc.wp E Q k := by
  simp only [pipeAlloc, wp_bind]
  refine wp_acquire hh not_mem_nil fun c h1 hh1 => ?_
  refine wp_firstSome (fun _ t => t = { k with cpu := c, held := h1 }) rfl ?_ ?_
  · rintro t rfl
    refine wp_release hh1 (mem_singleton_self _) fun c' h' hh' => ?_
    rw [erase_cons_head] at hh'
    exact hnone c' h' hh'
  · rintro p rest t - rfl
    simp only [pipeAllocTry, wp_bind, wp_get, wp_ite, wp_pure,
      wp_modifyPipe, Bool.not_eq_true', and_true, implies_true]
    intro hfree
    refine wp_release hh1 (mem_singleton_self _) fun c' h' hh' => ?_
    rw [erase_cons_head] at hh'
    exact hsome p c' h' hh' hfree

theorem wp_pipeFreeAllocated (hh : Hart [] cur k.cpu k.held)
    (hQ : ∀ c h, Hart [] cur c h →
      Q () { k with
        pipes := update k.pipes p { k.pipes p with
          readopen := false, writeopen := false, nread := 0, nwrite := 0, used := false }
        cpu := c, held := h }) :
    (pipeFreeAllocated p).wp E Q k := by
  simp only [pipeFreeAllocated, wp_bind]
  refine wp_acquire hh not_mem_nil fun c h1 hh1 => ?_
  simp only [wp_modifyPipe]
  refine wp_release hh1 (mem_singleton_self _) fun c2 h2 hh2 => ?_
  rw [erase_cons_head] at hh2
  refine wp_acquire hh2 not_mem_nil fun c3 h3 hh3 => ?_
  simp only [update_self, update_idem]
  refine wp_release hh3 (mem_singleton_self _) fun c4 h4 hh4 => ?_
  rw [erase_cons_head] at hh4
  exact hQ c4 h4 hh4

/-- The channel on which the peer of an end sleeps. -/
def peerChan (p : PipeRef) (writable : Bool) : Option Chan :=
  if writable then readChan p else writeChan p

/-- The end of `pipe::close`: a pipe without ends is given back. -/
theorem wp_pipeClose_end {q : Pipe} (hh : Hart [.pipe p] cur k.cpu k.held) (hq : k.pipes p = q)
    (hQ : ∀ c h, Hart [] cur c h →
      Q () { k with
        pipes := update k.pipes p
          (if !q.readopen && !q.writeopen then { q with used := false } else q)
        cpu := c, held := h }) :
    (release (.pipe p)).wp E (fun _ s => Prog.wp
      (if !q.readopen && !q.writeopen then do
        acquire .pipeTable
        modifyPipe p fun x => { x with used := false }
        release .pipeTable
      else pure ()) E Q s) k := by
  refine wp_release hh (mem_singleton_self _) fun c h1 hh1 => ?_
  rw [erase_cons_head] at hh1
  rw [wp_ite]
  constructor
  · intro hfree
    rw [if_pos hfree] at hQ
    simp only [wp_bind]
    refine wp_acquire hh1 not_mem_nil fun c2 h2 hh2 => ?_
    simp only [wp_modifyPipe, hq]
    refine wp_release hh2 (mem_singleton_self _) fun c3 h3 hh3 => ?_
    rw [erase_cons_head] at hh3
    exact hQ c3 h3 hh3
  · intro hopen
    rw [if_neg hopen, ← hq, update_eq_self] at hQ
    exact hQ c h1 hh1

theorem wp_pipeClose {w : Bool} (hh : Hart [] cur k.cpu k.held)
    (hQ : ∀ c h, Hart [] cur c h →
      Q () { k with
        pipes := update k.pipes p ((k.pipes p).closeEnd w)
        procs := fun j => wakeProc (peerChan p w) (k.procs j)
        cpu := c, held := h }) :
    (pipeClose p w).wp E Q k := by
  simp only [pipeClose, wp_bind]
  refine wp_acquire hh not_mem_nil fun c h1 hh1 => ?_
  cases w with
  | true =>
    simp only [if_true, wp_bind, wp_modifyPipe]
    refine wp_wakeup (by exact hh1) (fun j => by simp) fun c2 h2 hh2 => ?_
    refine wp_pipeClose_end hh2 rfl fun c3 h3 hh3 => ?_
    simp only [update_self, update_idem]
    exact hQ c3 h3 hh3
  | false =>
    simp only [Bool.false_eq_true, if_false, wp_bind, wp_modifyPipe]
    refine wp_wakeup (by exact hh1) (fun j => by simp) fun c2 h2 hh2 => ?_
    refine wp_pipeClose_end hh2 rfl fun c3 h3 hh3 => ?_
    simp only [update_self, update_idem]
    exact hQ c3 h3 hh3

end ToyOs
