import ToyOs.Kernel.Change

/-!
The scheduler. A process goes on where it was switched out: at the end of its
trap, or in the middle of a call that waited for something. The rest of the
call has one of the effects of a call, and it fails an assertion of the process
layer only as `wait` does.
-/
namespace ToyOs

open Bytes Prog Function List

variable {L : Layout} {X : KernelEntry} {k k' : Kernel} {E : Panic → Prop} {i : ProcRef}
  {Q : Unit → Kernel → Prop} {fresh : Bool}

theorem steady_goesOn {ls : List Lock} {k₁ : Kernel} (h : Steady [] [] none none k)
    (hstate : (k.procs i).state = .runnable) (hs : SameTables (k.goesOn i) k₁)
    (hh : Hart ls (some i) k₁.cpu k₁.held) : Steady ls [] none (some i) k₁ := by
  refine ⟨hh, ?_, ?_⟩
  · rw [hs.procs, hs.ftable, hs.pipes, hs.input]
    refine h.tables.enter rfl ?_ rfl
    simp only [Process.life, hstate, ProcState.status]
  · rw [hs.fs]
    exact h.fs

theorem wp_wakeUp {m : KernelM Unit} {lock : Lock} {c : Cpu} {held : Lock → Bool}
    (hh : Hart [.proc i] (some i) c held)
    (hQ : ∀ k₁, SameTables (k.goesOn i) k₁ → Hart [lock] (some i) k₁.cpu k₁.held →
      k₁.ram = k.ram → m.wp E Q k₁) :
    (restoreIntena i >>= fun _ => wake i lock >>= fun _ => m).wp E Q { k with
      procs := update k.procs i { k.procs i with state := .running }
      cpu := c, held := held } := by
  simp only [wp_bind, restoreIntena, wp_modify]
  refine wp_wake (hh.intena _) fun c' held' hh' => ?_
  refine hQ _ ⟨?_, rfl, rfl, rfl, rfl, rfl, rfl⟩ hh' rfl
  simp only [Kernel.goesOn, update_idem, update_self]

/-- The zombie is found with the waiting process back in its call. -/
theorem unreapable_goesOn {k₁ : Kernel} {c : ProcRef} {va : ℕ}
    (hstate : (k.procs i).state = .runnable) (hs : SameTables (k.goesOn i) k₁)
    (hram : k₁.ram = k.ram) : Unreapable i c va k₁ ↔ Unreapable i c va k := by
  have hp : ∀ j, (k₁.procs j).parent = (k.procs j).parent ∧
      ((k₁.procs j).state = .zombie ↔ (k.procs j).state = .zombie) ∧
      (k₁.procs j).pagetable = (k.procs j).pagetable ∧
      (k₁.procs j).xstate = (k.procs j).xstate := by
    intro j
    rw [hs.procs, Kernel.goesOn]
    by_cases hj : j = i
    · subst hj
      simp [hstate]
    · simp [update_of_ne hj]
  constructor
  · intro h
    refine ⟨⟨(hp c).2.1.mp h.zombie, (hp c).1 ▸ h.parent, ?_⟩, h.asked, ?_⟩
    · intro j hj hpar hz
      exact h.first j hj ((hp j).1 ▸ hpar) ((hp j).2.1.mpr hz)
    · rw [← (hp i).2.2.1, ← (hp c).2.2.2, ← hram]
      exact h.failed
  · intro h
    refine ⟨⟨(hp c).2.1.mpr h.zombie, (hp c).1.trans h.parent, ?_⟩, h.asked, ?_⟩
    · intro j hj hpar hz
      exact h.first j hj ((hp j).1.symm.trans hpar) ((hp j).2.1.mp hz)
    · rw [(hp i).2.2.1, (hp c).2.2.2, hram]
      exact h.failed

theorem goesOn_self {k₁ : Kernel} (hs : SameTables (k.goesOn i) k₁) :
    k₁.procs i = { k.procs i with state := .running, chan := none } := by
  rw [hs.procs]
  simp only [Kernel.goesOn, update_self]

theorem HoldsEnd.goesOn {k₁ : Kernel} {p : PipeRef} {w : Bool} (h : HoldsEnd i p w k)
    (hs : SameTables (k.goesOn i) k₁) : HoldsEnd i p w k₁ := by
  obtain ⟨fd, f, hfd, hf⟩ := h
  refine ⟨fd, f, ?_, ?_⟩
  · rw [goesOn_self hs]
    exact hfd
  · rw [hs.ftable]
    exact hf

theorem Kernel.Buffers.goesOn {k₁ : Kernel} (h : k.Buffers) (hs : SameTables (k.goesOn i) k₁) :
    k₁.Buffers := hs.buffers ⟨h.input, h.pipes⟩

section Resume

variable {k₁ : Kernel} {p : PipeRef} {cap va : ℕ}

section Continuations

variable {q : Process}

theorem resume_forkret (h : q.cont = .forkret) :
    resume L X i q = release (.proc i) >>= fun _ => usertrapret X := by
  simp only [resume, h]

theorem resume_yield (h : q.cont = .yield) :
    resume L X i q = restoreIntena i >>= fun _ => release (.proc i) >>= fun _ => usertrapret X := by
  simp only [resume, h]

theorem resume_wait (h : q.cont = .wait va) :
    resume L X i q = restoreIntena i >>= fun _ => wake i .wait >>= fun _ =>
      waitLoop L i va >>= finishWait >>= finish X q.trapframe := by
  simp only [resume, h]

theorem resume_pipeRead (h : q.cont = .pipeRead p cap va) :
    resume L X i q = restoreIntena i >>= fun _ => wake i (.pipe p) >>= fun _ =>
      pipeReadLoop p cap va >>= fun r =>
        finishRead q.pagetable va (r.map some) >>= finish X q.trapframe := by
  simp only [resume, h]

theorem resume_pipeWrite {src : List UInt8} {n : ℕ} (h : q.cont = .pipeWrite p src n) :
    resume L X i q = restoreIntena i >>= fun _ => wake i (.pipe p) >>= fun _ =>
      pipeWriteLoop p src (src.length - n) n >>= finishWrite >>= finish X q.trapframe := by
  simp only [resume, h]

theorem resume_consoleRead {got : List UInt8} (h : q.cont = .consoleRead got cap va) :
    resume L X i q = restoreIntena i >>= fun _ => wake i .console >>= fun _ =>
      consoleReadLoop cap va (cap - got.length) got >>= fun r =>
        finishRead q.pagetable va (r.map some) >>= finish X q.trapframe := by
  simp only [resume, h]

end Continuations

section Moves

variable (hE : ∀ e, e.Benign → E e) (h : Steady [] [] none none k) (hb : k.Buffers)
  (hstate : (k.procs i).state = .runnable) (hs : SameTables (k.goesOn i) k₁) (hram : k₁.ram = k.ram)
  (hmove : ∀ {e} k', Sound k' → Transferred i (k.procs i).cont k e k' → Q () k')
include h hstate hs hram hmove

/-- The end of a call in which the process was switched out. -/
theorem wp_finish_resumed {k₂ : Kernel} {r : Result} {e : Event} (hset : Settled i r k₂)
    (hr : Resumed i k₁ (k.procs i).cont r e k₂) : (finish X (k.procs i).trapframe r).wp E Q k₂ := by
  refine wp_finish hset fun k₃ hs₃ hh₃ hret hmem => hmove (e := e) k₃ ?_ ?_
  · exact sound_of (hs₃.steady hset.steady hh₃) (hs₃.buffers hset.buffers)
  · exact ⟨.goesOn h.hart.proc hstate rfl hs hram, hr, hs₃, hret, hmem, hh₃.proc⟩

include hb

theorem wp_resume_pipeWrite {src : List UInt8} {n : ℕ} (hcont : (k.procs i).cont = .pipeWrite p src n)
    (hh : Hart [.pipe p] (some i) k₁.cpu k₁.held) :
    (pipeWriteLoop p src (src.length - n) n >>= finishWrite >>= finish X (k.procs i).trapframe).wp E Q k₁ := by
  have hparked := h.tables.parked i (.inr hstate)
  simp only [Parked, hcont] at hparked
  rw [wp_bind]
  refine wp_restPipeWrite hparked.1.le (steady_goesOn h hstate hs hh) (hb.goesOn hs)
    (HoldsEnd.goesOn hparked.2 hs) fun r k₂ hset hr => ?_
  rw [← hcont] at hr
  exact wp_finish_resumed h hstate hs hram hmove hset hr

include hE

theorem wp_resume_wait (hcont : (k.procs i).cont = .wait va) (hh : Hart [.wait] (some i) k₁.cpu k₁.held)
    (hstuck : ∀ z, Unreapable i z va k → E .usertrapret) :
    (waitLoop L i va >>= finishWait >>= finish X (k.procs i).trapframe).wp E Q k₁ := by
  rw [wp_bind]
  refine wp_restWait hE (steady_goesOn h hstate hs hh) (hb.goesOn hs) ?_ ?_
  · intro z r cpu held hun hh'
    exact wp_finish_stuck hh' (hstuck z ((unreapable_goesOn hstate hs hram).mp hun))
  · intro e r k₂ hset hr
    rw [← hcont] at hr
    exact wp_finish_resumed h hstate hs hram hmove hset hr

theorem wp_resume_pipeRead (hcont : (k.procs i).cont = .pipeRead p cap va)
    (hh : Hart [.pipe p] (some i) k₁.cpu k₁.held) :
    (pipeReadLoop p cap va >>= fun r =>
      finishRead (k.procs i).pagetable va (r.map some) >>= finish X (k.procs i).trapframe).wp E Q k₁ := by
  have hparked := h.tables.parked i (.inr hstate)
  simp only [Parked, hcont] at hparked
  have hpt : (k.procs i).pagetable = (k₁.procs i).pagetable := by rw [goesOn_self hs]
  rw [hpt, ← bind_assoc, wp_bind]
  refine wp_restPipeRead hE (steady_goesOn h hstate hs hh) (hb.goesOn hs) hparked.1
    (HoldsEnd.goesOn hparked.2 hs) fun r k₂ hset hr => ?_
  rw [← hcont] at hr
  exact wp_finish_resumed h hstate hs hram hmove hset hr

theorem wp_resume_consoleRead {got : List UInt8} (hcont : (k.procs i).cont = .consoleRead got cap va)
    (hh : Hart [.console] (some i) k₁.cpu k₁.held) :
    (consoleReadLoop cap va (cap - got.length) got >>= fun r =>
      finishRead (k.procs i).pagetable va (r.map some) >>= finish X (k.procs i).trapframe).wp E Q k₁ := by
  have hparked := h.tables.parked i (.inr hstate)
  simp only [Parked, hcont] at hparked
  have hpt : (k.procs i).pagetable = (k₁.procs i).pagetable := by rw [goesOn_self hs]
  rw [hpt, ← bind_assoc, wp_bind]
  refine wp_restConsoleRead _ hE (steady_goesOn h hstate hs hh) (hb.goesOn hs) hparked
    fun r k₂ hset hr => ?_
  rw [← hcont] at hr
  exact wp_finish_resumed h hstate hs hram hmove hset hr

end Moves

/-- A process that goes on at the end of a trap, or starts. -/
theorem wp_resume_ret {c : Cpu} {held : Lock → Bool} (h : Steady [] [] none none k)
    (hb : k.Buffers) (hstate : (k.procs i).state = .runnable)
    (hcont : (k.procs i).cont = .forkret ∨ (k.procs i).cont = .yield)
    (hh : Hart [.proc i] (some i) c held) (hQ : ∀ {e} k', Sound k' → Change k e k' → Q () k') :
    (release (.proc i) >>= fun _ => usertrapret X).wp E Q { k with
      procs := update k.procs i { k.procs i with state := .running }
      cpu := c, held := held } := by
  have hlife : Process.life { k.procs i with state := .running } = (k.procs i).life := by
    simp only [Process.life, hstate, ProcState.status]
  have htables := h.tables.enter (p := { k.procs i with state := .running }) rfl hlife rfl
  rw [wp_bind]
  apply wp_release
  · exact hh
  · exact mem_singleton_self _
  intro c' held' hh'
  rw [erase_cons_head] at hh'
  refine wp_usertrapret (by exact hh') fun k' hs hh'' _ _ => hQ (e := .silent) k' ?_ ?_
  · refine sound_of ⟨hh'', ?_, ?_⟩ (hs.buffers ⟨hb.input, hb.pipes⟩)
    · rw [hs.procs, hs.ftable, hs.pipes, hs.input]
      exact htables
    · rw [hs.fs]
      exact h.fs
  · exact .entered h.hart.proc hstate hcont
      ⟨hs.procs, hs.ftable, hs.pipes, hs.input, hs.fs, hs.nextPid, hs.initproc⟩ hh''.proc

/-- The process was switched out in the middle of a transfer. -/
def Cont.Transfer (cont : Cont) : Prop := cont ≠ .forkret ∧ cont ≠ .yield

/-- A process goes on where it was switched out. -/
theorem wp_resume {c : Cpu} {held : Lock → Bool} (hE : ∀ e, e.Benign → E e)
    (h : Steady [] [] none none k) (hb : k.Buffers) (hstate : (k.procs i).state = .runnable)
    (hh : Hart [.proc i] (some i) c held)
    (hstuck : ∀ z va, (k.procs i).cont = .wait va → Unreapable i z va k → E .usertrapret)
    (hret : ∀ {e} k', ¬ (k.procs i).cont.Transfer → Sound k' → Change k e k' → Q () k')
    (hmove : ∀ {e} k', Sound k' → Transferred i (k.procs i).cont k e k' → Q () k') :
    (resume L X i (k.procs i)).wp E Q { k with
      procs := update k.procs i { k.procs i with state := .running }
      cpu := c, held := held } := by
  cases hcont : (k.procs i).cont with
  | forkret =>
    rw [resume_forkret hcont]
    exact wp_resume_ret h hb hstate (.inl hcont) hh fun k' => hret k' fun ht => ht.1 hcont
  | yield =>
    rw [resume_yield hcont, wp_bind, restoreIntena, wp_modify]
    exact wp_resume_ret h hb hstate (.inr hcont) (hh.intena _) fun k' => hret k' fun ht => ht.2 hcont
  | wait va =>
    rw [resume_wait hcont]
    refine wp_wakeUp hh fun k₁ hs hh₁ hram => ?_
    exact wp_resume_wait hE h hb hstate hs hram hmove hcont hh₁ fun z => hstuck z va hcont
  | pipeRead p cap va =>
    rw [resume_pipeRead hcont]
    exact wp_wakeUp hh fun k₁ hs hh₁ hram => wp_resume_pipeRead hE h hb hstate hs hram hmove hcont hh₁
  | pipeWrite p src n =>
    rw [resume_pipeWrite hcont]
    exact wp_wakeUp hh fun k₁ hs hh₁ hram => wp_resume_pipeWrite h hb hstate hs hram hmove hcont hh₁
  | consoleRead got cap va =>
    rw [resume_consoleRead hcont]
    exact wp_wakeUp hh fun k₁ hs hh₁ hram => wp_resume_consoleRead hE h hb hstate hs hram hmove hcont hh₁

end Resume

/-- The scheduler looks at one slot and switches to its process if it can run. -/
theorem wp_visit (hh : Hart [] none k.cpu k.held)
    (hrun : ∀ c held, (k.procs i).state = .runnable → Hart [.proc i] (some i) c held →
      (resume L X i (k.procs i)).wp E Q { k with
        procs := update k.procs i { k.procs i with state := .running }
        cpu := c, held := held })
    (hskip : ∀ c held, (k.procs i).state ≠ .runnable → Hart [] none c held →
      Q () { k with cpu := c, held := held }) :
    (scheduleSlot L X i fresh).wp E Q k := by
  have hvisit : ∀ c₀, Hart [] none c₀ k.held →
      (scheduleSlot L X i false).wp E Q { k with cpu := c₀ } := by
    intro c₀ hh₀
    simp only [scheduleSlot, Bool.false_eq_true, if_false, wp_bind]
    refine wp_acquire hh₀ not_mem_nil fun c held hh => ?_
    rw [wp_getProc]
    split_ifs with hstate
    · simp only [wp_bind, wp_modifyProc, wp_modify]
      exact hrun _ _ hstate ⟨hh.held, hh.nodup, hh.noff, hh.quiet, rfl⟩
    · apply wp_release
      · exact hh
      · exact mem_singleton_self _
      intro c' held' hh'
      rw [erase_cons_head] at hh'
      exact hskip c' held' hstate hh'
  cases fresh with
  | false => exact hvisit _ hh
  | true =>
    have heq : scheduleSlot L X i true = setSie true >>= fun _ => scheduleSlot L X i false := by
      simp only [scheduleSlot, Bool.false_eq_true, if_false, if_true]
    rw [heq, wp_bind, setSie, wp_modify]
    exact hvisit _ (hh.sie true)

theorem wp_scheduleSlot (hE : ∀ e, e.Benign → E e) (h : Steady [] [] none none k) (hb : k.Buffers)
    (hstuck : ∀ z va, (k.procs i).state = .runnable → (k.procs i).cont = .wait va →
      Unreapable i z va k → E .usertrapret) (hQ : ∀ {e} k', Sound k' → Change k e k' → Q () k') :
    (scheduleSlot L X i fresh).wp E Q k := by
  refine wp_visit h.hart (fun c held hstate hh => ?_) fun c held _ hh => ?_
  · exact wp_resume hE h hb hstate hh (fun z va => hstuck z va hstate) (fun k' _ => hQ k')
      fun k' hk' hm => hQ k' hk' (.moved hm)
  · refine hQ (e := .silent) _ (sound_of ⟨hh, h.tables, h.fs⟩ ⟨hb.input, hb.pipes⟩) ?_
    exact .idle ⟨rfl, rfl, rfl, rfl, rfl, rfl, rfl⟩ (hh.proc.trans h.hart.proc.symm)

/-- The scheduler lets a process go on with its transfer. -/
theorem wp_scheduleSlot_transfer (hE : ∀ e, e.Benign → E e) (h : Steady [] [] none none k)
    (hb : k.Buffers) (hstate : (k.procs i).state = .runnable) (hcont : (k.procs i).cont.Transfer)
    (hstuck : E .usertrapret)
    (hmove : ∀ {e} k', Sound k' → Transferred i (k.procs i).cont k e k' → Q () k') :
    (scheduleSlot L X i fresh).wp E Q k := by
  refine wp_visit h.hart (fun c held _ hh => ?_) fun c held hno _ => absurd hstate hno
  exact wp_resume hE h hb hstate hh (fun _ _ _ _ => hstuck) (fun k' hno => absurd hcont hno) hmove

end ToyOs
