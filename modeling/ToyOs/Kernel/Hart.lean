import ToyOs.Kernel.State

/-!
The locks a hart holds, as a list, and what the primitives of the process
layer do to them. The interrupt nesting counts the held locks, and while one
is held interrupts are off. Every rule leaves the tables of the kernel as they
were, apart from what its statement names; the state after a rule is written
as an update of the state before it.
-/
namespace ToyOs

open Prog Function List

/-- The hart runs `cur` and holds exactly the locks of the list. -/
structure Hart (ls : List Lock) (cur : Option ProcRef) (c : Cpu) (held : Lock → Bool) : Prop where
  held : ∀ l, held l = true ↔ l ∈ ls
  nodup : ls.Nodup
  noff : c.noff = ls.length
  quiet : ls ≠ [] → c.sie = false
  proc : c.proc = cur

variable {ls : List Lock} {cur : Option ProcRef} {k : Kernel} {E : Panic → Prop}

section Tables

variable {i : ProcRef} {f : FileRef} {p : PipeRef} {Q : Unit → Kernel → Prop}

@[simp] theorem wp_getProc {Q : Process → Kernel → Prop} :
    (getProc i).wp E Q k ↔ Q (k.procs i) k := Iff.rfl

@[simp] theorem wp_modifyProc {g : Process → Process} :
    (modifyProc i g).wp E Q k ↔
      Q () { k with procs := update k.procs i (g (k.procs i)) } := Iff.rfl

@[simp] theorem wp_modifyFile {g : File → File} :
    (modifyFile f g).wp E Q k ↔
      Q () { k with ftable := update k.ftable f (g (k.ftable f)) } := Iff.rfl

@[simp] theorem wp_modifyPipe {g : Pipe → Pipe} :
    (modifyPipe p g).wp E Q k ↔
      Q () { k with pipes := update k.pipes p (g (k.pipes p)) } := Iff.rfl

end Tables

theorem wp_acquire {l : Lock} (hh : Hart ls cur k.cpu k.held) (hl : l ∉ ls)
    {Q : Unit → Kernel → Prop}
    (hQ : ∀ c h, Hart (l :: ls) cur c h → Q () { k with cpu := c, held := h }) :
    (acquire l).wp E Q k := by
  have hfree : k.held l = false := by
    rw [← Bool.not_eq_true, hh.held]
    exact hl
  simp only [acquire, pushOff, wp_bind, wp_modify, wp_get, wp_assert, hfree,
    Bool.not_false, true_implies, reduceCtorEq, false_implies, and_true]
  apply hQ
  constructor
  · intro l'
    rw [update_apply, mem_cons, ← hh.held]
    by_cases h : l' = l <;> simp [h]
  · exact nodup_cons.mpr ⟨hl, hh.nodup⟩
  · rw [length_cons, ← hh.noff]
  · intro _
    rfl
  · exact hh.proc

theorem wp_release {l : Lock} (hh : Hart ls cur k.cpu k.held) (hl : l ∈ ls)
    {Q : Unit → Kernel → Prop}
    (hQ : ∀ c h, Hart (ls.erase l) cur c h → Q () { k with cpu := c, held := h }) :
    (release l).wp E Q k := by
  have hheld : k.held l = true := (hh.held l).mpr hl
  have hsie : k.cpu.sie = false := hh.quiet (ne_nil_of_mem hl)
  have hpos : 1 ≤ k.cpu.noff := by
    rw [hh.noff]
    exact length_pos_of_mem hl
  simp only [release, popOff, wp_bind, wp_modify, wp_get, wp_assert, hheld,
    hsie, hpos, Bool.not_false, decide_true, true_implies, reduceCtorEq, false_implies, and_true]
  apply hQ
  constructor
  · intro l'
    rw [update_apply, hh.nodup.mem_erase_iff, ← hh.held]
    by_cases h : l' = l <;> simp [h]
  · exact hh.nodup.erase l
  · rw [length_erase_of_mem hl, ← hh.noff]
  · intro hne
    have hlen := length_pos_of_ne_nil hne
    rw [length_erase_of_mem hl, ← hh.noff] at hlen
    rw [if_neg]
    rintro ⟨h1, -⟩
    omega
  · exact hh.proc

theorem wp_myproc {i : ProcRef} (hh : Hart ls (some i) k.cpu k.held) {Q : ProcRef → Kernel → Prop}
    (hQ : Q i k) : myproc.wp E Q k := by
  simp only [myproc, wp_bind, wp_get, wp_expect, hh.proc, Option.some.injEq,
    reduceCtorEq, false_implies, and_true, forall_eq']
  exact hQ

/-- What `wakeup` does to one process. -/
def wakeProc (chan : Option Chan) (p : Process) : Process :=
  if p.state = .sleeping ∧ p.chan = chan then { p with state := .runnable } else p

theorem wp_wakeupOne {chan : Option Chan} {i : ProcRef} (hh : Hart ls cur k.cpu k.held)
    (hl : Lock.proc i ∉ ls) {Q : Unit → Kernel → Prop}
    (hQ : ∀ c h, Hart ls cur c h →
      Q () { k with procs := update k.procs i (wakeProc chan (k.procs i))
                    cpu := c, held := h }) :
    (wakeupOne chan i).wp E Q k := by
  simp only [wakeupOne, wp_bind, wp_ite]
  refine wp_acquire hh hl fun c h hh' => ?_
  simp only [wp_getProc, wp_modifyProc]
  constructor
  · intro hsleep
    refine wp_release hh' (mem_cons_self ..) fun c' h' hh'' => ?_
    rw [erase_cons_head] at hh''
    simpa only [wakeProc, if_pos hsleep] using hQ c' h' hh''
  · intro hsleep
    refine wp_release hh' (mem_cons_self ..) fun c' h' hh'' => ?_
    rw [erase_cons_head] at hh''
    simpa only [wakeProc, if_neg hsleep, update_eq_self] using hQ c' h' hh''

theorem wp_wakeup {chan : Option Chan} (hh : Hart ls cur k.cpu k.held)
    (hl : ∀ i, Lock.proc i ∉ ls) {Q : Unit → Kernel → Prop}
    (hQ : ∀ c h, Hart ls cur c h →
      Q () { k with procs := fun i => wakeProc chan (k.procs i), cpu := c, held := h }) :
    (wakeup chan).wp E Q k := by
  -- the slots still to be done are as before
  let I (rest : List ProcRef) (t : Kernel) : Prop := Hart ls cur t.cpu t.held ∧
    t = { k with procs := fun i => if i ∈ rest then k.procs i else wakeProc chan (k.procs i)
                 cpu := t.cpu, held := t.held }
  unfold wakeup
  refine wp_post (wp_forEach I ?_ ?_) ?_
  · refine ⟨hh, ?_⟩
    simp only [procRefs, mem_finRange, if_true]
  · rintro i rest t hsuf ⟨ht, heq⟩
    have hnd : (i :: rest).Nodup := (nodup_finRange nproc).sublist hsuf.sublist
    refine wp_wakeupOne ht (hl i) fun c h hh' => ⟨hh', ?_⟩
    rw [heq]
    simp only [Kernel.mk.injEq, true_and, and_true]
    funext j
    rw [update_apply]
    by_cases hj : j = i
    · subst hj
      simp [(nodup_cons.mp hnd).1]
    · simp [hj]
  · rintro _ t ⟨ht, heq⟩
    rw [heq]
    simpa using hQ t.cpu t.held ht

theorem wp_sched {i : ProcRef} {cont : Cont} (hh : Hart [.proc i] cur k.cpu k.held)
    (hstate : (k.procs i).state ≠ .running) {Q : Unit → Kernel → Prop}
    (hQ : ∀ c h, Hart [] none c h →
      Q () { k with procs := update k.procs i
                      { k.procs i with cont := cont, intena := k.cpu.intena }
                    cpu := c, held := h }) :
    (sched i cont).wp E Q k := by
  have hheld : k.held (.proc i) = true := (hh.held _).mpr (mem_singleton_self _)
  have hsie : k.cpu.sie = false := hh.quiet (cons_ne_nil _ _)
  have hnoff : k.cpu.noff = 1 := hh.noff
  have hne : ((k.procs i).state != .running) = true := bne_iff_ne.mpr hstate
  simp only [sched, wp_modifyProc, wp_bind, wp_modify, wp_get,
    wp_assert, hheld, hsie, hnoff, hne, Bool.not_false, beq_self_eq_true, true_implies,
    reduceCtorEq, false_implies, and_true]
  refine wp_release (?_ : Hart [.proc i] none _ _) (mem_singleton_self _) fun c h hh' => ?_
  · exact ⟨hh.held, hh.nodup, rfl, fun _ => rfl, rfl⟩
  · rw [erase_cons_head] at hh'
    exact hQ c h hh'

/-- A process that sleeps gives up the lock it came with. -/
theorem wp_sleep {i : ProcRef} {chan : Chan} {lock : Lock} {cont : Cont}
    (hh : Hart [lock] (some i) k.cpu k.held) (hl : lock ≠ .proc i) {Q : Unit → Kernel → Prop}
    (hQ : ∀ c h b, Hart [] none c h →
      Q () { k with procs := update k.procs i
                      { k.procs i with chan := some chan, state := .sleeping, cont := cont, intena := b }
                    cpu := c, held := h }) :
    (sleep chan lock cont).wp E Q k := by
  simp only [sleep, wp_bind]
  refine wp_myproc hh ?_
  refine wp_acquire hh (by simpa using hl.symm) fun c h hh' => ?_
  refine wp_release hh' (by simp) fun c' h' hh'' => ?_
  have herase : [Lock.proc i, lock].erase lock = [.proc i] := by simp [hl.symm]
  rw [herase] at hh''
  simp only [wp_modifyProc]
  refine wp_sched hh'' (by simp) fun c'' h'' hh''' => ?_
  simpa using hQ c'' h'' c'.intena hh'''

/-- The process holds its own lock when it is switched to, and the lock it
slept with when it goes on. -/
theorem wp_wake {i : ProcRef} {lock : Lock} (hh : Hart [.proc i] cur k.cpu k.held)
    {Q : Unit → Kernel → Prop}
    (hQ : ∀ c h, Hart [lock] cur c h →
      Q () { k with procs := update k.procs i { k.procs i with chan := none }
                    cpu := c, held := h }) :
    (wake i lock).wp E Q k := by
  simp only [wake, wp_modifyProc, wp_bind]
  apply wp_release
  · exact hh
  · exact mem_singleton_self _
  · intro c h hh'
    rw [erase_cons_head] at hh'
    exact wp_acquire hh' not_mem_nil hQ

theorem wp_yieldCpu {i : ProcRef} (hh : Hart [] (some i) k.cpu k.held) {Q : Unit → Kernel → Prop}
    (hQ : ∀ c h b, Hart [] none c h →
      Q () { k with procs := update k.procs i
                      { k.procs i with state := .runnable, cont := .yield, intena := b }
                    cpu := c, held := h }) :
    yieldCpu.wp E Q k := by
  simp only [yieldCpu, wp_bind]
  refine wp_myproc hh ?_
  refine wp_acquire hh not_mem_nil fun c h hh' => ?_
  simp only [wp_modifyProc]
  refine wp_sched hh' (by simp) fun c' h' hh'' => ?_
  simpa using hQ c' h' c.intena hh''

end ToyOs
