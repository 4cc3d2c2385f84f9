import ToyOs.Kernel.FirstProcess
import ToyOs.Kernel.Resume

/-!
A process that sleeps. Init is scheduled, reads from the console before anyone
has typed, and is put to sleep.
-/
namespace ToyOs

open Bytes Prog Function List

variable {L : Layout} {X : KernelEntry} {k : Kernel} {E : Panic → Prop} {i : ProcRef} {f : FileRef}

section Registers

variable {tf pc : ℕ} {regs : Regs} {s : Ram}

theorem load_savedRegs (r : Fin 31) :
    load 8 (savedRegs tf regs s).mem (tf + (tfRegs + 8 * r)) = regs r % 2 ^ 64 := by
  -- along the loop: the register is still to be saved, or it is in its place
  have hloop : ∀ (l : List (Fin 31)) (s' : Ram),
      r ∈ l ∨ load 8 s'.mem (tf + (tfRegs + 8 * r)) = regs r % 2 ^ 64 →
      load 8 (l.foldl (fun s (r : Fin 31) => s.setWord (tf + (tfRegs + 8 * r)) (regs r)) s').mem
        (tf + (tfRegs + 8 * r)) = regs r % 2 ^ 64 := by
    intro l
    induction l with
    | nil =>
      rintro s' (hr | hr)
      · cases hr
      · exact hr
    | cons q rest ih =>
      intro s' hr
      refine ih _ ?_
      by_cases hq : q = r
      · subst hq
        exact .inr (load_store_same 8 _ _ _)
      · have hne : (q : ℕ) ≠ r := fun h => hq (Fin.ext h)
        have hsame : load 8 (s'.setWord (tf + (tfRegs + 8 * q)) (regs q)).mem (tf + (tfRegs + 8 * r)) =
            load 8 s'.mem (tf + (tfRegs + 8 * r)) := load_store_of_disjoint _ _ _ _ _ _ (by omega)
        rw [hsame]
        exact hr.imp (fun h => (mem_cons.mp h).resolve_left fun h => hq h.symm) id
  exact hloop _ s (.inl (mem_finRange r))

theorem load_calling (r : Fin 31) :
    load 8 (k.calling i regs pc).ram.mem ((k.procs i).trapframe + (tfRegs + 8 * r)) =
      regs r % 2 ^ 64 := by
  have hstep : ∀ (s : Ram) (w : ℕ), load 8 (s.setWord ((k.procs i).trapframe + tfEpc) w).mem
      ((k.procs i).trapframe + (tfRegs + 8 * r)) =
        load 8 s.mem ((k.procs i).trapframe + (tfRegs + 8 * r)) := fun s w =>
    load_store_of_disjoint _ _ _ _ _ _ (by unfold tfEpc tfRegs; omega)
  show load 8 (Ram.setWord (Ram.setWord (savedRegs (k.procs i).trapframe regs k.ram) _ pc) _ (pc + 4)).mem _ = _
  rw [hstep, hstep, load_savedRegs]

end Registers

/-- `read(0, 0, 1)`. -/
def readRegs : Regs := fun r => if r = 16 then 5 else if r = 11 then 1 else 0

/-- A process that reads from a console without input goes to sleep. -/
theorem wp_usertrap_read {pc : ℕ} {Q : Unit → Kernel → Prop} (hh : Hart [] (some i) k.cpu k.held)
    (h : ReadsConsole i f k) (hempty : k.input.r = k.input.w)
    (hQ : ∀ k', (k'.procs i).state = .sleeping → (k'.procs i).cont = .consoleRead [] 1 0 → Q () k') :
    (usertrap L X .syscall readRegs pc).wp E Q k := by
  refine wp_usertrap_handle hh ?_
  have hnum : (k.calling i readRegs pc).arg i tfA7 = 5 := by
    rw [Kernel.arg]
    exact load_calling 16
  have hfd : load 8 (k.calling i readRegs pc).ram.mem ((k.procs i).trapframe + tfA0) = 0 :=
    load_calling 9
  have hbuf : load 8 (k.calling i readRegs pc).ram.mem ((k.procs i).trapframe + tfA1) = 0 :=
    load_calling 10
  have hlen : load 8 (k.calling i readRegs pc).ram.mem ((k.procs i).trapframe + tfA2) = 1 :=
    load_calling 11
  have hcall : Hart [] (some i) (k.calling i readRegs pc).cpu (k.calling i readRegs pc).held :=
    hh.sie false
  rw [wp_handle_syscall, hnum, wp_bind]
  have hfile : ((k.calling i readRegs pc).procs i).fdFile 0 = some f := h.fd
  have hread : ((k.calling i readRegs pc).ftable f).readable = true := h.readable
  have hkind : ((k.calling i readRegs pc).ftable f).kind = .device consoleMajor := h.kind
  have hn : ioLength 0 1 = .inr 1 := by decide
  simp only [dispatch, Sysno.ofNum, sysRead, wp_bind]
  refine wp_myproc hcall ?_
  simp only [wp_getProc, wp_getReg, hfd, hbuf, hlen, hfile, hn, wp_bind, wp_get, hread, fileRead, hkind,
    Bool.not_true, Bool.false_eq_true, if_false, if_true, consoleRead, one_ne_zero]
  refine wp_acquire hcall not_mem_nil fun c held hc => ?_
  have hdry : (k.calling i readRegs pc).input.r = (k.calling i readRegs pc).input.w := hempty
  simp only [consoleReadLoop, wp_bind, wp_get, hdry, ne_eq, not_true_eq_false, if_false]
  refine wp_sleep hc (by simp) fun c' held' b _ => ?_
  simp only [wp_pure, finishRead, finish]
  refine hQ _ ?_ ?_
  · simp only [update_self]
  · simp only [update_self]

/-- Init sleeps at the console of a machine that has just booted. -/
theorem exists_reading : ∃ i k, Reachable smallMachine k ∧ (k.procs i).state = .sleeping ∧
    (k.procs i).cont = .consoleRead [] 1 0 := by
  obtain ⟨i, f, k, hboots, hf⟩ := exists_boot
  have hs := hboots.started
  -- the scheduler lets init run
  have hvisit : (scheduleSlot smallMachine.layout.toLayout smallMachine.entry i true).wp (fun _ => False)
      (fun _ k' => Hart [] (some i) k'.cpu k'.held ∧ ReadsConsole i f k' ∧ k'.input.r = k'.input.w) k := by
    refine wp_visit hs.steady.hart (fun c held _ hh => ?_) fun c held hno _ => absurd hs.state hno
    rw [resume_forkret hs.cont, wp_bind]
    refine wp_release hh (mem_singleton_self _) fun c' held' hh' => ?_
    rw [erase_cons_head] at hh'
    refine wp_usertrapret hh' fun k' hsame hh₂ _ _ => ⟨hh₂, ?_, ?_⟩
    · constructor
      · rw [hsame.procs]
        simp only [update_self]
        exact hf.fd
      all_goals rw [hsame.ftable]
      · exact hf.live
      · exact hf.readable
      · exact hf.kind
    · rw [hsame.input]
      show k.input.r = k.input.w
      rw [hs.input]
  obtain ⟨⟨⟩, k₁, hrun, hh, hf₁, hempty⟩ := exists_ok hvisit
  have hreach := Reachable.step (.boot hboots) (.code (.schedule hs.steady.hart.proc i true) hrun)
  -- and init reads
  have hread : (usertrap smallMachine.layout.toLayout smallMachine.entry .syscall readRegs 0).wp
      (fun _ => False) (fun _ k' => (k'.procs i).state = .sleeping ∧
        (k'.procs i).cont = .consoleRead [] 1 0) k₁ :=
    wp_usertrap_read hh hf₁ hempty fun _ hst hcont => ⟨hst, hcont⟩
  obtain ⟨⟨⟩, k₂, hrun₂, hsleeps⟩ := exists_ok hread
  exact ⟨i, k₂, hreach.step (.code (.trap hh.proc .syscall readRegs 0) hrun₂), hsleeps⟩

end ToyOs
