import ToyOs.Kernel.FirstRead

/-!
What holds at every point of every run. The counts of the file table are those
of the descriptors, a pipe is open as long as somebody can use it, a process
sleeps only while it has to, and the assertions about locks hold but for one
call: a `wait` that cannot store the status of the child it has found.
-/
namespace ToyOs

open Bytes Prog

variable {L : Layout} {X : KernelEntry} {M : Machine} {k : Kernel} {E : Panic → Prop} {i : ProcRef}
  {m : KernelM Unit}

section Locks

/-- A call of `wait` up to its loop. -/
theorem wp_usertrap_wait {regs : Regs} {pc va : ℕ} {Q : Unit → Kernel → Prop}
    (hh : Hart [] (some i) k.cpu k.held)
    (hnum : (k.calling i regs pc).sysno i = some .wait) (hva : (k.calling i regs pc).arg i tfA0 = va)
    (hQ : ∀ cpu held, Hart [.wait] (some i) cpu held →
      (waitLoop L i va >>= finishWait >>= finish X (k.procs i).trapframe).wp E Q
        { k.calling i regs pc with cpu := cpu, held := held }) :
    (usertrap L X .syscall regs pc).wp E Q k := by
  refine wp_usertrap_handle hh ?_
  have hh' : Hart [] (some i) (k.calling i regs pc).cpu (k.calling i regs pc).held := hh.sie false
  rw [Kernel.arg] at hva
  rw [wp_handle_syscall, dispatch, ← Kernel.sysno, hnum]
  simp only [sysWait, wp_bind, wp_getReg, ToyOs.wait]
  rw [show load 8 (k.calling i regs pc).ram.mem ((k.procs i).trapframe + tfA0) = va from hva]
  refine wp_myproc hh' ?_
  refine wp_acquire hh' List.not_mem_nil fun cpu held hh'' => ?_
  have h := hQ cpu held hh''
  rw [wp_bind, wp_bind] at h
  exact h

/-- The code runs into the assertion of `usertrapret`. -/
theorem Code.Stuck.error (hk : Sound k) (h : Code.Stuck M k m) : m k = .error .usertrapret := by
  have hwp : m.wp (fun e => e = .usertrapret) (fun _ _ => False) k := by
    have hsteady := hk.steady
    cases h with
    | call hcur hbad =>
      rw [hcur] at hsteady
      obtain ⟨hnum, z, hun⟩ := hbad
      refine wp_usertrap_wait hsteady.hart hnum rfl fun cpu held hh => ?_
      generalize Kernel.arg _ _ _ = va at hun ⊢
      generalize k.calling _ _ _ = k₁ at hun ⊢
      rw [wp_bind, wp_bind]
      apply wp_waitLoop_stuck
      · exact hh
      · exact ⟨⟨hun.zombie, hun.parent, hun.first⟩, hun.asked, hun.failed⟩
      · exact fun r cpu' held' hh' => wp_finish_stuck hh' rfl
    | rest hcur hstate hcont hun =>
      rw [hcur] at hsteady
      refine wp_visit hsteady.hart (fun c held _ hh => ?_) fun c held hno _ => absurd hstate hno
      rw [resume_wait hcont]
      refine wp_wakeUp hh fun k₁ hs hh₁ hram => ?_
      rw [wp_bind, wp_bind]
      refine wp_waitLoop_stuck hh₁ ((unreapable_goesOn hstate hs hram).mpr hun) fun r cpu held hh₂ => ?_
      exact wp_finish_stuck hh₂ rfl
  obtain ⟨e, he, rfl⟩ := exists_error hwp
  exact he

/-- At every point of every run the hart holds no lock, neither one of the process
layer nor one of the file system, and the code that comes next fails an
assertion about locks or of the process layer exactly if it is a `wait` that
cannot store the status it has found. -/
theorem lock_discipline (h : Reachable M k) :
    (∀ l, k.held l = false) ∧ k.cpu.noff = 0 ∧ Fs.Unheld k.fs ∧ ∀ m, Code M k m → ((∃ e, m k = .error e ∧ ¬ e.Benign) ↔ Code.Stuck M k m) := by
  have hk := h.sound
  refine ⟨fun l => ?_, hk.steady.hart.noff, hk.steady.fs.unheld, fun m hm => ⟨?_, fun hstuck => ?_⟩⟩
  · have hheld := hk.steady.hart.held l
    rw [← Bool.not_eq_true, hheld]
    exact List.not_mem_nil
  · rintro ⟨e, he, hbad⟩
    by_contra hno
    have hwp := hk.wp_code hm (E := Panic.Benign) (fun _ he => he) fun hs => absurd hs hno
    exact hbad (wp_error hwp he)
  · exact ⟨.usertrapret, hstuck.error hk, id⟩

theorem lock_discipline_boot : ∃ i k, Boots smallMachine i k ∧ (∀ l, k.held l = false) ∧ k.cpu.noff = 0 := by
  obtain ⟨i, -, k, hboots, -⟩ := exists_boot
  have hdisc := lock_discipline (.boot hboots)
  exact ⟨i, k, hboots, hdisc.1, hdisc.2.1⟩

end Locks

section Files

theorem Sound.live_kind (h : Sound k) {f : FileRef} {p : PipeRef} (hkind : (k.ftable f).kind = .pipe p) :
    0 < (k.ftable f).refcnt := by
  by_contra hzero
  have hnone := h.steady.tables.accounts.closed f (by omega)
  rw [hkind] at hnone
  cases hnone

/-- An open end of a pipe is a live file. -/
theorem Sound.endOpen_iff (h : Sound k) {p : PipeRef} {w : Bool} : EndOpen k.ftable p w ↔
    ∃ f, 0 < (k.ftable f).refcnt ∧ (k.ftable f).kind = .pipe p ∧ (k.ftable f).writable = w := by
  constructor
  · rintro ⟨f, hkind, hw⟩
    exact ⟨f, h.live_kind hkind, hkind, hw⟩
  · rintro ⟨f, -, hkind, hw⟩
    exact ⟨f, hkind, hw⟩

/-- At every point of every run a file has as many references as descriptors, a
pipe is in use as long as a live file refers to it, and its ends are open as
long as live files stand for them. A process that is not alive has no
descriptors, and no code meets a file without references. -/
theorem descriptors_accounted (h : Reachable M k) :
    (∀ f, (k.ftable f).refcnt = (holders k.procs f).card) ∧
    (∀ i fd f, (k.procs i).ofile fd = some f → 0 < (k.ftable f).refcnt) ∧
    (∀ p, (k.pipes p).used = true ↔ ∃ f, 0 < (k.ftable f).refcnt ∧ (k.ftable f).kind = .pipe p) ∧
    (∀ p, (k.pipes p).readopen = true ↔
      ∃ f, 0 < (k.ftable f).refcnt ∧ (k.ftable f).kind = .pipe p ∧ (k.ftable f).readable = true) ∧
    (∀ p, (k.pipes p).writeopen = true ↔
      ∃ f, 0 < (k.ftable f).refcnt ∧ (k.ftable f).kind = .pipe p ∧ (k.ftable f).writable = true) ∧
    (∀ i, (k.procs i).state.status ≠ .alive → ∀ fd, (k.procs i).ofile fd = none) ∧
    ∀ m e, Code M k m → m k = .error e →
      e ≠ .dupInvalidRefcnt ∧ e ≠ .closeInvalidRefcnt ∧ e ≠ .freeprocLock := by
  have hk := h.sound
  have hacc := hk.steady.tables.accounts
  have hread : ∀ p, (k.pipes p).readopen = true ↔ EndOpen k.ftable p false := by
    intro p
    rw [hacc.reading p]
    simp
  have hwrite : ∀ p, (k.pipes p).writeopen = true ↔ EndOpen k.ftable p true := by
    intro p
    rw [hacc.writing p]
    simp
  have hway : ∀ f p, (k.ftable f).kind = .pipe p →
      ((k.ftable f).writable = false ↔ (k.ftable f).readable = true) := by
    intro f p hkind
    rw [hacc.oneWay f p hkind]
    simp
  refine ⟨fun f => ?_, fun i fd f hf => hacc.refcnt_pos hf, fun p => ?_, fun p => ?_, fun p => ?_,
    hk.steady.tables.idle, fun m e hm he => ?_⟩
  · rw [hacc.count f, List.count_nil, add_zero]
  · rw [hacc.used, hread, hwrite, hk.endOpen_iff, hk.endOpen_iff]
    constructor
    · rintro (⟨f, hpos, hkind, -⟩ | ⟨f, hpos, hkind, -⟩)
      · exact ⟨f, hpos, hkind⟩
      · exact ⟨f, hpos, hkind⟩
    · rintro ⟨f, hpos, hkind⟩
      cases hw : (k.ftable f).writable with
      | false => exact .inl ⟨f, hpos, hkind, hw⟩
      | true => exact .inr ⟨f, hpos, hkind, hw⟩
  · rw [hread, hk.endOpen_iff]
    constructor
    · rintro ⟨f, hpos, hkind, hw⟩
      exact ⟨f, hpos, hkind, (hway f p hkind).mp hw⟩
    · rintro ⟨f, hpos, hkind, hr⟩
      exact ⟨f, hpos, hkind, (hway f p hkind).mpr hr⟩
  · rw [hwrite, hk.endOpen_iff]
  · have hwp := hk.wp_code hm (E := fun e => e.Benign ∨ e = .usertrapret) (fun _ he => .inl he)
      fun _ => .inr rfl
    rcases wp_error hwp he with hb | rfl
    · exact ⟨Panic.Benign.ne hb id, Panic.Benign.ne hb id, Panic.Benign.ne hb id⟩
    · decide

theorem descriptors_accounted_boot : ∃ i k, Boots smallMachine i k ∧
    ∀ f, (k.ftable f).refcnt = (holders k.procs f).card := by
  obtain ⟨i, -, k, hboots, -⟩ := exists_boot
  exact ⟨i, k, hboots, (descriptors_accounted (.boot hboots)).1⟩

end Files

section Sleep

/-- No wakeup is lost: at every point of every run a process that sleeps has to
wait. -/
theorem no_lost_wakeup (h : Reachable M k) (hs : (k.procs i).state = .sleeping) :
    (∃ va, (k.procs i).cont = .wait va ∧ (k.procs i).chan = some (.proc i) ∧
      (∃ j, (k.procs j).parent = some i ∧ (k.procs j).state ≠ .unused) ∧
      ∀ j, (k.procs j).parent = some i → (k.procs j).state ≠ .zombie) ∨
    (∃ p cap buf, (k.procs i).cont = .pipeRead p cap buf ∧ (k.procs i).chan = some (.pipeRead p) ∧
      (k.pipes p).nread = (k.pipes p).nwrite ∧ (k.pipes p).writeopen = true) ∨
    (∃ p src n, (k.procs i).cont = .pipeWrite p src n ∧ (k.procs i).chan = some (.pipeWrite p) ∧
      (k.pipes p).nwrite = (k.pipes p).nread + pipesize ∧ (k.pipes p).readopen = true) ∨
    (∃ got cap buf, (k.procs i).cont = .consoleRead got cap buf ∧ (k.procs i).chan = some .input ∧
      k.input.r = k.input.w) := by
  have htab := h.sound.steady.tables
  obtain ⟨ch, hch, hw⟩ := htab.asleep i hs
  have hchan := htab.chan i hs
  have hcont := hchan.symm.trans hch
  cases hc : (k.procs i).cont with
  | wait va =>
    rw [hc] at hcont
    obtain rfl := Option.some.inj hcont
    obtain ⟨⟨j, hj, hused⟩, hzombie⟩ := hw
    refine .inl ⟨va, rfl, hch, ⟨j, hj, fun hst => hused ?_⟩, fun j hj hst => hzombie j hj ?_⟩
    · simp only [Process.life, hst, ProcState.status]
    · simp only [Process.life, hst, ProcState.status]
  | pipeRead p cap buf =>
    rw [hc] at hcont
    obtain rfl := Option.some.inj hcont
    exact .inr (.inl ⟨p, cap, buf, rfl, hch, hw⟩)
  | pipeWrite p src n =>
    rw [hc] at hcont
    obtain rfl := Option.some.inj hcont
    exact .inr (.inr (.inl ⟨p, src, n, rfl, hch, hw⟩))
  | consoleRead got cap buf =>
    rw [hc] at hcont
    obtain rfl := Option.some.inj hcont
    exact .inr (.inr (.inr ⟨got, cap, buf, rfl, hch, hw⟩))
  | _ =>
    rw [hc] at hcont
    cases hcont

theorem no_lost_wakeup_reading : ∃ i k, Reachable smallMachine k ∧ (k.procs i).state = .sleeping ∧
    (k.procs i).chan = some .input ∧ k.input.r = k.input.w := by
  obtain ⟨i, k, hreach, hs, hcont⟩ := exists_reading
  obtain ⟨_, hc, -⟩ | ⟨_, _, _, hc, -⟩ | ⟨_, _, _, hc, -⟩ | ⟨_, _, _, -, hch, hempty⟩ := no_lost_wakeup hreach hs
  · cases hcont.symm.trans hc
  · cases hcont.symm.trans hc
  · cases hcont.symm.trans hc
  · exact ⟨i, k, hreach, hs, hch, hempty⟩

end Sleep

end ToyOs
