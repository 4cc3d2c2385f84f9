import ToyOs.Fs.Resting
import ToyOs.Fs.Runs
import ToyOs.Kernel.State

/-!
The locks of the file system: those of the buffers and of the slots of the
inode cache, `BCACHE_LOCK` and `ICACHE_LOCK`. A guard is dropped before any
other lock of its kind is taken, whatever the arguments of a call are and
whatever the disk and the caches hold.
-/
namespace ToyOs.Fs

open Bytes Prog

/-- The states that calls with any arguments lead to. -/
inductive Visited : State → Prop
  | init {e : Embedded} {s₀ s : State} : init e s₀ = .ok ((), s) → Visited s
  | step {s t : State} {op : Op} {v : Reply} : Visited s → op.run s = .ok (v, t) → Visited t

/-- Callers that keep their promises lead to such states, too. -/
theorem Reachable.visited {s : State} (h : Reachable s) : Visited s := by
  induction h with
  | init hrun => exact .init hrun
  | step _ _ hrun ih => exact .step ih hrun

theorem Visited.resting {s : State} (h : Visited s) : Resting s := by
  induction h with
  | init hrun => exact resting_init hrun
  | step _ hrun ih =>
    have hpost := wp_ok (calm_run _ _ ih) hrun
    exact hpost

/-- No self-deadlock. In every state that calls with any arguments lead to, no
lock is held; a call never takes a lock that it holds nor releases one that it
does not hold, it returns with all of them free, and no process goes to sleep
within it. -/
theorem no_self_deadlock {s : State} (h : Visited s) : Unheld s ∧ ∀ op : Op,
    (∀ e, op.run s = .error e →
      e ≠ .deadlock ∧ e ≠ .acquireHolding ∧ e ≠ .releaseNotHolding) ∧
    (∀ v t, op.run s = .ok (v, t) → Unheld t) ∧
    ∀ (k k' : Kernel) (v : Reply), k.fs = s → onFs op.run k = .ok (v, k') →
      Unheld k'.fs ∧ k'.procs = k.procs ∧ k'.cpu = k.cpu := by
  have hs := h.resting
  refine ⟨hs.unheld, fun op => ⟨fun e herr => ?_, fun v t hrun => ?_, ?_⟩⟩
  · have he : e.Benign := wp_error (calm_run op s hs) herr
    exact ⟨he.ne id, he.ne id, he.ne id⟩
  · have hpost := wp_ok (calm_run op s hs) hrun
    exact AtRest.unheld hpost
  · rintro k k' v rfl hrun
    have hpost : wp (onFs op.run) (fun _ => True)
        (fun _ k' => Unheld k'.fs ∧ k'.procs = k.procs ∧ k'.cpu = k.cpu) k := by
      rw [onFs, wp_zoom]
      exact wp_mono (calm_run op k.fs hs) (fun _ _ => trivial) fun _ t ht => ⟨ht.unheld, rfl, rfl⟩
    have hdone := wp_ok hpost hrun
    exact hdone

theorem no_self_deadlock_rooted : ∃ s, Visited s ∧ Unheld s ∧
    ∀ v t, Op.root.run s = .ok (v, t) → Unheld t := by
  obtain ⟨s, -, -, hs, -⟩ := exists_rooted
  obtain ⟨hfree, hops⟩ := no_self_deadlock hs.visited
  exact ⟨s, hs.visited, hfree, (hops .root).2.1⟩

end ToyOs.Fs
