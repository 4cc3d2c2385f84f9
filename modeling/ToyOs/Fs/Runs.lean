import ToyOs.Fs.Init

/-!
Runs of the file system: `init`, and then operations whose callers keep their
promises. Every state of a run is tidy. The states that `init` leaves for
empty embedded files start the runs of the examples.
-/
namespace ToyOs.Fs

open Bytes Prog DirTree Function

variable {s t : State} {N : Finset ℕ} {r : InodeRef} {n d k : ℕ}

/-- The states that can be reached from `init`. -/
inductive Reachable : State → Prop
  | init {e : Embedded} {s₀ s : State} : init e s₀ = .ok ((), s) → Reachable s
  | step {s t : State} {op : Op} {v : Reply} :
      Reachable s → op.Allowed s → op.run s = .ok (v, t) → Reachable t

theorem Initial.of_init {e : Embedded} {s₀ : State} (h : init e s₀ = .ok ((), s)) :
    ∃ N, Initial e s N fun _ => none := by
  have hwp : wp (init e) (fun _ => True) (fun _ t => ∃ N, Initial e t N fun _ => none) s₀ :=
    wp_init (fun _ => trivial) fun N t ht => ⟨N, ht⟩
  exact wp_ok hwp h

/-- Every reachable state is tidy. -/
theorem Reachable.tidy (h : Reachable s) : ∃ N, Tidy s N := by
  induction h with
  | init h =>
    obtain ⟨N, hi⟩ := Initial.of_init h
    exact ⟨N, hi.booting.tidy⟩
  | step _ ha hrun ih =>
    obtain ⟨N, ht⟩ := ih
    obtain ⟨N', -, ht'⟩ := wp_ok (wp_op ht ha) hrun
    exact ⟨N', ht'⟩

/-- The image without data. -/
def emptyImage : Embedded where
  program := fun _ => []
  readme := []

theorem emptyImage_empty : emptyImage.Empty := ⟨fun _ _ => rfl, rfl⟩

/-- With empty files `init` succeeds, and so does taking a reference to the root. -/
theorem exists_rooted : ∃ s N r, Reachable s ∧
    Initial emptyImage s N (update (fun _ => none) r (some (rootino, 1))) := by
  have hinit : wp (init emptyImage) (fun _ => False)
      (fun _ t => ∃ N, Initial emptyImage t N fun _ => none) blank :=
    wp_init (fun h => absurd emptyImage_empty h) fun N t ht => ⟨N, ht⟩
  obtain ⟨⟨⟩, s, hs, N, hi⟩ := exists_ok hinit
  have hrefs : s.refs = fun _ => none := hi.booting.refs
  have hroot : wp root (fun _ => False) (fun r t => Holding s r rootino t) s := by
    refine wp_root hi.booting.tidy (fun hno => hno ?_) fun r t h => h
    exact room_of_free (r := rootPlaceholder) (by rw [hrefs]) rootino
  obtain ⟨r, t, ht, h⟩ := exists_ok hroot
  have hrun : Op.run .root s = .ok (.ref (some r), t) := bind_ok ht
  have hallowed : Op.Allowed s .root := trivial
  refine ⟨t, N, r, .step (.init hs) hallowed hrun, ?_⟩
  have hnew : t.refs = update (fun _ => none) r (some (rootino, 1)) := by
    rw [h.refs, hrefs]
    rfl
  rw [← hnew]
  exact hi.quiet h.quiet fun r' n k hr' => (h.tidy hi.booting.tidy hi.booting.tidy.tree.root_mem).held
    r' n k hr'

end ToyOs.Fs
