import ToyOs.Fs.AccessRuns
import ToyOs.Fs.Cache

/-!
The file system between two calls. No lock is held and no buffer referenced,
whatever the arguments of the calls were and whatever the disk holds; so a call
never takes a lock twice, never gives one up that it does not hold and never
gives a buffer back that it did not get. The file system runs beside itself
here: the relation is equality of two states at rest.
-/
namespace ToyOs.Fs

open Bytes Prog

/-- No lock of the file system is held: `ICACHE_LOCK`, `BCACHE_LOCK`, and the
guards of the slots and buffers. -/
structure Unheld (s : State) : Prop where
  icache : s.icacheLock = false
  slots : ∀ r, (s.icache r).locked = false
  bcache : s.dev.bcacheLock = false
  bufs : ∀ i, (s.dev.bcache i).locked = false

section Device

/-- A device beside itself, with the same buffers held. -/
def SameCached (H : List (Fin nbuf × Fin nbuf)) (c c' : Dev) : Prop :=
  c = c' ∧ ∃ (H' : Held) (d : ℕ → Block), Cached c H' d ∧ H'.length ≤ 2 ∧
    H = H'.map fun q => (q.1, q.1)

theorem SameCached.mem {H : List (Fin nbuf × Fin nbuf)} {H' : Held} {x y : Fin nbuf}
    (hH : H = H'.map fun q => (q.1, q.1)) (h : (x, y) ∈ H) : y = x ∧ ∃ b, (x, b) ∈ H' := by
  rw [hH, List.mem_map] at h
  obtain ⟨⟨z, b⟩, hmem, heq⟩ := h
  obtain ⟨rfl, rfl⟩ := Prod.mk.inj heq
  exact ⟨rfl, b, hmem⟩

/-- The block layer beside itself. -/
def restingDev : Related Panic.Benign cached where
  R := SameCached
  quiet _ he := he
  bread := by
    rintro H n s _ hlen ⟨rfl, H', d, hc, hH', rfl⟩
    replace hlen : H'.length < 2 := lt_of_eq_of_lt (List.length_map _).symm hlen
    by_cases hb : n < fssize
    · refine simIn_self (wp_bread hc hb (hlen.trans (by decide)) fun i c' hc' => ?_)
      exact Or.inr ⟨i, i, rfl, rfl, rfl, _, d, hc', by simpa using hlen, rfl⟩
    · have hget : bget n = pure none := if_pos (by omega)
      show SimIn _ (bread n) (bread n) _ s s
      unfold bread
      rw [hget]
      exact simIn_pure (Or.inl ⟨rfl, rfl, rfl, H', d, hc, hH', rfl⟩)
  readBuf := by
    rintro H x y hxy s _ ⟨rfl, H', d, hc, hlen, hH⟩
    obtain ⟨rfl, b, hb⟩ := SameCached.mem hH hxy
    exact simIn_self (wp_readBuf hc hb ⟨rfl, rfl, H', d, hc, hlen, hH⟩)
  writeBuf := by
    rintro H x y f hxy s _ ⟨rfl, H', d, hc, hlen, hH⟩
    obtain ⟨rfl, b, hb⟩ := SameCached.mem hH hxy
    exact simIn_self (wp_writeBuf hc hb f fun c' hc' => ⟨rfl, rfl, H', _, hc', hlen, hH⟩)
  bitmapTake := by
    rintro H x y n hxy s _ ⟨rfl, H', d, hc, hlen, hH⟩
    obtain ⟨rfl, b, hb⟩ := SameCached.mem hH hxy
    exact simIn_self (wp_bitmapTake_disk hc hb (fun _ c' hc' => ⟨rfl, rfl, H', _, hc', hlen, hH⟩)
      fun _ => ⟨rfl, rfl, H', d, hc, hlen, hH⟩)
  bitmapDrop := by
    rintro H x y n hxy s _ ⟨rfl, H', d, hc, hlen, hH⟩
    obtain ⟨rfl, b, hb⟩ := SameCached.mem hH hxy
    exact simIn_self (wp_bitmapDrop_disk hc hb (fun _ c' hc' => ⟨rfl, rfl, H', _, hc', hlen, hH⟩)
      fun _ => trivial)
  brelse := by
    rintro H x y s _ ⟨rfl, H', d, hc, hlen, hH⟩
    cases H' with
    | nil => simp at hH
    | cons q H' =>
      obtain ⟨hq, htail⟩ := List.cons.inj hH
      obtain ⟨rfl, rfl⟩ := Prod.mk.inj hq
      rw [List.length_cons] at hlen
      exact simIn_self (wp_brelse hc fun c' hc' => ⟨rfl, H', d, hc', by omega, htail⟩)

theorem SameCached.idle {c : Dev} {d : ℕ → Block} (hc : Cached c [] d) : SameCached [] c c :=
  ⟨rfl, [], d, hc, Nat.zero_le 2, rfl⟩

theorem SameCached.cached {c c' : Dev} (h : SameCached [] c c') : c' = c ∧ ∃ d, Cached c [] d := by
  obtain ⟨rfl, H', d, hc, -, hH⟩ := h
  obtain rfl := List.map_eq_nil_iff.mp hH.symm
  exact ⟨rfl, d, hc⟩

end Device

/-- At most slot `r` is locked, and no buffer is in use. -/
structure SlotGuard (b : Bool) (r : InodeRef) (s : State) : Prop where
  lock : s.icacheLock = b
  others : ∀ r', r' ≠ r → (s.icache r').locked = false
  dev : ∃ d, Cached s.dev [] d

/-- No slot is locked and no buffer is in use; `ICACHE_LOCK` is held or not. -/
structure AtRest (b : Bool) (s : State) : Prop where
  lock : s.icacheLock = b
  slots : ∀ r, (s.icache r).locked = false
  dev : ∃ d, Cached s.dev [] d

/-- The file system between two calls. -/
abbrev Resting (s : State) : Prop := AtRest false s

/-- The program starts and ends at rest. -/
abbrev Calm {α : Type} (m : FsM α) : Prop := Keeps Panic.Benign Resting m

theorem AtRest.unheld {s : State} (h : Resting s) : Unheld s := by
  obtain ⟨d, hc⟩ := h.dev
  exact ⟨h.lock, h.slots, hc.lock, hc.unlocked⟩

section Slots

variable {b : Bool} {r : InodeRef} {s : State} {n : ℕ} {E : Panic → Prop} {Q : Unit → State → Prop}

theorem SlotGuard.setSlot (h : SlotGuard b r s) (x : Slot) : SlotGuard b r (s.setSlot r x) where
  lock := h.lock
  others r' hr := by
    simpa [State.setSlot, hr] using h.others r' hr
  dev := h.dev

theorem AtRest.guard (h : AtRest b s) (r : InodeRef) : SlotGuard b r s where
  lock := h.lock
  others r' _ := h.slots r'
  dev := h.dev

theorem wp_lockSlot_atRest {Q : Slot → State → Prop} (h : AtRest b s)
    (hQ : ∀ x s', SlotGuard b r s' → Q x s') : wp (lockSlot r) E Q s := by
  simp only [lockSlot, wp_bind, wp_get, wp_assert, wp_modify, wp_pure, h.slots r]
  exact ⟨fun _ => hQ _ _ ((h.guard r).setSlot _), fun h => by simp at h⟩

theorem wp_unlockSlot_guard (h : SlotGuard b r s) (hQ : ∀ s', AtRest b s' → Q () s') :
    wp (unlockSlot r) E Q s := by
  refine hQ _ ⟨h.lock, fun r' => ?_, h.dev⟩
  by_cases hr : r' = r
  · simp [State.setSlot, hr]
  · simpa [State.setSlot, hr] using h.others r' hr

theorem wp_modifySlot_guard {f : Slot → Slot} (h : SlotGuard b r s)
    (hQ : ∀ s', SlotGuard b r s' → Q () s') : wp (modifySlot r f) E Q s :=
  hQ _ (h.setSlot _)

theorem wp_icacheAcquire_atRest (h : Resting s) (hQ : ∀ s', AtRest true s' → Q () s') :
    wp icacheAcquire E Q s := by
  simp only [icacheAcquire, wp_bind, wp_get, wp_assert, wp_modify, h.lock]
  exact ⟨fun _ => hQ _ ⟨rfl, h.slots, h.dev⟩, fun h => by simp at h⟩

theorem wp_icacheRelease_atRest (h : AtRest true s) (hQ : ∀ s', Resting s' → Q () s') :
    wp icacheRelease E Q s := by
  simp only [icacheRelease, wp_bind, wp_get, wp_assert, wp_modify, h.lock]
  exact ⟨fun _ => hQ _ ⟨rfl, h.slots, h.dev⟩, fun h => by simp at h⟩

theorem keeps_igetCached_atRest : Keeps E (AtRest b) (igetCached n r) := by
  intro s hs
  simp only [igetCached, wp_bind]
  refine wp_lockSlot_atRest hs fun x s1 h1 => ?_
  rw [wp_ite]
  refine ⟨fun _ => ?_, fun _ => wp_bind.mpr (wp_unlockSlot_guard h1 fun _ h2 => h2)⟩
  simp only [wp_bind]
  exact wp_modifySlot_guard h1 fun s2 h2 => wp_unlockSlot_guard h2 fun _ h3 => h3

theorem keeps_igetFree_atRest : Keeps E (AtRest b) (igetFree n r) := by
  intro s hs
  simp only [igetFree, wp_bind]
  refine wp_lockSlot_atRest hs fun x s1 h1 => ?_
  rw [wp_ite]
  refine ⟨fun _ => ?_, fun _ => wp_bind.mpr (wp_unlockSlot_guard h1 fun _ h2 => h2)⟩
  simp only [wp_bind]
  exact wp_modifySlot_guard h1 fun s2 h2 => wp_unlockSlot_guard h2 fun _ h3 => h3

theorem calm_iget : Calm (iget n) := by
  intro s hs
  simp only [iget, wp_bind]
  refine wp_icacheAcquire_atRest hs fun s1 h1 => ?_
  refine wp_post (keeps_firstSome (fun _ => keeps_igetCached_atRest) s1 h1) fun o s2 h2 => ?_
  cases o with
  | some r => exact wp_bind.mpr (wp_icacheRelease_atRest h2 fun _ h3 => h3)
  | none =>
    simp only [wp_bind]
    refine wp_post (keeps_firstSome (fun _ => keeps_igetFree_atRest) s2 h2) fun o s3 h3 => ?_
    exact wp_icacheRelease_atRest h3 fun _ h4 => h4

theorem calm_idup : Calm (idup r) := by
  intro s hs
  simp only [idup, wp_bind]
  refine wp_icacheAcquire_atRest hs fun s1 h1 => wp_lockSlot_atRest h1 fun x s2 h2 => ?_
  rw [wp_assert]
  refine ⟨fun _ => ?_, fun _ => trivial⟩
  refine wp_modifySlot_guard h2 fun s3 h3 => wp_unlockSlot_guard h3 fun s4 h4 => ?_
  exact wp_icacheRelease_atRest h4 fun _ h5 => h5

theorem calm_iput : Calm (iput r) := by
  intro s hs
  simp only [iput, wp_bind]
  refine wp_icacheAcquire_atRest hs fun s1 h1 => wp_lockSlot_atRest h1 fun x s2 h2 => ?_
  rw [wp_assert]
  refine ⟨fun _ => ?_, fun _ => trivial⟩
  refine wp_modifySlot_guard h2 fun s3 h3 => wp_unlockSlot_guard h3 fun s4 h4 => ?_
  exact wp_icacheRelease_atRest h4 fun _ h5 => h5

end Slots

/-- Two equal states with at most slot `r` locked. -/
def SameGuard (r : InodeRef) (s t : State) : Prop := s = t ∧ SlotGuard false r s

theorem agree_onDev_guard {α : Type} {E : Panic → Prop} {r : InodeRef} {m n : DevM α}
    (h : Agree E (SameCached []) m n) : Agree E (SameGuard r) (onDev m) (onDev n) := by
  rintro s _ ⟨rfl, hs⟩
  obtain ⟨d, hc⟩ := hs.dev
  refine simIn_zoom (simIn_post (h s.dev s.dev (.idle hc)) ?_)
  rintro a b c c' ⟨rfl, hc'⟩
  obtain ⟨rfl, hd⟩ := hc'.cached
  exact ⟨rfl, rfl, hs.lock, hs.others, hd⟩

theorem agree_modifySlot_guard {E : Panic → Prop} {r : InodeRef} {f : Slot → Slot} :
    Agree E (SameGuard r) (modifySlot r f) (modifySlot r f) := by
  rintro s _ ⟨rfl, hs⟩
  exact simIn_self (wp_modifySlot_guard hs fun s' h => ⟨rfl, rfl, h⟩)

theorem blank_cached : Cached blank.dev [] blank.dev.disk where
  disk := rfl
  lock := rfl
  unlocked _ := rfl
  refs _ := rfl
  held _ _ h := absurd h List.not_mem_nil
  clean _ h := absurd h Bool.false_ne_true
  distinct _ _ h := absurd h Bool.false_ne_true

/-- The states of the file system beside themselves. -/
def resting : FsRelated Panic.Benign cached where
  toRelated := restingDev
  J s t := s = t ∧ Resting s
  blank := ⟨rfl, rfl, fun _ => rfl, _, blank_cached⟩
  iget n := by
    rintro s _ ⟨rfl, hs⟩
    exact simIn_self (wp_post (calm_iget s hs) fun _ _ h => ⟨rfl, rfl, h⟩)
  idup r := by
    rintro s _ ⟨rfl, hs⟩
    exact simIn_self (wp_post (calm_idup s hs) fun _ _ h => ⟨rfl, rfl, h⟩)
  iput r := by
    rintro s _ ⟨rfl, hs⟩
    exact simIn_self (wp_post (calm_iput s hs) fun _ _ h => ⟨rfl, rfl, h⟩)
  onDev := by
    rintro α m n hmn s _ ⟨rfl, hs⟩
    obtain ⟨d, hc⟩ := hs.dev
    refine simIn_zoom (simIn_post (hmn s.dev s.dev (SameCached.idle hc)) ?_)
    rintro a b c c' ⟨rfl, hc'⟩
    obtain ⟨rfl, hd⟩ := SameCached.cached hc'
    exact ⟨rfl, rfl, hs.lock, hs.slots, hd⟩
  withInode := by
    rintro α r f g hfg s _ ⟨rfl, hs⟩
    have hlock : SimIn Panic.Benign (ilock r) (ilock r)
        (fun a b s' t' => a = b ∧ SameGuard r s' t') s s := by
      refine simIn_bind (simIn_self (wp_lockSlot_atRest hs fun x s1 h1 => ?_))
      have hR : SameGuard r s1 s1 := ⟨rfl, h1⟩
      refine simIn_ite (fun _ => ?_) fun _ => simIn_pure ⟨rfl, hR⟩
      refine agree_seq (agree_onDev_guard (restingDev.readDinode _)) hR fun d s2 t2 h2 => ?_
      exact agree_seq agree_modifySlot_guard h2 fun _ s3 t3 h3 => simIn_pure ⟨rfl, h3⟩
    refine simIn_bind (simIn_post hlock ?_)
    rintro ip _ s1 t1 ⟨rfl, h1⟩
    refine agree_seq (agree_onDev_guard (hfg ip)) h1 fun o s2 t2 h2 => ?_
    refine agree_seq agree_modifySlot_guard h2 fun _ s3 t3 h3 => ?_
    obtain ⟨rfl, h3⟩ := h3
    exact simIn_bind (simIn_self (wp_unlockSlot_guard h3 fun s4 h4 => simIn_pure ⟨rfl, rfl, h4⟩))

section Calls

variable {α : Type} {r cwd : InodeRef} {path src : List UInt8} {off len : ℕ}

theorem calm_of_agree {m : FsM α} (h : Agree Panic.Benign resting.J m m) : Calm m := by
  intro s hs
  refine wp_post (simIn_wp_left (h s s ⟨rfl, hs⟩)) ?_
  rintro a t ⟨b, t', -, -, rfl, ht⟩
  exact ht

theorem calm_run (op : Op) : Calm op.run := calm_of_agree (resting.run op)

theorem calm_namei : Calm (namei cwd path) := calm_of_agree (resting.namei cwd path)

theorem calm_create : Calm (create cwd path) := calm_of_agree (resting.create cwd path)

theorem calm_mkdir : Calm (mkdir cwd path) := calm_of_agree (resting.mkdir cwd path)

theorem calm_root : Calm root := calm_of_agree resting.root

theorem calm_inodeType : Calm (inodeType r) := calm_of_agree (resting.inodeType r)

theorem calm_stati : Calm (stati r) := calm_of_agree (resting.stati r)

theorem calm_readi : Calm (readi r off len) := calm_of_agree (resting.readi r off len)

theorem calm_writei : Calm (writei r off src) := calm_of_agree (resting.writei r off src)

theorem calm_appendi : Calm (appendi r src) := calm_of_agree (resting.appendi r src)

theorem calm_trunc : Calm (trunc r) := calm_of_agree (resting.trunc r)

/-- `init` leaves the file system at rest, whatever it was before. -/
theorem resting_init {e : Embedded} {s t : State} (h : init e s = .ok ((), t)) : Resting t := by
  obtain ⟨_, _, -, -, ht⟩ := wp_ok (simIn_wp_left (resting.init e s s)) h
  exact ht

end Calls

end ToyOs.Fs
