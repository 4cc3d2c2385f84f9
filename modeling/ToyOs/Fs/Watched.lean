import ToyOs.Fs.AccessRuns
import ToyOs.Fs.Cache
import Mathlib.Algebra.BigOperators.Group.Finset.Basic
import Mathlib.Algebra.Order.BigOperators.Group.Finset

/-!
The buffer cache under observation. `checked` is the block layer over steps
with a check after each of them; a check that fails stops the run with a panic
of its own. The file system with checks does what it does
without them, so the properties that are checked hold at every point of every
run.
-/
namespace ToyOs.Fs

open Bytes Prog Multiset Finset

/-- A buffer that is referenced or valid. -/
def Buffer.Live (x : Buffer) : Prop := 0 < x.refcnt ∨ x.valid = true

/-- What holds at every point of a run: a block is cached once, a valid buffer
agrees with the disk unless a guard is held, and at most two buffers are
referenced. -/
structure Watched (c : Dev) : Prop where
  single : ∀ i j, (c.bcache i).Live → (c.bcache j).Live →
    (c.bcache i).blockno = (c.bcache j).blockno → i = j
  clean : (∀ i, (c.bcache i).locked = false) → ∀ i, (c.bcache i).valid = true →
    (c.bcache i).data = c.disk (c.bcache i).blockno
  few : ∑ i, (c.bcache i).refcnt ≤ 2

section Checks

variable (p : Panic)

open Classical in
/-- Stop with `p` if the device is not as it should be. -/
noncomputable def watch : DevM Unit := do
  let c ← Prog.get
  if Watched c then pure () else Prog.panic p

/-- A step and the check after it. -/
noncomputable def watching {α : Type} (m : DevM α) : DevM α := do
  let a ← m
  watch p
  pure a

/-- The steps of the block layer, each with a check after it. -/
noncomputable abbrev watchedSteps : Steps where
  bcacheAcquire := watching p bcacheAcquire
  bcacheRelease := watching p bcacheRelease
  lockBuf i := watching p (lockBuf i)
  unlockBuf i := watching p (unlockBuf i)
  modifyBuf i f := watching p (modifyBuf i f)
  fetch blockno i := watching p (fetch blockno i)
  bwrite i := watching p (bwrite i)

/-- `bread` with checks; no buffer for a block of the disk is a failure, too. -/
noncomputable def checkedBread (blockno : ℕ) : DevM (Option (Fin nbuf)) := do
  match ← @bread (watchedSteps p) blockno with
  | none => if blockno < fssize then Prog.panic p else pure none
  | some i => pure (some i)

/-- The buffer cache with checks. -/
noncomputable abbrev checked : Access where
  β := Fin nbuf
  bread := checkedBread p
  readBuf := @readBuf (watchedSteps p)
  writeBuf := @writeBuf (watchedSteps p)
  bitmapTake := @bitmapTake (watchedSteps p)
  bitmapDrop := @bitmapDrop (watchedSteps p)
  brelse := @brelse (watchedSteps p)

end Checks

section Watching

variable {c : Dev} {H : Held} {d : ℕ → Block} {i : Fin nbuf} {x : Buffer} {n b : ℕ}

/-- The number of references is the number of held buffers. -/
theorem Cached.sum_refcnt (hc : Cached c H d) : ∑ i, (c.bcache i).refcnt = H.length := by
  have hcount : ∑ i, (↑(H.map Prod.fst) : Multiset (Fin nbuf)).count i =
      (↑(H.map Prod.fst) : Multiset (Fin nbuf)).card :=
    sum_count_eq_card fun a _ => mem_univ a
  simp only [coe_count, coe_card, List.length_map] at hcount
  rw [← hcount]
  exact sum_congr rfl fun i _ => hc.refs i

theorem Cached.watched (hc : Cached c H d) (hH : H.length ≤ 2) : Watched c where
  single i j hi hj heq :=
    hc.distinct i j (hi.elim hc.valid_of_pos id) (hj.elim hc.valid_of_pos id) heq
  clean _ i hv := by
    rw [hc.disk]
    exact hc.clean i hv
  few := by
    rw [hc.sum_refcnt]
    exact hH

/-- The slots of two devices differ at most in data and locks. -/
structure Slotwise (c c' : Dev) : Prop where
  blockno : ∀ i, (c'.bcache i).blockno = (c.bcache i).blockno
  refcnt : ∀ i, (c'.bcache i).refcnt = (c.bcache i).refcnt
  valid : ∀ i, (c'.bcache i).valid = (c.bcache i).valid

/-- While a guard is held only the numbers of the slots matter. -/
theorem Watched.guarded {c' : Dev} (h : Watched c) (hs : Slotwise c c')
    (hl : (c'.bcache i).locked = true) : Watched c' where
  single j k hj hk heq := by
    unfold Buffer.Live at hj hk
    rw [hs.refcnt, hs.valid] at hj hk
    rw [hs.blockno, hs.blockno] at heq
    exact h.single j k hj hk heq
  clean hall := absurd (hall i) (by simp [hl])
  few := by
    rw [sum_congr rfl fun i _ => hs.refcnt i]
    exact h.few

theorem slotwise_setBuf (hx : x.blockno = (c.bcache i).blockno ∧ x.refcnt = (c.bcache i).refcnt ∧
    x.valid = (c.bcache i).valid) : Slotwise c (c.setBuf i x) := by
  have hj : ∀ j, j = i ∨ (c.setBuf i x).bcache j = c.bcache j := fun j =>
    or_iff_not_imp_left.mpr fun h => setBuf_bcache_ne _ _ h
  refine ⟨fun j => ?_, fun j => ?_, fun j => ?_⟩
  · rcases hj j with rfl | h
    · rw [setBuf_bcache_same, hx.1]
    · rw [h]
  · rcases hj j with rfl | h
    · rw [setBuf_bcache_same, hx.2.1]
    · rw [h]
  · rcases hj j with rfl | h
    · rw [setBuf_bcache_same, hx.2.2]
    · rw [h]

theorem Slotwise.trans {c' c'' : Dev} (h : Slotwise c c') (h' : Slotwise c' c'') : Slotwise c c'' :=
  ⟨fun i => (h'.blockno i).trans (h.blockno i), fun i => (h'.refcnt i).trans (h.refcnt i),
    fun i => (h'.valid i).trans (h.valid i)⟩

theorem Watched.lock (h : Watched c) (i : Fin nbuf) :
    Watched (c.setBuf i { c.bcache i with locked := true }) :=
  h.guarded (i := i) (slotwise_setBuf ⟨rfl, rfl, rfl⟩) (by rw [setBuf_bcache_same])

theorem Watched.bcacheLock (h : Watched c) (b : Bool) : Watched { c with bcacheLock := b } :=
  ⟨h.single, h.clean, h.few⟩

/-- The slot that `bget` picked, before it is filled. -/
theorem Cached.watched_claim (hc : Cached c H d) (hp : Picks c n i) (hH : H.length < 2) :
    Watched (c.setBuf i ((c.bcache i).claim n)) := by
  have hload := (hc.load hp).watched (by simpa using hH)
  have hblock : ((c.bcache i).claim n).blockno = n := by
    unfold Buffer.claim
    split
    · exact (‹_ ∧ _›).1
    · rfl
  have hcnt : ((c.bcache i).claim n).refcnt = (c.bcache i).refcnt + 1 := by
    unfold Buffer.claim
    split
    · rfl
    · have h0 : (c.bcache i).refcnt = 0 := hp.elim (fun h => absurd h ‹_›) And.left
      simp [h0]
  refine ⟨fun j k hj hk heq => ?_, fun _ j hv => ?_, ?_⟩
  · refine hload.single j k ?_ ?_ ?_
    · by_cases h : j = i
      · exact Or.inr (by simp [h, Buffer.loaded])
      · rw [setBuf_bcache_ne _ _ h] at hj ⊢
        exact hj
    · by_cases h : k = i
      · exact Or.inr (by simp [h, Buffer.loaded])
      · rw [setBuf_bcache_ne _ _ h] at hk ⊢
        exact hk
    · have hno : ∀ l, ((c.setBuf i ((c.bcache i).loaded n (d n))).bcache l).blockno =
          ((c.setBuf i ((c.bcache i).claim n)).bcache l).blockno := by
        intro l
        by_cases h : l = i
        · simp [h, Buffer.loaded, hblock]
        · rw [setBuf_bcache_ne _ _ h, setBuf_bcache_ne _ _ h]
      rw [hno, hno]
      exact heq
  · by_cases h : j = i
    · subst h
      rw [setBuf_bcache_same] at hv ⊢
      have hwarm := (hc.claim_loaded hp).2.1 hv
      have hdata : ((c.bcache j).claim n).data = d n := congrArg Buffer.data hwarm
      rw [hdata, hblock, setBuf_disk, hc.disk]
    · rw [setBuf_bcache_ne _ _ h] at hv ⊢
      rw [setBuf_disk, hc.disk]
      exact hc.clean j hv
  · have hsum : ∑ j, ((c.setBuf i ((c.bcache i).claim n)).bcache j).refcnt =
        ∑ j, ((c.setBuf i ((c.bcache i).loaded n (d n))).bcache j).refcnt := by
      refine sum_congr rfl fun j _ => ?_
      by_cases h : j = i
      · simp [h, Buffer.loaded, hcnt]
      · rw [setBuf_bcache_ne _ _ h, setBuf_bcache_ne _ _ h]
    rw [hsum]
    exact hload.few

end Watching

section Steps

variable {c : Dev} {H : Held} {d : ℕ → Block} {i : Fin nbuf} {n b : ℕ} {p : Panic}
  {E : Panic → Prop} {α β γ : Type}

/-- A check that succeeds changes nothing. -/
theorem watch_ok (h : Watched c) : watch p c = .ok ((), c) := by
  simp [watch, Prog.get, Bind.bind, h]
  rfl

/-- A step beside the same step with a check. -/
theorem simIn_watching {m : DevM γ} {f : γ → DevM α} {g : γ → DevM β}
    {S : α → β → Dev → Dev → Prop}
    (h : wp m E (fun a c' => Watched c' ∧ SimIn E (f a) (g a) S c' c') c) :
    SimIn E (m >>= f) (watching p m >>= g) S c c := by
  unfold watching
  rw [Prog.bind_assoc]
  refine simIn_step (wp_post h fun a c' hc' => ?_)
  rw [Prog.bind_assoc]
  exact simIn_right (wp_of_ok (watch_ok hc'.1) hc'.2)

theorem simIn_watching_last {m : DevM α} {S : α → α → Dev → Dev → Prop}
    (h : wp m E (fun a c' => Watched c' ∧ S a a c' c') c) : SimIn E m (watching p m) S c c := by
  have hstep := simIn_watching (p := p) (f := pure) (g := pure) (wp_post h fun a c' hc' =>
    (⟨hc'.1, simIn_pure hc'.2⟩ : Watched c' ∧ SimIn E (pure a) (pure a) S c' c'))
  rwa [Prog.bind_pure, Prog.bind_pure] at hstep

end Steps

end ToyOs.Fs
