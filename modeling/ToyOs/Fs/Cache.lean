import ToyOs.Fs.Device
import Mathlib.Data.List.FinRange
import Mathlib.Data.Fintype.Card

/-!
The buffer cache between two operations of the block layer. The list of held
buffers is a stack: the last block read is released first. No guard is taken
and every valid buffer agrees with the disk, so a read of a block delivers
what the disk has and a write goes through; the slot that served it does not
matter to any caller.
-/
namespace ToyOs.Fs

open Bytes Prog Function List

variable {Q : Option (Fin nbuf) → Dev → Prop}

/-- Buffers in use, with the block each of them caches. -/
abbrev Held := List (Fin nbuf × ℕ)

structure Cached (c : Dev) (H : Held) (d : ℕ → Block) : Prop where
  disk : c.disk = d
  lock : c.bcacheLock = false
  unlocked : ∀ i, (c.bcache i).locked = false
  refs : ∀ i, (c.bcache i).refcnt = (H.map Prod.fst).count i
  held : ∀ i b, (i, b) ∈ H → (c.bcache i).blockno = b ∧ (c.bcache i).valid = true
  clean : ∀ i, (c.bcache i).valid = true → (c.bcache i).data = d (c.bcache i).blockno
  distinct : ∀ i j, (c.bcache i).valid = true → (c.bcache j).valid = true →
    (c.bcache i).blockno = (c.bcache j).blockno → i = j

variable {c : Dev} {H : Held} {d : ℕ → Block} {i : Fin nbuf} {b blockno : ℕ} {E : Panic → Prop}

@[simp] theorem setBuf_bcache_same (c : Dev) (i : Fin nbuf) (x : Buffer) :
    (c.setBuf i x).bcache i = x := by
  simp [Dev.setBuf]

theorem setBuf_bcache_ne (c : Dev) {i j : Fin nbuf} (x : Buffer) (h : j ≠ i) :
    (c.setBuf i x).bcache j = c.bcache j := by
  simp [Dev.setBuf, h]

@[simp] theorem setBuf_disk (c : Dev) (i : Fin nbuf) (x : Buffer) :
    (c.setBuf i x).disk = c.disk := rfl

@[simp] theorem setBuf_lock (c : Dev) (i : Fin nbuf) (x : Buffer) :
    (c.setBuf i x).bcacheLock = c.bcacheLock := rfl

@[simp] theorem setBuf_setBuf (c : Dev) (i : Fin nbuf) (x y : Buffer) :
    (c.setBuf i x).setBuf i y = c.setBuf i y := by
  simp [Dev.setBuf]

@[simp] theorem setBuf_self (c : Dev) (i : Fin nbuf) : c.setBuf i (c.bcache i) = c := by
  simp [Dev.setBuf]

theorem Buffer.unlock_eq {x : Buffer} (h : x.locked = false) : { x with locked := false } = x := by
  rw [← h]

theorem wp_bcacheAcquire {Q : Unit → Dev → Prop} (h : c.bcacheLock = false)
    (hQ : Q () { c with bcacheLock := true }) : wp bcacheAcquire E Q c := by
  simp only [bcacheAcquire, wp_bind, wp_get, wp_assert, wp_modify, h]
  exact ⟨fun _ => hQ, fun h => by simp at h⟩

theorem wp_bcacheRelease {Q : Unit → Dev → Prop} (h : c.bcacheLock = true)
    (hQ : Q () { c with bcacheLock := false }) : wp bcacheRelease E Q c := by
  simp only [bcacheRelease, wp_bind, wp_get, wp_assert, wp_modify, h]
  exact ⟨fun _ => hQ, fun h => by simp at h⟩

theorem wp_lockBuf {Q : Buffer → Dev → Prop} (h : (c.bcache i).locked = false)
    (hQ : Q (c.bcache i) (c.setBuf i { c.bcache i with locked := true })) :
    wp (lockBuf i) E Q c := by
  simp only [lockBuf, wp_bind, wp_get, wp_assert, wp_modify, wp_pure, h]
  exact ⟨fun _ => hQ, fun h => by simp at h⟩

/-- What `bget` does to the slot that it picks. -/
def Buffer.claim (x : Buffer) (blockno : ℕ) : Buffer :=
  if x.blockno = blockno ∧ (0 < x.refcnt ∨ x.valid) then { x with refcnt := x.refcnt + 1 }
  else { x with blockno := blockno, refcnt := 1, valid := false }

/-- A slot of the first loop either caches the block or stays as it is. -/
theorem wp_bgetCached (h : (c.bcache i).locked = false)
    (hhit : (c.bcache i).blockno = blockno ∧ (0 < (c.bcache i).refcnt ∨ (c.bcache i).valid) →
      Q (some i) (c.setBuf i ((c.bcache i).claim blockno)))
    (hmiss : ¬ ((c.bcache i).blockno = blockno ∧
      (0 < (c.bcache i).refcnt ∨ (c.bcache i).valid)) → Q none c) :
    wp (bgetCached blockno i) E Q c := by
  simp only [bgetCached, wp_bind]
  refine wp_lockBuf h ?_
  rw [wp_ite]
  refine ⟨fun hc => ?_, fun hc => ?_⟩
  · have hhit := hhit hc
    rw [Buffer.claim, if_pos hc] at hhit
    simpa [modifyBuf, unlockBuf, Buffer.unlock_eq, h] using hhit
  · have hmiss := hmiss hc
    simpa [unlockBuf, Buffer.unlock_eq h] using hmiss

theorem wp_bgetFree (h : (c.bcache i).locked = false)
    (hcold : ¬ ((c.bcache i).blockno = blockno ∧ (0 < (c.bcache i).refcnt ∨ (c.bcache i).valid)))
    (hfree : (c.bcache i).refcnt = 0 → Q (some i) (c.setBuf i ((c.bcache i).claim blockno)))
    (hbusy : (c.bcache i).refcnt ≠ 0 → Q none c) :
    wp (bgetFree blockno i) E Q c := by
  simp only [bgetFree, wp_bind]
  refine wp_lockBuf h ?_
  rw [wp_ite]
  refine ⟨fun hc => ?_, fun hc => ?_⟩
  · have hfree := hfree hc
    rw [Buffer.claim, if_neg hcold] at hfree
    simpa [modifyBuf, unlockBuf, Buffer.unlock_eq, h] using hfree
  · have hbusy := hbusy hc
    simpa [unlockBuf, Buffer.unlock_eq h] using hbusy

/-- The slot that `bget` picks for a block: one that caches it, or an unused
one when no slot does. -/
def Picks (c : Dev) (blockno : ℕ) (i : Fin nbuf) : Prop :=
  ((c.bcache i).blockno = blockno ∧ (0 < (c.bcache i).refcnt ∨ (c.bcache i).valid = true)) ∨
    ((c.bcache i).refcnt = 0 ∧ ∀ j, ¬ ((c.bcache j).blockno = blockno ∧
      (0 < (c.bcache j).refcnt ∨ (c.bcache j).valid = true)))

/-- A buffer is unused, or the block is in one of the held ones. -/
def Served (H : Held) (blockno : ℕ) : Prop :=
  (∃ i, i ∉ H.map Prod.fst) ∨ ∃ i, (i, blockno) ∈ H

namespace Cached

theorem refcnt_pos_iff (hc : Cached c H d) :
    0 < (c.bcache i).refcnt ↔ ∃ b, (i, b) ∈ H := by
  rw [hc.refs i, count_pos_iff, mem_map]
  constructor
  · rintro ⟨⟨j, b⟩, hmem, rfl⟩
    exact ⟨b, hmem⟩
  · rintro ⟨b, hmem⟩
    exact ⟨(i, b), hmem, rfl⟩

theorem valid_of_pos (hc : Cached c H d) (h : 0 < (c.bcache i).refcnt) :
    (c.bcache i).valid = true := by
  obtain ⟨b, hb⟩ := hc.refcnt_pos_iff.mp h
  exact (hc.held i b hb).2

/-- Fewer held buffers than slots leave one slot unused. -/
theorem exists_unused (hc : Cached c H d) (hH : H.length < nbuf) :
    ∃ i, (c.bcache i).refcnt = 0 := by
  by_contra hall
  have hpos : ∀ i, i ∈ H.map Prod.fst := by
    intro i
    rw [← count_pos_iff, ← hc.refs i]
    exact Nat.pos_of_ne_zero fun h => hall ⟨i, h⟩
  have hle : (Finset.univ : Finset (Fin nbuf)).card ≤ (H.map Prod.fst).toFinset.card :=
    Finset.card_le_card fun i _ => mem_toFinset.mpr (hpos i)
  have hlen := (H.map Prod.fst).toFinset_card_le
  simp only [Finset.card_univ, Fintype.card_fin, length_map] at hle hlen
  omega

theorem refcnt_eq_zero_iff (hc : Cached c H d) :
    (c.bcache i).refcnt = 0 ↔ i ∉ H.map Prod.fst := by
  rw [hc.refs, count_eq_zero]

/-- Which blocks can be read depends on the held buffers only. -/
theorem picks_iff (hc : Cached c H d) : (∃ i, Picks c blockno i) ↔ Served H blockno := by
  constructor
  · rintro ⟨i, ⟨hb, hlive⟩ | ⟨h0, -⟩⟩
    · rcases Nat.eq_zero_or_pos (c.bcache i).refcnt with h0 | hpos
      · exact .inl ⟨i, hc.refcnt_eq_zero_iff.mp h0⟩
      · obtain ⟨b', hmem⟩ := hc.refcnt_pos_iff.mp hpos
        have hb' := (hc.held i b' hmem).1
        exact .inr ⟨i, by rwa [← hb, hb']⟩
    · exact .inl ⟨i, hc.refcnt_eq_zero_iff.mp h0⟩
  · rintro (⟨i, hi⟩ | ⟨i, hmem⟩)
    · by_cases hhit : ∃ j, (c.bcache j).blockno = blockno ∧
          (0 < (c.bcache j).refcnt ∨ (c.bcache j).valid = true)
      · obtain ⟨j, hj⟩ := hhit
        exact ⟨j, .inl hj⟩
      · exact ⟨i, .inr ⟨hc.refcnt_eq_zero_iff.mpr hi, not_exists.mp hhit⟩⟩
    · obtain ⟨hb, hv⟩ := hc.held i blockno hmem
      exact ⟨i, .inl ⟨hb, .inr hv⟩⟩

theorem served (hc : Cached c H d) (hH : H.length < nbuf) (blockno : ℕ) : Served H blockno := by
  obtain ⟨i, hi⟩ := hc.exists_unused hH
  exact .inl ⟨i, hc.refcnt_eq_zero_iff.mp hi⟩

end Cached

/-- For a block of the disk `bget` picks a slot, if there is one. -/
theorem wp_bget (hc : Cached c H d) (hb : blockno < fssize) (hnone : ¬ Served H blockno → Q none c)
    (hQ : ∀ i, Picks c blockno i → Q (some i) (c.setBuf i ((c.bcache i).claim blockno))) :
    wp (bget blockno) E Q c := by
  unfold bget
  rw [if_neg (by omega)]
  simp only [wp_bind]
  refine wp_bcacheAcquire hc.lock ?_
  -- both loops leave the state alone until they pick a slot
  refine wp_firstSome (fun rest t => t = { c with bcacheLock := true } ∧
      ∀ j, j ∉ rest → ¬ ((c.bcache j).blockno = blockno ∧
        (0 < (c.bcache j).refcnt ∨ (c.bcache j).valid = true)))
    ⟨rfl, fun j hj => absurd (mem_finRange j) hj⟩ ?_ ?_
  · rintro t ⟨rfl, hcold⟩
    simp only [not_mem_nil, not_false_eq_true, forall_const] at hcold
    simp only [wp_bind]
    refine wp_firstSome (fun rest t => t = { c with bcacheLock := true } ∧
        ∀ j, j ∉ rest → (c.bcache j).refcnt ≠ 0)
      ⟨rfl, fun j hj => absurd (mem_finRange j) hj⟩ ?_ ?_
    · rintro t ⟨rfl, hbusy⟩
      refine wp_bcacheRelease rfl ?_
      rw [← hc.lock]
      refine hnone fun hs => ?_
      obtain ⟨i, hhit | ⟨h0, -⟩⟩ := hc.picks_iff.mpr hs
      · exact hcold i hhit
      · exact hbusy i not_mem_nil h0
    · rintro i rest t - ⟨rfl, hbusy⟩
      refine wp_bgetFree (hc.unlocked i) (hcold i) (fun h0 => ?_) fun h0 => ⟨rfl, ?_⟩
      · refine wp_bcacheRelease rfl ?_
        rw [← hc.lock]
        exact hQ i (Or.inr ⟨h0, hcold⟩)
      · intro j hj
        by_cases hji : j = i
        · exact hji ▸ h0
        · exact hbusy j (by simp [hji, hj])
  · rintro i rest t - ⟨rfl, hcold⟩
    refine wp_bgetCached (hc.unlocked i) (fun hhit => ?_) fun hmiss => ⟨rfl, ?_⟩
    · simp only [wp_bind]
      refine wp_bcacheRelease rfl ?_
      rw [← hc.lock]
      exact hQ i (Or.inl hhit)
    · intro j hj
      by_cases hji : j = i
      · exact hji ▸ hmiss
      · exact hcold j (by simp [hji, hj])

/-- The slot after `bread`. -/
def Buffer.loaded (x : Buffer) (blockno : ℕ) (data : Block) : Buffer where
  blockno := blockno
  refcnt := x.refcnt + 1
  valid := true
  data := data
  locked := false

/-- With a picked slot filled, the block is held once more. -/
theorem Cached.load (hc : Cached c H d) (hp : Picks c blockno i) :
    Cached (c.setBuf i ((c.bcache i).loaded blockno (d blockno))) ((i, blockno) :: H) d := by
  have hother : ∀ j, j ≠ i → (c.bcache j).valid = true → (c.bcache j).blockno ≠ blockno := by
    intro j hj hv hb
    rcases hp with ⟨hbi, hlive⟩ | ⟨_, hcold⟩
    · have hvi : (c.bcache i).valid = true := hlive.elim hc.valid_of_pos id
      exact hj (hc.distinct j i hv hvi (hb.trans hbi.symm))
    · exact hcold j ⟨hb, Or.inr hv⟩
  refine ⟨hc.disk, hc.lock, ?_, ?_, ?_, ?_, ?_⟩
  · intro j
    by_cases hj : j = i
    · subst hj
      simp [Buffer.loaded]
    · rw [setBuf_bcache_ne _ _ hj]
      exact hc.unlocked j
  · intro j
    by_cases hj : j = i
    · subst hj
      simp [Buffer.loaded, hc.refs j]
    · rw [setBuf_bcache_ne _ _ hj, hc.refs j]
      simp [Ne.symm hj]
  · intro j b hmem
    rcases mem_cons.mp hmem with heq | hold
    · obtain ⟨rfl, rfl⟩ := Prod.mk.inj heq
      simp [Buffer.loaded]
    · by_cases hj : j = i
      · subst hj
        have hpos : 0 < (c.bcache j).refcnt := hc.refcnt_pos_iff.mpr ⟨b, hold⟩
        rcases hp with ⟨hb, _⟩ | ⟨h0, _⟩
        · have := (hc.held j b hold).1
          simp [Buffer.loaded, ← hb, this]
        · omega
      · rw [setBuf_bcache_ne _ _ hj]
        exact hc.held j b hold
  · intro j hv
    by_cases hj : j = i
    · subst hj
      simp [Buffer.loaded]
    · rw [setBuf_bcache_ne _ _ hj] at hv ⊢
      exact hc.clean j hv
  · intro j k hvj hvk heq
    by_cases hj : j = i
    · by_cases hk : k = i
      · rw [hj, hk]
      · subst hj
        rw [setBuf_bcache_ne _ _ hk] at hvk heq
        exact absurd heq.symm (by simpa [Buffer.loaded] using hother k hk hvk)
    · rw [setBuf_bcache_ne _ _ hj] at hvj heq
      by_cases hk : k = i
      · subst hk
        exact absurd heq (by simpa [Buffer.loaded] using hother j hj hvj)
      · rw [setBuf_bcache_ne _ _ hk] at hvk heq
        exact hc.distinct j k hvj hvk heq

/-- Filled from disk when it is not valid, the picked slot is a loaded one. -/
theorem Cached.claim_loaded (hc : Cached c H d) (hp : Picks c blockno i) :
    ((c.bcache i).claim blockno).locked = false ∧
    (((c.bcache i).claim blockno).valid = true →
      { (c.bcache i).claim blockno with locked := false } =
        (c.bcache i).loaded blockno (d blockno)) ∧
    (((c.bcache i).claim blockno).valid = false →
      { (c.bcache i).claim blockno with data := d blockno, valid := true, locked := false } =
        (c.bcache i).loaded blockno (d blockno)) := by
  have hunl := hc.unlocked i
  by_cases hit : (c.bcache i).blockno = blockno ∧
      (0 < (c.bcache i).refcnt ∨ (c.bcache i).valid = true)
  · -- the slot already holds the block: its data are those of the disk
    have hv : (c.bcache i).valid = true := hit.2.elim hc.valid_of_pos id
    have hdata := hc.clean i hv
    rw [hit.1] at hdata
    rw [Buffer.claim, if_pos hit]
    refine ⟨hunl, fun _ => ?_, fun h => ?_⟩
    · rw [Buffer.loaded, ← hdata, hv, hit.1]
    · exact absurd (hv.symm.trans h) (by decide)
  · have h0 : (c.bcache i).refcnt = 0 := hp.elim (fun h => absurd h hit) And.left
    rw [Buffer.claim, if_neg hit]
    refine ⟨hunl, fun h => absurd h (by simp), fun _ => ?_⟩
    rw [Buffer.loaded, h0]

/-- Reading a block of the disk fails only when no buffer can serve it. -/
theorem wp_bread_served (hc : Cached c H d) (hb : blockno < fssize)
    (hnone : ¬ Served H blockno → Q none c)
    (hQ : ∀ i c', Served H blockno → Cached c' ((i, blockno) :: H) d → Q (some i) c') :
    wp (bread blockno) E Q c := by
  simp only [bread, wp_bind]
  refine wp_bget hc hb hnone fun i hp => ?_
  have hload := hQ i _ (hc.picks_iff.mp ⟨i, hp⟩) (hc.load hp)
  obtain ⟨hunl, hwarm, hcold⟩ := hc.claim_loaded hp
  generalize (c.bcache i).claim blockno = x at hunl hwarm hcold
  simp only [wp_bind]
  refine wp_lockBuf (by rw [setBuf_bcache_same]; exact hunl) ?_
  simp only [setBuf_bcache_same, setBuf_setBuf]
  cases hv : x.valid with
  | true =>
    rw [← hwarm hv] at hload
    simpa [unlockBuf, hv] using hload
  | false =>
    rw [← hcold hv] at hload
    simpa [fetch, unlockBuf, hc.disk] using hload

/-- Reading a block of the disk always succeeds while a slot is unused. -/
theorem wp_bread (hc : Cached c H d) (hb : blockno < fssize) (hH : H.length < nbuf)
    (hQ : ∀ i c', Cached c' ((i, blockno) :: H) d → Q (some i) c') :
    wp (bread blockno) E Q c :=
  wp_bread_served hc hb (fun hs => absurd (hc.served hH blockno) hs) fun i c' _ => hQ i c'

theorem wp_readBuf {Q : Block → Dev → Prop} (hc : Cached c H d) (hi : (i, b) ∈ H)
    (hQ : Q (d b) c) : wp (readBuf i) E Q c := by
  obtain ⟨hb, hv⟩ := hc.held i b hi
  have hdata := hc.clean i hv
  rw [hb] at hdata
  simp only [readBuf, wp_bind]
  refine wp_lockBuf (hc.unlocked i) ?_
  rw [← hdata] at hQ
  simpa [unlockBuf, Buffer.unlock_eq (hc.unlocked i)] using hQ

/-- The cache after the data of a held buffer changed and went to disk. -/
def Dev.rewrite (c : Dev) (i : Fin nbuf) (b : ℕ) (x : Block) : Dev :=
  { c.setBuf i { c.bcache i with data := x } with disk := Function.update c.disk b x }

theorem Cached.rewrite (hc : Cached c H d) (hi : (i, b) ∈ H) (x : Block) :
    Cached (c.rewrite i b x) H (update d b x) := by
  obtain ⟨hbi, hvi⟩ := hc.held i b hi
  have hkeep : ∀ j, ((c.rewrite i b x).bcache j).blockno = (c.bcache j).blockno ∧
      ((c.rewrite i b x).bcache j).valid = (c.bcache j).valid ∧
      ((c.rewrite i b x).bcache j).refcnt = (c.bcache j).refcnt ∧
      ((c.rewrite i b x).bcache j).locked = (c.bcache j).locked := by
    intro j
    by_cases hj : j = i
    · subst hj
      simp [Dev.rewrite, Dev.setBuf]
    · simp [Dev.rewrite, Dev.setBuf, hj]
  refine ⟨by simp [Dev.rewrite, hc.disk], hc.lock, ?_, ?_, ?_, ?_, ?_⟩
  · intro j
    rw [(hkeep j).2.2.2]
    exact hc.unlocked j
  · intro j
    rw [(hkeep j).2.2.1]
    exact hc.refs j
  · intro j b' hmem
    rw [(hkeep j).1, (hkeep j).2.1]
    exact hc.held j b' hmem
  · intro j hv
    rw [(hkeep j).1]
    rw [(hkeep j).2.1] at hv
    by_cases hj : j = i
    · subst hj
      simp [Dev.rewrite, Dev.setBuf, hbi]
    · have hne : (c.bcache j).blockno ≠ b := fun h =>
        hj (hc.distinct j i hv hvi (h.trans hbi.symm))
      rw [update_of_ne hne, ← hc.clean j hv]
      simp [Dev.rewrite, Dev.setBuf, hj]
  · intro j k hvj hvk heq
    rw [(hkeep j).2.1] at hvj
    rw [(hkeep k).2.1] at hvk
    rw [(hkeep j).1, (hkeep k).1] at heq
    exact hc.distinct j k hvj hvk heq

/-- A change of a held buffer under its guard reaches the disk. -/
theorem wp_poke {Q : Unit → Dev → Prop} {f : Block → Block} (hc : Cached c H d)
    (hi : (i, b) ∈ H) (hQ : ∀ c', Cached c' H (update d b (f (d b))) → Q () c') :
    wp (modifyBuf i fun x => { x with data := f x.data }) E
      (fun _ c1 => wp (bwrite i) E (fun _ c2 => wp (unlockBuf i) E Q c2) c1)
      (c.setBuf i { c.bcache i with locked := true }) := by
  obtain ⟨hb, hv⟩ := hc.held i b hi
  have hdata := hc.clean i hv
  rw [hb] at hdata
  have hunl := hc.unlocked i
  have hw := hQ _ (hc.rewrite hi (f (d b)))
  simpa [modifyBuf, bwrite, unlockBuf, Dev.rewrite, Dev.setBuf, hb, hdata, hunl] using hw

theorem wp_writeBuf {Q : Unit → Dev → Prop} (hc : Cached c H d) (hi : (i, b) ∈ H)
    (f : Block → Block)
    (hQ : ∀ c', Cached c' H (update d b (f (d b))) → Q () c') :
    wp (writeBuf i f) E Q c := by
  simp only [writeBuf, wp_bind]
  exact wp_lockBuf (hc.unlocked i) (wp_poke hc hi hQ)

/-- The test and change of a bitmap byte in `balloc`. -/
theorem wp_bitmapTake_disk {Q : Bool → Dev → Prop} {n : ℕ} (hc : Cached c H d) (hi : (i, b) ∈ H)
    (hfree : d b (bitByte n) &&& bitMask n = 0 → ∀ c', Cached c' H (update d b
      (update (d b) (bitByte n) (d b (bitByte n) ||| bitMask n))) → Q true c')
    (hused : ¬ d b (bitByte n) &&& bitMask n = 0 → Q false c) : wp (bitmapTake i n) E Q c := by
  obtain ⟨hbi, hv⟩ := hc.held i b hi
  have hdata := hc.clean i hv
  rw [hbi] at hdata
  simp only [bitmapTake, wp_bind]
  refine wp_lockBuf (hc.unlocked i) ?_
  rw [wp_ite, hdata]
  refine ⟨fun h0 => ?_, fun h1 => ?_⟩
  · simp only [wp_bind]
    exact wp_poke hc hi (f := fun x =>
      update x (bitByte n) (x (bitByte n) ||| bitMask n)) (hfree h0)
  · simpa [unlockBuf, Buffer.unlock_eq (hc.unlocked i)] using hused h1

/-- The test and change of a bitmap byte in `bfree`. -/
theorem wp_bitmapDrop_disk {Q : Unit → Dev → Prop} {n : ℕ} (hc : Cached c H d) (hi : (i, b) ∈ H)
    (hused : d b (bitByte n) &&& bitMask n ≠ 0 → ∀ c', Cached c' H (update d b
      (update (d b) (bitByte n) (d b (bitByte n) &&& ~~~bitMask n))) → Q () c')
    (hfree : d b (bitByte n) &&& bitMask n = 0 → E .freeingFree) :
    wp (bitmapDrop i n) E Q c := by
  obtain ⟨hbi, hv⟩ := hc.held i b hi
  have hdata := hc.clean i hv
  rw [hbi] at hdata
  simp only [bitmapDrop, wp_bind]
  refine wp_lockBuf (hc.unlocked i) ?_
  rw [wp_assert, hdata]
  refine ⟨fun h1 => ?_, fun h0 => hfree (by simpa using h0)⟩
  exact wp_poke hc hi (f := fun x =>
    update x (bitByte n) (x (bitByte n) &&& ~~~bitMask n)) (hused (by simpa using h1))

theorem Cached.unref (hc : Cached c ((i, b) :: H) d) :
    Cached (c.setBuf i { c.bcache i with refcnt := (c.bcache i).refcnt - 1 }) H d := by
  have hunl := hc.unlocked i
  refine ⟨hc.disk, hc.lock, ?_, ?_, ?_, ?_, ?_⟩
  · intro j
    by_cases hj : j = i
    · subst hj
      simp [hunl]
    · rw [setBuf_bcache_ne _ _ hj]
      exact hc.unlocked j
  · intro j
    by_cases hj : j = i
    · subst hj
      simp [hc.refs j]
    · rw [setBuf_bcache_ne _ _ hj, hc.refs j]
      simp [Ne.symm hj]
  · intro j b' hmem
    have hheld := hc.held j b' (mem_cons_of_mem _ hmem)
    by_cases hj : j = i
    · subst hj
      simpa using hheld
    · rwa [setBuf_bcache_ne _ _ hj]
  · intro j
    have hclean := hc.clean j
    by_cases hj : j = i
    · subst hj
      simpa using hclean
    · rwa [setBuf_bcache_ne _ _ hj]
  · intro j k
    have hdist := hc.distinct j k
    by_cases hj : j = i
    · by_cases hk : k = i
      · exact fun _ _ _ => hj.trans hk.symm
      · subst hj
        simpa [setBuf_bcache_ne _ _ hk] using hdist
    · by_cases hk : k = i
      · subst hk
        simpa [setBuf_bcache_ne _ _ hj] using hdist
      · rwa [setBuf_bcache_ne _ _ hj, setBuf_bcache_ne _ _ hk]

theorem wp_brelse {Q : Unit → Dev → Prop} (hc : Cached c ((i, b) :: H) d)
    (hQ : ∀ c', Cached c' H d → Q () c') : wp (brelse i) E Q c := by
  have hunl := hc.unlocked i
  have hpos : 0 < (c.bcache i).refcnt := hc.refcnt_pos_iff.mpr ⟨b, mem_cons_self⟩
  simp only [brelse, wp_bind]
  refine wp_bcacheAcquire hc.lock (wp_lockBuf hunl ?_)
  rw [wp_assert]
  refine ⟨fun _ => ?_, fun h => absurd h (by simpa using Nat.pos_iff_ne_zero.mp hpos)⟩
  simp only [plain_modifyBuf, plain_unlockBuf, modifyBuf, unlockBuf, wp_modify, setBuf_bcache_same,
    setBuf_setBuf]
  refine wp_bcacheRelease rfl ?_
  simpa [Dev.setBuf, hunl, hc.lock, Buffer.unlock_eq] using hQ _ hc.unref

end ToyOs.Fs
