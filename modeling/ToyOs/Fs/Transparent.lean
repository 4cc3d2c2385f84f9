import ToyOs.Fs.Resting
import ToyOs.Fs.Watched
import ToyOs.Fs.Init

/-!
The buffer cache is transparent: with or without checks, with the cache or
directly on the disk, the file system gives the same answers and leaves the
same disk.
-/
namespace ToyOs.Fs

open Bytes Prog Function List

variable {c : Dev} {H : Held} {d : ℕ → Block} {i : Fin nbuf} {n b : ℕ} {p : Panic}
  {E : Panic → Prop}

section Checked

variable {α β : Type} {S : Option (Fin nbuf) → Option (Fin nbuf) → Dev → Dev → Prop}

/-- A change of the data of a held buffer, step by step. -/
theorem simIn_poke {f : Block → Block} {m : DevM α} {k : DevM β} {S : α → β → Dev → Dev → Prop}
    (hc : Cached c H d) (hH : H.length ≤ 2) (hi : (i, b) ∈ H)
    (hm : ∀ c', Cached c' H (update d b (f (d b))) → SimIn E m k S c' c') :
    SimIn E
      (do modifyBuf i fun x => { x with data := f x.data }
          bwrite i
          unlockBuf i
          m)
      (do watching p (modifyBuf i fun x => { x with data := f x.data })
          watching p (bwrite i)
          watching p (unlockBuf i)
          k) S
      (c.setBuf i { c.bcache i with locked := true })
      (c.setBuf i { c.bcache i with locked := true }) := by
  obtain ⟨hb, hv⟩ := hc.held i b hi
  have hdata := hc.clean i hv
  rw [hb] at hdata
  have hfin := hc.rewrite hi (f (d b))
  have hw := (hc.watched hH).lock i
  refine simIn_watching (wp_modify.mpr ⟨?_, simIn_watching (wp_modify.mpr ⟨?_,
    simIn_watching (wp_modify.mpr ⟨?_, ?_⟩)⟩)⟩)
  · exact hw.guarded (i := i) (slotwise_setBuf (by simp)) (by simp)
  · refine hw.guarded (i := i) ?_ ?_
    · exact (slotwise_setBuf (i := i) (by simp)).trans ⟨fun _ => rfl, fun _ => rfl, fun _ => rfl⟩
    · simp
  · have hgoal := hfin.watched hH
    simpa [Dev.rewrite, Dev.setBuf, hb, hdata, hc.unlocked i] using hgoal
  · have hgoal := hm _ hfin
    simpa [Dev.rewrite, Dev.setBuf, hb, hdata, hc.unlocked i] using hgoal

theorem simIn_checkedReadBuf (hc : Cached c H d) (hH : H.length ≤ 2) (hi : (i, b) ∈ H)
    {S : Block → Block → Dev → Dev → Prop} (hS : S (d b) (d b) c c) :
    SimIn E (readBuf i) (@readBuf (watchedSteps p) i) S c c := by
  obtain ⟨hb, hv⟩ := hc.held i b hi
  have hdata := hc.clean i hv
  rw [hb] at hdata
  have hw := hc.watched hH
  refine simIn_watching (wp_lockBuf (hc.unlocked i) ⟨hw.lock i, ?_⟩)
  refine simIn_watching (wp_modify.mpr ?_)
  simp only [setBuf_bcache_same, setBuf_setBuf, Buffer.unlock_eq (hc.unlocked i), setBuf_self]
  rw [← hdata] at hS
  exact ⟨hw, simIn_pure hS⟩

theorem simIn_checkedWriteBuf (hc : Cached c H d) (hH : H.length ≤ 2) (hi : (i, b) ∈ H)
    (f : Block → Block) {S : Unit → Unit → Dev → Dev → Prop}
    (hS : ∀ c', Cached c' H (update d b (f (d b))) → S () () c' c') :
    SimIn E (writeBuf i f) (@writeBuf (watchedSteps p) i f) S c c := by
  refine simIn_watching (wp_lockBuf (hc.unlocked i) ⟨(hc.watched hH).lock i, ?_⟩)
  have hpoke := simIn_poke (p := p) (E := E) (f := f) (m := pure ()) (k := pure ()) (S := S) hc hH hi
    fun c' hc' => simIn_pure (hS c' hc')
  rwa [Prog.bind_unit, Prog.bind_unit] at hpoke

theorem simIn_checkedBitmapTake (hc : Cached c H d) (hH : H.length ≤ 2) (hi : (i, b) ∈ H)
    {S : Bool → Bool → Dev → Dev → Prop} (hS : ∀ v c' d', Cached c' H d' → S v v c' c') :
    SimIn E (bitmapTake i n) (@bitmapTake (watchedSteps p) i n) S c c := by
  have hw := hc.watched hH
  refine simIn_watching (wp_lockBuf (hc.unlocked i) ⟨hw.lock i, simIn_ite (fun _ => ?_) fun _ => ?_⟩)
  · exact simIn_poke (f := fun data => update data (bitByte n)
      (data (bitByte n) ||| bitMask n)) hc hH hi fun c' hc' => simIn_pure (hS true c' _ hc')
  · refine simIn_watching (wp_modify.mpr ?_)
    simp only [setBuf_bcache_same, setBuf_setBuf, Buffer.unlock_eq (hc.unlocked i), setBuf_self]
    exact ⟨hw, simIn_pure (hS false c d hc)⟩

theorem simIn_checkedBitmapDrop (hE : E .freeingFree) (hc : Cached c H d) (hH : H.length ≤ 2)
    (hi : (i, b) ∈ H) {S : Unit → Unit → Dev → Dev → Prop}
    (hS : ∀ c' d', Cached c' H d' → S () () c' c') :
    SimIn E (bitmapDrop i n) (@bitmapDrop (watchedSteps p) i n) S c c := by
  have hw := hc.watched hH
  refine simIn_watching (wp_lockBuf (hc.unlocked i) ⟨hw.lock i, ?_⟩)
  refine simIn_step (wp_assert.mpr ⟨fun _ => ?_, fun _ => hE⟩)
  have hpoke := simIn_poke (p := p) (E := E) (f := fun data => update data (bitByte n)
    (data (bitByte n) &&& ~~~bitMask n)) (m := pure ()) (k := pure ()) (S := S) hc hH hi
    fun c' hc' => simIn_pure (hS c' _ hc')
  rwa [Prog.bind_unit, Prog.bind_unit] at hpoke

theorem simIn_checkedBrelse (hc : Cached c ((i, b) :: H) d) (hH : H.length < 2)
    {S : Unit → Unit → Dev → Dev → Prop} (hS : ∀ c', Cached c' H d → S () () c' c') :
    SimIn E (brelse i) (@brelse (watchedSteps p) i) S c c := by
  have hunl := hc.unlocked i
  have hpos : 0 < (c.bcache i).refcnt := hc.refcnt_pos_iff.mpr ⟨b, mem_cons_self⟩
  have hw := (hc.watched (by simpa using hH)).bcacheLock true
  have hw' := (hc.unref.watched (Nat.le_of_lt hH)).bcacheLock true
  refine simIn_watching (wp_bcacheAcquire hc.lock ⟨hw, ?_⟩)
  refine simIn_watching (wp_lockBuf hunl ⟨hw.lock i, ?_⟩)
  refine simIn_step (wp_assert.mpr ⟨fun _ => ?_, fun h => absurd h ?_⟩)
  · refine simIn_watching (wp_modify.mpr ⟨?_, simIn_watching (wp_modify.mpr ⟨?_, ?_⟩)⟩)
    · have hgoal := hw'.lock i
      simpa [Dev.setBuf] using hgoal
    · simpa [Dev.setBuf, hunl, Buffer.unlock_eq] using hw'
    · refine simIn_watching_last (wp_bcacheRelease rfl ?_)
      have hgoal := And.intro (hc.unref.watched (Nat.le_of_lt hH)) (hS _ hc.unref)
      simpa [Dev.setBuf, hunl, hc.lock, Buffer.unlock_eq] using hgoal
  · simpa using Nat.pos_iff_ne_zero.mp hpos

theorem simIn_checkedBgetCached (hw : Watched c) (hl : (c.bcache i).locked = false)
    (hhit : (c.bcache i).blockno = n ∧ (0 < (c.bcache i).refcnt ∨ (c.bcache i).valid) →
      Watched (c.setBuf i ((c.bcache i).claim n)) ∧
        S (some i) (some i) (c.setBuf i ((c.bcache i).claim n)) (c.setBuf i ((c.bcache i).claim n)))
    (hmiss : ¬ ((c.bcache i).blockno = n ∧ (0 < (c.bcache i).refcnt ∨ (c.bcache i).valid)) →
      S none none c c) :
    SimIn E (bgetCached n i) (@bgetCached (watchedSteps p) n i) S c c := by
  refine simIn_watching (wp_lockBuf hl ⟨hw.lock i, simIn_ite (fun hc => ?_) fun hc => ?_⟩)
  · obtain ⟨hclaim, hS⟩ := hhit hc
    have hlock := hclaim.lock i
    rw [Buffer.claim, if_pos hc] at hclaim hlock hS
    refine simIn_watching (wp_modify.mpr ⟨?_, simIn_watching (wp_modify.mpr ⟨?_, ?_⟩)⟩)
    · simpa using hlock
    · simpa [Buffer.unlock_eq, hl] using hclaim
    · refine simIn_pure ?_
      simpa [Buffer.unlock_eq, hl] using hS
  · refine simIn_watching (wp_modify.mpr ?_)
    simp only [setBuf_bcache_same, setBuf_setBuf, Buffer.unlock_eq hl, setBuf_self]
    exact ⟨hw, simIn_pure (hmiss hc)⟩

theorem simIn_checkedBgetFree (hw : Watched c) (hl : (c.bcache i).locked = false)
    (hcold : ¬ ((c.bcache i).blockno = n ∧ (0 < (c.bcache i).refcnt ∨ (c.bcache i).valid)))
    (hfree : (c.bcache i).refcnt = 0 →
      Watched (c.setBuf i ((c.bcache i).claim n)) ∧
        S (some i) (some i) (c.setBuf i ((c.bcache i).claim n)) (c.setBuf i ((c.bcache i).claim n)))
    (hbusy : (c.bcache i).refcnt ≠ 0 → S none none c c) :
    SimIn E (bgetFree n i) (@bgetFree (watchedSteps p) n i) S c c := by
  refine simIn_watching (wp_lockBuf hl ⟨hw.lock i, simIn_ite (fun hc => ?_) fun hc => ?_⟩)
  · obtain ⟨hclaim, hS⟩ := hfree hc
    have hlock := hclaim.lock i
    rw [Buffer.claim, if_neg hcold] at hclaim hlock hS
    refine simIn_watching (wp_modify.mpr ⟨?_, simIn_watching (wp_modify.mpr ⟨?_, ?_⟩)⟩)
    · simpa using hlock
    · simpa [Buffer.unlock_eq, hl] using hclaim
    · refine simIn_pure ?_
      simpa [Buffer.unlock_eq, hl] using hS
  · refine simIn_watching (wp_modify.mpr ?_)
    simp only [setBuf_bcache_same, setBuf_setBuf, Buffer.unlock_eq hl, setBuf_self]
    exact ⟨hw, simIn_pure (hbusy hc)⟩

/-- For a block of the disk `bget` picks a slot. -/
theorem simIn_checkedBget (hc : Cached c H d) (hb : n < fssize) (hH : H.length < 2)
    (hS : ∀ i, Picks c n i →
      S (some i) (some i) (c.setBuf i ((c.bcache i).claim n)) (c.setBuf i ((c.bcache i).claim n))) :
    SimIn E (bget n) (@bget (watchedSteps p) n) S c c := by
  have hw := (hc.watched (Nat.le_of_lt hH)).bcacheLock true
  have hclaim : ∀ i, Picks c n i →
      Watched (({ c with bcacheLock := true } : Dev).setBuf i ((c.bcache i).claim n)) :=
    fun i hp => (hc.watched_claim hp hH).bcacheLock true
  unfold bget
  rw [if_neg (by omega), if_neg (by omega)]
  refine simIn_watching (wp_bcacheAcquire hc.lock ⟨hw, ?_⟩)
  -- both loops leave the state alone until they pick a slot
  refine simIn_bind (simIn_firstSome (fun rest s t => s = { c with bcacheLock := true } ∧ s = t ∧
      ∀ j, j ∉ rest → ¬ ((c.bcache j).blockno = n ∧
        (0 < (c.bcache j).refcnt ∨ (c.bcache j).valid = true)))
    ⟨rfl, rfl, fun j hj => absurd (mem_finRange j) hj⟩ ?_ ?_)
  · rintro s t ⟨rfl, rfl, hcold⟩
    simp only [not_mem_nil, not_false_eq_true, forall_const] at hcold
    refine simIn_bind (simIn_firstSome (fun rest s t => s = { c with bcacheLock := true } ∧ s = t ∧
        ∀ j, j ∉ rest → (c.bcache j).refcnt ≠ 0)
      ⟨rfl, rfl, fun j hj => absurd (mem_finRange j) hj⟩ ?_ ?_)
    · rintro s t ⟨rfl, rfl, hbusy⟩
      obtain ⟨i, hi⟩ := hc.exists_unused (hH.trans (by decide))
      exact absurd hi (hbusy i not_mem_nil)
    · rintro i rest s t - ⟨rfl, rfl, hbusy⟩
      refine simIn_checkedBgetFree hw (hc.unlocked i) (hcold i) (fun h0 => ?_) fun h0 => ⟨rfl, rfl, ?_⟩
      · have hp : Picks c n i := Or.inr ⟨h0, hcold⟩
        refine ⟨hclaim i hp, simIn_watching (wp_bcacheRelease rfl ?_)⟩
        rw [← hc.lock]
        exact ⟨hc.watched_claim hp hH, simIn_pure (hS i hp)⟩
      · intro j hj
        by_cases hji : j = i
        · exact hji ▸ h0
        · exact hbusy j (by simp [hji, hj])
  · rintro i rest s t - ⟨rfl, rfl, hcold⟩
    refine simIn_checkedBgetCached hw (hc.unlocked i) (fun hhit => ?_) fun hmiss => ⟨rfl, rfl, ?_⟩
    · have hp : Picks c n i := Or.inl hhit
      refine ⟨hclaim i hp, simIn_watching (wp_bcacheRelease rfl ?_)⟩
      rw [← hc.lock]
      exact ⟨hc.watched_claim hp hH, simIn_pure (hS i hp)⟩
    · intro j hj
      by_cases hji : j = i
      · exact hji ▸ hmiss
      · exact hcold j (by simp [hji, hj])

/-- A read of a block, and of a number beyond the disk. -/
theorem simIn_checkedBread (hc : Cached c H d) (hH : H.length < 2) (hnone : S none none c c)
    (hS : ∀ i c', Cached c' ((i, n) :: H) d → S (some i) (some i) c' c') :
    SimIn E (bread n) (checkedBread p n) S c c := by
  rw [← Prog.bind_pure (m := bread n)]
  refine simIn_bind ?_
  by_cases hb : n < fssize
  · refine simIn_bind (simIn_checkedBget hc hb hH fun i hp => ?_)
    have hload := hS i _ (hc.load hp)
    have hw := hc.watched_claim hp hH
    have hw' := (hc.load hp).watched (by simpa using hH)
    obtain ⟨hunl, hwarm, hcold⟩ := hc.claim_loaded hp
    generalize (c.bcache i).claim n = x at hw hunl hwarm hcold
    refine simIn_watching (wp_lockBuf (by rw [setBuf_bcache_same]; exact hunl) ⟨hw.lock i, ?_⟩)
    simp only [setBuf_bcache_same, setBuf_setBuf]
    cases hv : x.valid with
    | true =>
      rw [← hwarm hv] at hload hw'
      refine simIn_watching (wp_modify.mpr ?_)
      simp only [setBuf_bcache_same, setBuf_setBuf]
      exact ⟨by simpa [hv] using hw', simIn_pure (simIn_pure (by simpa [hv] using hload))⟩
    | false =>
      have hfill := hw'.lock i
      rw [← hcold hv] at hload hw' hfill
      refine simIn_watching (wp_modify.mpr ⟨?_, simIn_watching (wp_modify.mpr ⟨?_, ?_⟩)⟩)
      · simpa [hc.disk] using hfill
      · simpa [hc.disk] using hw'
      · refine simIn_pure (simIn_pure ?_)
        simpa [hc.disk] using hload
  · have hget : bget n = pure none := if_pos (by omega)
    have hget' : @bget (watchedSteps p) n = pure none := if_pos (by omega)
    unfold bread
    rw [hget, hget', Prog.pure_bind, Prog.pure_bind]
    refine simIn_pure ?_
    simp only [if_neg hb]
    exact simIn_pure hnone

end Checked

section Instances

/-- The file system beside itself with checks. -/
noncomputable def checkedDev (p : Panic) : Related (fun _ => True) (checked p) where
  R := SameCached
  quiet _ _ := trivial
  bread := by
    rintro H n s _ hlen ⟨rfl, H', d, hc, hH', rfl⟩
    replace hlen : H'.length < 2 := lt_of_eq_of_lt (List.length_map _).symm hlen
    refine simIn_checkedBread hc hlen (Or.inl ⟨rfl, rfl, rfl, H', d, hc, hH', rfl⟩) ?_
    exact fun i c' hc' => Or.inr ⟨i, i, rfl, rfl, rfl, _, d, hc', hlen, rfl⟩
  readBuf := by
    rintro H x y hxy s _ ⟨rfl, H', d, hc, hlen, hH⟩
    obtain ⟨rfl, b, hb⟩ := SameCached.mem hH hxy
    exact simIn_checkedReadBuf hc hlen hb ⟨rfl, rfl, H', d, hc, hlen, hH⟩
  writeBuf := by
    rintro H x y f hxy s _ ⟨rfl, H', d, hc, hlen, hH⟩
    obtain ⟨rfl, b, hb⟩ := SameCached.mem hH hxy
    exact simIn_checkedWriteBuf hc hlen hb f fun c' hc' => ⟨rfl, rfl, H', _, hc', hlen, hH⟩
  bitmapTake := by
    rintro H x y n hxy s _ ⟨rfl, H', d, hc, hlen, hH⟩
    obtain ⟨rfl, b, hb⟩ := SameCached.mem hH hxy
    exact simIn_checkedBitmapTake hc hlen hb fun v c' d' hc' => ⟨rfl, rfl, H', d', hc', hlen, hH⟩
  bitmapDrop := by
    rintro H x y n hxy s _ ⟨rfl, H', d, hc, hlen, hH⟩
    obtain ⟨rfl, b, hb⟩ := SameCached.mem hH hxy
    exact simIn_checkedBitmapDrop trivial hc hlen hb fun c' d' hc' =>
      ⟨rfl, rfl, H', d', hc', hlen, hH⟩
  brelse := by
    rintro H x y s _ ⟨rfl, H', d, hc, hlen, hH⟩
    cases H' with
    | nil => cases hH
    | cons q H' =>
      obtain ⟨hq, htail⟩ := List.cons.inj hH
      obtain ⟨rfl, rfl⟩ := Prod.mk.inj hq
      exact simIn_checkedBrelse hc hlen fun c' hc' => ⟨rfl, H', d, hc', Nat.le_of_succ_le hlen, htail⟩

/-- The cache beside the disk. -/
def directDev : Related (fun _ => True) direct where
  R H c c' := Cached c H c'.disk
  quiet _ _ := trivial
  bread := by
    intro H n s t hlen hc
    by_cases hb : n < fssize
    · have hdirect : wp (direct.bread n) (fun _ => False) (fun o t' => o = some n ∧ t' = t) t := by
        show (if fssize ≤ n then none else some n) = some n ∧ t = t
        rw [if_neg (by omega)]
        exact ⟨rfl, rfl⟩
      refine simIn_wp (wp_bread (Q := fun o s' => ∃ i, o = some i ∧ Cached s' ((i, n) :: H) t.disk)
        hc hb (hlen.trans (by decide)) fun i c' hc' => ⟨i, rfl, hc'⟩) hdirect ?_
      rintro _ _ s' _ ⟨i, rfl, hc'⟩ ⟨rfl, rfl⟩
      exact Or.inr ⟨i, n, rfl, rfl, hc'⟩
    · have hget : bget n = pure none := if_pos (by omega)
      have hdirect : direct.bread n = pure none :=
        congrArg pure (if_pos (by omega))
      unfold bread
      rw [hget, hdirect]
      exact simIn_pure (Or.inl ⟨rfl, rfl, hc⟩)
  readBuf := by
    intro H x y hxy s t hc
    exact simIn_wp (wp_readBuf (Q := fun v s' => v = t.disk y ∧ s' = s) hc hxy ⟨rfl, rfl⟩)
      (P := fun v t' => v = t.disk y ∧ t' = t) ⟨rfl, rfl⟩ (by
        rintro _ _ _ _ ⟨rfl, rfl⟩ ⟨rfl, rfl⟩
        exact ⟨rfl, hc⟩)
  writeBuf := by
    intro H x y f hxy s t hc
    exact simIn_wp (wp_writeBuf (Q := fun _ s' =>
        Cached s' H (Function.update t.disk y (f (t.disk y)))) hc hxy f fun c' hc' => hc')
      (P := fun _ t' => t'.disk = Function.update t.disk y (f (t.disk y))) rfl (by
        intro _ _ s' t' hs' ht'
        rw [← ht'] at hs'
        exact ⟨rfl, hs'⟩)
  bitmapTake := by
    intro H x y n hxy s t hc
    by_cases h0 : t.disk y (bitByte n) &&& bitMask n = 0
    · refine simIn_wp (wp_bitmapTake_disk (Q := fun v s' => v = true ∧ Cached s' H
          (Function.update t.disk y (Function.update (t.disk y) (bitByte n)
            (t.disk y (bitByte n) ||| bitMask n)))) hc hxy (fun _ c' hc' => ⟨rfl, hc'⟩)
          fun h1 => absurd h0 h1)
        (P := fun v t' => v = true ∧ t'.disk = Function.update t.disk y
          (Function.update (t.disk y) (bitByte n) (t.disk y (bitByte n) ||| bitMask n))) ?_ ?_
      · simp [Access.bitmapTake, h0, putBlock]
      · rintro _ _ s' t' ⟨rfl, hs'⟩ ⟨rfl, ht'⟩
        rw [← ht'] at hs'
        exact ⟨rfl, hs'⟩
    · refine simIn_wp (wp_bitmapTake_disk (Q := fun v s' => v = false ∧ s' = s) hc hxy
          (fun h => absurd h h0) fun _ => ⟨rfl, rfl⟩)
        (P := fun v t' => v = false ∧ t' = t) ?_ ?_
      · simp [Access.bitmapTake, h0]
      · rintro _ _ _ _ ⟨rfl, rfl⟩ ⟨rfl, rfl⟩
        exact ⟨rfl, hc⟩
  bitmapDrop := by
    intro H x y n hxy s t hc
    by_cases h0 : t.disk y (bitByte n) &&& bitMask n = 0
    · have hcached : wp (bitmapDrop x n) (fun e => e = .freeingFree) (fun _ _ => False) s :=
        wp_bitmapDrop_disk hc hxy (fun h => absurd h0 h) fun _ => rfl
      obtain ⟨e, hrun, rfl⟩ := exists_error hcached
      exact simIn_of_error hrun (by simp [Access.bitmapDrop, bind, Prog.get, Prog.assert, Prog.panic, h0]) trivial
    · refine simIn_wp (wp_bitmapDrop_disk (Q := fun _ s' => Cached s' H
          (Function.update t.disk y (Function.update (t.disk y) (bitByte n)
            (t.disk y (bitByte n) &&& ~~~bitMask n)))) hc hxy (fun _ c' hc' => hc')
          fun h => absurd h h0)
        (P := fun _ t' => t'.disk = Function.update t.disk y
          (Function.update (t.disk y) (bitByte n) (t.disk y (bitByte n) &&& ~~~bitMask n))) ?_ ?_
      · simp [Access.bitmapDrop, h0, putBlock]
      · intro _ _ s' t' hs' ht'
        rw [← ht'] at hs'
        exact ⟨rfl, hs'⟩
  brelse := by
    intro H x y s t hc
    exact simIn_wp (wp_brelse (Q := fun _ s' => Cached s' H t.disk) hc fun c' hc' => hc')
      (P := fun _ t' => t' = t) rfl (by
        rintro _ _ s' _ hs' rfl
        exact hs')

end Instances

section Icache

/-- Equal inode caches over related devices. -/
structure SameIcache (P : Dev → Dev → Prop) (s t : State) : Prop where
  icache : s.icache = t.icache
  lock : s.icacheLock = t.icacheLock
  dev : P s.dev t.dev

variable {E : Panic → Prop} {P : Dev → Dev → Prop}

theorem SameIcache.setSlot {s t : State} (h : SameIcache P s t) (r : InodeRef) (x : Slot) :
    SameIcache P (s.setSlot r x) (t.setSlot r x) where
  icache := by simp only [State.setSlot, h.icache]
  lock := h.lock
  dev := h.dev

theorem agree_icacheAcquire (hE : ∀ e, E e) : Agree E (SameIcache P) icacheAcquire icacheAcquire := by
  intro s t h
  refine simIn_bind (simIn_of_ok (a := s) (b := t) rfl rfl ?_)
  rw [h.lock]
  refine agree_seq (agree_assert (hE _)) h fun _ s' t' h' => ?_
  exact simIn_of_ok (a := ()) (b := ()) rfl rfl ⟨rfl, h'.icache, rfl, h'.dev⟩

theorem agree_icacheRelease (hE : ∀ e, E e) : Agree E (SameIcache P) icacheRelease icacheRelease := by
  intro s t h
  refine simIn_bind (simIn_of_ok (a := s) (b := t) rfl rfl ?_)
  rw [h.lock]
  refine agree_seq (agree_assert (hE _)) h fun _ s' t' h' => ?_
  exact simIn_of_ok (a := ()) (b := ()) rfl rfl ⟨rfl, h'.icache, rfl, h'.dev⟩

theorem agree_modifySlot (r : InodeRef) (f : Slot → Slot) :
    Agree E (SameIcache P) (modifySlot r f) (modifySlot r f) := by
  intro s t h
  refine simIn_of_ok (a := ()) (b := ()) rfl rfl ⟨rfl, ?_⟩
  beta_reduce
  rw [h.icache]
  exact h.setSlot r _

theorem agree_unlockSlot (r : InodeRef) :
    Agree E (SameIcache P) (unlockSlot r) (unlockSlot r) :=
  agree_modifySlot r fun x => { x with locked := false }

theorem agree_lockSlot (hE : ∀ e, E e) (r : InodeRef) :
    Agree E (SameIcache P) (lockSlot r) (lockSlot r) := by
  intro s t h
  refine simIn_bind (simIn_of_ok (a := s) (b := t) rfl rfl ?_)
  rw [h.icache]
  refine agree_seq (agree_assert (hE _)) h fun _ s' t' h' => ?_
  have hlock := agree_modifySlot (E := E) (P := P) r fun x => { x with locked := true }
  exact agree_bind hlock (fun _ => agree_pure) s' t' h'

theorem agree_igetCached (hE : ∀ e, E e) (n : ℕ) (r : InodeRef) :
    Agree E (SameIcache P) (igetCached n r) (igetCached n r) := by
  have hdone (o : Option InodeRef) := agree_bind (agree_unlockSlot (E := E) (P := P) r)
    fun _ => agree_pure (a := o)
  exact agree_bind (agree_lockSlot hE r) fun _ =>
    agree_ite (agree_bind (agree_modifySlot r _) fun _ => hdone _) (hdone _)

theorem agree_igetFree (hE : ∀ e, E e) (n : ℕ) (r : InodeRef) :
    Agree E (SameIcache P) (igetFree n r) (igetFree n r) := by
  have hdone (o : Option InodeRef) := agree_bind (agree_unlockSlot (E := E) (P := P) r)
    fun _ => agree_pure (a := o)
  exact agree_bind (agree_lockSlot hE r) fun _ =>
    agree_ite (agree_bind (agree_modifySlot r _) fun _ => hdone _) (hdone _)

theorem agree_iget (hE : ∀ e, E e) (n : ℕ) : Agree E (SameIcache P) (iget n) (iget n) := by
  refine agree_bind (agree_icacheAcquire hE) fun _ => ?_
  refine agree_bind (agree_firstSome fun r => agree_igetCached hE n r) fun o => ?_
  cases o with
  | some r => exact agree_bind (agree_icacheRelease hE) fun _ => agree_pure
  | none =>
    refine agree_bind (agree_firstSome fun r => agree_igetFree hE n r) fun r => ?_
    exact agree_bind (agree_icacheRelease hE) fun _ => agree_pure

theorem agree_idup (hE : ∀ e, E e) (r : InodeRef) :
    Agree E (SameIcache P) (idup r) (idup r) := by
  refine agree_bind (agree_icacheAcquire hE) fun _ => agree_bind (agree_lockSlot hE r) fun x => ?_
  refine agree_bind (agree_assert (hE _)) fun _ => agree_bind (agree_modifySlot r _) fun _ => ?_
  exact agree_bind (agree_unlockSlot r) fun _ =>
    agree_bind (agree_icacheRelease hE) fun _ => agree_pure

theorem agree_iput (hE : ∀ e, E e) (r : InodeRef) :
    Agree E (SameIcache P) (iput r) (iput r) := by
  refine agree_bind (agree_icacheAcquire hE) fun _ => agree_bind (agree_lockSlot hE r) fun x => ?_
  refine agree_bind (agree_assert (hE _)) fun _ => agree_bind (agree_modifySlot r _) fun _ => ?_
  exact agree_bind (agree_unlockSlot r) fun _ => agree_icacheRelease hE

theorem agree_onDev {α : Type} {m n : DevM α} (h : Agree E P m n) :
    Agree E (SameIcache P) (onDev m) (onDev n) := by
  intro s t hst
  refine simIn_zoom (simIn_post (h s.dev t.dev hst.dev) ?_)
  rintro a _ d d' ⟨rfl, hd⟩
  exact ⟨rfl, hst.icache, hst.lock, hd⟩

/-- Whatever the panics, a relation of the devices is one of the states with
equal inode caches. -/
def Related.toFs {A : Access} (X : Related E A) (hE : ∀ e, E e) (hblank : X.R [] blank.dev blank.dev) :
    FsRelated E A where
  toRelated := X
  J := SameIcache (X.R [])
  blank := ⟨rfl, rfl, hblank⟩
  iget := agree_iget hE
  idup := agree_idup hE
  iput := agree_iput hE
  onDev := agree_onDev
  withInode r f g hfg := by
    have hlock : Agree E (SameIcache (X.R [])) (@ilock cached r) (@ilock A r) :=
      agree_bind (agree_lockSlot hE r) fun x => agree_ite
        (agree_bind (agree_onDev (X.readDinode _)) fun _ =>
          agree_bind (agree_modifySlot r _) fun _ => agree_pure) agree_pure
    refine agree_bind hlock fun ip => agree_bind (agree_onDev (hfg ip)) fun o => ?_
    exact agree_bind (agree_modifySlot r _) fun _ =>
      agree_bind (agree_unlockSlot r) fun _ => agree_pure

end Icache

noncomputable def checkedFs (p : Panic) : FsRelated (fun _ => True) (checked p) :=
  (checkedDev p).toFs (fun _ => trivial) ⟨rfl, [], _, blank_cached, by simp, rfl⟩

def directFs : FsRelated (fun _ => True) direct :=
  directDev.toFs (fun _ => trivial) blank_cached

theorem Cached.refcnt_zero {c : Dev} {d : ℕ → Block} (hc : Cached c [] d) (i : Fin nbuf) :
    (c.bcache i).refcnt = 0 := by
  rw [hc.refs]
  rfl

theorem checked_session (e : Embedded) (ops : List Op) (s : State) (p : Panic) :
    @session (checked p) e ops s = session e ops s := by
  rcases simIn_cases ((checkedFs p).session e ops s s) with
    ⟨a, s', b, t', hrun, hrun', rfl, hJ⟩ | ⟨err, hrun, hrun', -⟩
  · obtain ⟨hicache, hlock, hdev, -⟩ := hJ
    rw [hrun, hrun']
    obtain ⟨d, ic, l⟩ := s'
    obtain ⟨d', ic', l'⟩ := t'
    obtain rfl : ic = ic' := hicache
    obtain rfl : l = l' := hlock
    obtain rfl : d = d' := hdev
    rfl
  · rw [hrun, hrun']

/-- The buffer cache is transparent. Along every session no check fails, so at
every point of it a block is cached once, a valid buffer agrees with the disk
while no guard is held, at most two buffers are referenced and a block of the
disk has a buffer. The replies, the disk and the panics of a session are those
of the same code on the disk itself, and it leaves no buffer referenced. -/
theorem cache_transparent (e : Embedded) (ops : List Op) (s : State) :
    (∀ p, @session (checked p) e ops s = session e ops s) ∧
      Sim (session e ops) (@session direct e ops) (fun vs vs' t t' => vs = vs' ∧
        t.dev.disk = t'.dev.disk ∧ t.icache = t'.icache ∧ Watched t.dev ∧
          ∀ i, (t.dev.bcache i).refcnt = 0) s s := by
  refine ⟨checked_session e ops s, sim_iff.mpr (simIn_post (directFs.session e ops s s) ?_)⟩
  rintro vs vs' t t' ⟨rfl, hJ⟩
  have hc : Cached t.dev [] t'.dev.disk := hJ.dev
  exact ⟨rfl, hc.disk, hJ.icache, hc.watched (by simp), hc.refcnt_zero⟩

end ToyOs.Fs
