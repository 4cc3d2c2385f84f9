import ToyOs.Fs.Runs

/-!
What `_writei` and `_readi` do to the content of a file in a reachable state,
and which calls of `_writei` that return 0 leave the file and the bitmap as
they were. A write past the end first fills the gap with zeros; blocks that
this or the first byte took stay allocated when a later block is missing.
-/
namespace ToyOs.Fs

open Bytes Prog Finset

variable {s t : State} {c c' : Dev} {V V' : Vol} {ip ip' : Inode} {n l off len : ℕ}
  {src : List UInt8} {E : Panic → Prop}

/-- The size, the content and the set of allocated blocks are as before. -/
structure Unchanged (V : Vol) (ip : Inode) (V' : Vol) (ip' : Inode) : Prop where
  size : ip'.size = ip.size
  content : V'.content ip' = V.content ip
  used : V'.used = V.used

theorem Unchanged.free_eq (h : Unchanged V ip V' ip') : V'.free = V.free := by
  rw [Vol.free, Vol.free, h.used]

/-- Blocks that were filled show in the bitmap. -/
theorem Fills.unchanged_iff {P : Finset ℕ} (h : Fills P V ip V' ip')
    (hcontent : V'.content ip' = V.content ip) : Unchanged V ip V' ip' ↔ P = ∅ := by
  constructor
  · intro hu
    have hfree := h.free
    rw [hu.free_eq] at hfree
    exact card_eq_zero.mp (by omega)
  · rintro rfl
    exact ⟨by rw [h.grows.info], hcontent, h.used_eq⟩

/-- The call kept the content, unless it moved the size to the offset. -/
theorem Written.content_zero (hw : Written V ip V' ip' off src 0)
    (h : ip'.size = ip.size) : V'.content ip' = V.content ip := by
  rcases hw.content with hc | ⟨-, hc⟩
  · have hlen := congrArg List.length hc
    rw [List.take_zero, overwrite_length, content_length, content_length, h,
      List.length_nil] at hlen
    rw [hc, List.take_zero, overwrite_nil (by rw [content_length]; omega)]
  · exact hc

/-- A call that returned 0 within the size limit changed nothing exactly when
no block was free and one was needed before the size moves. -/
theorem unchanged_iff (hw : Written V ip V' ip' off src 0) (hch : Charged V ip V' ip' off src 0) :
    Unchanged V ip V' ip' ↔
      V.free = 0 ∧ (off ≤ ip.size ∨ V.missing ip ip.size off ≠ ∅) := by
  cases hch.none rfl with
  | @gap P past fills short =>
    have hsize : ip'.size = ip.size := by rw [fills.grows.info]
    obtain ⟨hcard, -⟩ := short.lt fills
    rw [fills.unchanged_iff (hw.content_zero hsize), ← card_eq_zero, ← hcard]
    refine ⟨fun h0 => ⟨h0, Or.inr fun hnone => ?_⟩, And.left⟩
    have hpart := short.part
    rw [hnone] at hpart
    exact not_ssubset_empty P hpart
  | data past fits size back =>
    constructor
    · intro hu
      have hsize := hu.size
      omega
    · rintro ⟨h0, hle | hne⟩
      · omega
      · rw [h0, Nat.le_zero, card_eq_zero] at fits
        exact absurd fits hne
  | @first P inside fills short =>
    have hsize : ip'.size = ip.size := by rw [fills.grows.info]
    obtain ⟨hcard, -⟩ := short.lt fills
    rw [fills.unchanged_iff (hw.content_zero hsize), ← card_eq_zero, ← hcard]
    exact ⟨fun h0 => ⟨h0, Or.inl inside⟩, And.left⟩

/-- What a run of `_writei` on an inode of a reachable state has done. -/
theorem Reachable.written (hs : Reachable s) (hn : n < ninodes)
    (h : writeiInner (s.node n) off src s.dev = .ok ((l, ip'), c')) :
    Mounted c' [] (volume c'.disk) ∧
      Written s.vol (s.node n) (volume c'.disk) ip' off src l ∧
      (src ≠ [] → off + src.length ≤ maxfile * bsize →
        Charged s.vol (s.node n) (volume c'.disk) ip' off src l) ∧
      (src = [] ∨ maxfile * bsize < off + src.length →
        l = 0 ∧ volume c'.disk = s.vol ∧ ip' = s.node n) := by
  obtain ⟨N, ht⟩ := hs.tidy
  have hst := ht.stable
  have hwp : wp (writeiInner (s.node n) off src) (fun _ => True) (fun v c' => ∃ V',
      Mounted c' [] V' ∧ Written s.vol (s.node n) V' v.2 off src v.1 ∧
      (src ≠ [] → off + src.length ≤ maxfile * bsize →
        Charged s.vol (s.node n) V' v.2 off src v.1) ∧
      (src = [] ∨ maxfile * bsize < off + src.length →
        v.1 = 0 ∧ V' = s.vol ∧ v.2 = s.node n)) s.dev := by
    refine wp_writeiInner_charged hst.mounted (hst.intact n hn) (by decide)
      (fun hwhy hw c' hc' => ⟨_, hc', hw, fun hne hle => ?_, fun _ => ⟨rfl, rfl, rfl⟩⟩)
      fun c' V' ip' l hc' hw hne hle hch => ⟨V', hc', hw, fun _ _ => hch, fun hwhy => ?_⟩
    · rcases hwhy with h | h
      · exact absurd h hne
      · omega
    · rcases hwhy with h | h
      · exact absurd h hne
      · omega
  obtain ⟨V', hc', hrest⟩ := wp_ok hwp h
  obtain ⟨d, hd, rfl⟩ := hc'
  obtain rfl := hd.disk
  exact ⟨⟨_, hd, rfl⟩, hrest⟩

/-- A write that returns 0 leaves the size, the content and the bitmap as they
were exactly when the range exceeds the size limit, or no block is free and
one is needed for the gap or, without a gap, for the first byte. -/
theorem writei_zero_unchanged_iff (hs : Reachable s) (hn : n < ninodes) (hsrc : src ≠ [])
    (h : writeiInner (s.node n) off src s.dev = .ok ((0, ip'), c')) :
    Unchanged s.vol (s.node n) (volume c'.disk) ip' ↔
      maxfile * bsize < off + src.length ∨ s.vol.free = 0 ∧
        (off ≤ (s.node n).size ∨ s.vol.missing (s.node n) (s.node n).size off ≠ ∅) := by
  obtain ⟨-, hw, hch, hskip⟩ := hs.written hn h
  by_cases hlimit : maxfile * bsize < off + src.length
  · obtain ⟨-, hvol, rfl⟩ := hskip (Or.inr hlimit)
    rw [hvol]
    exact ⟨fun _ => Or.inl hlimit, fun _ => ⟨rfl, rfl, rfl⟩⟩
  · rw [unchanged_iff hw (hch hsrc (by omega))]
    simp [hlimit]

section Disk

/-- Programs that only read. -/
def ReadsOnly {α : Type} (m : DevM α) : Prop :=
  ∀ d, Keeps (fun _ => True) (fun c : Dev => c.disk = d) m

theorem readsOnly_bind {α β : Type} {m : DevM α} {f : α → DevM β} (hm : ReadsOnly m)
    (hf : ∀ a, ReadsOnly (f a)) : ReadsOnly (m >>= f) := fun d =>
  keeps_bind (hm d) fun a => hf a d

theorem readsOnly_pure {α : Type} (a : α) : ReadsOnly (pure a : DevM α) := fun _ => keeps_pure

theorem readsOnly_expect {α : Type} (e : Panic) (o : Option α) :
    ReadsOnly (Prog.expect e o : DevM α) := fun _ => keeps_expect trivial

theorem readsOnly_assert (e : Panic) (b : Bool) : ReadsOnly (Prog.assert e b : DevM Unit) :=
  fun _ => keeps_assert trivial

theorem readsOnly_lock (i : Fin nbuf) : ReadsOnly (lockBuf i) := fun _ =>
  keeps_bind keeps_get fun _ => keeps_bind (keeps_assert trivial) fun _ =>
    keeps_bind (keeps_modify fun _ h => h) fun _ => keeps_pure

theorem readsOnly_unlock (i : Fin nbuf) : ReadsOnly (unlockBuf i) := fun _ => keeps_modify fun _ h => h

theorem readsOnly_modifyBuf (i : Fin nbuf) (f : Buffer → Buffer) : ReadsOnly (modifyBuf i f) :=
  fun _ => keeps_modify fun _ h => h

theorem readsOnly_acquire : ReadsOnly bcacheAcquire := fun _ =>
  keeps_bind keeps_get fun _ => keeps_bind (keeps_assert trivial) fun _ => keeps_modify fun _ h => h

theorem readsOnly_release : ReadsOnly bcacheRelease := fun _ =>
  keeps_bind keeps_get fun _ => keeps_bind (keeps_assert trivial) fun _ => keeps_modify fun _ h => h

theorem readsOnly_bget (b : ℕ) : ReadsOnly (bget b) := by
  have hcached : ∀ i, ReadsOnly (bgetCached b i) := fun i => readsOnly_bind (readsOnly_lock i)
    fun x => by
      split
      · exact readsOnly_bind (readsOnly_modifyBuf i _) fun _ =>
          readsOnly_bind (readsOnly_unlock i) fun _ => readsOnly_pure _
      · exact readsOnly_bind (readsOnly_unlock i) fun _ => readsOnly_pure _
  have hfree : ∀ i, ReadsOnly (bgetFree b i) := fun i => readsOnly_bind (readsOnly_lock i)
    fun x => by
      split
      · exact readsOnly_bind (readsOnly_modifyBuf i _) fun _ =>
          readsOnly_bind (readsOnly_unlock i) fun _ => readsOnly_pure _
      · exact readsOnly_bind (readsOnly_unlock i) fun _ => readsOnly_pure _
  unfold bget
  split
  · exact readsOnly_pure _
  · refine readsOnly_bind readsOnly_acquire fun _ =>
      readsOnly_bind (fun d => keeps_firstSome fun i => hcached i d) fun o => ?_
    cases o with
    | some i => exact readsOnly_bind readsOnly_release fun _ => readsOnly_pure _
    | none =>
      exact readsOnly_bind (fun d => keeps_firstSome fun i => hfree i d) fun _ =>
        readsOnly_bind readsOnly_release fun _ => readsOnly_pure _

theorem readsOnly_bread (b : ℕ) : ReadsOnly (bread b) := by
  refine readsOnly_bind (readsOnly_bget b) fun o => ?_
  cases o with
  | none => exact readsOnly_pure _
  | some i =>
    refine readsOnly_bind (readsOnly_lock i) fun x => ?_
    have hend : ReadsOnly (do
        unlockBuf i
        pure (some i)) := readsOnly_bind (readsOnly_unlock i) fun _ => readsOnly_pure _
    split
    · exact readsOnly_bind (fun _ => keeps_modify fun _ h => h) fun _ => hend
    · exact hend

theorem readsOnly_readBuf (i : Fin nbuf) : ReadsOnly (readBuf i) :=
  readsOnly_bind (readsOnly_lock i) fun _ => readsOnly_bind (readsOnly_unlock i) fun _ =>
    readsOnly_pure _

theorem readsOnly_brelse (i : Fin nbuf) : ReadsOnly (brelse i) :=
  readsOnly_bind readsOnly_acquire fun _ => readsOnly_bind (readsOnly_lock i) fun _ =>
    readsOnly_bind (readsOnly_assert _ _) fun _ => readsOnly_bind (readsOnly_modifyBuf i _) fun _ =>
      readsOnly_bind (readsOnly_unlock i) fun _ => readsOnly_release

theorem readsOnly_block {α : Type} (b : ℕ) {f : Block → DevM α} (hf : ∀ x, ReadsOnly (f x)) :
    ReadsOnly (do
      let bp ← Prog.expect .bread (← bread b)
      let data ← readBuf bp
      brelse bp
      f data) :=
  readsOnly_bind (readsOnly_bread b) fun _ => readsOnly_bind (readsOnly_expect _ _) fun i =>
    readsOnly_bind (readsOnly_readBuf i) fun x => readsOnly_bind (readsOnly_brelse i) fun _ => hf x

theorem readsOnly_bmapLookup (ip : Inode) (bn : ℕ) : ReadsOnly (bmapLookup ip bn) := by
  unfold bmapLookup
  split
  · exact readsOnly_pure _
  · split
    · split
      · exact readsOnly_pure _
      · exact readsOnly_block _ fun _ => readsOnly_pure _
    · exact readsOnly_pure _

theorem readsOnly_readi (ip : Inode) (off len : ℕ) : ReadsOnly (readiInner ip off len) := by
  have hloop : ∀ (n fuel : ℕ) (got : List UInt8), ReadsOnly (readiLoop ip off n fuel got) := by
    intro n fuel
    induction fuel with
    | zero => exact fun got => readsOnly_pure _
    | succ fuel ih =>
      intro got
      rw [readiLoop]
      split
      · exact readsOnly_bind (readsOnly_bmapLookup ip _) fun _ =>
          readsOnly_bind (readsOnly_expect _ _) fun b => readsOnly_block b fun _ => ih _
      · exact readsOnly_pure _
  unfold readiInner
  split
  · exact readsOnly_pure _
  · exact hloop _ _ _

end Disk

/-- A write of at least one byte puts a prefix of the source into the content,
all of it unless no block is left; no other inode is touched. A read delivers
the part of the content that is there and writes nothing. -/
theorem content_refinement (hs : Reachable s) (hn : n < ninodes) (off : ℕ) :
    (∀ src l ip' c', writeiInner (s.node n) off src s.dev = .ok ((l, ip'), c') → 0 < l →
      l ≤ src.length ∧
      (volume c'.disk).content ip' = overwrite (s.vol.content (s.node n)) off (src.take l) ∧
      ip'.size = max (s.node n).size (off + l) ∧
      (l < src.length → (volume c'.disk).free = 0) ∧
      ∀ m, m < ninodes → m ≠ n →
        (volume c'.disk).content (s.node m) = s.vol.content (s.node m)) ∧
    ∀ len, ∃ c', readiInner (s.node n) off len s.dev =
      .ok (((s.vol.content (s.node n)).drop off).take len, c') ∧ c'.disk = s.dev.disk := by
  constructor
  · intro src l ip' c' h hl
    obtain ⟨-, hw, -, hskip⟩ := hs.written hn h
    have hcontent : (volume c'.disk).content ip' =
        overwrite (s.vol.content (s.node n)) off (src.take l) := by
      rcases hw.content with hc | ⟨h0, -⟩
      · exact hc
      · omega
    refine ⟨hw.le, hcontent, ?_, fun hlt => ?_, fun m hm hne => ?_⟩
    · have hlen := congrArg List.length hcontent
      rw [overwrite_length, content_length, content_length, List.length_take,
        Nat.min_eq_left hw.le] at hlen
      exact hlen
    · rcases hw.short hlt with hlimit | hfull
      · have h0 := (hskip (Or.inr hlimit)).1
        omega
      · exact Vol.full_iff.mp hfull
    · obtain ⟨N, ht⟩ := hs.tidy
      exact hw.frame.content_other (ht.stable.intact m hm)
        fun p q hp => ht.stable.apart m n hm hn hne p q hp
  · intro len
    obtain ⟨N, ht⟩ := hs.tidy
    have hi := ht.stable.intact n hn
    have hwp : wp (readiInner (s.node n) off len) (fun _ => False)
        (fun v _ => v = ((s.vol.content (s.node n)).drop off).take len) s.dev := by
      refine wp_readiInner ht.stable.mounted hi.owns hi.dense (by decide) fun c' _ => ?_
      rw [Vol.content, read_slice]
    obtain ⟨v, c', hrun, rfl⟩ := exists_ok hwp
    have hkept := readsOnly_readi (s.node n) off len s.dev.disk s.dev rfl
    exact ⟨c', hrun, wp_ok (Q := fun _ c => c.disk = s.dev.disk) hkept hrun⟩

theorem content_refinement_root : ∃ s, Reachable s ∧ rootino < ninodes ∧
    ∀ len, ∃ c', readiInner (s.node rootino) 0 len s.dev =
      .ok (((s.vol.content (s.node rootino)).drop 0).take len, c') ∧ c'.disk = s.dev.disk := by
  obtain ⟨s, N, r, hs, -⟩ := exists_rooted
  exact ⟨s, hs, by decide, (content_refinement hs (by decide) 0).2⟩

end ToyOs.Fs
