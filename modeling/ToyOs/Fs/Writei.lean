import ToyOs.Fs.Intact

/-!
`_writei`: the loop over the blocks, the zeros before a write past the end,
and the inode written back. The content is overwritten at the offset by a
prefix of the source, the whole of it unless the disk is full. `Written` is
the effect on the content and `Charged` the account of the blocks.
-/
namespace ToyOs.Fs

open Bytes Prog Function List Finset Nat

variable {c : Dev} {H : Held} {V V' : Vol} {ip ip' : Inode} {E : Panic → Prop}
  {Q : ℕ × Inode → Dev → Prop} {src : List UInt8} {off : ℕ}

/-- Blocks touched by `n` bytes from `k` on. -/
def span (k n : ℕ) : ℕ := if n = 0 then 0 else (k % bsize + n + bsize - 1) / bsize

theorem Vol.card_missing (V : Vol) (ip : Inode) (k n : ℕ) :
    (V.missing ip k (k + n)).card ≤ 2 * span k n := by
  by_cases hn : n = 0
  · rw [hn, Vol.missing_empty (by omega)]
    simp
  · have hsub : V.missing ip k (k + n) ⊆
        insert maxfile (Finset.Ico (k / bsize) (k / bsize + span k n)) := by
      intro p hp
      have ht := (Vol.mem_missing.mp hp).1
      rw [mem_insert, mem_Ico]
      unfold Touches bsize at ht
      unfold span bsize
      rw [if_neg hn]
      omega
    have hcard := card_le_card hsub
    have hins := card_insert_le maxfile (Finset.Ico (k / bsize) (k / bsize + span k n))
    have hpos : 0 < span k n := by
      unfold span bsize
      rw [if_neg hn]
      omega
    rw [card_Ico] at hins
    omega

/-- The loop of `_writei` writes a prefix of the source, all of it unless the
disk runs out of blocks. -/
theorem wp_writeiLoop (hH : H.length + 1 < nbuf) (hend : off + src.length ≤ maxfile * bsize)
    (fuel : ℕ) :
    ∀ (total : ℕ) (c : Dev) (V : Vol) (ip : Inode), Mounted c H V → V.Owns ip →
      V.MappedTo ip (off + total) → total ≤ src.length → src.length ≤ total + fuel →
      (∀ c' V' ip' n P, Mounted c' H V' → Fills P V ip V' ip' →
        V'.MappedTo ip' (off + n) → total ≤ n → n ≤ src.length →
        (∀ k, V'.byte ip' k =
          write (V.byte ip) (off + total) ((src.drop total).take (n - total)) k) →
        (n = src.length ∧ P = V.missing ip (off + total) (off + src.length) ∨
          n < src.length ∧ Short V ip V' P (off + total) (off + src.length)) →
        (n = total ∧ P ⊆ {maxfile} ∧
            (total < src.length → P ⊂ V.needs ip ((off + total) / bsize)) ∨
          total + min (src.length - total) (bsize - (off + total) % bsize) ≤ n ∧
            V.needs ip ((off + total) / bsize) ⊆ P) →
        Q (n, ip') c') →
      wp (writeiLoop off src fuel total ip) E Q c := by
  induction fuel with
  | zero =>
    intro total c V ip hm ho hmap hle hfuel hQ
    have hlen : total = src.length := by omega
    refine hQ c V ip total ∅ hm (Fills.refl ho) hmap le_rfl hle (fun k => ?_)
      (Or.inl ⟨hlen, (Vol.missing_empty (by omega)).symm⟩)
      (Or.inl ⟨rfl, empty_subset _, fun h => absurd h (by omega)⟩)
    rw [Nat.sub_self, take_zero, write_nil]
  | succ fuel ih =>
    intro total c V ip hm ho hmap hle hfuel hQ
    unfold writeiLoop
    by_cases hlt : total < src.length
    · rw [if_pos hlt]
      have hmod : (off + total) % bsize < bsize := Nat.mod_lt _ (by decide)
      have hpos : (off + total) / bsize < maxfile := by
        unfold bsize at *
        omega
      generalize hmdef : min (src.length - total) (bsize - (off + total) % bsize) = m
      have hlen : ((src.drop total).take m).length = m := by
        rw [length_take, length_drop]
        omega
      have hchunk : V.missing ip (off + total) (off + total + m) =
          V.needs ip ((off + total) / bsize) := Vol.missing_chunk hpos (by omega) (by omega)
      rw [hmdef] at hQ
      simp only [wp_bind, hmdef]
      refine wp_putChunk_fills hm ho hH hpos (by rw [hlen]; omega)
        (fun c1 V1 ip1 P h1 hfill hbyte hf hpart htab => ?_) fun c1 V1 ip1 h1 hfill hbyte hne => ?_
      · -- no block is left: what was written so far is the result
        refine hQ c1 V1 ip1 total P h1 hfill (hmap.grow hfill.grows) le_rfl hle (fun k => ?_)
          (Or.inr ⟨hlt, Short.table hf (hpart.trans_subset ?_) htab⟩)
          (Or.inl ⟨rfl, htab, fun _ => hpart⟩)
        · rw [Nat.sub_self, take_zero, write_nil, hbyte]
        · rw [← hchunk]
          exact Vol.missing_mono (by omega)
      · have hmap1 : V1.MappedTo ip1 (off + (total + m)) := by
          intro p hp
          by_cases hold : p * bsize < off + total
          · exact hmap.grow hfill.grows p hold
          · have hpb : p = (off + total) / bsize := by
              unfold bsize at *
              omega
            rw [hpb]
            exact hne
        refine ih (total + m) c1 V1 ip1 h1 hfill.grows.owns hmap1 (by omega) (by omega)
          fun c2 V2 ip2 n P2 h2 hfill2 hmap2 hn hn' hbyte2 hend2 _ => ?_
        have htrans := hfill.trans (used_ne_zero hm) hfill2
        rw [← hchunk] at hfill
        rw [← Nat.add_assoc] at hend2
        refine hQ c2 V2 ip2 n _ h2 htrans hmap2 (by omega) hn' (fun k => ?_) ?_
          (Or.inr ⟨by omega, subset_union_left⟩)
        · have hfun : V1.byte ip1 = write (V.byte ip) (off + total) ((src.drop total).take m) :=
            funext hbyte
          have hsplit : (src.drop total).take (n - total) =
              (src.drop total).take m ++ (src.drop (total + m)).take (n - (total + m)) := by
            rw [show n - total = m + (n - (total + m)) by omega, take_add, drop_drop]
          have happ := write_append (V.byte ip) (off + total) ((src.drop total).take m)
            ((src.drop (total + m)).take (n - (total + m)))
          rw [hlen] at happ
          rw [hbyte2, hfun, hsplit, ← happ, Nat.add_assoc]
        · rw [← hchunk]
          rcases hend2 with ⟨hall, rfl⟩ | ⟨hpart, hshort⟩
          · exact Or.inl ⟨hall, hfill.missing_rest (by omega) (by omega)⟩
          · exact Or.inr ⟨hpart, hshort.prepend hfill (by omega) (by omega)⟩
    · have hlen : total = src.length := by omega
      rw [if_neg hlt]
      refine hQ c V ip total ∅ hm (Fills.refl ho) hmap le_rfl hle (fun k => ?_)
        (Or.inl ⟨hlen, (Vol.missing_empty (by omega)).symm⟩)
        (Or.inl ⟨rfl, empty_subset _, fun h => absurd h (by omega)⟩)
      rw [Nat.sub_self, take_zero, write_nil]

/-- The loop of `zero_fill` is the loop of `_writei` on a source of zeros. -/
theorem wp_zeroFillLoop {Q : Bool × Inode → Dev → Prop} {start len : ℕ} (fuel : ℕ) :
    ∀ (total : ℕ) (c : Dev) (ip : Inode), total ≤ len → len ≤ total + fuel →
      wp (writeiLoop start (List.replicate len 0) fuel total ip) E
        (fun r c' => Q (decide (r.1 = len), r.2) c') c →
      wp (zeroFillLoop start len fuel total ip) E Q c := by
  induction fuel with
  | zero =>
    intro total c ip hle hfuel h
    have hlen : total = len := by omega
    simpa [writeiLoop, zeroFillLoop, hlen] using h
  | succ fuel ih =>
    intro total c ip hle hfuel h
    unfold writeiLoop at h
    unfold zeroFillLoop
    rw [length_replicate] at h
    by_cases hlt : total < len
    · have hmod : (start + total) % bsize < bsize := mod_lt _ (by decide)
      rw [if_pos hlt] at h ⊢
      simp only [wp_bind, drop_replicate, take_replicate] at h ⊢
      rw [show min (min (len - total) (bsize - (start + total) % bsize)) (len - total) =
        min (len - total) (bsize - (start + total) % bsize) by omega] at h
      refine wp_post h fun r c1 hr => ?_
      obtain ⟨ok, ip1⟩ := r
      cases ok with
      | false => simpa [show total ≠ len by omega] using hr
      | true => exact ih _ c1 ip1 (by omega) (by omega) hr
    · have hlen : total = len := by omega
      rw [if_neg hlt] at h ⊢
      simpa [hlen] using h

/-- Zeros up to `stop`, or a full disk and nothing but bytes past `start` touched. -/
theorem wp_zeroFill {Q : Bool × Inode → Dev → Prop} {start stop : ℕ} (hm : Mounted c H V)
    (ho : V.Owns ip) (hH : H.length + 1 < nbuf) (hmap : V.MappedTo ip start) (hlt : start < stop)
    (hend : stop ≤ maxfile * bsize)
    (hfull : ∀ c' V' ip' P, Mounted c' H V' → Fills P V ip V' ip' →
      (∀ k, k < start → V'.byte ip' k = V.byte ip k) → Short V ip V' P start stop →
      Q (false, ip') c')
    (hQ : ∀ c' V' ip', Mounted c' H V' →
      Fills (V.missing ip start stop) V ip V' ip' → V'.MappedTo ip' stop →
      (∀ k, V'.byte ip' k = fill (V.byte ip) start (stop - start) 0 k) → Q (true, ip') c') :
    wp (zeroFill ip start stop) E Q c := by
  have hsum : start + (stop - start) = stop := by omega
  unfold zeroFill
  rw [if_neg (by omega)]
  refine wp_zeroFillLoop _ 0 c ip (Nat.zero_le _) (by omega) ?_
  refine wp_writeiLoop hH (by rw [length_replicate]; omega) _ 0 c V ip hm ho hmap
    (Nat.zero_le _) (by simp) fun c' V' ip' n P h' hfill hmap' _ hn hbyte hdone _ => ?_
  simp only [Nat.add_zero, Nat.sub_zero, length_replicate, drop_zero,
    take_replicate, hsum] at hn hbyte hdone
  rcases hdone with ⟨hall, rfl⟩ | ⟨hpart, hshort⟩
  · have hfin := hQ c' V' ip' h' hfill (hmap'.mono (by omega)) fun k => by
      rw [hbyte, write_replicate, hall, Nat.min_self]
    simpa [hall] using hfin
  · have hfin := hfull c' V' ip' P h' hfill
      (fun k hk => by rw [hbyte, write_outside (Or.inl hk)]) hshort
    simpa [show n ≠ stop - start by omega] using hfin

/-- What `_writei` has done when it returns `n`. -/
structure Written (V : Vol) (ip : Inode) (V' : Vol) (ip' : Inode) (off : ℕ) (src : List UInt8)
    (n : ℕ) : Prop where
  intact : Intact V' ip'
  frame : Frame V ip V' ip'
  info : ip' = { ip with size := ip'.size, addrs := ip'.addrs }
  le : n ≤ src.length
  content : V'.content ip' = overwrite (V.content ip) off (src.take n) ∨
    n = 0 ∧ V'.content ip' = V.content ip
  first : n = 0 ∨ min src.length (bsize - off % bsize) ≤ n
  short : n < src.length → maxfile * bsize < off + src.length ∨ V'.Full
  budget : V.free ≤ V'.free + 2 * (span ip.size (off - ip.size) + span off src.length)

theorem content_length (V : Vol) (ip : Inode) : (V.content ip).length = ip.size := by
  rw [Vol.content, read_length]

theorem Written.none (hi : Intact V ip) (h : 0 < src.length → maxfile * bsize < off + src.length) :
    Written V ip V ip off src 0 where
  intact := hi
  frame := Frame.refl V ip
  info := rfl
  le := zero_le _
  content := Or.inr ⟨rfl, rfl⟩
  first := Or.inl rfl
  short := fun hlt => Or.inl (h hlt)
  budget := le_add_right _ _

/-- The zeros of a write past the end did not all fit. -/
theorem Written.stuck (hi : Intact V ip) {off m : ℕ} (hg : Grows m V ip V' ip')
    (hm : m ≤ 2 * (span ip.size (off - ip.size) + span off src.length))
    (hbyte : ∀ k, k < ip.size → V'.byte ip' k = V.byte ip k) (hf : V'.Full) :
    Written V ip V' ip' off src 0 := by
  have hsize : ip'.size = ip.size := by rw [hg.info]
  refine ⟨hi.grow hg, hg.frame, ?_, zero_le _, Or.inr ⟨rfl, ?_⟩, Or.inl rfl,
    fun _ => Or.inr hf, ?_⟩
  · rw [hg.info]
  · unfold Vol.content
    rw [hsize]
    exact read_congr _ _ _ _ fun k _ hk => hbyte k (by omega)
  · exact hg.budget.trans (by omega)

/-- A call of `_writei` that returned 0 within the size limit: the zeros up to
the offset ran out of blocks; they are in and no block is left for the first
byte; or there was no gap and no block for the first byte. -/
inductive Refused (V : Vol) (ip : Inode) (V' : Vol) (ip' : Inode) (off : ℕ) : Prop
  | gap {P : Finset ℕ} (past : ip.size < off) (fills : Fills P V ip V' ip')
      (short : Short V ip V' P ip.size off)
  | data (past : ip.size < off) (fits : (V.missing ip ip.size off).card ≤ V.free)
      (size : ip'.size = off) (back : V'.inode ip.inum = ip'.toDinode)
  | first {P : Finset ℕ} (inside : off ≤ ip.size) (fills : Fills P V ip V' ip')
      (short : Short V ip V' P off (off + 1))

/-- The blocks that `_writei` used for a source that is not empty and stays
within the size limit. -/
structure Charged (V : Vol) (ip : Inode) (V' : Vol) (ip' : Inode) (off : ℕ) (src : List UInt8)
    (n : ℕ) : Prop where
  back : 0 < n → V'.inode ip.inum = ip'.toDinode
  spent : V'.free ≤ V.free
  paid : n = src.length →
    V'.free + (V.missing ip (min ip.size off) (off + src.length)).card = V.free
  some : 0 < n ↔ (V.missing ip (min ip.size off) (off + 1)).card ≤ V.free
  none : n = 0 → Refused V ip V' ip' off

/-- The end of `_writei` on an inode that grew from `ip`; `size` is its size
before the loop, with the zeros in. -/
theorem wp_writeiFinish {off n m size : ℕ} {changed : Bool} (hm : Mounted c H V') (hi : Intact V ip)
    (hH : H.length < nbuf) (hg : Grows m V ip V' ip') (hsz : size = max ip.size off)
    (hch : changed = false → size = ip.size) (hend : off + src.length ≤ maxfile * bsize)
    (hn : n ≤ src.length) (hmap : V'.MappedTo ip' (max size (off + n)))
    (hbyte : ∀ k, V'.byte ip' k =
      write (fill (V.byte ip) ip.size (off - ip.size) 0) off (src.take n) k)
    (hbudget : m ≤ 2 * (span ip.size (off - ip.size) + span off src.length))
    (hf : n < src.length → V'.Full) (hfirst : n = 0 ∨ min src.length (bsize - off % bsize) ≤ n)
    (hQ : ∀ c' V'' ip'', Mounted c' H V'' → Written V ip V'' ip'' off src n →
      (0 < n ∨ changed = true) → V'' = V'.setInode ip'.inum ip''.toDinode →
      ip''.size = max size (off + n) → Q (n, ip'') c')
    (hkeep : ∀ c', Mounted c' H V' → Written V ip V' ip' off src 0 → n = 0 → changed = false →
      Q (0, ip') c') :
    wp (writeiFinish off n changed { ip' with size := size }) E Q c := by
  have hi' := hi.grow hg
  have hsize : ip'.size = ip.size := by rw [hg.info]
  have hlen : (src.take n).length = n := by
    rw [length_take]
    omega
  have hnew : (if size < off + n then { ip' with size := off + n }
      else { ip' with size := size }) = { ip' with size := max size (off + n) } := by
    split
    · rw [Nat.max_eq_right (by omega)]
    · rw [Nat.max_eq_left (by omega)]
  have hcontent : ∀ V'' : Vol, V''.block = V'.block →
      V''.content { ip' with size := max size (off + n) } =
        overwrite (V.content ip) off (src.take n) := by
    intro V'' hb
    have hmax : max size (off + n) = max ip.size (off + (src.take n).length) := by
      rw [hlen]
      omega
    unfold Vol.content
    rw [hmax]
    exact read_eq_overwrite fun k _ => (Vol.byte_congr rfl hb k).trans (hbyte k)
  simp only [writeiFinish, hnew]
  rw [wp_ite]
  refine ⟨fun hwrite => ?_, fun hno => ?_⟩
  · have hd : V'.Dense { ip' with size := max size (off + n) } := by
      refine ⟨?_, fun p hp => ?_⟩
      · have := hi.dense.size
        change max size (off + n) ≤ _
        omega
      · rw [V'.addr_resize]
        exact hmap p hp
    have ho := hi'.owns.resize (max size (off + n))
    have hfits : ({ ip' with size := max size (off + n) } : Inode).InfoFits :=
      ⟨(hi'.info_fits hm).typ, (hi'.info_fits hm).major, (hi'.info_fits hm).minor,
        (hi'.info_fits hm).nlink⟩
    rw [wp_bind]
    refine hm.writeDinode hi'.inum (hfits.fits hm ho hd) hH fun c' h' => ?_
    refine hQ c' _ _ h' ⟨Intact.commit _ hi'.inum ho hd, ?_, ?_, hn, Or.inl (hcontent _ rfl),
      hfirst, fun h => Or.inr (hf h), ?_⟩ hwrite rfl rfl
    · exact (hg.frame.resize ip.size (max size (off + n))).setInode hg.frame.inum _
    · rw [hg.info]
    · exact hg.budget.trans (Nat.add_le_add_left hbudget _)
  · -- nothing was written and the size is as before
    obtain ⟨hn0, hch0⟩ := not_or.mp hno
    have hunchanged : changed = false := by simpa using hch0
    have hsame := hch hunchanged
    obtain rfl : n = 0 := by omega
    have hself : ({ ip' with size := max size (off + 0) } : Inode) = ip' := by
      rw [show max size (off + 0) = ip'.size by omega]
    have hc := hcontent V' rfl
    rw [hself] at hc ⊢
    exact hkeep c hm ⟨hi', hg.frame, by rw [hg.info], hn, Or.inl hc, hfirst,
      fun h => Or.inr (hf h), hg.budget.trans (Nat.add_le_add_left hbudget _)⟩ rfl hunchanged

theorem Vol.missing_resize (V : Vol) (ip : Inode) (s a b : ℕ) :
    V.missing { ip with size := s } a b = V.missing ip a b := rfl

theorem Fills.resize {P : Finset ℕ} (h : Fills P V ip V' ip') (s : ℕ) :
    Fills P V { ip with size := s } V' { ip' with size := s } where
  grows := h.grows.resize s
  empty := h.empty
  addr := h.addr
  used := h.used
  free := h.free

theorem wp_writei_inside (hm : Mounted c H V) (hi : Intact V ip) (hH : H.length + 1 < nbuf)
    (hend : off + src.length ≤ maxfile * bsize) (hsrc : 0 < src.length) (hin : off ≤ ip.size)
    (hQ : ∀ c' V' ip' n, Mounted c' H V' → Written V ip V' ip' off src n →
      Charged V ip V' ip' off src n → Q (n, ip') c') :
    wp (do
      let (total, ip) ← writeiLoop off src src.length 0 ip
      writeiFinish off total false ip) E Q c := by
  have hzero : fill (V.byte ip) ip.size (off - ip.size) 0 = V.byte ip := by
    funext k
    exact fill_outside (by omega)
  have hmin : min ip.size off = off := by omega
  have hpos : off / bsize < maxfile := by
    unfold bsize at *
    omega
  have hmod : off % bsize < bsize := Nat.mod_lt _ (by decide)
  have hone : V.missing ip off (off + 1) = V.needs ip (off / bsize) :=
    Vol.missing_chunk hpos (by omega) (by omega)
  simp only [wp_bind]
  refine wp_writeiLoop hH (by omega) _ 0 c V ip hm hi.owns (hi.dense.mapped.mono (by omega))
    (Nat.zero_le _) (by omega) fun c2 V2 ip2 n P h2 hfill hmap _ hn hbyte hdone hfirst => ?_
  simp only [Nat.add_zero, Nat.sub_zero] at hdone hfirst hbyte
  have hg := hfill.grows
  have hfree := hfill.free
  have hsize : ip2.size = ip.size := by rw [hg.info]
  have hcard : P.card ≤ 2 * span off src.length := by
    have hsub : P ⊆ V.missing ip off (off + src.length) := by
      rcases hdone with ⟨-, rfl⟩ | ⟨-, hs⟩
      · exact Finset.Subset.refl _
      · exact hs.part.subset
    exact (card_le_card hsub).trans (Vol.card_missing _ _ off src.length)
  have hsome : 0 < n ↔ (V.missing ip (min ip.size off) (off + 1)).card ≤ V.free := by
    rw [hmin, hone]
    rcases hfirst with ⟨rfl, -, hpart⟩ | ⟨hle, hsub⟩
    · have hlt := card_lt_card (hpart hsrc)
      have hshort : V2.free = 0 := by
        rcases hdone with ⟨h, -⟩ | ⟨-, hs⟩
        · omega
        · exact hs.full
      omega
    · have hle' := card_le_card hsub
      omega
  have hsame : ∀ V3 : Vol, V3.used = V2.used → V3.free = V2.free := fun V3 hused => by
    rw [Vol.free, Vol.free, hused]
  have hpaid : ∀ V3 : Vol, V3.used = V2.used → n = src.length →
      V3.free + (V.missing ip (min ip.size off) (off + src.length)).card = V.free := by
    intro V3 hused hall
    rcases hdone with ⟨-, rfl⟩ | ⟨hlt, -⟩
    · rw [hmin, hsame V3 hused, hfree]
    · omega
  have hip2 : ip2 = { ip2 with size := ip.size } := by rw [← hsize]
  rw [hip2]
  refine wp_writeiFinish h2 hi (by omega) hg (by omega) (fun _ => rfl) (by omega) hn ?_
    (fun k => ?_) (hcard.trans (by omega)) ?_ ?_ ?_ ?_
  · intro p hp
    by_cases hlow : p * bsize < ip.size
    · exact hi.dense.mapped.grow hg p hlow
    · exact hmap p (by omega)
  · rw [hbyte, hzero]
    simp
  · intro hlt
    rcases hdone with ⟨h, -⟩ | ⟨-, hs⟩
    · omega
    · exact Vol.full_iff.mpr hs.full
  · rcases hfirst with ⟨h, -⟩ | ⟨h, -⟩
    · exact Or.inl h
    · exact Or.inr (by omega)
  · intro c3 V3 ip3 h3 hw hwrite hV3 _
    have hback : V3.inode ip.inum = ip3.toDinode := by
      rw [hV3, hg.frame.inum]
      exact update_self _ _ _
    have hused : V3.used = V2.used := by
      rw [hV3]
      rfl
    refine hQ c3 V3 ip3 n h3 hw
      ⟨fun _ => hback, by rw [hsame V3 hused]; omega, hpaid V3 hused, hsome, fun h0 => ?_⟩
    rcases hwrite with h | h
    · omega
    · cases h
  · intro c3 h3 hw hn0 _
    subst hn0
    refine hQ c3 V2 ip2 0 h3 hw
      ⟨fun h => absurd h (by omega), by omega, hpaid V2 rfl, hsome, fun _ => ?_⟩
    rcases hfirst with ⟨-, htab, hpart⟩ | ⟨hle, -⟩
    · refine Refused.first hin hfill (Short.table ?_ (hone ▸ hpart hsrc) htab)
      rcases hdone with ⟨h, -⟩ | ⟨-, hs⟩
      · omega
      · exact hs.full
    · omega

theorem wp_writei_past {V1 : Vol} {ip1 : Inode} (hm : Mounted c H V1)
    (hused : ∀ b, V.used b = true → b ≠ 0) (hi : Intact V ip) (hH : H.length + 1 < nbuf)
    (hend : off + src.length ≤ maxfile * bsize) (hsrc : 0 < src.length) (hpast : ip.size < off)
    (hfill : Fills (V.missing ip ip.size off) V ip V1 ip1) (hmap : V1.MappedTo ip1 off)
    (hbyte : ∀ k, V1.byte ip1 k = fill (V.byte ip) ip.size (off - ip.size) 0 k)
    (hQ : ∀ c' V' ip' n, Mounted c' H V' → Written V ip V' ip' off src n →
      Charged V ip V' ip' off src n → Q (n, ip') c') :
    wp (do
      let (total, ip) ← writeiLoop off src src.length 0 { ip1 with size := off }
      writeiFinish off total true ip) E Q c := by
  have hsize : ip1.size = ip.size := by rw [hfill.grows.info]
  have hmin : min ip.size off = ip.size := by omega
  have hpos : off / bsize < maxfile := by
    unfold bsize at *
    omega
  have hmod : off % bsize < bsize := Nat.mod_lt _ (by decide)
  have hone : V1.missing ip1 off (off + 1) = V1.needs ip1 (off / bsize) :=
    Vol.missing_chunk hpos (by omega) (by omega)
  have hfree1 := hfill.free
  simp only [wp_bind]
  refine wp_writeiLoop hH (by omega) _ 0 c V1 { ip1 with size := off } hm
    (hfill.grows.owns.resize off) (fun p hp => by rw [V1.addr_resize]; exact hmap p hp)
    (Nat.zero_le _) (by omega) fun c2 V2 ip2 n P h2 hfill2 hmap2 _ hn hbyte2 hdone hfirst => ?_
  simp only [Nat.add_zero, Nat.sub_zero, Vol.missing_resize] at hdone hfirst hbyte2
  have hfree2 := hfill2.free
  -- the growth of the loop, with the size of the inode as it was
  have hfill2' := hfill2.resize ip.size
  have hip1 : ({ ip1 with size := ip.size } : Inode) = ip1 := by rw [← hsize]
  simp only [hip1] at hfill2'
  have hip2 : ip2 = { ({ ip2 with size := ip.size } : Inode) with size := off } := by
    rw [hfill2.grows.info]
  have htrans := hfill.trans hused hfill2'
  have hgap := V.card_missing ip ip.size (off - ip.size)
  rw [show ip.size + (off - ip.size) = off by omega] at hgap
  have hP : P ⊆ V1.missing ip1 off (off + src.length) := by
    rcases hdone with ⟨-, rfl⟩ | ⟨-, hs⟩
    · exact Finset.Subset.refl _
    · exact hs.part.subset
  have hcard := (card_le_card hP).trans (Vol.card_missing _ _ off src.length)
  have hunion := card_union_le (V.missing ip ip.size off) P
  have hsome : 0 < n ↔ (V.missing ip (min ip.size off) (off + 1)).card ≤ V.free := by
    rw [hmin, hfill.card_missing_rest hpast (by omega), hone]
    rcases hfirst with ⟨rfl, -, hpart⟩ | ⟨hle, hsub⟩
    · have hlt := card_lt_card (hpart hsrc)
      have hneeds : (V1.needs { ip1 with size := off } (off / bsize)).card =
          (V1.needs ip1 (off / bsize)).card := rfl
      have hshort : V2.free = 0 := by
        rcases hdone with ⟨h, -⟩ | ⟨-, hs⟩
        · omega
        · exact hs.full
      omega
    · have hle' : (V1.needs ip1 (off / bsize)).card ≤ P.card := card_le_card hsub
      omega
  have hsame : ∀ V3 : Vol, V3.used = V2.used → V3.free = V2.free := fun V3 hused3 => by
    rw [Vol.free, Vol.free, hused3]
  have hpaid : ∀ V3 : Vol, V3.used = V2.used → n = src.length →
      V3.free + (V.missing ip (min ip.size off) (off + src.length)).card = V.free := by
    intro V3 hused3 hall
    rcases hdone with ⟨-, rfl⟩ | ⟨hlt, -⟩
    · rw [hmin, hfill.card_missing_rest hpast (by omega), hsame V3 hused3]
      omega
    · omega
  rw [hip2]
  refine wp_writeiFinish h2 hi (by omega) htrans.grows (by omega) (fun h => by simp at h)
    (by omega) hn ?_ (fun k => ?_) (by omega) ?_ ?_ ?_ fun _ _ _ _ h => by simp at h
  · intro p hp
    rw [V2.addr_resize]
    exact hmap2 p (by omega)
  · have hfun : V1.byte { ip1 with size := off } = fill (V.byte ip) ip.size (off - ip.size) 0 :=
      funext fun j => (Vol.byte_congr rfl rfl j).trans (hbyte j)
    have hsame : V2.byte { ip2 with size := ip.size } k = V2.byte ip2 k :=
      Vol.byte_congr rfl rfl k
    rw [hsame, hbyte2, hfun]
    simp
  · intro hlt
    rcases hdone with ⟨h, -⟩ | ⟨-, hs⟩
    · omega
    · exact Vol.full_iff.mpr hs.full
  · rcases hfirst with ⟨h, -⟩ | ⟨h, -⟩
    · exact Or.inl h
    · exact Or.inr (by omega)
  · intro c3 V3 ip3 h3 hw _ hV3 hsize3
    have hinum : ip2.inum = ip.inum := htrans.grows.frame.inum
    have hback : V3.inode ip.inum = ip3.toDinode := by
      rw [hV3, Vol.setInode]
      simp [hinum]
    have hused3 : V3.used = V2.used := by
      rw [hV3]
      rfl
    refine hQ c3 V3 ip3 n h3 hw
      ⟨fun _ => hback, by rw [hsame V3 hused3]; omega, hpaid V3 hused3, hsome, fun h0 => ?_⟩
    exact Refused.data hpast (by omega) (by omega) hback

/-- `_writei` overwrites the content at `off` by a prefix of the source and
uses the blocks that the range needs. -/
theorem wp_writeiInner_charged (hm : Mounted c H V) (hi : Intact V ip) (hH : H.length + 1 < nbuf)
    (hnone : src = [] ∨ maxfile * bsize < off + src.length → Written V ip V ip off src 0 →
      ∀ c', Mounted c' H V → Q (0, ip) c')
    (hQ : ∀ c' V' ip' n, Mounted c' H V' → Written V ip V' ip' off src n → src ≠ [] →
      off + src.length ≤ maxfile * bsize → Charged V ip V' ip' off src n → Q (n, ip') c') :
    wp (writeiInner ip off src) E Q c := by
  unfold writeiInner
  split
  · rename_i hnil
    exact hnone (Or.inl hnil) (Written.none hi (by simp [hnil])) c hm
  rename_i hne
  have hsrc : 0 < src.length := length_pos_iff.mpr hne
  have hbig : maxfile * bsize < off + src.length → Q (0, ip) c := fun h =>
    hnone (Or.inr h) (Written.none hi fun _ => h) c hm
  split
  · rename_i hover
    exact hbig (lt_of_lt_of_le (by decide) (checkedAdd_none hover))
  rename_i stop hadd
  obtain rfl := checkedAdd_some hadd
  split
  · rename_i h
    exact hbig h
  rename_i hend
  have hQ' : ∀ c' V' ip' n, Mounted c' H V' → Written V ip V' ip' off src n →
      Charged V ip V' ip' off src n → Q (n, ip') c' := fun c' V' ip' n h' hw hch =>
    hQ c' V' ip' n h' hw hne (by omega) hch
  split
  · rename_i hpast
    rw [wp_bind]
    refine wp_zeroFill hm hi.owns hH hi.dense.mapped hpast (by omega)
      (fun c1 V1 ip1 P h1 hfill hbyte hshort => ?_) fun c1 V1 ip1 h1 hfill hmap hbyte => ?_
    · -- the zeros did not fit
      have hgap := V.card_missing ip ip.size (off - ip.size)
      rw [show ip.size + (off - ip.size) = off by omega] at hgap
      have hcard := card_le_card hshort.part.subset
      obtain ⟨hfree, hlt⟩ := hshort.lt hfill
      have hmono : (V.missing ip ip.size off).card ≤ (V.missing ip ip.size (off + 1)).card :=
        card_le_card (Vol.missing_mono (le_succ off))
      refine hQ' c1 V1 ip1 0 h1
        (Written.stuck hi hfill.grows (by omega) hbyte (Vol.full_iff.mpr hshort.full))
        ⟨fun h => absurd h (by omega), by rw [hshort.full]; omega, fun h => by omega, ?_,
          fun _ => .gap hpast hfill hshort⟩
      rw [show min ip.size off = ip.size by omega]
      omega
    · exact wp_writei_past h1 (used_ne_zero hm) hi hH (by omega) hsrc hpast hfill hmap hbyte hQ'
  · exact wp_writei_inside hm hi hH (by omega) hsrc (by omega) hQ'

/-- `_writei` overwrites the content at `off` by a prefix of the source. -/
theorem wp_writeiInner (hm : Mounted c H V) (hi : Intact V ip) (hH : H.length + 1 < nbuf)
    (hQ : ∀ c' V' ip' n, Mounted c' H V' → Written V ip V' ip' off src n → Q (n, ip') c') :
    wp (writeiInner ip off src) E Q c :=
  wp_writeiInner_charged hm hi hH (fun _ hw c' h' => hQ c' V ip 0 h' hw)
    fun c' V' ip' n h' hw _ _ _ => hQ c' V' ip' n h' hw

/-- A write into blocks that are there succeeds, whatever the copy of the
inode on disk is; it ends with writing the inode back. -/
theorem wp_writei_mapped (hm : Mounted c H V) (hn : ip.inum < ninodes) (ho : V.Owns ip)
    (hd : V.Dense ip) (hinfo : ip.InfoFits) (hH : H.length + 1 < nbuf) (hsrc : 0 < src.length)
    (hin : off ≤ ip.size) (hend : off + src.length ≤ maxfile * bsize)
    (hmiss : V.missing ip off (off + src.length) = ∅)
    (hQ : ∀ c' V' ip', Mounted c' H V' → Intact V' ip' → Frame V ip V' ip' → V'.used = V.used →
      V'.inode ip.inum = ip'.toDinode → ip' = { ip with size := max ip.size (off + src.length) } →
      V'.content ip' = overwrite (V.content ip) off src → Q (src.length, ip') c') :
    wp (writeiInner ip off src) E Q c := by
  have hlimit : maxfile * bsize < usizeSize := by decide
  have hne : src ≠ [] := length_pos_iff.mp hsrc
  rw [writeiInner, if_neg hne, checkedAdd, if_pos (by omega)]
  simp only
  rw [if_neg (by omega), if_neg (by omega)]
  simp only [wp_bind]
  refine wp_writeiLoop hH hend _ 0 c V ip hm ho (hd.mapped.mono (by omega))
    (Nat.zero_le _) (by omega) fun c2 V2 ip2 n P h2 hfill hmap _ hle hbyte hdone _ => ?_
  simp only [Nat.add_zero, Nat.sub_zero] at hdone hbyte
  obtain ⟨rfl, rfl⟩ : n = src.length ∧ P = ∅ := by
    rcases hdone with ⟨h, hP⟩ | ⟨-, hs⟩
    · exact ⟨h, hP.trans hmiss⟩
    · have hpart := hs.part
      rw [hmiss] at hpart
      exact absurd hpart (not_ssubset_empty P)
  have hg := hfill.grows
  obtain rfl : ip2 = ip := by
    rw [hg.info, hfill.addrs_eq fun p hp => absurd hp (notMem_empty p)]
  have hnew : (if ip2.size < off + src.length then { ip2 with size := off + src.length } else ip2) =
      { ip2 with size := max ip2.size (off + src.length) } := by
    split
    · rw [Nat.max_eq_right (by omega)]
    · rw [Nat.max_eq_left (by omega)]
  have hd' : V2.Dense { ip2 with size := max ip2.size (off + src.length) } := by
    refine ⟨max_le hd.size hend, fun p hp => ?_⟩
    rw [V2.addr_resize]
    by_cases hlow : p * bsize < ip2.size
    · exact hd.mapped.grow hg p hlow
    · refine hmap p ?_
      change p * bsize < max _ _ at hp
      omega
  have ho' := hfill.grows.owns.resize (max ip2.size (off + src.length))
  have hfits : ({ ip2 with size := max ip2.size (off + src.length) } : Inode).InfoFits :=
    ⟨hinfo.typ, hinfo.major, hinfo.minor, hinfo.nlink⟩
  simp only [writeiFinish, hnew]
  rw [if_pos (Or.inl hsrc), wp_bind]
  refine h2.writeDinode hn (hfits.fits h2 ho' hd') (by omega) fun c3 h3 => ?_
  refine hQ c3 _ _ h3 (Intact.commit _ hn ho' hd') ?_ hfill.used_eq
    (update_self _ _ _) rfl ?_
  · exact (hg.frame.resize ip2.size (max ip2.size (off + src.length))).setInode hg.frame.inum _
  · unfold Vol.content
    refine read_eq_overwrite fun k _ => (hbyte k).trans ?_
    have hzero : fill (V.byte ip2) ip2.size (off - ip2.size) 0 = V.byte ip2 := by
      funext j
      exact fill_outside (by omega)
    rw [hzero]
    simp

end ToyOs.Fs
