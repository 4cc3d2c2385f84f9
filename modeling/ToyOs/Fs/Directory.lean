import ToyOs.Fs.InodeScope

/-!
Directories as lists of entries. The content of a directory is the list of
its entries, 16 bytes each; a lookup searches that list and a new entry goes
to its end. An entry never crosses a block, so it is written as a whole or
not at all.
-/
namespace ToyOs.Fs

open Bytes Prog List Nat

variable {Q : Option ℕ → Dev → Prop}

/-- The entries that the content of a directory consists of. -/
def dirents (data : List UInt8) : List Dirent :=
  (List.range (data.length / direntSize)).map fun k =>
    Dirent.decode ((data.drop (k * direntSize)).take direntSize)

/-- The inode that a name stands for. -/
def dirFind (data name : List UInt8) : Option ℕ :=
  ((dirents data).find? fun de => decide (de.inum ≠ 0 ∧ nameEq de.name name)).map Dirent.inum

theorem Dirent.encode_length {de : Dirent} (h : de.name.length = dirsiz) :
    de.encode.length = direntSize := by
  simp [Dirent.encode, h, dirsiz, direntSize]

theorem Dirent.decode_encode {de : Dirent} (hn : de.inum < 2 ^ 16)
    (h : de.name.length = dirsiz) : Dirent.decode de.encode = de := by
  have hinum : load 2 (fun k => de.encode.getD k 0) 0 = de.inum := by
    have hle : load 2 (fun k => de.encode.getD k 0) 0 = leNat 2 (byteAt de.inum) := by
      refine leNat_congr 2 _ _ fun k hk => ?_
      simp only [Dirent.encode, zero_add, getD_eq_getElem?_getD]
      rw [List.getElem?_append_left (by simpa using hk)]
      simp [hk]
    rw [hle, leNat_byteAt]
    exact mod_eq_of_lt hn
  have hname : (de.encode.drop 2).take dirsiz = de.name := by
    rw [Dirent.encode, drop_left' (by simp), ← h, take_length]
  rw [Dirent.decode, hinum, hname]

theorem direntName_length (name : List UInt8) : (direntName name).length = dirsiz := by
  simp only [direntName, length_append, length_take, length_replicate]
  omega

theorem dirents_length (data : List UInt8) : (dirents data).length = data.length / direntSize := by
  simp [dirents]

/-- Behind whole entries the list goes on with the entries of what follows. -/
theorem dirents_append_whole {data data' : List UInt8} (h : data.length % direntSize = 0) :
    dirents (data ++ data') = dirents data ++ dirents data' := by
  have hmul : data.length / direntSize * direntSize = data.length :=
    Nat.div_mul_cancel (Nat.dvd_of_mod_eq_zero h)
  have hlen : (data ++ data').length / direntSize =
      data.length / direntSize + data'.length / direntSize := by
    rw [length_append]
    unfold direntSize at *
    omega
  unfold dirents
  rw [hlen, range_add, map_append, map_map]
  congr 1
  · refine map_congr_left fun k hk => ?_
    rw [mem_range] at hk
    have hend : k * direntSize + direntSize ≤ data.length := by
      rw [← hmul]
      unfold direntSize at *
      omega
    rw [drop_append_of_le_length (by omega), take_append_of_le_length (by
      rw [length_drop]
      omega)]
  · refine map_congr_left fun k _ => ?_
    simp only [Function.comp]
    rw [Nat.add_mul, hmul, drop_append, drop_eq_nil_of_le (by omega), nil_append,
      Nat.add_sub_cancel_left]

theorem dirents_single {l : List UInt8} (hl : l.length = direntSize) :
    dirents l = [Dirent.decode l] := by
  have htake : l.take direntSize = l := by rw [← hl, take_length]
  rw [dirents, hl, Nat.div_self (by decide)]
  simp [htake]

/-- An entry appended to the content is appended to the list. -/
theorem dirents_append {data l : List UInt8} (h : data.length % direntSize = 0)
    (hl : l.length = direntSize) : dirents (data ++ l) = dirents data ++ [Dirent.decode l] := by
  rw [dirents_append_whole h, dirents_single hl]

variable {c : Dev} {H : Held} {V V' : Vol} {ip ip' : Inode} {E : Panic → Prop} {name : List UInt8}

theorem wp_readDirent {Q : Option Dirent → Dev → Prop} {k : ℕ} (hm : Mounted c H V)
    (ho : V.Owns ip) (hd : V.Dense ip) (hH : H.length < nbuf) (hk : k * direntSize + direntSize ≤ ip.size)
    (hQ : ∀ c', Mounted c' H V →
      Q (some (Dirent.decode (((V.content ip).drop (k * direntSize)).take direntSize))) c') :
    wp (readDirent ip (k * direntSize)) E Q c := by
  simp only [readDirent, wp_bind]
  refine wp_readiInner hm ho hd hH fun c' h' => ?_
  have hlen : (read (V.byte ip) (k * direntSize) (min direntSize (ip.size - k * direntSize))).length =
      direntSize := by
    rw [read_length]
    omega
  have hfin := hQ c' h'
  rw [Vol.content, read_slice] at hfin
  rw [if_pos hlen]
  exact hfin

theorem wp_nextDirent {Q : ℕ → Dev → Prop} {k : ℕ} (hd : V.Dense ip)
    (hk : k * direntSize + direntSize ≤ ip.size) (hQ : Q ((k + 1) * direntSize) c) :
    wp (nextDirent (k * direntSize)) E Q c := by
  have hsize := lt_of_le_of_lt hd.size (by decide : maxfile * bsize < 2 ^ 32)
  unfold nextDirent
  rw [if_pos (by omega), wp_pure, ← succ_mul]
  exact hQ

theorem dirents_drop {data : List UInt8} {k : ℕ} (h : k < data.length / direntSize) :
    (dirents data).drop k =
      Dirent.decode ((data.drop (k * direntSize)).take direntSize) :: (dirents data).drop (k + 1) := by
  rw [drop_eq_getElem_cons (by rwa [dirents_length])]
  simp [dirents]

theorem direntRounds_eq (h : ip.size % direntSize = 0) :
    direntRounds ip = ip.size / direntSize := by
  unfold direntRounds direntSize at *
  omega

theorem wp_dirlookupLoop (ho : V.Owns ip) (hd : V.Dense ip) (hH : H.length < nbuf) (rounds : ℕ) :
    ∀ (k : ℕ) (c : Dev), k + rounds = ip.size / direntSize → Mounted c H V →
      (∀ c', Mounted c' H V → Q ((((dirents (V.content ip)).drop k).find? fun de =>
        decide (de.inum ≠ 0 ∧ nameEq de.name name)).map Dirent.inum) c') →
      wp (dirlookupLoop ip name rounds (k * direntSize)) E Q c := by
  induction rounds with
  | zero =>
    intro k c hk hm hQ
    have hnil : (dirents (V.content ip)).drop k = [] := by
      rw [drop_eq_nil_iff, dirents_length, content_length]
      omega
    have hfin := hQ c hm
    rw [hnil] at hfin
    exact hfin
  | succ rounds ih =>
    intro k c hk hm hQ
    have hend : k * direntSize + direntSize ≤ ip.size := by
      unfold direntSize at *
      omega
    rw [dirents_drop (by rw [content_length]; omega)] at hQ
    simp only [dirlookupLoop, wp_bind]
    refine wp_readDirent hm ho hd hH hend fun c1 h1 => ?_
    simp only [List.find?_cons] at hQ
    rw [wp_ite]
    refine ⟨fun hhit => ?_, fun hmiss => ?_⟩
    · have hfin := hQ c1 h1
      rw [decide_eq_true hhit] at hfin
      exact hfin
    · rw [decide_eq_false hmiss] at hQ
      simp only [wp_bind]
      exact wp_nextDirent hd hend (ih (k + 1) c1 (by omega) h1 hQ)

/-- `dirlookup` searches the entries in order. -/
theorem wp_dirlookup (hm : Mounted c H V) (ho : V.Owns ip) (hd : V.Dense ip) (hH : H.length < nbuf)
    (hsize : ip.typ = tDir → ip.size % direntSize = 0)
    (hQ : ∀ c', Mounted c' H V →
      Q (if ip.typ = tDir then dirFind (V.content ip) name else none) c') :
    wp (dirlookup ip name) E Q c := by
  unfold dirlookup
  by_cases htyp : ip.typ = tDir
  · rw [if_neg (not_not.mpr htyp), direntRounds_eq (hsize htyp)]
    have hloop : wp (dirlookupLoop ip name (ip.size / direntSize) (0 * direntSize)) E Q c :=
      wp_dirlookupLoop ho hd hH (ip.size / direntSize) 0 c (zero_add _) hm fun c' h' => by
        have hfin := hQ c' h'
        rw [if_pos htyp] at hfin
        exact hfin
    rwa [zero_mul] at hloop
  · rw [if_pos htyp, wp_pure]
    have hfin := hQ c hm
    rw [if_neg htyp] at hfin
    exact hfin

/-- The place of a new entry: the first free one, or the end. -/
def freeIdx (data : List UInt8) : ℕ := (dirents data).findIdx fun de => decide (de.inum = 0)

theorem freeIdx_le (data : List UInt8) : freeIdx data ≤ data.length / direntSize := by
  rw [← dirents_length]
  exact findIdx_le_length

/-- The search for the place, from an entry on before which none is free. -/
theorem wp_freeDirentLoop (ho : V.Owns ip) (hd : V.Dense ip) (hH : H.length < nbuf) (rounds : ℕ) :
    ∀ (k : ℕ) (c : Dev), k + rounds = ip.size / direntSize → Mounted c H V →
      k ≤ freeIdx (V.content ip) →
      (∀ c', Mounted c' H V → Q (some (freeIdx (V.content ip) * direntSize)) c') →
      wp (freeDirentLoop ip rounds (k * direntSize)) E Q c := by
  induction rounds with
  | zero =>
    intro k c hk hm hle hQ
    have hend := freeIdx_le (V.content ip)
    rw [content_length] at hend
    obtain rfl : k = freeIdx (V.content ip) := by omega
    exact hQ c hm
  | succ rounds ih =>
    intro k c hk hm hle hQ
    have hend : k * direntSize + direntSize ≤ ip.size := by
      unfold direntSize at *
      omega
    have hlt : k < (dirents (V.content ip)).length := by
      rw [dirents_length, content_length]
      omega
    have hget : (dirents (V.content ip))[k] =
        Dirent.decode (((V.content ip).drop (k * direntSize)).take direntSize) := by
      simp [dirents]
    simp only [freeDirentLoop, wp_bind]
    refine wp_readDirent hm ho hd hH hend fun c1 h1 => ?_
    simp only
    rw [← hget, wp_ite]
    refine ⟨fun hfree => ?_, fun hused => ?_⟩
    · have hplace : freeIdx (V.content ip) = k := by
        refine le_antisymm (not_lt.mp fun hlt' => ?_) hle
        simpa [hfree] using not_of_lt_findIdx hlt'
      have hfin := hQ c1 h1
      rw [hplace] at hfin
      exact hfin
    · rw [wp_bind]
      refine wp_nextDirent hd hend (ih (k + 1) c1 (by omega) h1 ?_ hQ)
      refine lt_of_le_of_ne hle fun heq => hused ?_
      subst heq
      exact of_decide_eq_true (findIdx_getElem (w := hlt))

/-- Whole entries, none of them free. -/
structure Packed (data : List UInt8) : Prop where
  whole : data.length % direntSize = 0
  used : ∀ de ∈ dirents data, de.inum ≠ 0

/-- Without free entries the place of a new one is the end. -/
theorem Packed.freeIdx_eq {data : List UInt8} (h : Packed data) :
    freeIdx data * direntSize = data.length := by
  have hlen : freeIdx data = (dirents data).length :=
    findIdx_eq_length_of_false fun de hde => by simpa using h.used de hde
  rw [hlen, dirents_length]
  exact Nat.div_mul_cancel (Nat.dvd_of_mod_eq_zero h.whole)

/-- The entry that `dirlink` writes. -/
def newDirent (name : List UInt8) (inum : ℕ) : Dirent := ⟨inum % 2 ^ 16, direntName name⟩

/-- What `dirlink` has done: with result true the entry is at the end, with
result false the content is as before. -/
structure Linked (V : Vol) (ip : Inode) (V' : Vol) (ip' : Inode) (name : List UInt8) (inum : ℕ)
    (ok : Bool) : Prop where
  intact : Intact V' ip'
  frame : Frame V ip V' ip'
  info : ip' = { ip with size := ip'.size, addrs := ip'.addrs }
  budget : V.free ≤ V'.free + 2
  added : ok = true → ip.typ = tDir ∧ dirFind (V.content ip) name = none ∧
    V'.content ip' = V.content ip ++ (newDirent name inum).encode
  refused : ok = false → V'.content ip' = V.content ip ∧
    (ip.typ ≠ tDir ∨ dirFind (V.content ip) name ≠ none ∨ maxfile * bsize < ip.size + direntSize ∨
      V'.Full)

/-- A change of an inode that frees no block and writes the inode back. -/
structure Tends (V : Vol) (ip : Inode) (V' : Vol) (ip' : Inode) : Prop where
  intact : Intact V' ip'
  frame : Frame V ip V' ip'
  typ : ip'.typ = ip.typ
  spent : V'.free ≤ V.free
  back : V.inode ip.inum = ip.toDinode → V'.inode ip.inum = ip'.toDinode

theorem Tends.refl (hi : Intact V ip) : Tends V ip V ip :=
  ⟨hi, Frame.refl V ip, rfl, le_rfl, id⟩

theorem Tends.trans {V'' : Vol} {ip'' : Inode} (hd : ∀ b, V.used b = true → b ≠ 0)
    (h : Tends V ip V' ip') (h' : Tends V' ip' V'' ip'') : Tends V ip V'' ip'' where
  intact := h'.intact
  frame := h.frame.trans hd h'.frame
  typ := h'.typ.trans h.typ
  spent := h'.spent.trans h.spent
  back := by
    intro hb
    have hback := h'.back
    rw [h.frame.inum] at hback
    exact hback (h.back hb)

/-- In the direct blocks a write of an entry that fails has not touched the inode. -/
theorem Charged.tends {off n : ℕ} {src : List UInt8} (hw : Written V ip V' ip' off src n)
    (hch : Charged V ip V' ip' off src n) (hoff : off = ip.size) (hlow : off < ndirect * bsize) :
    Tends V ip V' ip' := by
  refine ⟨hw.intact, hw.frame, by rw [hw.info], hch.spent, fun hb => ?_⟩
  by_cases hn : 0 < n
  · exact hch.back hn
  · cases hch.none (by omega) with
    | gap hpast => omega
    | data hpast => omega
    | first hin hfill hshort =>
      have hnone : ∀ p ∈ V.missing ip off (off + 1), p = off / bsize := by
        intro p hp
        have ht := (Vol.mem_missing.mp hp).1
        unfold Touches bsize ndirect at *
        omega
      have hempty : ∀ p, p ∉ _ := fun p hp => by
        -- a strict part of one position is empty
        obtain ⟨q, hq, hqP⟩ := Finset.not_subset.mp hshort.part.2
        rw [hnone q hq, ← hnone p (hshort.part.1 hp)] at hqP
        exact hqP hp
      have haddrs := hfill.addrs_eq fun p hp => absurd hp (hempty p)
      rw [hfill.grows.inode, hb, hfill.grows.info]
      simp only [Inode.toDinode, haddrs]

theorem span_dirent {k : ℕ} (h : k % direntSize = 0) : span k direntSize = 1 := by
  unfold span direntSize bsize at *
  rw [if_neg (by omega)]
  omega

/-- `dirlink` searches for the name and then writes at the place of the entry. -/
theorem wp_dirlink_scan {Q : Bool × Inode → Dev → Prop} {inum : ℕ} (hm : Mounted c H V)
    (ho : V.Owns ip) (hd : V.Dense ip) (hH : H.length < nbuf) (htyp : ip.typ = tDir)
    (hwhole : ip.size % direntSize = 0)
    (hfound : dirFind (V.content ip) name ≠ none → ∀ c', Mounted c' H V → Q (false, ip) c')
    (hwrite : dirFind (V.content ip) name = none → ∀ c', Mounted c' H V →
      wp (writeDirent ip (freeIdx (V.content ip) * direntSize) (newDirent name inum)) E Q c') :
    wp (dirlink ip name inum) E Q c := by
  rw [dirlink, if_neg (not_not.mpr htyp)]
  simp only [wp_bind]
  refine wp_dirlookup hm ho hd hH (fun _ => hwhole) fun c1 h1 => ?_
  rw [if_pos htyp, wp_ite]
  refine ⟨fun hsome => ?_, fun hnone => ?_⟩
  · exact hfound (fun h0 => by simp [h0] at hsome) c1 h1
  · have hfind : dirFind (V.content ip) name = none := by simpa using hnone
    rw [wp_bind, direntRounds_eq hwhole]
    change wp (freeDirentLoop ip (ip.size / direntSize) (0 * direntSize)) E _ c1
    exact wp_freeDirentLoop ho hd hH (ip.size / direntSize) 0 c1 (zero_add _) h1 (zero_le _)
      fun c2 h2 => hwrite hfind c2 h2

/-- `dirlink` appends the entry, unless the name exists or there is no room. -/
theorem wp_dirlink {Q : Bool × Inode → Dev → Prop} {inum : ℕ} (hm : Mounted c H V)
    (hi : Intact V ip) (hH : H.length + 1 < nbuf) (hdir : ip.typ = tDir → Packed (V.content ip))
    (hsmall : ip.typ = tDir → ip.size < ndirect * bsize)
    (hQ : ∀ c' V' ip' ok, Mounted c' H V' → Linked V ip V' ip' name inum ok →
      Tends V ip V' ip' → Q (ok, ip') c') :
    wp (dirlink ip name inum) E Q c := by
  have hsame : ∀ c', Mounted c' H V →
      (ip.typ ≠ tDir ∨ dirFind (V.content ip) name ≠ none) → Q (false, ip) c' := by
    intro c' h' hwhy
    refine hQ c' V ip false h' ⟨hi, Frame.refl V ip, rfl, Nat.le_add_right _ _, fun h => ?_,
      fun _ => ⟨rfl, hwhy.elim Or.inl fun h => Or.inr (Or.inl h)⟩⟩ (Tends.refl hi)
    exact absurd h (by decide)
  by_cases htyp : ip.typ = tDir
  · have hwhole := (hdir htyp).whole
    have hend := (hdir htyp).freeIdx_eq
    rw [content_length] at hwhole hend
    refine wp_dirlink_scan hm hi.owns hi.dense (by omega) htyp hwhole
      (fun h c' h' => hsame c' h' (Or.inr h)) fun hfind c2 h2 => ?_
    rw [hend]
    have hlen : (newDirent name inum).encode.length = direntSize :=
      Dirent.encode_length (direntName_length name)
    simp only [writeDirent, wp_bind]
    have hstore : ∀ c3 V3 ip3 n, Mounted c3 H V3 →
        Written V ip V3 ip3 ip.size (newDirent name inum).encode n → Tends V ip V3 ip3 →
        Q (n == direntSize, ip3) c3 := ?_
    · refine wp_writeiInner_charged h2 hi hH (fun _ hw c3 h3 => hstore c3 V ip 0 h3 hw
        (Tends.refl hi)) fun c3 V3 ip3 n h3 hw _ _ hch => hstore c3 V3 ip3 n h3 hw
        (hch.tends hw rfl (hsmall htyp))
    intro c3 V3 ip3 n h3 hw htend
    have hle := hw.le
    have hfirst := hw.first
    have hbudget := hw.budget
    rw [hlen] at hle hfirst hbudget
    rw [span_dirent hwhole, Nat.sub_self] at hbudget
    have hall : n = 0 ∨ n = direntSize := by
      unfold direntSize bsize at *
      omega
    have hcontent : V3.content ip3 =
        overwrite (V.content ip) ip.size ((newDirent name inum).encode.take n) := by
      rcases hw.content with h | ⟨h0, h⟩
      · exact h
      · rw [h, h0, take_zero, overwrite_nil (by rw [content_length])]
    have hover := overwrite_end (V.content ip) ((newDirent name inum).encode.take n)
    rw [content_length] at hover
    rw [hover] at hcontent
    refine hQ c3 V3 ip3 (n == direntSize) h3 ⟨hw.intact, hw.frame, hw.info, ?_, fun hok => ?_,
      fun hno => ?_⟩ htend
    · simpa [span] using hbudget
    · have hn : n = direntSize := by simpa using hok
      rw [hn, ← hlen, take_length] at hcontent
      exact ⟨htyp, hfind, hcontent⟩
    · have hn : n ≠ direntSize := by simpa using hno
      have hn0 : n = 0 := hall.resolve_right hn
      rw [hn0, take_zero, append_nil] at hcontent
      refine ⟨hcontent, Or.inr (Or.inr ?_)⟩
      have hshort := hw.short (by rw [hlen, hn0]; decide)
      rwa [hlen] at hshort
  · rw [dirlink, if_pos htyp]
    exact hsame c hm (Or.inl htyp)

end ToyOs.Fs
