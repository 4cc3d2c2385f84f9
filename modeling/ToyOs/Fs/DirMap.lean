import ToyOs.Fs.Runs

/-!
A directory as a finite map from stored names to inode numbers, also when some
of its entries are free. A new entry goes to the first free one or to the end;
either way exactly the lookups of its name change. Every directory of a
reachable state consists of whole entries, those outside of the tree included.
-/
namespace ToyOs.Fs

open Bytes Prog List Nat

variable {c : Dev} {V V' : Vol} {ip ip' : Inode} {data l name : List UInt8} {inum : ℕ}

section Entries

theorem dirents_take (h : data.length % direntSize = 0) {k : ℕ} (hk : k ≤ data.length / direntSize) :
    dirents (data.take (k * direntSize)) = (dirents data).take k ∧
      dirents (data.drop (k * direntSize)) = (dirents data).drop k := by
  have hlen : (data.take (k * direntSize)).length = k * direntSize := by
    rw [length_take]
    unfold direntSize at *
    omega
  have hsplit := @dirents_append_whole (data.take (k * direntSize))
    (data.drop (k * direntSize)) (by rw [hlen]; exact Nat.mul_mod_left _ _)
  rw [take_append_drop] at hsplit
  have hcount : (dirents (data.take (k * direntSize))).length = k := by
    rw [dirents_length, hlen]
    exact Nat.mul_div_cancel _ (by decide)
  rw [hsplit]
  exact ⟨(take_left' hcount).symm, (drop_left' hcount).symm⟩

/-- An entry written over another one or at the end. -/
theorem dirents_overwrite (h : data.length % direntSize = 0) {k : ℕ}
    (hk : k ≤ data.length / direntSize) (hl : l.length = direntSize) :
    dirents (overwrite data (k * direntSize) l) =
      (dirents data).take k ++ Dirent.decode l :: (dirents data).drop (k + 1) := by
  have hle : k * direntSize ≤ data.length := by
    unfold direntSize at *
    omega
  have htake : (data.take (k * direntSize)).length % direntSize = 0 := by
    rw [length_take, Nat.min_eq_left hle]
    exact Nat.mul_mod_left _ _
  have hover : overwrite data (k * direntSize) l =
      data.take (k * direntSize) ++ (l ++ data.drop ((k + 1) * direntSize)) := by
    simp only [overwrite, Nat.sub_eq_zero_of_le hle, replicate_zero, append_nil, hl,
      Nat.succ_mul, append_assoc]
  have hdrop : dirents (data.drop ((k + 1) * direntSize)) = (dirents data).drop (k + 1) := by
    by_cases hend : k + 1 ≤ data.length / direntSize
    · exact (dirents_take h hend).2
    · have hnil : data.drop ((k + 1) * direntSize) = [] := by
        rw [drop_eq_nil_iff]
        unfold direntSize at *
        omega
      rw [hnil, drop_eq_nil_of_le (by rw [dirents_length]; omega)]
      rfl
  rw [hover, dirents_append_whole htake, dirents_append_whole (by rw [hl]; rfl), dirents_single hl,
    (dirents_take h hk).1, hdrop]
  rfl

/-- An entry in use that has the name. -/
def answers (name : List UInt8) (de : Dirent) : Bool :=
  decide (de.inum ≠ 0 ∧ nameEq de.name name)

theorem dirFind_answers (data name : List UInt8) :
    dirFind data name = ((dirents data).find? (answers name)).map Dirent.inum := rfl

theorem answers_congr {name' : List UInt8} (h : direntName name' = direntName name) :
    answers name' = answers name := by
  funext de
  exact decide_eq_decide.mpr (by rw [nameEq, nameEq, h])

theorem answers_newDirent (hn : inum % 2 ^ 16 ≠ 0) (name' : List UInt8) :
    answers name' (newDirent name inum) = decide (direntName name' = direntName name) := by
  simp only [answers, nameEq, newDirent, beq_iff_eq]
  exact decide_eq_decide.mpr ⟨fun h => h.2.symm, fun h => ⟨hn, h.symm⟩⟩

/-- The free entry that a new one replaces was no answer to a lookup. -/
theorem find?_freeIdx (name : List UInt8) : (dirents data).find? (answers name) =
    (((dirents data).take (freeIdx data)).find? (answers name)).or
      (((dirents data).drop (freeIdx data + 1)).find? (answers name)) := by
  have hdrop : ((dirents data).drop (freeIdx data)).find? (answers name) =
      ((dirents data).drop (freeIdx data + 1)).find? (answers name) := by
    by_cases hlt : freeIdx data < (dirents data).length
    · have hfree : ((dirents data)[freeIdx data]).inum = 0 :=
        of_decide_eq_true (findIdx_getElem (w := hlt))
      have hno : answers name (dirents data)[freeIdx data] = false :=
        decide_eq_false fun h => h.1 hfree
      rw [drop_eq_getElem_cons hlt, List.find?_cons, hno]
    · rw [drop_eq_nil_of_le (by omega), drop_eq_nil_of_le (by omega)]
  rw [← hdrop, ← List.find?_append, take_append_drop]

/-- A new entry answers the lookups of its name; the others stay. -/
theorem dirFind_put (h : data.length % direntSize = 0) (hn : inum % 2 ^ 16 ≠ 0)
    (habsent : dirFind data name = none) (name' : List UInt8) :
    dirFind (overwrite data (freeIdx data * direntSize) (newDirent name inum).encode) name' =
      if direntName name' = direntName name then some (inum % 2 ^ 16) else dirFind data name' := by
  have hl : (newDirent name inum).encode.length = direntSize :=
    Dirent.encode_length (direntName_length name)
  have hde : Dirent.decode (newDirent name inum).encode = newDirent name inum :=
    Dirent.decode_encode (mod_lt _ (by decide)) (direntName_length name)
  rw [dirFind_answers, dirents_overwrite h (freeIdx_le data) hl, hde, List.find?_append,
    List.find?_cons, answers_newDirent hn]
  by_cases hname : direntName name' = direntName name
  · rw [dirFind_answers, Option.map_eq_none_iff, find?_freeIdx, Option.or_eq_none_iff] at habsent
    rw [if_pos hname, answers_congr hname, habsent.1, decide_eq_true hname]
    rfl
  · rw [if_neg hname, decide_eq_false hname, dirFind_answers, find?_freeIdx]

/-- A name is absent when no entry in use has it. -/
theorem dirFind_eq_none_iff : dirFind data name = none ↔
    ∀ de ∈ dirents data, de.inum ≠ 0 → de.name ≠ direntName name := by
  rw [dirFind_answers, Option.map_eq_none_iff, List.find?_eq_none]
  simp [answers, nameEq]

end Entries

/-- An inode on which the functions of directories work: it is sound, and a
directory consists of whole entries. -/
structure DirReady (c : Dev) (V : Vol) (ip : Inode) : Prop where
  mounted : Mounted c [] V
  intact : Intact V ip
  whole : ip.typ = tDir → ip.size % direntSize = 0

section Link

theorem DirReady.lookup (h : DirReady c V ip) (name : List UInt8) :
    ∃ c', dirlookup ip name c =
      .ok (if ip.typ = tDir then dirFind (V.content ip) name else none, c') ∧ Mounted c' [] V := by
  have hwp : wp (dirlookup ip name) (fun _ => False) (fun r c' =>
      r = (if ip.typ = tDir then dirFind (V.content ip) name else none) ∧ Mounted c' [] V) c :=
    wp_dirlookup h.mounted h.intact.owns h.intact.dense (by decide) h.whole
      fun c' h' => ⟨rfl, h'⟩
  obtain ⟨r, c', hrun, rfl, hm⟩ := exists_ok hwp
  exact ⟨c', hrun, hm⟩

/-- Room for one more entry: a free one, or a place at the end for which there
are blocks. -/
def HasRoom (V : Vol) (ip : Inode) : Prop :=
  (∃ de ∈ dirents (V.content ip), de.inum = 0) ∨
    ip.size + direntSize ≤ maxfile * bsize ∧
      (V.missing ip ip.size (ip.size + direntSize)).card ≤ V.free

/-- What `dirlink` has done. -/
structure Put (V : Vol) (ip : Inode) (V' : Vol) (ip' : Inode) (name : List UInt8) (inum : ℕ)
    (ok : Bool) : Prop where
  intact : Intact V' ip'
  typ : ip'.typ = ip.typ
  ok_iff : ok = true ↔ ip.typ = tDir ∧ dirFind (V.content ip) name = none ∧ HasRoom V ip
  content : V'.content ip' = if ok then
      overwrite (V.content ip) (freeIdx (V.content ip) * direntSize) (newDirent name inum).encode
    else V.content ip

theorem exists_free_iff : (∃ de ∈ dirents data, de.inum = 0) ↔
    freeIdx data < data.length / direntSize := by
  rw [← dirents_length, freeIdx, findIdx_lt_length]
  simp

/-- Below the size no block is missing. -/
theorem Vol.Dense.missing_below (hd : V.Dense ip) {a b : ℕ} (hb : b ≤ ip.size) :
    V.missing ip a b = ∅ := by
  refine Finset.eq_empty_of_forall_notMem fun p hp => ?_
  obtain ⟨⟨-, ⟨-, hlt, -⟩ | ⟨rfl, hlt⟩⟩, hzero⟩ := Vol.mem_missing.mp hp
  · exact hd.mapped p (by omega) hzero
  · -- the first position behind the direct ones is mapped, so the table is there
    have hmapped := hd.mapped ndirect (by omega)
    rw [Vol.addr_table] at hzero
    exact hmapped (Vol.addr_entry_none V ip le_rfl (by decide) hzero)

theorem missing_place (h : DirReady c V ip) (htyp : ip.typ = tDir)
    (hend : freeIdx (V.content ip) * direntSize + direntSize ≤ maxfile * bsize) :
    (V.missing ip (min ip.size (freeIdx (V.content ip) * direntSize))
      (freeIdx (V.content ip) * direntSize + 1)).card ≤ V.free ↔ HasRoom V ip := by
  have hwhole := h.whole htyp
  have hle := freeIdx_le (V.content ip)
  rw [content_length] at hle
  unfold HasRoom
  rw [exists_free_iff, content_length]
  by_cases hfree : freeIdx (V.content ip) < ip.size / direntSize
  · have hsize : freeIdx (V.content ip) * direntSize + 1 ≤ ip.size := by
      unfold direntSize at *
      omega
    rw [h.intact.dense.missing_below hsize]
    simp [hfree]
  · have hoff : freeIdx (V.content ip) * direntSize = ip.size := by
      unfold direntSize at *
      omega
    have hpos : ip.size / bsize < maxfile := by
      unfold direntSize bsize at *
      omega
    have hchunk : V.missing ip ip.size (ip.size + 1) =
        V.missing ip ip.size (ip.size + direntSize) := by
      rw [Vol.missing_chunk hpos (by decide) (by unfold bsize; omega),
        Vol.missing_chunk hpos (by decide) (by unfold bsize direntSize at *; omega)]
    rw [hoff] at hend ⊢
    rw [min_self, hchunk]
    simp [hfree, hend]

theorem wp_dirlink_put {Q : Bool × Inode → Dev → Prop} (h : DirReady c V ip)
    (hQ : ∀ c' V' ip' ok, Mounted c' [] V' → Put V ip V' ip' name inum ok → Q (ok, ip') c') :
    wp (dirlink ip name inum) E Q c := by
  have hi := h.intact
  have hsame : ∀ c', Mounted c' [] V →
      ¬ (ip.typ = tDir ∧ dirFind (V.content ip) name = none ∧ HasRoom V ip) →
      Q (false, ip) c' := fun c' h' hwhy =>
    hQ c' V ip false h' ⟨hi, rfl, by simpa using hwhy, rfl⟩
  by_cases htyp : ip.typ = tDir
  · have hwhole := h.whole htyp
    have hlen : (newDirent name inum).encode.length = direntSize :=
      Dirent.encode_length (direntName_length name)
    have hle := freeIdx_le (V.content ip)
    rw [content_length] at hle
    have hoff : freeIdx (V.content ip) * direntSize ≤ ip.size := by
      unfold direntSize at *
      omega
    refine wp_dirlink_scan h.mounted hi.owns hi.dense (by decide) htyp hwhole
      (fun hfound c' h' => hsame c' h' fun hno => hfound hno.2.1) fun hfind c1 h1 => ?_
    simp only [writeDirent, wp_bind, wp_pure]
    refine wp_writeiInner_charged h1 hi (by decide) (fun hwhy _ c2 h2 => ?_)
      fun c2 V2 ip2 n h2 hw _ hend hch => ?_
    · rw [hlen] at hwhy
      refine hsame c2 h2 fun hno => ?_
      have hbig : maxfile * bsize < freeIdx (V.content ip) * direntSize + direntSize := by
        rcases hwhy with hnil | hbig
        · rw [hnil] at hlen
          cases hlen
        · exact hbig
      have hsize := hi.dense.size
      rcases hno.2.2 with hfree | ⟨hfits, -⟩
      · rw [exists_free_iff, content_length] at hfree
        unfold direntSize at *
        omega
      · omega
    · rw [hlen] at hend
      have hfirst := hw.first
      have hnle := hw.le
      rw [hlen] at hfirst hnle
      have hall : n = 0 ∨ n = direntSize := by
        unfold direntSize bsize at *
        omega
      have hroom := (missing_place h htyp hend).symm.trans hch.some.symm
      refine hQ c2 V2 ip2 _ h2 ⟨hw.intact, by rw [hw.info], ?_, ?_⟩
      · rcases hall with rfl | rfl
        · simp [hroom, direntSize]
        · simp [hroom, htyp, hfind, direntSize]
      · have hcontent : V2.content ip2 = overwrite (V.content ip)
            (freeIdx (V.content ip) * direntSize) ((newDirent name inum).encode.take n) := by
          rcases hw.content with heq | ⟨rfl, heq⟩
          · exact heq
          · rw [heq, take_zero, overwrite_nil (by rw [content_length]; exact hoff)]
        rcases hall with rfl | rfl
        · rw [hcontent, take_zero, overwrite_nil (by rw [content_length]; exact hoff)]
          rfl
        · rw [hcontent, ← hlen, take_length]
          simp
  · rw [dirlink, if_pos htyp, wp_pure]
    exact hsame c h.mounted fun hno => htyp hno.1

/-- What a new entry does to the lookups and to the size. -/
theorem Put.ready {ok : Bool} {c' : Dev} (h : DirReady c V ip) (hm : Mounted c' [] V')
    (hp : Put V ip V' ip' name inum ok) : DirReady c' V' ip' ∧
      (ok = false → ip'.size = ip.size) ∧
      (ok = true → ip'.size = if ∃ de ∈ dirents (V.content ip), de.inum = 0 then ip.size
        else ip.size + direntSize) := by
  have hlen : (newDirent name inum).encode.length = direntSize :=
    Dirent.encode_length (direntName_length name)
  have hsize := congrArg List.length hp.content
  rw [content_length] at hsize
  have hno : ok = false → ip'.size = ip.size := by
    rintro rfl
    simpa [content_length] using hsize
  have hyes : ok = true → ip'.size = if ∃ de ∈ dirents (V.content ip), de.inum = 0 then ip.size
      else ip.size + direntSize := by
    rintro rfl
    have hwhole := h.whole (hp.ok_iff.mp rfl).1
    have hle := freeIdx_le (V.content ip)
    rw [if_pos rfl, overwrite_length, hlen, content_length] at hsize
    simp only [exists_free_iff, hsize, content_length] at hle ⊢
    unfold direntSize at *
    split <;> omega
  refine ⟨⟨hm, hp.intact, fun htyp => ?_⟩, hno, hyes⟩
  rw [hp.typ] at htyp
  have hwhole := h.whole htyp
  cases ok with
  | false => rw [hno rfl, hwhole]
  | true =>
    rw [hyes rfl]
    split
    · exact hwhole
    · rw [add_mod_right, hwhole]

theorem Put.find {ok : Bool} (h : DirReady c V ip) (hn : inum % 2 ^ 16 = inum) (hpos : 1 ≤ inum)
    (hp : Put V ip V' ip' name inum ok) (name' : List UInt8) :
    (if ip'.typ = tDir then dirFind (V'.content ip') name' else none) =
      if ok = true ∧ direntName name' = direntName name then some inum
      else if ip.typ = tDir then dirFind (V.content ip) name' else none := by
  rw [hp.typ, hp.content]
  cases ok with
  | false => simp
  | true =>
    obtain ⟨htyp, habsent, -⟩ := hp.ok_iff.mp rfl
    have hwhole : (V.content ip).length % direntSize = 0 := by
      rw [content_length, h.whole htyp]
    rw [if_pos htyp, if_pos htyp, if_pos rfl, dirFind_put hwhole (by omega) habsent, hn]
    simp

end Link

section Reachable

variable {s t : State} {n : ℕ}

/-- Every directory consists of whole entries. -/
def WholeDirs (s : State) : Prop :=
  ∀ n, n < ninodes → (s.file n).typ = tDir → (s.file n).data.length % direntSize = 0

theorem WholeDirs.congr (h : WholeDirs s) (hfile : ∀ n, n < ninodes → t.file n = s.file n) :
    WholeDirs t := fun n hn htyp => by
  rw [hfile n hn] at htyp ⊢
  exact h n hn htyp

theorem WholeDirs.change (h : WholeDirs s) (hfile : ∀ m, m < ninodes → m ≠ n → t.file m = s.file m)
    (hn : (t.file n).typ = tDir → (t.file n).data.length % direntSize = 0) : WholeDirs t := by
  intro m hm htyp
  by_cases hmn : m = n
  · subst hmn
    exact hn htyp
  · rw [hfile m hm hmn] at htyp ⊢
    exact h m hm htyp

theorem Effect.wholeDirs {N : Finset ℕ} {op : Op} (h : WholeDirs s) (he : Effect s N op t) :
    WholeDirs t := by
  have hwrote : ∀ {r n k off l src}, s.refs r = some (n, k) → (s.file n).typ ≠ tDir →
      Wrote s n off src l t → WholeDirs t := fun {r n k off l src} hr hdir hw =>
    h.change hw.file fun htyp => absurd htyp (by
      have htyp : (t.file n).typ = (s.file n).typ := by
        show (t.node n).typ = (s.node n).typ
        rw [hw.written.info]
      rwa [htyp])
  cases he with
  | quiet _ hq => exact h.congr hq.file
  | leaked _ hl hwhole => exact h.change hl.file fun htyp => hwhole (hl.now.symm.trans htyp)
  | @created _ _ d n b name f r _ hc hwhole =>
    intro m hm htyp
    by_cases hmn : m = n
    · rw [hmn, hc.new] at htyp ⊢
      exact hwhole htyp
    · by_cases hmd : m = d
      · rw [hmd, hc.parent, length_append, Dirent.encode_length (direntName_length name),
          add_mod_right]
        exact h d (hmd ▸ hm) hc.dir
      · rw [hc.file m hm hmn hmd] at htyp ⊢
        exact h m hm htyp
  | far => exact h
  | writei hr hdir _ hw => exact hwrote hr hdir hw
  | appendi hr hdir hw => exact hwrote hr hdir hw
  | @trunc r n k _ hr hdir htr =>
    refine h.change htr.file fun htyp => absurd htyp ?_
    have htyp : (t.file n).typ = (s.file n).typ := by
      show (t.node n).typ = (s.node n).typ
      rw [htr.self]
      rfl
    rwa [htyp]

theorem Reachable.wholeDirs (hs : Reachable s) : WholeDirs s := by
  induction hs with
  | init hrun =>
    obtain ⟨N, hinit⟩ := Initial.of_init hrun
    intro n hn htyp
    have hmem := hinit.booting.used n hn (by rw [htyp]; decide)
    exact (hinit.booting.tidy.packed n hmem htyp).whole
  | step hs ha hrun ih =>
    obtain ⟨N, ht⟩ := hs.tidy
    have he := wp_ok (wp_effect ht ha) hrun
    exact he.wholeDirs ih

theorem Reachable.dirReady (hs : Reachable s) (hn : n < ninodes) :
    DirReady s.dev s.vol (s.node n) := by
  obtain ⟨N, ht⟩ := hs.tidy
  refine ⟨ht.stable.mounted, ht.stable.intact n hn, fun htyp => ?_⟩
  rw [← content_length s.vol]
  exact hs.wholeDirs n hn htyp

end Reachable

/-- A directory is a finite map from stored names to inode numbers. Every inode
of a reachable state is ready. On a ready inode no entry fails to be read and
lookups return; `dirlink` returns, with true exactly when the inode is a
directory without the name and with room. Then the lookups of the name, and
only these, change, the inode grows by an entry only without a free one, and
it is ready again; otherwise no lookup changes. -/
theorem directory_map : (∀ s n, Reachable s → n < ninodes → DirReady s.dev s.vol (s.node n)) ∧
    ∀ c V ip, DirReady c V ip →
      (ip.typ = tDir → ∀ off, off % direntSize = 0 → off < ip.size →
        ∃ de c', readDirent ip off c = .ok (some de, c')) ∧
      ∀ name inum, 1 ≤ inum → inum < ninodes →
        ∃ ok ip' c' V', dirlink ip name inum c = .ok ((ok, ip'), c') ∧ DirReady c' V' ip' ∧
          (ok = true ↔ ip.typ = tDir ∧
            (∀ de ∈ dirents (V.content ip), de.inum ≠ 0 → de.name ≠ direntName name) ∧
            HasRoom V ip) ∧
          (ok = true → ip'.size = if ∃ de ∈ dirents (V.content ip), de.inum = 0 then ip.size
            else ip.size + direntSize) ∧
          (ok = false → ip'.size = ip.size) ∧
          ∀ name', ∃ found c₁ c₂, dirlookup ip name' c = .ok (found, c₁) ∧
            dirlookup ip' name' c' = .ok
              (if ok = true ∧ direntName name' = direntName name then some inum else found, c₂) := by
  refine ⟨fun s n hs hn => hs.dirReady hn, fun c V ip h => ⟨fun htyp off hoff hlt => ?_,
    fun name inum hpos hlt => ?_⟩⟩
  · have hwhole := h.whole htyp
    have hk : off / direntSize * direntSize = off :=
      Nat.div_mul_cancel (Nat.dvd_of_mod_eq_zero hoff)
    have hwp : wp (readDirent ip (off / direntSize * direntSize)) (fun _ => False)
        (fun o _ => ∃ de, o = some de) c :=
      wp_readDirent h.mounted h.intact.owns h.intact.dense (by decide)
        (by unfold direntSize at *; omega) fun _ _ => ⟨_, rfl⟩
    rw [hk] at hwp
    obtain ⟨o, c', hrun, de, rfl⟩ := exists_ok hwp
    exact ⟨de, c', hrun⟩
  · have hwp : wp (dirlink ip name inum) (fun _ => False)
        (fun r c' => ∃ V', Mounted c' [] V' ∧ Put V ip V' r.2 name inum r.1) c :=
      wp_dirlink_put h fun c' V' ip' ok hm hp => ⟨V', hm, hp⟩
    obtain ⟨⟨ok, ip'⟩, c', hrun, V', hm, hp⟩ := exists_ok hwp
    obtain ⟨hready, hno, hyes⟩ := hp.ready h hm
    refine ⟨ok, ip', c', V', hrun, hready, ?_, hyes, hno, fun name' => ?_⟩
    · rw [← dirFind_eq_none_iff]
      exact hp.ok_iff
    · obtain ⟨c₁, hold, -⟩ := h.lookup name'
      obtain ⟨c₂, hnew, -⟩ := hready.lookup name'
      rw [hp.find h (inum_mod hlt) hpos] at hnew
      exact ⟨_, c₁, c₂, hold, hnew⟩

end ToyOs.Fs
