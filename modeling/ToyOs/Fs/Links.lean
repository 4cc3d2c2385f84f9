import ToyOs.Fs.Resolve

/-!
The steps by which a file or directory is made: an entry is added to its
parent, a link count goes up, a new directory gets its two entries. Each of
them changes one file. A node that all steps have been done for is entered
into the tree.
-/
namespace ToyOs.Fs

open Bytes Prog DirTree List Nat

variable {s s' t : State} {N : Finset ℕ} {r parent : InodeRef} {n m d k b : ℕ} {name : List UInt8}
  {f : FileState} {V V' : Vol} {ip ip' : Inode} {c : Dev} {H : Held} {E : Panic → Prop} {α : Type}
  {Q : Bool × Inode → Dev → Prop}

/-- The file `n` has become `f`, at the cost of at most `b` blocks. -/
structure Changed (s : State) (n : ℕ) (f : FileState) (b : ℕ) (t : State) : Prop where
  stable : Stable t
  refs : t.refs = s.refs
  file : ∀ m, m < ninodes → t.file m = if m = n then f else s.file m
  spent : t.vol.free ≤ s.vol.free
  budget : s.vol.free ≤ t.vol.free + b
  coherent : Coherent s → Coherent t

theorem Changed.self (h : Changed s n f b t) (hn : n < ninodes) : t.file n = f := by
  rw [h.file n hn, if_pos rfl]

theorem Changed.other (h : Changed s n f b t) (hm : m < ninodes) (hne : m ≠ n) :
    t.file m = s.file m := by
  rw [h.file m hm, if_neg hne]

theorem Tends.changed (hs : Stable s) (hr : s.refs r = some (n, k)) (hm : Mounted c [] V')
    (h : Tends s.vol (s.node n) V' ip') (hb : s.vol.free ≤ V'.free + b) :
    (s.store r c ip').vol = V' ∧ Changed s n (V'.file ip') b (s.store r c ip') := by
  have htyp : ip'.typ ≠ 0 := by
    rw [h.typ]
    exact hs.typ_ne hr
  obtain ⟨hst, hvol, hfile⟩ := Stable.store hs hr hm h.frame h.intact htyp
  refine ⟨hvol, hst, store_refs hr h.frame, hfile, by rw [hvol]; exact h.spent, by rwa [hvol],
    fun hcoh m hmn => ?_⟩
  rw [hvol, store_node hs hr hm h.frame]
  split
  · rename_i heq
    subst heq
    have hback := h.back
    rw [node_inum] at hback
    exact hback (hcoh m hmn)
  · rename_i hne
    rw [h.frame.inode m (by rwa [node_inum])]
    exact hcoh m hmn

/-- A body under the guard of an inode changes one file. -/
theorem wp_scope {body : Inode → DevM (α × Inode)} {Q : α → State → Prop} (hs : Stable s)
    (hr : s.refs r = some (n, k))
    (hbody : ∀ c, Mounted c [] s.vol → wp (body (s.node n)) E
      (fun a c' => ∃ V', Mounted c' [] V' ∧ Tends s.vol (s.node n) V' a.2 ∧
        s.vol.free ≤ V'.free + b ∧
        ∀ t, t.vol = V' → Changed s n (V'.file a.2) b t → Q a.1 t) c) :
    wp (withInode r body) E Q s := by
  refine wp_withInode hs hr fun c hc => ?_
  refine wp_post (hbody c hc) fun a c' ⟨V', hm, htend, hbudget, hQ⟩ => ?_
  obtain ⟨hvol, hchanged⟩ := htend.changed hs hr hm hbudget
  exact hQ _ hvol hchanged

section Entries

variable {data : List UInt8}

theorem entries_append (h : data.length % direntSize = 0) (name : List UInt8) (n : ℕ) :
    entries (data ++ (newDirent name n).encode) =
      entries data ++ [⟨direntName name, n % 2 ^ 16⟩] := by
  have hlen : (newDirent name n).encode.length = direntSize :=
    Dirent.encode_length (direntName_length name)
  rw [entries, dirents_append h hlen,
    Dirent.decode_encode (mod_lt _ (by decide)) (direntName_length name), map_append]
  rfl

theorem Packed.append (h : Packed data) (name : List UInt8) (hn : n % 2 ^ 16 ≠ 0) :
    Packed (data ++ (newDirent name n).encode) := by
  have hlen : (newDirent name n).encode.length = direntSize :=
    Dirent.encode_length (direntName_length name)
  refine ⟨?_, ?_⟩
  · rw [length_append, hlen, add_mod_right]
    exact h.whole
  · intro de hde
    rw [dirents_append h.whole hlen, mem_append, mem_singleton,
      Dirent.decode_encode (mod_lt _ (by decide)) (direntName_length name)] at hde
    rcases hde with hde | rfl
    · exact h.used de hde
    · exact hn

theorem packed_nil : Packed [] := ⟨rfl, by simp [dirents]⟩

theorem dots_ne : direntName dotName ≠ direntName dotdotName := by decide

/-- The content of a directory without children. -/
def emptyDir (n parentInum : ℕ) : List UInt8 :=
  (newDirent dotName n).encode ++ (newDirent dotdotName parentInum).encode

theorem emptyDir_length (n parentInum : ℕ) : (emptyDir n parentInum).length % direntSize = 0 := by
  rw [emptyDir, length_append, newDirent, newDirent,
    Dirent.encode_length (direntName_length _), Dirent.encode_length (direntName_length _)]
  rfl

theorem packed_dot (hn : n % 2 ^ 16 ≠ 0) : Packed (newDirent dotName n).encode :=
  packed_nil.append dotName hn

theorem packed_emptyDir (hn : n % 2 ^ 16 ≠ 0) (hd : d % 2 ^ 16 ≠ 0) : Packed (emptyDir n d) :=
  (packed_dot hn).append dotdotName hd

theorem entries_dot (n : ℕ) :
    entries (newDirent dotName n).encode = [⟨direntName dotName, n % 2 ^ 16⟩] := by
  have h : ([] : List UInt8).length % direntSize = 0 := rfl
  exact entries_append h dotName n

theorem entries_emptyDir (hn : n % 2 ^ 16 ≠ 0) (d : ℕ) : entries (emptyDir n d) =
    [⟨direntName dotName, n % 2 ^ 16⟩, ⟨direntName dotdotName, d % 2 ^ 16⟩] := by
  rw [emptyDir, entries_append (packed_dot hn).whole, entries_dot]
  rfl

/-- A name is absent when no entry has it. -/
theorem dirFind_none (h : Packed data) :
    dirFind data name = none ↔ direntName name ∉ (entries data).map Entry.name := by
  rw [dirFind_eq h, Option.map_eq_none_iff, List.find?_eq_none]
  simp

end Entries

/-- Why an entry could not be added. -/
def LinkRefused (s : State) (d : ℕ) (name : List UInt8) (t : State) : Prop :=
  (s.file d).typ ≠ tDir ∨ dirFind (s.file d).data name ≠ none ∨
    maxfile * bsize < (s.file d).data.length + direntSize ∨ t.vol.free = 0

theorem wp_linkChild {Q : Bool → State → Prop} (hs : Stable s) (hr : s.refs parent = some (d, k))
    (hpacked : (s.file d).typ = tDir → Packed (s.file d).data)
    (hsmall : (s.file d).typ = tDir → (s.file d).data.length < ndirect * bsize)
    (hno : ∀ t, Changed s d (s.file d) 2 t → LinkRefused s d name t → Q false t)
    (hyes : ∀ t, (s.file d).typ = tDir → dirFind (s.file d).data name = none →
      Changed s d ⟨tDir, (s.file d).nlink, (s.file d).data ++ (newDirent name n).encode⟩ 2 t →
      Q true t) :
    wp (linkChild parent name n) E Q s := by
  have hd := (hs.live parent d k hr).1
  refine wp_scope (b := 2) hs hr fun c hc => ?_
  have hsize : (s.file d).data.length = (s.node d).size := content_length _ _
  rw [hsize] at hsmall
  refine wp_dirlink hc (hs.intact d hd) (by decide) hpacked hsmall
    fun c' V' ip' ok hc' hl htend => ⟨V', hc', htend, hl.budget, fun t hvol ht => ?_⟩
  have hsame : ip'.typ = (s.node d).typ ∧ ip'.nlink = (s.node d).nlink := by
    rw [hl.info]
    exact ⟨rfl, rfl⟩
  cases ok with
  | true =>
    obtain ⟨htyp, hfind, hcontent⟩ := hl.added rfl
    refine hyes t htyp hfind ?_
    have hfile : V'.file ip' = ⟨tDir, (s.file d).nlink,
        (s.file d).data ++ (newDirent name n).encode⟩ := by
      simp only [Vol.file, hsame.1, hsame.2, htyp, hcontent]
      rfl
    rwa [hfile] at ht
  | false =>
    obtain ⟨hcontent, hwhy⟩ := hl.refused rfl
    have hfile : V'.file ip' = s.file d := by
      simp only [Vol.file, hsame.1, hsame.2, hcontent]
      rfl
    rw [hfile] at ht
    refine hno t ht ?_
    rw [LinkRefused, hsize]
    refine hwhy.imp id (Or.imp id (Or.imp id fun hfull => ?_))
    rw [hvol]
    exact Vol.full_iff.mp hfull

theorem wp_relink {Q : Unit → Dev → Prop} {v : ℤ} (hm : Mounted c H V) (hi : Intact V ip)
    (hH : H.length < nbuf) (hv : -2 ^ 15 ≤ v ∧ v < 2 ^ 15)
    (hQ : ∀ c' V', Mounted c' H V' → V'.used = V.used → V'.block = V.block →
      Tends V ip V' { ip with nlink := v } → Q () c') :
    wp (iupdate { ip with nlink := v }) E Q c := by
  have ho : V.Owns { ip with nlink := v } := ⟨hi.owns.used, hi.owns.inj⟩
  have hd : V.Dense { ip with nlink := v } := ⟨hi.dense.size, hi.dense.mapped⟩
  have hinfo := hi.info_fits hm
  have hfits : ({ ip with nlink := v } : Inode).InfoFits :=
    ⟨hinfo.typ, hinfo.major, hinfo.minor, hv⟩
  refine hm.writeDinode hi.inum (hfits.fits hm ho hd) hH fun c' hc' => ?_
  refine hQ c' _ hc' rfl rfl ⟨Intact.commit _ hi.inum ho hd, ?_, rfl, le_rfl, fun _ => ?_⟩
  · have hframe : Frame V ip V { ip with nlink := v } :=
      ⟨fun b hb _ => ⟨hb, rfl⟩, fun p _ => Or.inl ⟨p, rfl⟩, fun _ _ => rfl, rfl⟩
    exact hframe.setInode rfl _
  · exact Function.update_self _ _ _

theorem wp_incNlink {Q : Unit → State → Prop} (hs : Stable s) (hr : s.refs r = some (n, k))
    (hlt : (s.file n).nlink + 1 < 2 ^ 15)
    (hQ : ∀ t, Changed s n { s.file n with nlink := (s.file n).nlink + 1 } 0 t → Q () t) :
    wp (incNlink r) E Q s := by
  have hn := (hs.live r n k hr).1
  have hi := hs.intact n hn
  refine wp_scope (b := 0) hs hr fun c hc => ?_
  have hlow := (hi.info_fits hc).nlink.1
  have hlt' : (s.node n).nlink + 1 < 2 ^ 15 := hlt
  rw [wp_bind, wp_assert]
  refine ⟨fun _ => ?_, fun h => absurd hlt' (by simpa using h)⟩
  rw [wp_bind]
  refine wp_relink hc hi (by decide) ⟨by omega, hlt'⟩ fun c' V' hc' hused hblock htend => ?_
  refine ⟨V', hc', htend, by rw [Vol.free, Vol.free, hused]; omega, fun t _ ht => hQ t ?_⟩
  have hfile : V'.file { s.node n with nlink := (s.node n).nlink + 1 } =
      { s.file n with nlink := (s.file n).nlink + 1 } := by
    simp only [State.file, Vol.file, FileState.mk.injEq, true_and]
    exact read_congr _ _ _ _ fun j _ _ => Vol.byte_congr rfl hblock j
  rwa [hfile] at ht

/-- The entry `.` of an empty directory. It fails for want of a block only. -/
theorem wp_dot (hm : Mounted c H V) (hi : Intact V ip) (hH : H.length + 1 < nbuf)
    (htyp : ip.typ = tDir) (hempty : V.content ip = [])
    (hQ : ∀ c' V' ip' ok, Mounted c' H V' → Tends V ip V' ip' → ip'.nlink = ip.nlink →
      V.free ≤ V'.free + 2 → (ok = false → V'.free = 0 ∧ V'.content ip' = []) →
      (ok = true → V'.content ip' = (newDirent dotName n).encode) → Q (ok, ip') c') :
    wp (dirlink ip dotName n) E Q c := by
  have hsize : ip.size = 0 := by
    rw [← content_length V ip, hempty]
    rfl
  refine wp_dirlink hm hi hH (fun _ => hempty ▸ packed_nil) (fun _ => by rw [hsize]; decide)
    fun c' V' ip' ok h hl ht => hQ c' V' ip' ok h ht (by rw [hl.info]) hl.budget ?_ ?_
  · intro hok
    refine ⟨?_, (hl.refused hok).1.trans hempty⟩
    rcases (hl.refused hok).2 with h | h | h | h
    · exact absurd htyp h
    · rw [hempty] at h
      exact absurd rfl h
    · rw [hsize] at h
      exact absurd h (by decide)
    · exact Vol.full_iff.mp h
  · intro hok
    rw [(hl.added hok).2.2, hempty, nil_append]

/-- The entry `..` of a directory with the entry `.`. -/
theorem wp_dotdot (hm : Mounted c H V) (hi : Intact V ip) (hH : H.length + 1 < nbuf)
    (htyp : ip.typ = tDir) (hn : n % 2 ^ 16 ≠ 0)
    (hdot : V.content ip = (newDirent dotName n).encode)
    (hQ : ∀ c' V' ip' ok, Mounted c' H V' → Tends V ip V' ip' → ip'.nlink = ip.nlink →
      V.free ≤ V'.free + 2 →
      (ok = false → V'.free = 0 ∧ V'.content ip' = (newDirent dotName n).encode) →
      (ok = true → V'.content ip' = emptyDir n d) → Q (ok, ip') c') :
    wp (dirlink ip dotdotName d) E Q c := by
  have hsize : ip.size = direntSize := by
    rw [← content_length V ip, hdot]
    exact Dirent.encode_length (direntName_length dotName)
  refine wp_dirlink hm hi hH (fun _ => by rw [hdot]; exact packed_dot hn)
    (fun _ => by rw [hsize]; decide)
    fun c' V' ip' ok h hl ht => hQ c' V' ip' ok h ht (by rw [hl.info]) hl.budget ?_ ?_
  · intro hok
    refine ⟨?_, (hl.refused hok).1.trans hdot⟩
    rcases (hl.refused hok).2 with h | h | h | h
    · exact absurd htyp h
    · rw [hdot] at h
      refine absurd ((dirFind_none (packed_dot hn)).mpr ?_) h
      rw [entries_dot, map_singleton, mem_singleton]
      exact dots_ne.symm
    · rw [hsize] at h
      exact absurd h (by decide)
    · exact Vol.full_iff.mp h
  · intro hok
    rw [(hl.added hok).2.2, hdot]
    rfl

/-- The content does not depend on the link count. -/
theorem content_relink {v : ℤ} (hblock : V'.block = V.block) :
    V'.content { ip with nlink := v } = V.content ip :=
  read_congr _ _ _ _ fun j _ _ => Vol.byte_congr rfl hblock j

/-- The two entries of a new directory. They fail for want of a block only. -/
theorem wp_mkdirInit (hm : Mounted c H V) (hi : Intact V ip) (hH : H.length + 1 < nbuf)
    (htyp : ip.typ = tDir) (hempty : V.content ip = []) (hn : ip.inum % 2 ^ 16 ≠ 0)
    (hno : ∀ c' V' ip', Mounted c' H V' → Tends V ip V' ip' → V'.free = 0 →
      (V'.content ip').length % direntSize = 0 → V.free ≤ V'.free + 4 → Q (false, ip') c')
    (hyes : ∀ c' V' ip', Mounted c' H V' → Tends V ip V' ip' →
      V'.file ip' = ⟨tDir, 1, emptyDir ip.inum d⟩ → V.free ≤ V'.free + 4 → Q (true, ip') c') :
    wp (mkdirInit d ip) E Q c := by
  simp only [mkdirInit, wp_bind]
  refine wp_dot hm hi hH htyp hempty fun c1 V1 ip1 ok h1 ht1 _ hb1 hno1 hyes1 => ?_
  cases ok with
  | false =>
    obtain ⟨hfree, hsame⟩ := hno1 rfl
    exact hno c1 V1 ip1 h1 ht1 hfree (by rw [hsame]; rfl) (by omega)
  | true =>
    have htyp1 : ip1.typ = tDir := by rw [ht1.typ, htyp]
    simp only [wp_bind]
    refine wp_dotdot h1 ht1.intact hH htyp1 hn (hyes1 rfl)
      fun c2 V2 ip2 ok h2 ht2 _ hb2 hno2 hyes2 => ?_
    have ht12 := ht1.trans (used_ne_zero hm) ht2
    cases ok with
    | false =>
      obtain ⟨hfree, hsame⟩ := hno2 rfl
      refine hno c2 V2 ip2 h2 ht12 hfree ?_ (by omega)
      rw [hsame, Dirent.encode_length (direntName_length dotName)]
      rfl
    | true =>
      simp only [wp_bind]
      refine wp_relink h2 ht2.intact (by omega) (by decide) fun c3 V3 h3 hused hblock ht3 => ?_
      refine hyes c3 V3 _ h3 (ht12.trans (used_ne_zero hm) ht3) ?_ ?_
      · have htyp2 : ip2.typ = tDir := by rw [ht2.typ, htyp1]
        change (⟨ip2.typ, 1, V3.content { ip2 with nlink := 1 }⟩ : FileState) = _
        rw [content_relink hblock, hyes2 rfl, htyp2]
      · have hfree : V3.free = V2.free := by rw [Vol.free, Vol.free, hused]
        omega

/-- The inode `n` has been entered into directory `d` under a new name. -/
structure Entered (s : State) (N : Finset ℕ) (d n : ℕ) (name : List UInt8) (t : State) : Prop where
  tidy : Tidy t (insert n N)
  fresh : n ∉ N
  parent : d ∈ N
  absent : s.find d name = none
  adds : ∃ es, Adds s.graph (direntName dotName) (direntName dotdotName) N
    (fun m => (s.file m).nlink) d n es (direntName name) t.graph fun m => (t.file m).nlink
  file : ∀ m ∈ N, m ≠ d → t.file m = s.file m

/-- The number of links that a new directory adds to its parent. -/
def linksUp (f : FileState) : ℤ := if f.typ = tDir then 1 else 0

/-- What a new file or directory may be. -/
def NewFile (n d : ℕ) (f : FileState) : Prop :=
  f.typ = tFile ∧ f.nlink = 1 ∨ f = ⟨tDir, 2, emptyDir n d⟩

theorem Tidy.size_lt (ht : Tidy s N) (hd : d ∈ N) (hdir : (s.file d).typ = tDir) :
    (s.file d).data.length < ndirect * bsize := by
  have hgraph := ht.graph_eq hd
  rw [if_pos hdir] at hgraph
  have hlen := ht.tree.length_le hd hgraph
  have hsub : N ⊆ Finset.range ninodes := fun m hm => Finset.mem_range.mpr (ht.lt hm)
  have hcard := Finset.card_le_card hsub
  rw [Finset.card_range] at hcard
  rw [entries, length_map, dirents_length] at hlen
  have hwhole := (ht.packed d hd hdir).whole
  unfold direntSize at *
  unfold ndirect bsize
  unfold ninodes at hcard
  omega

theorem Tidy.pos (ht : Tidy s N) (hd : d ∈ N) : 0 < d := by
  by_cases hroot : d = rootino
  · rw [hroot]
    decide
  · -- every other inode is named by an entry in use
    have hone := ht.tree.once d hd
    rw [if_neg hroot] at hone
    obtain ⟨a, ha, hne⟩ := Finset.exists_ne_zero_of_sum_ne_zero (by rw [hone]; decide)
    have hmem : d ∈ kids s.graph a := count_pos_iff.mp (pos_of_ne_zero hne)
    obtain ⟨e, he, rfl⟩ := mem_map.mp hmem
    have he := mem_of_mem_drop he
    have hgraph := ht.graph_eq ha
    split at hgraph
    · rename_i hdir
      rw [hgraph, Option.getD_some, entries] at he
      obtain ⟨de, hde, rfl⟩ := mem_map.mp he
      exact pos_of_ne_zero ((ht.packed a ha hdir).used de hde)
    · rw [hgraph] at he
      simp at he

theorem inum_mod (hn : n < ninodes) : n % 2 ^ 16 = n :=
  mod_eq_of_lt (hn.trans (by decide))

theorem Tidy.enter (ht : Tidy s N) (hd : d ∈ N) (hdir : (s.file d).typ = tDir) (hn0 : 0 < n)
    (hn : n < ninodes) (hfresh : n ∉ N) (hname : s.find d name = none) (hstable : Stable t)
    (hparent : t.file d = ⟨tDir, (s.file d).nlink + linksUp (t.file n),
      (s.file d).data ++ (newDirent name n).encode⟩)
    (hother : ∀ m ∈ N, m ≠ d → t.file m = s.file m) (hnew : NewFile n d (t.file n))
    (hheld : ∀ r m k, t.refs r = some (m, k) → m ∈ insert n N) : Entered s N d n name t := by
  have hpacked := ht.packed d hd hdir
  have hdn : d ≠ n := fun h => hfresh (h ▸ hd)
  have hmodn : n % 2 ^ 16 ≠ 0 := by rw [inum_mod hn]; omega
  have hmodd : d % 2 ^ 16 ≠ 0 := by
    rw [inum_mod (ht.lt hd)]
    exact (ht.pos hd).ne'
  have hgd : s.graph d = some (entries (s.file d).data) := by
    rw [ht.graph_eq hd, if_pos hdir]
  have hgt : ∀ m, m < ninodes → t.graph m =
      if (t.file m).typ = tDir then some (entries (t.file m).data) else none := by
    intro m hm
    simp only [State.graph, hm, true_and]
  have hgn : t.graph n = none ∧ linksUp (t.file n) = 0 ∨ t.graph n =
      some [⟨direntName dotName, n⟩, ⟨direntName dotdotName, d⟩] ∧ linksUp (t.file n) = 1 := by
    rw [hgt n hn]
    rcases hnew with ⟨htyp, -⟩ | heq
    · left
      rw [linksUp, htyp]
      exact ⟨if_neg (by decide), if_neg (by decide)⟩
    · right
      rw [heq, entries_emptyDir hmodn, inum_mod hn, inum_mod (ht.lt hd)]
      exact ⟨if_pos rfl, rfl⟩
  have hfindName : direntName name ∉ (entries (s.file d).data).map Entry.name := by
    rw [ht.find_eq hd, if_pos hdir] at hname
    exact (dirFind_none hpacked).mp hname
  have hadds : Adds s.graph (direntName dotName) (direntName dotdotName) N
      (fun m => (s.file m).nlink) d n (entries (s.file d).data) (direntName name) t.graph
      fun m => (t.file m).nlink := by
    refine ⟨hd, hgd, hfresh, hfindName, ?_, fun m hm hmd => ?_, hgn.imp And.left And.left, ?_,
      fun m hm => ?_⟩
    · rw [hgt d (ht.lt hd), hparent, if_pos rfl, entries_append hpacked.whole, inum_mod hn]
    · rw [hgt m (ht.lt hm), ht.graph_eq hm, hother m hm hmd]
    · rcases hnew with ⟨htyp, hlink⟩ | heq
      · have hnone : t.graph n = none := by
          rw [hgt n hn, htyp]
          exact if_neg (by decide)
        simp [hlink, named, hnone]
      · rcases hgn with ⟨h, -⟩ | ⟨h, -⟩
        · rw [hgt n hn, heq] at h
          exact absurd h (by simp)
        · simp [heq, named, h, hdn]
    · have hmn : m ≠ n := fun h => hfresh (h ▸ hm)
      rcases hgn with ⟨h, hup⟩ | ⟨h, hup⟩
      · by_cases hmd : m = d
        · subst hmd
          simp [hparent, hup, named, h]
        · simp [hother m hm hmd, named, h]
      · by_cases hmd : m = d
        · subst hmd
          simp [hparent, hup, named, h, Ne.symm hmn]
        · simp [hother m hm hmd, named, h, Ne.symm hmn, Ne.symm hmd]
  refine ⟨⟨hstable, ht.tree.add dots_ne hadds, fun m hm hmdir => ?_, fun m hm => ?_, hheld⟩, hfresh,
    hd, hname, ⟨_, hadds⟩, hother⟩
  · rcases Finset.mem_insert.mp hm with rfl | hm
    · rcases hnew with ⟨htyp, -⟩ | heq
      · rw [htyp] at hmdir
        exact absurd hmdir (by decide)
      · rw [heq]
        exact packed_emptyDir hmodn hmodd
    · by_cases hmd : m = d
      · subst hmd
        rw [hparent]
        exact hpacked.append name hmodn
      · rw [hother m hm hmd] at hmdir ⊢
        exact ht.packed m hm hmdir
  · rcases Finset.mem_insert.mp hm with rfl | hm
    · refine ⟨hn, ?_⟩
      rcases hnew with ⟨htyp, -⟩ | heq
      · exact Or.inr htyp
      · rw [heq]
        exact Or.inl rfl
    · refine ⟨ht.lt hm, ?_⟩
      by_cases hmd : m = d
      · subst hmd
        rw [hparent]
        exact Or.inl rfl
      · rw [hother m hm hmd]
        exact (ht.kind m hm).2

end ToyOs.Fs
