import ToyOs.Fs.Ops

/-!
The file system that `init` makes from a zeroed disk: the root with its two
entries, `/bin` with the programs and `README.md`. The embedded files are
parameters, so `init` may run out of blocks and panic; when they are all
empty it does not.
-/
namespace ToyOs.Fs

open Bytes Prog DirTree Function List

variable {s t : State} {N : Finset ℕ} {r : InodeRef} {n m d k b : ℕ} {E : Panic → Prop} {c : Dev}
  {H : Held} {V V' : Vol} {ip ip' : Inode} {R : InodeRef → Option (ℕ × ℕ)} {Q : Unit → State → Prop}

section Blank

theorem load_zero (l a : ℕ) : load l (fun _ => 0) a = 0 := by
  rw [load]
  induction l generalizing a with
  | zero => rfl
  | succ l ih =>
    have h := ih (a + 1)
    simp only [leNat] at h ⊢
    simp [h]

theorem decode_zero (off : ℕ) : Dinode.decode (fun _ => 0) off = Dinode.fresh 0 := by
  simp only [Dinode.decode, Dinode.fresh, load_zero]
  rfl

theorem blank_inode (n : ℕ) : blank.vol.inode n = Dinode.fresh 0 := by
  change (if n < ninodes then dinodeOn (fun _ _ => 0) n else Dinode.fresh 0) = _
  split
  · exact decode_zero _
  · rfl

theorem blank_node (n : ℕ) : blank.node n = Inode.ofDinode n (Dinode.fresh 0) := by
  rw [node_of_not_holds fun r h => Nat.lt_irrefl 0 h.1, blank_inode]

theorem blank_refs : blank.refs = fun _ => none := rfl

theorem blank_used (b : ℕ) : blank.vol.used b = false := by
  change (if IsData b then bitSet (fun _ _ => 0) b else false) = false
  split
  · simp [bitSet]
  · rfl

theorem blank_free : blank.vol.free = fssize - datastart := by
  rw [Vol.free, Finset.filter_true_of_mem fun b _ => blank_used b, Nat.card_Ico]

theorem blank_mounted : Mounted blank.dev [] blank.vol :=
  ⟨_, ⟨rfl, rfl, fun _ => rfl, fun _ => rfl, fun _ _ h => absurd h not_mem_nil,
    fun _ h => absurd h Bool.false_ne_true, fun _ _ h => absurd h Bool.false_ne_true⟩, rfl⟩

theorem blank_stable : Stable blank where
  lock := rfl
  unlocked := fun _ => rfl
  mounted := blank_mounted
  uniq := fun r _ n k _ h => by simp [blank_refs] at h
  live := fun r n k h => by simp [blank_refs] at h
  intact := by
    intro n hn
    have h := intact_fresh blank.vol hn 0
    have hset : blank.vol.setInode n (Dinode.fresh 0) = blank.vol := by
      rw [Vol.setInode, ← blank_inode n, update_eq_self]
    rwa [hset, ← blank_node] at h
  apart := fun n m _ _ _ p q h => by
    rw [blank_node, addr_fresh] at h
    exact absurd rfl h

end Blank

/-- The superblock is not part of the volume. -/
theorem volume_write_super (disk : ℕ → Block) (x : Block) :
    volume (update disk 1 x) = volume disk := by
  have hne : ∀ j, j ≠ 1 → update disk 1 x j = disk j := fun j hj =>
    update_of_ne hj _ _
  have hinode : ∀ n, iblock n ≠ 1 := fun n h => by
    unfold iblock inodestart ipb at h
    omega
  have hbit : ∀ b, bblock b ≠ 1 := fun b h => by
    unfold bblock bmapstart bpb bsize at h
    omega
  simp only [volume, dinodeOn, bitSet, hne _ (hinode _), hne _ (hbit _), Vol.mk.injEq, true_and]
  funext b
  split
  · rename_i hb
    refine hne b fun h => ?_
    rw [h] at hb
    exact absurd hb (by decide)
  · rfl

theorem wp_writeSuperblock {Q : Unit → Dev → Prop} (hm : Mounted c [] V)
    (hQ : ∀ c', Mounted c' [] V → Q () c') : wp writeSuperblock E Q c := by
  obtain ⟨disk, hc, rfl⟩ := hm
  simp only [writeSuperblock, wp_bind, wp_expect]
  refine wp_bread hc (by decide) (by decide) fun i c1 h1 => ⟨fun bp hbp => ?_, fun h => by simp at h⟩
  obtain rfl := Option.some.inj hbp
  refine wp_writeBuf h1 (mem_singleton_self _) _ fun c2 h2 => ?_
  exact wp_brelse h2 fun c3 h3 => hQ c3 ⟨_, h3, volume_write_super disk _⟩

/-- The block map does not depend on the link count. -/
theorem Tends.relinked {v : ℤ} (hi : Intact V' ip') (hf : Frame V { ip with nlink := v } V' ip')
    (htyp : ip'.typ = ip.typ) (hused : V'.used = V.used)
    (hback : V'.inode ip.inum = ip'.toDinode) : Tends V ip V' ip' where
  intact := hi
  frame := ⟨hf.keep, hf.own, hf.inode, hf.inum⟩
  typ := htyp
  spent := by rw [Vol.free, Vol.free, hused]
  back := fun _ => hback

/-- The second entry of the root is written with a link count that is not yet
on disk. Its block is there, so it does not fail. -/
theorem wp_rootDotdot {Q : Bool × Inode → Dev → Prop} {v : ℤ} (hm : Mounted c H V)
    (hi : Intact V ip) (hH : H.length + 1 < nbuf) (htyp : ip.typ = tDir) (hn : n % 2 ^ 16 ≠ 0)
    (hv : -2 ^ 15 ≤ v ∧ v < 2 ^ 15) (hdot : V.content ip = (newDirent dotName n).encode)
    (hQ : ∀ c' V' ip', Mounted c' H V' → Tends V ip V' ip' → V'.used = V.used →
      ip'.nlink = v → V'.content ip' = emptyDir n d → Q (true, ip') c') :
    wp (dirlink { ip with nlink := v } dotdotName d) E Q c := by
  have hsize : ip.size = direntSize := by
    rw [← content_length V ip, hdot]
    exact Dirent.encode_length (direntName_length dotName)
  have ho : V.Owns { ip with nlink := v } := ⟨hi.owns.used, hi.owns.inj⟩
  have hd : V.Dense { ip with nlink := v } := ⟨hi.dense.size, hi.dense.mapped⟩
  have hcontent : V.content { ip with nlink := v } = (newDirent dotName n).encode :=
    (content_relink rfl).trans hdot
  have hfits := hi.info_fits hm
  have hlen : (newDirent dotdotName d).encode.length = direntSize :=
    Dirent.encode_length (direntName_length dotdotName)
  have hplace : freeIdx (V.content { ip with nlink := v }) * direntSize =
      ({ ip with nlink := v } : Inode).size := by
    rw [hcontent, (packed_dot hn).freeIdx_eq, ← hdot, content_length]
  refine wp_dirlink_scan hm ho hd (by omega) htyp (by rw [hsize]; rfl)
    (fun hfound => ?_) fun _ c1 h1 => ?_
  · rw [hcontent] at hfound
    refine absurd ((dirFind_none (packed_dot hn)).mpr ?_) hfound
    rw [entries_dot, map_singleton, mem_singleton]
    exact dots_ne.symm
  · rw [hplace]
    simp only [writeDirent, wp_bind]
    refine wp_writei_mapped h1 hi.inum ho hd ⟨hfits.typ, hfits.major, hfits.minor, hv⟩ hH
      (by rw [hlen]; decide) (le_refl _) (by rw [hlen, hsize]; decide) ?_ ?_
    · rw [hlen, hsize]
      refine Finset.eq_empty_of_forall_notMem fun p hp => ?_
      obtain ⟨⟨-, htouch⟩, hzero⟩ := Vol.mem_missing.mp hp
      refine hd.mapped p ?_ hzero
      unfold ndirect direntSize bsize at *
      change _ < ip.size
      rw [hsize]
      omega
    · intro c2 V2 ip2 h2 hi2 hf2 hused2 hback2 hip2 hcontent2
      rw [hlen, wp_pure]
      refine hQ c2 V2 ip2 h2 (Tends.relinked hi2 hf2 ?_ hused2 hback2) hused2 ?_ ?_
      · rw [hip2]
      · rw [hip2]
      · rw [hcontent2, hcontent]
        have hover := overwrite_end (newDirent dotName n).encode (newDirent dotdotName d).encode
        rw [Dirent.encode_length (direntName_length dotName), ← hsize] at hover
        exact hover

theorem wp_rootLinks {Q : Unit × Inode → Dev → Prop} (hm : Mounted c H V) (hi : Intact V ip)
    (hH : H.length + 1 < nbuf) (hnew : V.file ip = ⟨tDir, 0, []⟩) (hfree : 2 < V.free)
    (hQ : ∀ c' V' ip', Mounted c' H V' → Tends V ip V' ip' →
      V'.file ip' = ⟨tDir, 2, emptyDir rootino rootino⟩ → V.free ≤ V'.free + 2 →
      Q ((), ip') c') :
    wp (rootLinks ip) E Q c := by
  obtain ⟨htyp, hlink, hempty⟩ : ip.typ = tDir ∧ ip.nlink = 0 ∧ V.content ip = [] := by
    simpa [Vol.file] using hnew
  simp only [rootLinks, wp_bind]
  refine wp_dot hm hi hH htyp hempty fun c1 V1 ip1 ok h1 ht1 hlink1 hb1 hno1 hyes1 => ?_
  obtain rfl : ok = true := by
    cases ok with
    | true => rfl
    | false =>
      have h0 := (hno1 rfl).1
      omega
  have htyp1 : ip1.typ = tDir := by rw [ht1.typ, htyp]
  simp only [if_true]
  refine wp_rootDotdot h1 ht1.intact hH htyp1 (by decide) (by rw [hlink1, hlink]; decide)
    (hyes1 rfl) fun c2 V2 ip2 h2 ht2 hused2 hlink2 hcontent2 => ?_
  have ht12 := ht1.trans (used_ne_zero hm) ht2
  rw [hlink1, hlink] at hlink2
  simp only [if_true]
  refine wp_relink h2 ht2.intact (by omega) (by rw [hlink2]; decide)
    fun c3 V3 h3 hused3 hblock3 ht3 => ?_
  refine hQ c3 V3 _ h3 (ht12.trans (used_ne_zero hm) ht3) ?_ ?_
  · change (⟨ip2.typ, ip2.nlink + 1, V3.content { ip2 with nlink := ip2.nlink + 1 }⟩ : FileState) = _
    rw [content_relink hblock3, hcontent2, ht2.typ, htyp1, hlink2]
    rfl
  · have hfree3 : V3.free = V1.free := by rw [Vol.free, Vol.free, hused3, hused2]
    omega

/-- All embedded files are empty. -/
def Embedded.Empty (e : Embedded) : Prop :=
  (∀ name ∈ programNames, e.program name = []) ∧ e.readme = []

/-- A state on the way through `init`: all inodes in use are in the tree, of
which there are at most `k`, and at most `b` blocks are in use when the
embedded files are empty. -/
structure Booting (e : Embedded) (s : State) (N : Finset ℕ) (R : InodeRef → Option (ℕ × ℕ))
    (k b : ℕ) : Prop where
  tidy : Tidy s N
  used : ∀ n, n < ninodes → (s.file n).typ ≠ 0 → n ∈ N
  card : N.card ≤ k
  refs : s.refs = R
  free : e.Empty → fssize - datastart ≤ s.vol.free + b
  coherent : Coherent s

theorem blank_coherent : Coherent blank := by
  intro n _
  rw [blank_node, blank_inode]
  rfl

theorem blank_file (n : ℕ) : blank.file n = ⟨0, 0, []⟩ := by
  rw [State.file, blank_node]
  rfl

theorem quiet_super (hm : Mounted c [] blank.vol) : Quiet blank { blank with dev := c } := by
  refine blank_stable.same_nodes rfl (fun _ => rfl) hm blank_stable.uniq
    (fun r n k h => by simp [State.refs, blank, Slot.refs, Slot.empty] at h) fun n => ?_
  have hvol : ({ blank with dev := c } : State).vol = blank.vol := Mounted.vol_eq hm
  exact node_congr (by rw [hvol]) (fun r r' h => absurd h.1 (Nat.lt_irrefl 0)) (fun _ => Iff.rfl)
    fun _ _ => rfl

theorem wp_initRoot {Q : Option InodeRef → State → Prop} (hq : Quiet blank s)
    (hrefs : s.refs = fun _ => none)
    (hQ : ∀ (r : InodeRef) (t : State), Stable t →
      t.refs = update (fun _ => none) r (some (rootino, 1)) →
      (∀ m, m < ninodes → t.file m = if m = rootino then ⟨tDir, 0, []⟩ else ⟨0, 0, []⟩) →
      t.vol.free = fssize - datastart → Coherent t → Q (some r) t) :
    wp initRoot E Q s := by
  have hfits : (Dinode.fresh tDir).Fits := by
    constructor <;> decide
  have hfree : (s.vol.inode rootino).typ = 0 := by
    rw [hq.vol, blank_inode]
    rfl
  simp only [initRoot, wp_bind, onDev, wp_zoom]
  refine hq.stable.mounted.writeDinode (by decide) hfits (by decide) fun c2 h2 => ?_
  have ha := hq.stable.allocate (by decide : 1 ≤ rootino) (by decide) hfree h2
  generalize hs2 : ({ s with dev := c2 } : State) = s2 at ha
  have hrefs2 : s2.refs = fun _ => none := by
    rw [← hrefs, ← hs2]
    rfl
  have htyp : (s2.vol.inode rootino).typ ≠ 0 := by
    have hnew : s2.vol.inode rootino = Dinode.fresh tDir := by
      rw [ha.vol]
      exact update_self rootino _ s.vol.inode
    rw [hnew]
    decide
  refine wp_iget ha.stable (by decide) htyp (fun hfull _ => ?_) fun r t hq3 _ hr3 => ?_
  · exact absurd (by rw [hrefs2]) (hfull rootPlaceholder)
  · refine hQ r t hq3.stable ?_ (fun m hm => ?_) ?_
      (hq3.coherent (ha.coherent (hq.coherent blank_coherent)))
    · rw [hr3, hrefs2]
      rfl
    · rw [hq3.file m hm, ha.file m hm, hq.file m hm, blank_file]
    · rw [hq3.vol, ha.vol, ← blank_free, ← hq.vol]
      rfl

/-- The root with its two entries is a tree. -/
theorem Tidy.root_only (hs : Stable s) (hroot : s.file rootino = ⟨tDir, 2, emptyDir rootino rootino⟩)
    (hheld : ∀ r n k, s.refs r = some (n, k) → n = rootino) : Tidy s {rootino} where
  stable := hs
  tree := by
    apply Tree.root_only dots_ne
    · rw [State.graph, if_pos ⟨by decide, by rw [hroot]⟩, hroot]
      exact congrArg some (entries_emptyDir (by decide) rootino)
    · rw [hroot]
  packed := by
    intro n hn _
    rw [Finset.mem_singleton.mp hn, hroot]
    exact packed_emptyDir (by decide) (by decide)
  kind := by
    intro n hn
    rw [Finset.mem_singleton.mp hn, hroot]
    exact ⟨by decide, Or.inl rfl⟩
  held := fun r n k hr => Finset.mem_singleton.mpr (hheld r n k hr)

theorem wp_makeRoot {e : Embedded} (hs : Stable s)
    (hrefs : s.refs = update (fun _ => none) r (some (rootino, 1)))
    (hfile : ∀ m, m < ninodes → s.file m = if m = rootino then ⟨tDir, 0, []⟩ else ⟨0, 0, []⟩)
    (hfree : s.vol.free = fssize - datastart) (hcoh : Coherent s)
    (hQ : ∀ t, Booting e t {rootino} s.refs 1 2 →
      t.file rootino = ⟨tDir, 2, emptyDir rootino rootino⟩ → Q () t) :
    wp (withInode r rootLinks) E Q s := by
  have hr : s.refs r = some (rootino, 1) := by rw [hrefs, update_self]
  have hnew : s.file rootino = ⟨tDir, 0, []⟩ := by rw [hfile _ (by decide), if_pos rfl]
  refine wp_scope (b := 2) hs hr fun c hc => ?_
  refine wp_rootLinks hc (hs.intact _ (by decide)) (by decide) hnew (by rw [hfree]; decide)
    fun c' V' ip' h' ht hroot hb => ⟨V', h', ht, hb, fun t _ hch => ?_⟩
  rw [hroot] at hch
  have hself := hch.self (by decide)
  refine hQ t ⟨Tidy.root_only hch.stable hself fun r' n k hr' => ?_, fun n hn htyp => ?_, le_refl 1,
    hch.refs, fun _ => ?_, hch.coherent hcoh⟩ hself
  · rw [hch.refs, hrefs] at hr'
    by_cases hrr : r' = r
    · rw [hrr, update_self] at hr'
      exact (Prod.mk.inj (Option.some.inj hr')).1.symm
    · rw [update_of_ne hrr] at hr'
      exact absurd hr' (by simp)
  · by_contra hne
    have hn1 : n ≠ rootino := fun h => hne (Finset.mem_singleton.mpr h)
    rw [hch.other hn hn1, hfile n hn, if_neg hn1] at htyp
    exact htyp rfl
  · have := hch.budget
    omega

namespace Booting

variable {e : Embedded} {name : List UInt8} {f : FileState} {b' : ℕ}

theorem quiet (h : Booting e s N R k b) (hq : Quiet s t)
    (hheld : ∀ r n k, t.refs r = some (n, k) → n ∈ N) : Booting e t N t.refs k b where
  tidy := h.tidy.quiet hq hheld
  used := fun n hn htyp => h.used n hn (by rwa [← hq.file n hn])
  card := h.card
  refs := rfl
  free := fun he => by
    rw [hq.vol]
    exact h.free he
  coherent := hq.coherent h.coherent

theorem created {j : ℕ} (h : Booting e s N R k b) (hc : Created s N d n name f r b' t)
    (hb : e.Empty → b' ≤ j) :
    Booting e t (insert n N) t.refs (k + 1) (b + j) where
  tidy := hc.entered.tidy
  used := by
    intro m hm htyp
    by_cases hmn : m = n
    · exact Finset.mem_insert.mpr (Or.inl hmn)
    · refine Finset.mem_insert_of_mem ?_
      by_cases hmd : m = d
      · rw [hmd]
        exact hc.entered.parent
      · exact h.used m hm (by rwa [hc.file m hm hmn hmd] at htyp)
  card := (Finset.card_insert_le n N).trans (Nat.succ_le_succ h.card)
  refs := rfl
  free := fun he => by
    have h1 := h.free he
    have h2 := hc.budget
    have h3 := hb he
    omega
  coherent := hc.coherent h.coherent

theorem exists_free (h : Booting e s N R k b) (hk : k < ninodes - 1) :
    ¬ ∀ n, 0 < n → n < ninodes → (s.file n).typ ≠ 0 := by
  intro hall
  have hsub : Finset.Ico 1 ninodes ⊆ N := by
    intro n hn
    obtain ⟨h1, h2⟩ := Finset.mem_Ico.mp hn
    exact h.used n h2 (hall n h1 h2)
  have hcard := Finset.card_le_card hsub
  rw [Nat.card_Ico] at hcard
  have := h.card
  omega

end Booting

/-- Two slots are not all. -/
theorem exists_slot (a b : InodeRef) : ∃ r : InodeRef, r ≠ a ∧ r ≠ b :=
  Fin.exists_ne_and_ne_of_two_lt a b (by decide)

theorem Entered.find_eq {name name' : List UInt8} (h : Entered s N d n name t) (hm : m ∈ N) :
    t.find m name' =
      if m = d ∧ direntName name' = direntName name then some n else s.find m name' := by
  obtain ⟨es, hadds⟩ := h.adds
  exact hadds.find_eq hm

section Install

variable {e : Embedded} {dir : InodeRef} {name data : List UInt8} {j : ℕ}

/-- A file of the image. The creation fails only when the embedded files are
not all empty. -/
theorem wp_installFile (h : Booting e s N R k b) (hr : R dir = some (d, j))
    (hroom : ∃ r, R r = none) (hk : k < ninodes - 1) (hb : b + 2 < fssize - datastart)
    (hdir : (s.file d).typ = tDir) (hname : s.find d name = none) (hdata : e.Empty → data = [])
    (hE : ¬ e.Empty → E .populateRoot)
    (hQ : ∀ n t, Booting e t (insert n N) R (k + 1) (b + 6) → (t.file d).typ = tDir →
      t.file n = ⟨tFile, 1, data⟩ → (∀ m ∈ N, ∀ name', t.find m name' =
        if m = d ∧ direntName name' = direntName name then some n else s.find m name') → Q () t) :
    wp (installFile dir name data) E Q s := by
  have hr' : s.refs dir = some (d, j) := by rw [h.refs, hr]
  have hd := h.tidy.held dir d j hr'
  simp only [installFile, wp_bind, wp_expect]
  refine wp_createFile h.tidy hr' hname (fun t hwhy => ⟨fun r h => by simp at h, fun _ => hE ?_⟩)
    fun n r t hc => ⟨fun r' hrr => ?_, fun h => by simp at h⟩
  · intro he
    rcases hwhy with hall | hne | ⟨hblocked, hbudget⟩
    · exact h.exists_free hk hall
    · exact hne (hdata he)
    · rcases hblocked with hfull | hnd | hfree
      · obtain ⟨r, hr⟩ := hroom
        exact hfull r (by rw [h.refs, hr])
      · exact hnd hdir
      · have h1 := h.free he
        rw [hdata he] at hbudget
        change _ ≤ _ + (0 + 2) at hbudget
        omega
  · obtain rfl := Option.some.inj hrr
    have hb' := h.created (j := 6) hc fun he => by
      rw [hdata he]
      decide
    have hslot : t.refs r = some (n, 1) := by rw [hc.refs, update_self]
    refine wp_iput hc.entered.tidy.stable hslot fun u hq hrefs => ?_
    have hback : u.refs = R := by
      rw [hrefs, hslot, hc.refs, update_idem]
      change update s.refs r none = R
      rw [← hc.slot, update_eq_self, h.refs]
    have hbu := hb'.quiet hq fun r' m i hr' => by
      rw [hback, ← h.refs] at hr'
      exact Finset.mem_insert_of_mem (h.tidy.held r' m i hr')
    rw [hback] at hbu
    refine hQ n u hbu ?_ ?_ fun m hm name' => ?_
    · rw [hq.file d (h.tidy.lt hd), hc.parent]
    · rw [hq.file n hc.lt, hc.new]
    · rw [hq.find, hc.entered.find_eq hm]

/-- The programs of `/bin`. Other directories are not touched. -/
theorem wp_installAll (hr : R dir = some (d, j)) (hroom : ∃ r, R r = none)
    (hE : ¬ e.Empty → E .populateRoot) (names : List (List UInt8)) :
    ∀ (N : Finset ℕ) (k b : ℕ) (s : State), Booting e s N R k b →
      (∀ name ∈ names, name ∈ programNames) → (names.map direntName).Nodup →
      k + names.length < ninodes → b + 6 * names.length + 2 < fssize - datastart →
      (s.file d).typ = tDir → (∀ name ∈ names, s.find d name = none) →
      (∀ N' t, N ⊆ N' → Booting e t N' R (k + names.length) (b + 6 * names.length) →
        (∀ m ∈ N, m ≠ d → ∀ name, t.find m name = s.find m name) → Q () t) →
      wp (Prog.forEach names fun name => installFile dir name (e.program name)) E Q s := by
  induction names with
  | nil =>
    intro N k b s h _ _ _ _ _ _ hQ
    exact hQ N s (Finset.Subset.refl N) h fun _ _ _ _ => rfl
  | cons name rest ih =>
    intro N k b s h hsub hnodup hk hb hdir hfind hQ
    rw [length_cons] at hk hb
    rw [map_cons, nodup_cons] at hnodup
    have hd := h.tidy.held dir d j (by rw [h.refs, hr])
    simp only [Prog.forEach, wp_bind]
    refine wp_installFile h hr hroom (by omega) (by omega) hdir
      (hfind name mem_cons_self)
      (fun he => he.1 name (hsub name mem_cons_self)) hE fun n t ht hdir' _ hfind' => ?_
    refine ih (insert n N) (k + 1) (b + 6) t ht (fun name' h' => hsub name' (mem_cons_of_mem _ h'))
      hnodup.2 (by omega) (by omega) hdir' (fun name' h' => ?_) fun N' u hN' hu hkeep => ?_
    · have hne : ¬ (d = d ∧ direntName name' = direntName name) := fun h =>
        hnodup.1 (h.2 ▸ mem_map_of_mem h')
      rw [hfind' d hd, if_neg hne]
      exact hfind name' (mem_cons_of_mem _ h')
    · have h1 : k + 1 + rest.length = k + (rest.length + 1) := by omega
      have h2 : b + 6 + 6 * rest.length = b + 6 * (rest.length + 1) := by omega
      rw [h1, h2] at hu
      refine hQ N' u ((Finset.subset_insert n N).trans hN') hu fun m hm hne name' => ?_
      rw [hkeep m (Finset.mem_insert_of_mem hm) hne, hfind' m hm, if_neg fun h => hne h.1]

end Install

/-- A directory without children has no other names. -/
theorem find_emptyDir {l : ℤ} {name : List UInt8} (hn : n < ninodes) (h0 : 0 < n)
    (hf : s.file n = ⟨tDir, l, emptyDir n d⟩) (hdot : direntName name ≠ direntName dotName)
    (hdotdot : direntName name ≠ direntName dotdotName) : s.find n name = none := by
  have hmod : n % 2 ^ 16 ≠ 0 := by
    rw [inum_mod hn]
    exact h0.ne'
  have hgraph : s.graph n =
      some [⟨direntName dotName, n % 2 ^ 16⟩, ⟨direntName dotdotName, d % 2 ^ 16⟩] := by
    rw [State.graph, if_pos ⟨hn, by rw [hf]⟩, hf]
    exact congrArg some (entries_emptyDir hmod d)
  rw [State.find, DirTree.find, hgraph]
  simp [hdot.symm, hdotdot.symm]

theorem Tidy.root_typ (ht : Tidy s N) : (s.file rootino).typ = tDir := by
  by_contra hne
  refine ht.tree.root_dir ?_
  rw [State.graph, if_neg fun h => hne h.2]

/-- The names in the root after `init`. -/
def rootNames : List (List UInt8) :=
  [direntName dotName, direntName dotdotName, direntName binName, direntName readmeName]

/-- What `init` leaves, with references `R`: the root has the entries of the image. -/
structure Initial (e : Embedded) (s : State) (N : Finset ℕ) (R : InodeRef → Option (ℕ × ℕ)) :
    Prop where
  booting : Booting e s N R 14 80
  absent : ∀ name, direntName name ∉ rootNames → s.find rootino name = none
  readme : ∃ n ∈ N, s.find rootino readmeName = some n ∧ s.file n = ⟨tFile, 1, e.readme⟩

theorem programNames_nodup : (programNames.map direntName).Nodup := by decide

theorem programNames_ne : ∀ name ∈ programNames,
    direntName name ≠ direntName dotName ∧ direntName name ≠ direntName dotdotName := by decide

theorem Booting.wp_iput {e : Embedded} (h : Booting e s N R k b) (hr : R r = some (n, 1))
    (hQ : ∀ t, Quiet s t → Booting e t N (update R r none) k b → Q () t) :
    wp (iput r) E Q s := by
  have hr' : s.refs r = some (n, 1) := by rw [h.refs, hr]
  refine Fs.wp_iput h.tidy.stable hr' fun t hq hrefs => hQ t hq ?_
  have hnew : t.refs = update R r none := by
    rw [hrefs, hr', h.refs]
    rfl
  rw [← hnew]
  refine h.quiet hq fun r' m j hm => ?_
  rw [hnew] at hm
  by_cases hrr : r' = r
  · rw [hrr, update_self] at hm
    exact absurd hm (by simp)
  · rw [update_of_ne hrr, ← h.refs] at hm
    exact h.tidy.held r' m j hm

section Populate

variable {e : Embedded} {root bin : InodeRef}

/-- The references to the root and to `/bin` during `populate_root`. -/
def bootRefs (root bin : InodeRef) (n : ℕ) : InodeRef → Option (ℕ × ℕ) :=
  Function.update (Function.update (fun _ => none) root (some (rootino, 1))) bin (some (n, 1))

theorem bootRefs_room (root bin : InodeRef) (n : ℕ) : ∃ r, bootRefs root bin n r = none := by
  obtain ⟨r, hrb, hrr⟩ := exists_slot bin root
  exact ⟨r, by rw [bootRefs, update_of_ne hrb, update_of_ne hrr]⟩

theorem wp_makeBin {Q : Option InodeRef → State → Prop}
    (h : Booting e s {rootino} (update (fun _ => none) root (some (rootino, 1))) 1 2)
    (hroot : s.file rootino = ⟨tDir, 2, emptyDir rootino rootino⟩)
    (hno : ¬ e.Empty → ∀ t, Q none t)
    (hQ : ∀ n bin t, bin ≠ root → rootino ≠ n → 0 < n → n < ninodes →
      Booting e t (insert n {rootino}) (bootRefs root bin n) 2 8 →
      t.file n = ⟨tDir, 2, emptyDir n rootino⟩ →
      (∀ name, direntName name ∉ [direntName dotName, direntName dotdotName, direntName binName] →
        t.find rootino name = none) → Q (some bin) t) :
    wp (mkdirChild root binName) E Q s := by
  have hr : s.refs root = some (rootino, 1) := by rw [h.refs, update_self]
  have habsent : ∀ name, direntName name ≠ direntName dotName →
      direntName name ≠ direntName dotdotName → s.find rootino name = none := fun name =>
    find_emptyDir (by decide) (by decide) hroot
  refine wp_mkdirChild h.tidy hr (habsent binName (by decide) (by decide))
    (fun hall => absurd hall (h.exists_free (by decide)))
    (fun n t hl _ hb => hno (fun he => ?_) t) fun n bin t hc => ?_
  · rcases hb with hbusy | hnd | h0
    · obtain ⟨r, hr, -⟩ := exists_slot root root
      exact hbusy r (by rw [h.refs, update_of_ne hr])
    · exact hnd (by rw [hroot])
    · have h1 := h.free he
      have h2 := hl.budget
      have h3 : fssize - datastart = 1984 := by decide
      omega
  · have ht := h.created hc fun _ => le_refl 6
    have hrefs : t.refs = bootRefs root bin n := by rw [hc.refs, h.refs, bootRefs]
    rw [hrefs] at ht
    have hne : bin ≠ root := fun heq => by
      have hslot := hc.slot
      rw [heq, hr] at hslot
      exact absurd hslot (by simp)
    have hpos : 0 < n := ht.tidy.pos (Finset.mem_insert_self _ _)
    have hn1 : rootino ≠ n := fun heq => hc.entered.fresh (Finset.mem_singleton.mpr heq.symm)
    refine hQ n bin t hne hn1 hpos hc.lt ht hc.new fun name hname => ?_
    simp only [mem_cons, not_mem_nil, or_false, not_or] at hname
    rw [hc.entered.find_eq (Finset.mem_singleton_self _), if_neg fun heq => hname.2.2 heq.2]
    exact habsent name hname.1 hname.2.1

theorem wp_populate (hne : bin ≠ root) (hn1 : rootino ≠ n) (hpos : 0 < n) (hn : n < ninodes)
    (h : Booting e s (insert n {rootino}) (bootRefs root bin n) 2 8)
    (hbin : s.file n = ⟨tDir, 2, emptyDir n rootino⟩)
    (habsent : ∀ name, direntName name ∉ [direntName dotName, direntName dotdotName,
      direntName binName] → s.find rootino name = none) (hE : ¬ e.Empty → E .populateRoot)
    (hQ : ∀ N t, Initial e t N (fun _ => none) → Q () t) :
    wp (do
      Prog.forEach programNames fun name => installFile bin name (e.program name)
      installFile root readmeName e.readme
      iput bin
      iput root) E Q s := by
  have hrbin : bootRefs root bin n bin = some (n, 1) := update_self _ _ _
  have hrroot : bootRefs root bin n root = some (rootino, 1) := by
    rw [bootRefs, update_of_ne hne.symm, update_self]
  have hroom := bootRefs_room root bin n
  have hmem : rootino ∈ insert n ({rootino} : Finset ℕ) :=
    Finset.mem_insert_of_mem (Finset.mem_singleton_self _)
  simp only [wp_bind]
  refine wp_installAll hrbin hroom hE programNames _ 2 8 s h (fun _ h => h) programNames_nodup
    (by decide) (by decide) (by rw [hbin])
    (fun name h => find_emptyDir hn hpos hbin (programNames_ne name h).1
      (programNames_ne name h).2) fun N2 s2 hN2 h2 hkeep => ?_
  have hfind2 : ∀ name, direntName name ∉ [direntName dotName, direntName dotdotName,
      direntName binName] → s2.find rootino name = none := fun name hname => by
    rw [hkeep rootino hmem hn1]
    exact habsent name hname
  refine wp_installFile h2 hrroot hroom (by decide) (by decide) h2.tidy.root_typ
    (hfind2 readmeName (by decide)) (fun he => he.2) hE fun m s3 h3 _ hnew3 hfind3 => ?_
  refine h3.wp_iput hrbin fun s4 hq4 h4 => ?_
  have hr4 : update (bootRefs root bin n) bin none root = some (rootino, 1) := by
    rw [update_of_ne hne.symm, hrroot]
  refine h4.wp_iput hr4 fun s5 hq5 h5 => hQ (insert m N2) s5 ⟨?_, fun name hname => ?_, ?_⟩
  · have hrefs : update (update (bootRefs root bin n) bin none) root none =
        fun _ => none := by
      funext r
      simp only [bootRefs, update_apply]
      split
      · rfl
      · split
        · rfl
        · rfl
    rw [hrefs] at h5
    exact h5
  · simp only [rootNames, mem_cons, not_mem_nil, or_false, not_or] at hname
    rw [hq5.find, hq4.find, hfind3 rootino (hN2 hmem), if_neg fun heq => hname.2.2.2 heq.2]
    exact hfind2 name (by simp [hname])
  · have hm := Finset.mem_insert_self m N2
    refine ⟨m, hm, ?_, ?_⟩
    · rw [hq5.find, hq4.find, hfind3 rootino (hN2 hmem), if_pos ⟨rfl, rfl⟩]
    · rw [hq5.file m (h3.tidy.lt hm), hq4.file m (h3.tidy.lt hm), hnew3]

end Populate

/-- `init` makes the tree, or panics when the embedded files do not fit. -/
theorem wp_init {e : Embedded} (hE : ¬ e.Empty → E .populateRoot)
    (hQ : ∀ N t, Initial e t N (fun _ => none) → Q () t) : wp (init e) E Q s := by
  simp only [init, populateRoot]
  rw [wp_bind, wp_modify, wp_bind, onDev, wp_zoom]
  refine wp_writeSuperblock blank_mounted fun c1 h1 => ?_
  rw [wp_bind]
  refine wp_initRoot (quiet_super h1) rfl fun root s2 hs2 hrefs2 hfile2 hfree2 hcoh2 => ?_
  rw [wp_bind, wp_expect]
  refine ⟨fun r hr => ?_, fun h => by simp at h⟩
  obtain rfl := Option.some.inj hr
  rw [wp_bind]
  refine wp_makeRoot (e := e) hs2 hrefs2 hfile2 hfree2 hcoh2 fun s3 h3 hroot3 => ?_
  rw [hrefs2] at h3
  rw [wp_bind]
  refine wp_makeBin h3 hroot3 (fun he t => ?_) fun n bin s4 hne hn1 hpos hn h4 hbin habsent => ?_
  · rw [wp_bind, wp_expect]
    exact ⟨fun r h => by simp at h, fun _ => hE he⟩
  · rw [wp_bind, wp_expect]
    refine ⟨fun r hr => ?_, fun h => by simp at h⟩
    obtain rfl := Option.some.inj hr
    exact wp_populate hne hn1 hpos hn h4 hbin habsent hE hQ

theorem Initial.quiet {e : Embedded} (h : Initial e s N R) (hq : Quiet s t)
    (hheld : ∀ r n k, t.refs r = some (n, k) → n ∈ N) : Initial e t N t.refs where
  booting := h.booting.quiet hq hheld
  absent := fun name hname => by rw [hq.find, h.absent name hname]
  readme := by
    obtain ⟨n, hn, hfind, hfile⟩ := h.readme
    exact ⟨n, hn, by rw [hq.find, hfind], by rw [hq.file n (h.booting.tidy.lt hn), hfile]⟩

end ToyOs.Fs
