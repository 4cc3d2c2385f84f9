import ToyOs.Fs.FullDisk
import ToyOs.Fs.InodeTable
import ToyOs.Fs.Invariants

/-!
The promise of the callers not to write to directories is needed. `fs.rs` does
not check it, and a forged entry can name a number beyond the inode table:
the block that this number falls into is then taken for a block of inodes,
and what a file holds for the addresses of one.
-/
namespace ToyOs.Fs

open Bytes Prog Function

variable {s : State} {r cwd : InodeRef} {n b : ℕ} {E : Panic → Prop} {V : Vol} {ip : Inode}

/-- The front of an inode on disk whose first address is the superblock. -/
def fakeDinode : List UInt8 := List.replicate 12 0 ++ [1, 0, 0, 0]

/-- The number whose inode is the front of block `b`. -/
def inumAt (b : ℕ) : ℕ := (b - inodestart) * ipb

theorem inumAt_spec (hb : IsData b) :
    iblock (inumAt b) = b ∧ inumAt b % ipb = 0 ∧ ninodes ≤ inumAt b ∧ inumAt b < 2 ^ 16 := by
  obtain ⟨h1, h2⟩ := hb
  unfold iblock inumAt inodestart ipb ninodes datastart fssize at *
  omega

def forgedName : List UInt8 := [0x78]

def forgedEntry (b : ℕ) : Dirent := ⟨inumAt b, direntName forgedName⟩

theorem forgedEntry_length (b : ℕ) : (forgedEntry b).encode.length = direntSize :=
  Dirent.encode_length (direntName_length forgedName)

theorem dirFind_forged (hb : IsData b) (data : List UInt8) :
    dirFind (overwrite data 0 (forgedEntry b).encode) forgedName = some (inumAt b) := by
  obtain ⟨-, -, hpos, hlt⟩ := inumAt_spec hb
  have hlen := forgedEntry_length b
  have hdata : overwrite data 0 (forgedEntry b).encode =
      (forgedEntry b).encode ++ data.drop direntSize := by
    simp [overwrite, hlen]
  have hne : inumAt b ≠ 0 := by
    have : 0 < ninodes := by decide
    omega
  rw [dirFind, hdata, dirents_append_whole (by rw [hlen]; decide), dirents_single hlen,
    Dirent.decode_encode hlt (direntName_length forgedName)]
  simp [forgedEntry, nameEq, hne]

/-- The first address of the inode that the number stands for. -/
theorem forged_addr {d : ℕ → Block} (hd : volume d = V) (hb : IsData b) (haddr : V.addr ip 0 = b)
    (hfake : V.content ip = fakeDinode) : (dinodeOn d (inumAt b)).addrs 0 = 1 := by
  obtain ⟨hblock, hoff, -⟩ := inumAt_spec hb
  have hbyte : ∀ x, x < 16 → d b x = fakeDinode.getD x 0 := by
    intro x hx
    have hlen : x < (V.content ip).length := by
      rw [hfake]
      exact hx
    have hzero : x / bsize = 0 := Nat.div_eq_of_lt (lt_trans hx (by decide))
    have hmod : x % bsize = x := Nat.mod_eq_of_lt (lt_trans hx (by decide))
    rw [← hfake, List.getD_eq_getElem?_getD, List.getElem?_eq_getElem hlen, Option.getD_some]
    refine Eq.trans ?_ (read_getElem (V.byte ip) 0 ip.size x hlen).symm
    rw [Nat.zero_add, Vol.byte, hzero, hmod, haddr, if_pos ⟨by decide, hb.pos⟩, ← hd]
    simp only [volume, if_pos hb]
  change load 4 (d (iblock (inumAt b))) (inumAt b % ipb * dinodeSize + 12 + 0) = 1
  rw [hblock, hoff, load_congr 4 (d b) (fun x => fakeDinode.getD x 0) _ fun x _ h => hbyte x (by omega)]
  decide

/-- The fake inode is the front of block `b`, and an entry of the root leads there. -/
structure Forged (s : State) (cwd : InodeRef) (b : ℕ) : Prop where
  stable : Stable s
  cwd : s.refs cwd = some (rootino, 1)
  free : ∃ r, s.refs r = none
  dir : (s.node rootino).typ = tDir
  whole : (s.file rootino).data.length % direntSize = 0
  find : dirFind (s.file rootino).data forgedName = some (inumAt b)
  isData : IsData b
  fake : ∃ ip, s.vol.addr ip 0 = b ∧ s.vol.content ip = fakeDinode

/-- A slot that `ilock` will fill with inode `n`. -/
structure Unread (s : State) (r : InodeRef) (n : ℕ) : Prop where
  unlocked : (s.icache r).locked = false
  valid : (s.icache r).valid = false
  inum : (s.icache r).ip.inum = n

theorem Forged.wp_namei {Q : Option InodeRef → State → Prop} (h : Forged s cwd b)
    (hQ : ∀ r t, Mounted t.dev [] s.vol → Unread t r (inumAt b) → Q (some r) t) :
    wp (namei cwd forgedName) E Q s := by
  have hskip : skipelem forgedName = some (forgedName, []) := by decide
  have hrefs : ∀ {t : State} {j}, t.refs = update s.refs cwd (some (rootino, j)) →
      t.refs cwd = some (rootino, j) := fun heq => by rw [heq, update_self]
  rw [namei, if_neg (by decide), wp_bind, startRef, if_neg (by decide), wp_bind]
  refine wp_idup h.stable h.cwd fun t₁ hq₁ hrefs₁ => ?_
  have hdir₁ : (t₁.node rootino).typ = tDir :=
    (congrArg FileState.typ (hq₁.file rootino (by decide))).trans h.dir
  have hdata₁ : t₁.vol.content (t₁.node rootino) = (s.file rootino).data :=
    congrArg FileState.data (hq₁.file rootino (by decide))
  have hi := hq₁.stable.intact rootino (by decide)
  simp only [wp_pure, nameiLoop, hskip, step, wp_bind]
  refine wp_peek hq₁.stable (hrefs hrefs₁) fun c hc => ?_
  rw [if_neg (not_not.mpr hdir₁)]
  refine wp_dirlookup hc hi.owns hi.dense (by decide) (fun _ => ?_)
    fun c' hc' => ⟨hc', fun t₂ hq₂ hrefs₂ => ?_⟩
  · rw [← content_length t₁.vol, hdata₁, h.whole]
  rw [if_pos hdir₁, hdata₁, h.find]
  rw [← hrefs₂] at hrefs₁
  simp only [wp_bind]
  refine wp_iget_slot hq₂.stable (fun hfull _ => ?_) (fun r hr _ => ?_) fun r j hr => ?_
  · obtain ⟨x, hx⟩ := h.free
    have hne : x ≠ cwd := by
      rintro rfl
      rw [h.cwd] at hx
      cases hx
    exact absurd (by rw [hrefs₁, update_of_ne hne, hx]) (hfull x)
  · have hne : cwd ≠ r := by
      rintro rfl
      rw [hrefs hrefs₁] at hr
      cases hr
    obtain ⟨-, hcnt, -⟩ := refs_some.mp (hrefs hrefs₁)
    have hunused : ¬ 0 < (t₂.icache r).refcnt := by
      rw [refs_none.mp hr]
      exact Nat.lt_irrefl 0
    simp only [wp_bind]
    refine wp_iput_slot hq₂.stable.lock ?_ ?_ ?_
    · rw [setSlot_icache_ne _ _ hne, hq₂.stable.unlocked]
    · rw [setSlot_icache_ne _ _ hne, hcnt]
      decide
    refine hQ r _ ((hq₂.vol.trans hq₁.vol) ▸ hq₂.stable.mounted) ?_
    constructor
    all_goals rw [setSlot_icache_ne _ _ hne.symm, setSlot_icache_same, Slot.claim, if_neg hunused]
    exact hq₂.stable.unlocked r
  · exact absurd (hq₂.stable.live r _ j hr).1 (Nat.not_lt.mpr (inumAt_spec h.isData).2.2.1)

/-- Truncation of the inode frees its first address. -/
theorem wp_trunc_forged {Q : Unit → State → Prop} {d : ℕ → Block} (hc : Cached s.dev [] d)
    (hb : iblock n < fssize) (h : Unread s r n) (haddr : (dinodeOn d n).addrs 0 = 1) :
    wp (trunc r) (fun e => e = .bfreeInvalid) Q s := by
  simp only [trunc, withInode, ilock, wp_bind]
  refine wp_lockSlot h.unlocked ?_
  simp only [h.valid, h.inum, Bool.not_false, if_true, wp_bind, onDev, wp_zoom]
  refine wp_mono (wp_readDinode hc hb) (fun e he => absurd (hc.served (by decide) _) he.2) ?_
  rintro y c ⟨rfl, -⟩
  obtain ⟨rest, hrest⟩ : ∃ rest, directSlots = 0 :: rest := ⟨_, rfl⟩
  have hone : (Inode.ofDinode n (dinodeOn d n)).addrs 0 = 1 := haddr
  simp only [modifySlot, wp_modify, wp_pure, itrunc, hrest, itruncDirect, hone, ne_eq, one_ne_zero,
    not_false_eq_true, if_true, bfree, wp_bind, wp_assert]
  exact ⟨fun h => absurd h (by decide), fun _ => trivial⟩

/-- The entry can be written to the root of a state with such a file. -/
theorem exists_forged : ∃ s t cwd b, Reachable s ∧ s.refs cwd = some (rootino, 1) ∧
    writei cwd 0 (forgedEntry b).encode s = .ok (some direntSize, t) ∧ Forged t cwd b := by
  have hlen : fakeDinode.length ≤ maxfile * bsize := by decide
  obtain ⟨s, f, cwd, n, hreach, hleft, hroot, hdata, hf, hcwd, hfree⟩ := exists_file hlen
  obtain ⟨N, ht⟩ := hreach.tidy
  have hs := ht.stable
  have hn := (hs.live f n 1 hf).1
  -- the block of the file
  obtain ⟨b, haddr⟩ : ∃ b, s.vol.addr (s.node n) 0 = b := ⟨_, rfl⟩
  have hsize : (s.node n).size = fakeDinode.length := by
    rw [← hdata]
    exact (content_length s.vol (s.node n)).symm
  have hmapped : s.vol.addr (s.node n) 0 ≠ 0 :=
    (hs.intact n hn).dense.mapped 0 (by rw [hsize]; decide)
  have hb : IsData b := haddr ▸ hs.mounted.isData ((hs.intact n hn).owns.used 0 hmapped)
  -- the write has the space that it needs
  have hlong := forgedEntry_length b
  have hsrc : (forgedEntry b).encode ≠ [] := List.ne_nil_of_length_pos (by rw [hlong]; decide)
  have hwrite : wp (writei cwd 0 (forgedEntry b).encode) (fun _ => False)
      (fun v t => v = some direntSize ∧ Wrote s rootino 0 (forgedEntry b).encode direntSize t) s := by
    refine wp_writei hs hcwd (fun hbig => absurd hbig (by decide)) fun l t _ hw => ?_
    have hpos : 0 < l := (hw.charged hsrc (by rw [hlong]; decide)).some.mpr
      ((s.vol.card_missing_le _ _ _).trans hleft)
    have hfirst := hw.written.first
    have hle := hw.written.le
    rw [hlong] at hfirst hle
    obtain rfl : l = direntSize := le_antisymm hle ((hfirst.resolve_left hpos.ne').trans' (by decide))
    exact ⟨rfl, hw⟩
  obtain ⟨_, t, hrun, rfl, hw⟩ := exists_ok hwrite
  have hcontent : (t.file rootino).data = overwrite (s.file rootino).data 0 (forgedEntry b).encode := by
    rcases hw.written.content with h | ⟨h, -⟩
    · rwa [← hlong, List.take_length] at h
    · exact absurd h (by decide)
  refine ⟨s, t, cwd, b, hreach, hcwd, hrun, hw.stable, by rw [hw.refs, hcwd],
    by rw [hw.refs]; exact hfree, ?_, ?_, by rw [hcontent, dirFind_forged hb], hb, t.node n, ?_, ?_⟩
  · rw [hw.written.info]
    exact ht.root_typ
  · have hold := (ht.packed rootino ht.tree.root_mem ht.root_typ).whole
    rw [hcontent, overwrite_length, hlong]
    unfold direntSize at *
    omega
  · rw [hw.node n hroot, ← haddr, Vol.addr, Vol.addr, dif_pos (by decide), dif_pos (by decide)]
  · exact (congrArg FileState.data (hw.file n hn hroot)).trans hdata

/-- A run that writes to the root directory and ends in `bfree: invalid block`. -/
theorem forged_entry_panics : ∃ s t u cwd r b, Reachable s ∧ s.refs cwd = some (rootino, 1) ∧
    writei cwd 0 (forgedEntry b).encode s = .ok (some direntSize, t) ∧
    namei cwd forgedName t = .ok (some r, u) ∧ trunc r u = .error .bfreeInvalid := by
  obtain ⟨s, t, cwd, b, hreach, hcwd, hwrite, h⟩ := exists_forged
  have hwp : wp (namei cwd forgedName) (fun _ => False) (fun v u => ∃ r, v = some r ∧
      Mounted u.dev [] t.vol ∧ Unread u r (inumAt b)) t :=
    h.wp_namei fun r u hm hu => ⟨r, rfl, hm, hu⟩
  obtain ⟨_, u, hnamei, r, rfl, ⟨d, hc, hd⟩, hu⟩ := exists_ok hwp
  obtain ⟨ip, haddr, hfake⟩ := h.fake
  have hbound : iblock (inumAt b) < fssize := by
    rw [(inumAt_spec h.isData).1]
    exact h.isData.lt
  have htrunc : wp (trunc r) (fun e => e = .bfreeInvalid) (fun _ _ => False) u :=
    wp_trunc_forged hc hbound hu (forged_addr hd h.isData haddr hfake)
  refine ⟨s, t, u, cwd, r, b, hreach, hcwd, hwrite, hnamei, ?_⟩
  cases hrun : trunc r u with
  | ok v => exact absurd (wp_ok htrunc hrun) id
  | error e => rw [wp_error htrunc hrun]

end ToyOs.Fs
