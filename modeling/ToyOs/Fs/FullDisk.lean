import ToyOs.Fs.Coherence
import ToyOs.Fs.CreateSpec

/-!
A run that fills the disk. Seven files of the largest size leave a few blocks
free, fewer than the gap of an eighth such file needs. The write to the eighth
file takes all of them and returns 0: the blocks stay allocated, and the
cached inode has addresses that the disk does not have.
-/
namespace ToyOs.Fs

open Bytes Prog Function Finset Nat

variable {s t : State} {N S : Finset ℕ} {r cwd : InodeRef} {n k b l : ℕ}
  {R : InodeRef → Option (ℕ × ℕ)} {f : FileState}

/-- Files of the largest size occupy as many blocks as they have positions. -/
theorem Stable.free_le (hs : Stable s)
    (hS : ∀ n ∈ S, n < ninodes ∧ (s.file n).data.length = maxfile * bsize) :
    s.vol.free + S.card * maxfile ≤ fssize - datastart := by
  have hmap : ∀ n ∈ S, ∀ p, p < maxfile → s.vol.addr (s.node n) p ≠ 0 := by
    intro n hn p hp
    obtain ⟨hlt, hlen⟩ := hS n hn
    have hsize : (s.node n).size = maxfile * bsize := (content_length _ _).symm.trans hlen
    refine (hs.intact n hlt).dense.mapped p ?_
    rw [hsize]
    exact mul_lt_mul_of_pos_right hp (by decide)
  have hcard : (S ×ˢ Finset.range maxfile).card ≤
      ((Finset.Ico datastart fssize).filter fun b => ¬ s.vol.used b = false).card := by
    apply card_le_card_of_injOn fun x => s.vol.addr (s.node x.1) x.2
    · rintro ⟨n, p⟩ hx
      obtain ⟨hn, hp⟩ := mem_product.mp hx
      have hused := (hs.intact n (hS n hn).1).owns.used p (hmap n hn p (mem_range.mp hp))
      have hdata := hs.mounted.isData hused
      exact mem_filter.mpr ⟨mem_Ico.mpr hdata, by simpa using hused⟩
    · rintro ⟨n, p⟩ hx ⟨m, q⟩ hy heq
      obtain ⟨hn, hp⟩ := mem_product.mp hx
      obtain ⟨hm, hq⟩ := mem_product.mp hy
      have hne := hmap n hn p (mem_range.mp hp)
      by_cases hnm : n = m
      · subst hnm
        exact congrArg _ ((hs.intact n (hS n hn).1).owns.inj p q hne heq)
      · exact absurd heq (hs.apart n m (hS n hn).1 (hS m hm).1 hnm p q hne)
  have hsplit := card_filter_add_card_filter_not (s := Finset.Ico datastart fssize)
    (fun b => s.vol.used b = false)
  rw [card_Ico] at hsplit
  rw [card_product, card_range] at hcard
  rw [Vol.free]
  omega

theorem Vol.card_missing_le (V : Vol) (ip : Inode) (a b : ℕ) :
    (V.missing ip a b).card ≤ maxfile + 1 :=
  (card_filter_le _ _).trans (card_range _).le

/-- The offset of the last byte that a file may have. -/
def lastByte : ℕ := maxfile * bsize - 1

theorem Booting.wrote {e : Embedded} (h : Booting e s N R k b) (hn : n ∈ N)
    (hdir : (s.file n).typ ≠ tDir) (hw : Wrote s n lastByte [0] l t) (hl : 0 < l) :
    Booting e t N t.refs k (b + (maxfile + 1)) := by
  have hlt := h.tidy.lt hn
  have hch := hw.charged (by simp) (by decide)
  have hinfo := hw.written.info
  have hone : l = [(0 : UInt8)].length := le_antisymm hw.written.le hl
  refine ⟨hw.tidy h.tidy hn hdir, fun m hm htyp => ?_, h.card, rfl, fun he => ?_, ?_⟩
  · by_cases hmn : m = n
    · rw [hmn]
      exact hn
    · exact h.used m hm (by rwa [hw.file m hm hmn] at htyp)
  · have h1 := h.free he
    have h2 := hch.paid hone
    have h3 := s.vol.card_missing_le (s.node n) (min (s.node n).size lastByte)
      (lastByte + [(0 : UInt8)].length)
    omega
  · rw [hw.coherent_iff_back hlt h.coherent]
    have hback := hch.back hl
    rwa [node_inum] at hback

theorem Wrote.largest (hw : Wrote s n lastByte [0] l t) (hl : 0 < l)
    (hsmall : (s.file n).data = []) : (t.file n).data.length = maxfile * bsize := by
  have hone : l = 1 := le_antisymm hw.written.le hl
  have hcontent : (t.file n).data = overwrite (s.file n).data lastByte [0] := by
    rcases hw.written.content with h | ⟨h, -⟩
    · rw [hone] at h
      exact h
    · omega
  rw [hcontent, hsmall, overwrite_length]
  rfl

/-- The names of the files. -/
def fillName (i : ℕ) : List UInt8 := [UInt8.ofNat (0x61 + i)]

theorem fillName_path : ∀ k, k < 8 →
    components (fillName k) = [fillName k] ∧ (fillName k).head? ≠ some slash := by decide

theorem fillName_absent : ∀ k, k < 8 → direntName (fillName k) ∉ rootNames := by decide

theorem fillName_ne : ∀ k, k < 8 → ∀ i, i < 8 → k ≠ i →
    direntName (fillName i) ≠ direntName (fillName k) := by decide

/-- A state with `k` files of the largest size. -/
structure Filled (s : State) (N S : Finset ℕ) (cwd : InodeRef) (k : ℕ) : Prop where
  reach : Reachable s
  boot : Booting emptyImage s N (Function.update (fun _ => none) cwd (some (rootino, 1))) (14 + k)
    (80 + 271 * k)
  sub : S ⊆ N
  card : S.card = k
  full : ∀ n ∈ S, (s.file n).data.length = maxfile * bsize
  absent : ∀ i, k ≤ i → i < 8 → s.find rootino (fillName i) = none

theorem Filled.free_ge (h : Filled s N S cwd k) : 1904 ≤ s.vol.free + 271 * k := by
  have hfree := h.boot.free emptyImage_empty
  have hblocks : fssize - datastart = 1984 := by decide
  omega

theorem Filled.root_not_mem (h : Filled s N S cwd k) : rootino ∉ S := by
  intro hroot
  have hlt := h.boot.tidy.size_lt h.boot.tidy.tree.root_mem h.boot.tidy.root_typ
  rw [h.full rootino hroot] at hlt
  exact absurd hlt (by decide)

/-- An empty file `n` was made under the next name. -/
structure Made (s : State) (N : Finset ℕ) (k n : ℕ) (r : InodeRef) (t : State) : Prop where
  reach : Reachable t
  created : Created s N rootino n (fillName k) ⟨tFile, 1, []⟩ r 2 t
  boot : Booting emptyImage t (insert n N) t.refs (14 + k + 1) (80 + 271 * k + 2)

theorem Filled.exists_made (h : Filled s N S cwd k) (hk : k < 8) : ∃ n r t, Made s N k n r t := by
  have hcwd : s.refs cwd = some (rootino, 1) := by rw [h.boot.refs, update_self]
  have hfree := h.free_ge
  obtain ⟨x, hx, -⟩ := exists_slot cwd cwd
  have hname := fillName_path k hk
  have hwp : wp (create cwd (fillName k)) (fun _ => False) (fun v t => ∃ n r, v = some r ∧
      Created s N rootino n (fillName k) ⟨tFile, 1, []⟩ r 2 t) s :=
    wp_create_fresh h.boot.tidy hcwd hname.1 hname.2 h.boot.tidy.root_typ (h.absent k (le_refl k) hk)
      (h.boot.exists_free (by unfold ninodes; omega))
      ⟨x, by rw [h.boot.refs, update_of_ne hx]⟩ (by omega) fun n r t hc => ⟨n, r, rfl, hc⟩
  obtain ⟨v, t, hrun, n, r, rfl, hc⟩ := exists_ok hwp
  have hallowed : Op.Allowed s (.create cwd (fillName k)) := by
    change s.refs cwd ≠ none
    rw [hcwd]
    simp
  have hop : Op.run (.create cwd (fillName k)) s = .ok (.ref (some r), t) := bind_ok hrun
  exact ⟨n, r, t, .step h.reach hallowed hop, hc, h.boot.created hc fun _ => le_refl 2⟩

namespace Made

variable (h : Made s N k n r t)
include h

theorem ref : t.refs r = some (n, 1) := by rw [h.created.refs, update_self]

theorem typ : (t.file n).typ ≠ tDir := by
  rw [h.created.new]
  decide

theorem data : (t.file n).data = [] := by rw [h.created.new]

theorem free_ge : 1902 ≤ t.vol.free + 271 * k := by
  have hfree := h.boot.free emptyImage_empty
  have hblocks : fssize - datastart = 1984 := by decide
  omega

theorem ne_root (hroot : rootino ∈ N) : n ≠ rootino := fun heq => h.created.entered.fresh (heq ▸ hroot)

/-- Something is written to the file. -/
theorem exists_write {off : ℕ} (hoff : off < 2 ^ 32) (src : List UInt8) : ∃ l u,
    Op.Allowed t (.writei r off src) ∧ Op.run (.writei r off src) t = .ok (.count (some l), u) ∧
      Reachable u ∧ Wrote t n off src l u := by
  have hwp : wp (writei r off src) (fun _ => False)
      (fun v u => ∃ l, v = some l ∧ Wrote t n off src l u) t :=
    wp_writei h.boot.tidy.stable h.ref (fun hbig => absurd hoff (not_lt.mpr hbig))
      fun l u _ hw => ⟨l, rfl, hw⟩
  obtain ⟨_, u, hrun, l, rfl, hw⟩ := exists_ok hwp
  have hallowed : Op.Allowed t (.writei r off src) := ⟨n, 1, h.ref, h.typ⟩
  have hop : Op.run (.writei r off src) t = .ok (.count (some l), u) := bind_ok hrun
  exact ⟨l, u, hallowed, hop, .step h.reach hallowed hop, hw⟩

end Made

/-- The files made so far stay as they are when another file changes. -/
theorem Filled.other (h : Filled s N S cwd k) (hc : Created s N rootino n (fillName k) f r b t) :
    (∀ m ∈ S, m ≠ n ∧ t.file m = s.file m) ∧
      ∀ i, k + 1 ≤ i → i < 8 → t.find rootino (fillName i) = none := by
  have hroot := h.boot.tidy.tree.root_mem
  constructor
  · intro m hm
    have hmn : m ≠ n := fun heq => hc.entered.fresh (heq ▸ h.sub hm)
    have hmr : m ≠ rootino := fun heq => h.root_not_mem (heq ▸ hm)
    exact ⟨hmn, hc.file m (h.boot.tidy.lt (h.sub hm)) hmn hmr⟩
  · intro i hki hi
    rw [hc.entered.find_eq hroot, if_neg, h.absent i (by omega) hi]
    exact fun heq => fillName_ne k (by omega) i hi (by omega) heq.2

theorem Filled.next (h : Filled s N S cwd k) (hk : k < 7) :
    ∃ t N' S', Filled t N' S' cwd (k + 1) := by
  obtain ⟨n, r, t, hmade⟩ := h.exists_made (by omega)
  have hc := hmade.created
  obtain ⟨hkept, habsent⟩ := h.other hc
  obtain ⟨l, u, -, -, hureach, hw⟩ := hmade.exists_write (by decide : lastByte < 2 ^ 32) [0]
  -- there are blocks enough for the write
  have hl : 0 < l := by
    refine (hw.charged (by simp) (by decide)).some.mpr ((t.vol.card_missing_le _ _ _).trans ?_)
    have hfree := hmade.free_ge
    have hmax : maxfile + 1 = 269 := by decide
    omega
  have hbootu := hmade.boot.wrote (mem_insert_self n N) hmade.typ hw hl
  have hru : u.refs r = some (n, 1) := by rw [hw.refs, hmade.ref]
  -- the reference is given up
  have hput : wp (iput r) (fun _ => False) (fun _ w => Quiet u w ∧
      Booting emptyImage w (insert n N) (update u.refs r none) (14 + k + 1)
        (80 + 271 * k + 2 + (maxfile + 1))) u := hbootu.wp_iput hru fun w hq hb => ⟨hq, hb⟩
  obtain ⟨_, w, hrun', hq, hbootw⟩ := exists_ok hput
  have hallowed' : Op.Allowed u (.iput r) := by
    change u.refs r ≠ none
    rw [hru]
    simp
  have hop' : Op.run (.iput r) u = .ok (.unit, w) := bind_ok hrun'
  have hslot : update s.refs r none = s.refs := by
    rw [← hc.slot, update_eq_self]
  have hrefs : update u.refs r none =
      update (fun _ => none) cwd (some (rootino, 1)) := by
    rw [hw.refs, hc.refs, update_idem, hslot, h.boot.refs]
  rw [hrefs] at hbootw
  have hnew : n ∉ S := fun hn => hc.entered.fresh (h.sub hn)
  refine ⟨w, insert n N, insert n S, .step hureach hallowed' hop', ?_,
    insert_subset_insert n h.sub, by rw [card_insert_of_notMem hnew, h.card],
    fun m hm => ?_, fun i hki hi => ?_⟩
  · have hsum : 80 + 271 * k + 2 + (maxfile + 1) = 80 + 271 * (k + 1) := by
      have hmax : maxfile + 1 = 269 := by decide
      omega
    rwa [hsum] at hbootw
  · rw [hq.file m (hbootw.tidy.lt (insert_subset_insert n h.sub hm))]
    rcases mem_insert.mp hm with rfl | hm
    · exact hw.largest hl hmade.data
    · rw [hw.file m (h.boot.tidy.lt (h.sub hm)) (hkept m hm).1, (hkept m hm).2, h.full m hm]
  · have hne := (hmade.ne_root h.boot.tidy.tree.root_mem).symm
    rw [hq.find, find_congr (hw.file rootino (by decide) hne), habsent i hki hi]

theorem exists_filled (hk : k < 8) : ∃ s N S cwd, Filled s N S cwd k := by
  induction k with
  | zero =>
    obtain ⟨s, N, cwd, hs, hi⟩ := exists_rooted
    refine ⟨s, N, ∅, cwd, hs, hi.booting, empty_subset N, rfl, by simp, fun i _ hi8 => ?_⟩
    exact hi.absent _ (fillName_absent i hi8)
  | succ k ih =>
    obtain ⟨s, N, S, cwd, h⟩ := ih (by omega)
    obtain ⟨t, N', S', h'⟩ := h.next (by omega)
    exact ⟨t, N', S', cwd, h'⟩

/-- A file with any content that a file may have, when many blocks are left. -/
theorem exists_file {content : List UInt8} (hlen : content.length ≤ maxfile * bsize) :
    ∃ (s : State) (r cwd : InodeRef) (n : ℕ), Reachable s ∧ maxfile < s.vol.free ∧
      n ≠ rootino ∧ (s.file n).data = content ∧ s.refs r = some (n, 1) ∧
      s.refs cwd = some (rootino, 1) ∧ ∃ x, s.refs x = none := by
  obtain ⟨s, N, S, cwd, h⟩ := exists_filled (by decide : 0 < 8)
  obtain ⟨n, r, t, hmade⟩ := h.exists_made (by decide)
  obtain ⟨l, u, -, -, hreach, hw⟩ := hmade.exists_write (by decide : 0 < 2 ^ 32) content
  have hdata := hmade.data
  have hfree := hmade.free_ge
  have hsize : (t.node n).size = 0 := by
    rw [← content_length t.vol (t.node n)]
    exact congrArg List.length hdata
  -- the blocks suffice, so nothing is cut off
  have hall : l = content.length := by
    by_contra hne
    have hlt : l < content.length := lt_of_le_of_ne hw.written.le hne
    rcases hw.written.short hlt with hbig | hfull
    · omega
    · have hbudget := hw.written.budget
      rw [Vol.full_iff.mp hfull, hsize] at hbudget
      unfold span maxfile ndirect nindirect bsize at *
      split_ifs at hbudget <;> omega
  have hleft : maxfile < u.vol.free := by
    have hbudget := hw.written.budget
    rw [hsize] at hbudget
    unfold span maxfile ndirect nindirect bsize at *
    split_ifs at hbudget <;> omega
  have hrefs : u.refs = update (update (fun _ => none) cwd (some (rootino, 1))) r
      (some (n, 1)) := by rw [hw.refs, hmade.created.refs, h.boot.refs]
  have hne : cwd ≠ r := by
    rintro rfl
    have hslot := hmade.created.slot
    rw [h.boot.refs, update_self] at hslot
    cases hslot
  obtain ⟨x, hxc, hxr⟩ := exists_slot cwd r
  refine ⟨u, r, cwd, n, hreach, hleft, hmade.ne_root h.boot.tidy.tree.root_mem, ?_,
    by rw [hw.refs, hmade.ref], ?_, x, ?_⟩
  rotate_left
  · rw [hrefs, update_of_ne hne, update_self]
  · rw [hrefs, update_of_ne hxr, update_of_ne hxc]
  rcases hw.written.content with hcontent | ⟨hzero, hcontent⟩
  · rw [hall, List.take_length] at hcontent
    refine hcontent.trans ?_
    change overwrite (t.file n).data 0 content = content
    rw [hdata]
    exact overwrite_end [] content
  · refine hcontent.trans (hdata.trans ?_)
    exact (List.eq_nil_of_length_eq_zero (by omega)).symm

/-- Truncation takes no block. -/
theorem Vol.free_truncated (V : Vol) (ip : Inode) : V.free ≤ (V.truncated ip).free := by
  apply card_le_card
  intro b hb
  obtain ⟨hmem, hfree⟩ := mem_filter.mp hb
  refine mem_filter.mpr ⟨hmem, Bool.eq_false_iff.mpr fun h => ?_⟩
  have hused := (Vol.truncated_used.mp h).1
  rw [hfree] at hused
  cases hused

/-- All positions of a file without blocks are missing. -/
theorem Vol.missing_bare {V : Vol} {ip : Inode} (hbare : ∀ p, V.addr ip p = 0) (hb : lastByte ≤ b) :
    V.missing ip 0 b = Finset.range (maxfile + 1) := by
  apply filter_true_of_mem
  intro p hp
  refine ⟨⟨lt_of_lt_of_le (by decide) hb, ?_⟩, hbare p⟩
  have hlast : lastByte = 274431 := by decide
  have hp' := mem_range.mp hp
  unfold maxfile ndirect nindirect bsize at *
  omega

/-- An empty file without blocks, and fewer free blocks than it would need to
reach the largest size, but some. -/
structure Tight (s : State) (N : Finset ℕ) (r : InodeRef) (n : ℕ) : Prop where
  reach : Reachable s
  tidy : Tidy s N
  coherent : Coherent s
  ref : s.refs r = some (n, 1)
  typ : (s.file n).typ ≠ tDir
  size : (s.node n).size = 0
  bare : ∀ p, s.vol.addr (s.node n) p = 0
  some : 0 < s.vol.free
  few : s.vol.free < maxfile + 1

/-- The eighth file, truncated so that it has no blocks. -/
theorem exists_tight : ∃ s N r n, Tight s N r n := by
  obtain ⟨s, N, S, cwd, h⟩ := exists_filled (by decide : 7 < 8)
  obtain ⟨n, r, t, hmade⟩ := h.exists_made (by decide)
  obtain ⟨hkept, -⟩ := h.other hmade.created
  have hwp : wp (trunc r) (fun _ => False) (fun _ u => Truncated t n u) t :=
    wp_trunc hmade.boot.tidy.stable hmade.ref fun u hu => hu
  obtain ⟨_, u, hrun, hu⟩ := exists_ok hwp
  have hallowed : Op.Allowed t (.trunc r) := ⟨n, 1, hmade.ref, hmade.typ⟩
  have hop : Op.run (.trunc r) t = .ok (.unit, u) := bind_ok hrun
  have htidy := hu.tidy hmade.boot.tidy (mem_insert_self n N) hmade.typ
  have hfree := hmade.free_ge
  have hgrow := Vol.free_truncated t.vol (t.node n)
  have hle := htidy.stable.free_le (S := S) fun m hm => ⟨h.boot.tidy.lt (h.sub hm), by
    rw [hu.file m (h.boot.tidy.lt (h.sub hm)) (hkept m hm).1, (hkept m hm).2, h.full m hm]⟩
  have hblocks : fssize - datastart = 1984 := by decide
  have hmax : maxfile = 268 := by decide
  rw [← hu.vol] at hgrow
  rw [h.card] at hle
  refine ⟨u, insert n N, r, n, .step hmade.reach hallowed hop, htidy,
    hu.coherent hmade.boot.coherent, by rw [hu.refs, hmade.ref], ?_, by rw [hu.self]; rfl, fun p => ?_, by omega, by omega⟩
  · rw [State.file, Vol.file, hu.self]
    exact hmade.typ
  · rw [hu.self, Vol.addr_emptied]

namespace Tight

variable (h : Tight s N r n)
include h

/-- The gap up to the last byte needs more blocks than there are. -/
theorem gap : s.vol.free < (s.vol.missing (s.node n) 0 lastByte).card := by
  rw [Vol.missing_bare h.bare (le_refl _), card_range]
  exact h.few

theorem strands : Strands s.vol (s.node n) lastByte [0] := by
  have hrange : firstRange (s.node n).size lastByte = (0, lastByte) := by
    rw [h.size]
    rfl
  refine ⟨by simp, by decide, h.some, ?_, 0, ?_, Or.inl (by decide)⟩
  · rw [hrange]
    exact h.gap
  · rw [hrange]
    exact Vol.mem_missing.mpr ⟨by decide, h.bare 0⟩

theorem refused : n < ninodes ∧ ∃ ip' c', writeiInner (s.node n) lastByte [0] s.dev =
    .ok ((0, ip'), c') ∧ Written s.vol (s.node n) (volume c'.disk) ip' lastByte [0] 0 ∧
      Charged s.vol (s.node n) (volume c'.disk) ip' lastByte [0] 0 := by
  have hn := (h.tidy.stable.live r n 1 h.ref).1
  have hwp : wp (writeiInner (s.node n) lastByte [0]) (fun _ => False) (fun _ _ => True) s.dev :=
    wp_writeiInner h.tidy.stable.mounted (h.tidy.stable.intact n hn) (by decide)
      fun _ _ _ _ _ _ => trivial
  obtain ⟨⟨l, ip'⟩, c', hrun, -⟩ := exists_ok hwp
  obtain ⟨-, hw, hch, -⟩ := h.reach.written hn hrun
  have hcharged := hch (by simp) (by decide)
  obtain rfl : l = 0 := by
    by_contra hl
    have hfits := hcharged.some.mp (pos_of_ne_zero hl)
    rw [h.size, zero_min, Vol.missing_bare h.bare (le_succ _), card_range] at hfits
    exact absurd h.few (not_lt.mpr hfits)
  exact ⟨hn, ip', c', hrun, hw, hcharged⟩

end Tight

/-- A write that returns 0 and takes all free blocks. -/
theorem writei_zero_changes : ∃ s n ip' c', Reachable s ∧ n < ninodes ∧
    writeiInner (s.node n) lastByte [0] s.dev = .ok ((0, ip'), c') ∧
    ¬ Unchanged s.vol (s.node n) (volume c'.disk) ip' := by
  obtain ⟨s, N, r, n, h⟩ := exists_tight
  obtain ⟨hn, ip', c', hrun, hw, hch⟩ := h.refused
  refine ⟨s, n, ip', c', h.reach, hn, hrun, fun hun => ?_⟩
  exact h.some.ne' ((unchanged_iff hw hch).mp hun).1

theorem writei_zero_unchanged_iff_tight : ∃ s n ip' c', Reachable s ∧ n < ninodes ∧
    writeiInner (s.node n) lastByte [0] s.dev = .ok ((0, ip'), c') ∧
    (Unchanged s.vol (s.node n) (volume c'.disk) ip' ↔
      maxfile * bsize < lastByte + 1 ∨ s.vol.free = 0 ∧
        (lastByte ≤ (s.node n).size ∨
          s.vol.missing (s.node n) (s.node n).size lastByte ≠ ∅)) := by
  obtain ⟨s, N, r, n, h⟩ := exists_tight
  obtain ⟨hn, ip', c', hrun, -⟩ := h.refused
  have hsrc : [(0 : UInt8)] ≠ [] := by simp
  exact ⟨s, n, ip', c', h.reach, hn, hrun, writei_zero_unchanged_iff h.reach hn hsrc hrun⟩

/-- A run after which a slot in use differs from the disk. -/
theorem icache_incoherent : ∃ steps t, Run steps t ∧ ¬ SlotsCoherent t := by
  obtain ⟨s, N, r, n, h⟩ := exists_tight
  obtain ⟨steps, hsteps⟩ := h.reach.run
  have hallowed : Op.Allowed s (.writei r lastByte [0]) := ⟨n, 1, h.ref, h.typ⟩
  have hwp : wp (writei r lastByte [0]) (fun _ => False)
      (fun _ t => ∃ l, Wrote s n lastByte [0] l t) s :=
    wp_writei h.tidy.stable h.ref (fun hbig => absurd hbig (by decide)) fun l t _ hw => ⟨l, hw⟩
  obtain ⟨v, t, hrun, l, hw⟩ := exists_ok hwp
  have hop : Op.run (.writei r lastByte [0]) s = .ok (.count v, t) := bind_ok hrun
  refine ⟨_, t, .step hsteps hallowed hop, fun hc => ?_⟩
  rw [hw.stable.slotsCoherent_iff,
    hw.coherent_iff (h.tidy.stable.live r n 1 h.ref).1 h.coherent] at hc
  exact hc h.strands

/-- A run that creates a file and writes to it. -/
theorem icache_coherent_iff_write : ∃ steps t u r, Run ((t, .writei r 0 [1, 2, 3]) :: steps) u ∧
    SlotsUnique u ∧ ((SlotsCoherent u ∧ ∀ p ∈ (t, .writei r 0 [1, 2, 3]) :: steps, SlotsCoherent p.1) ↔
      ∀ p ∈ (t, .writei r 0 [1, 2, 3]) :: steps, ¬ p.2.Strands p.1) := by
  obtain ⟨s, N, S, cwd, h⟩ := exists_filled (by decide : 0 < 8)
  obtain ⟨n, r, t, hmade⟩ := h.exists_made (by decide)
  obtain ⟨l, u, hallowed, hop, -, -⟩ := hmade.exists_write (by decide : 0 < 2 ^ 32) [1, 2, 3]
  obtain ⟨steps, hsteps⟩ := hmade.reach.run
  have hrun := Run.step hsteps hallowed hop
  obtain ⟨huniq, hiff, -⟩ := icache_coherent_iff hrun
  exact ⟨steps, t, u, r, hrun, huniq, hiff⟩

end ToyOs.Fs
