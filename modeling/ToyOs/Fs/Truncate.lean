import ToyOs.Fs.Runs
import ToyOs.Fs.Transparent

/-!
Truncation in a reachable state: what it leaves of the inode, which bits of
the bitmap it clears, and that the blocks it frees come back empty. The bits of
blocks that hold no data are not part of the volume; that truncation keeps them
is read off the same code on the disk itself.
-/
namespace ToyOs.Fs

open Bytes Prog Function

variable {s t : State} {r : InodeRef} {n k : ℕ} {v : ℕ → Bool} {c : Dev}

/-- The bits of the blocks that `balloc` never gives out. -/
def MetaBits (v : ℕ → Bool) (c : Dev) : Prop :=
  ∀ b, b < bpb → ¬ IsData b → bitSet c.disk b = v b

section Direct

theorem keeps_direct_bfree (b : ℕ) : Keeps (fun _ => True) (MetaBits v) (@bfree direct b) := by
  intro c hc
  simp only [bfree, wp_bind, wp_assert, decide_eq_true_eq]
  refine ⟨fun hb => ?_, fun _ => trivial⟩
  have hb : IsData b := hb
  simp only [Access.bread, Access.bitmapDrop, Access.brelse, wp_pure, wp_expect, wp_get, putBlock,
    wp_assert, wp_modify, wp_bind]
  refine ⟨fun bp hbp => ⟨fun _ => ?_, fun _ => trivial⟩, fun _ => trivial⟩
  obtain rfl : bblock b = bp := by
    split at hbp
    · cases hbp
    · exact Option.some.inj hbp
  intro a ha hdata
  have hab : a ≠ b := fun h => hdata (h ▸ hb)
  show bitSet (update c.disk (bblock b) _) a = v a
  rw [bitSet_write ha hb.lt_bpb _ false, if_neg hab]
  · exact hc a ha hdata
  · intro j
    rw [bitMask_eq, mask_clear]
    by_cases hj : j.val = b % bpb % 8
    · simp [hj, Fin.ext_iff]
    · simp [hj, Fin.ext_iff, Ne.symm hj]

theorem wp_direct_itruncDirect (l : List (Fin (ndirect + 1))) (ip : Inode) (hc : MetaBits v c) :
    wp (@itruncDirect direct l ip) (fun _ => True)
      (fun ip' c' => MetaBits v c' ∧ ip'.inum = ip.inum) c := by
  induction l generalizing ip c with
  | nil => exact ⟨hc, rfl⟩
  | cons i l ih =>
    unfold itruncDirect
    rw [wp_ite]
    refine ⟨fun _ => ?_, fun _ => ih ip hc⟩
    rw [wp_bind]
    exact wp_post (keeps_direct_bfree _ c hc) fun _ c' hc' => ih (ip.setAddr i 0) hc'

theorem keeps_direct_itruncIndirect (b : ℕ) :
    Keeps (fun _ => True) (MetaBits v) (@itruncIndirect direct b) := by
  refine keeps_bind keeps_pure fun o => keeps_bind (keeps_expect trivial) fun bp => ?_
  refine keeps_bind (keeps_forEach fun i => ?_) fun _ =>
    keeps_bind keeps_pure fun _ => keeps_direct_bfree b
  refine keeps_bind (keeps_bind keeps_get fun _ => keeps_pure) fun data => ?_
  exact keeps_ite (keeps_direct_bfree _) keeps_pure

theorem keeps_direct_writeDinode (hn : n < ninodes) (x : Dinode) :
    Keeps (fun _ => True) (MetaBits v) (@writeDinode direct n x) := by
  intro c hc
  have hlt := iblock_lt hn
  simp only [writeDinode, Access.bread, Access.writeBuf, Access.brelse, wp_bind, wp_pure, wp_expect,
    putBlock, wp_modify]
  refine ⟨fun bp hbp => ?_, fun _ => trivial⟩
  obtain rfl : iblock n = bp := by
    split at hbp
    · cases hbp
    · exact Option.some.inj hbp
  intro a ha hdata
  have hne : bblock a ≠ iblock n := by
    rw [bblock_lt_bpb ha]
    omega
  show bitSet (update c.disk (iblock n) _) a = v a
  rw [bitSet, update_of_ne hne]
  exact hc a ha hdata

theorem wp_direct_itrunc {ip : Inode} (hn : ip.inum < ninodes) (hc : MetaBits v c) :
    wp (@itrunc direct ip) (fun _ => True) (fun _ c' => MetaBits v c') c := by
  unfold itrunc
  rw [wp_bind]
  refine wp_post (wp_direct_itruncDirect directSlots ip hc) ?_
  rintro ip' c' ⟨hc', hinum⟩
  rw [wp_ite]
  have hn' : ip'.inum < ninodes := hinum ▸ hn
  refine ⟨fun _ => ?_, fun _ => ?_⟩
  · simp only [wp_bind, wp_pure, iupdate]
    refine wp_post (keeps_direct_itruncIndirect _ c' hc') fun _ c1 h1 => ?_
    exact keeps_direct_writeDinode hn' _ c1 h1
  · simp only [wp_bind, wp_pure, iupdate]
    exact keeps_direct_writeDinode hn' _ c' hc'

/-- Truncation on the disk itself keeps the bits of the other blocks. -/
theorem wp_direct_trunc (hn : (s.icache r).ip.inum < ninodes) (hc : MetaBits v s.dev) :
    wp (@trunc direct r) (fun _ => True) (fun _ t => MetaBits v t.dev) s := by
  have hlock : wp (@ilock direct r) (fun _ => True)
      (fun ip t => ip.inum < ninodes ∧ MetaBits v t.dev) s := by
    simp only [ilock, lockSlot, wp_bind, wp_get, wp_assert, wp_modify, wp_pure]
    refine ⟨fun _ => ?_, fun _ => trivial⟩
    rw [wp_ite]
    refine ⟨fun _ => ?_, fun _ => ⟨hn, hc⟩⟩
    have hread : Keeps (fun _ => True) (MetaBits v)
        (@readDinode direct (s.icache r).ip.inum) :=
      keeps_bind keeps_pure fun _ => keeps_bind (keeps_expect trivial) fun _ =>
        keeps_bind (keeps_bind keeps_get fun _ => keeps_pure) fun _ =>
          keeps_bind keeps_pure fun _ => keeps_pure
    simp only [wp_bind, onDev, wp_zoom, modifySlot, wp_modify, wp_pure]
    exact wp_post (hread s.dev hc) fun d c' hc' => ⟨hn, hc'⟩
  unfold trunc withInode
  rw [wp_bind]
  refine wp_post hlock ?_
  rintro ip t ⟨hip, ht⟩
  simp only [wp_bind, onDev, wp_zoom, modifySlot, unlockSlot, wp_modify, wp_pure]
  exact wp_direct_itrunc hip ht

end Direct

/-- What truncation keeps on the disk besides the volume. -/
theorem trunc_metaBits (hs : Stable s) (hr : s.refs r = some (n, k)) (h : trunc r s = .ok ((), t)) :
    MetaBits (bitSet s.dev.disk) t.dev := by
  obtain ⟨d, hc, -⟩ := hs.mounted
  have hdisk : Cached s.dev [] s.dev.disk := by
    rw [hc.disk]
    exact hc
  have hJ : directFs.J s s := ⟨rfl, rfl, hdisk⟩
  have hn : (s.icache r).ip.inum < ninodes := by
    rw [(refs_some.mp hr).2.2]
    exact (hs.live r n k hr).1
  have hsim := wp_ok (simIn_wp_left (directFs.trunc r s s hJ)) h
  obtain ⟨_, t', hrun, -, hJ'⟩ := hsim
  have hbits := wp_ok (wp_direct_trunc hn (v := bitSet s.dev.disk) fun b _ _ => rfl) hrun
  have heq : t.dev.disk = t'.dev.disk := (show Cached t.dev [] t'.dev.disk from hJ'.dev).disk
  intro b hb hdata
  rw [heq]
  exact hbits b hb hdata

theorem Truncated.bitSet_iff (hs : Stable s) (hn : n < ninodes) (h : Truncated s n t)
    (hmeta : MetaBits (bitSet s.dev.disk) t.dev) {b : ℕ} (hb : b < bpb) :
    bitSet t.dev.disk b = true ↔ bitSet s.dev.disk b = true ∧
      ∀ p, s.vol.addr (s.node n) p ≠ 0 → s.vol.addr (s.node n) p ≠ b := by
  by_cases hdata : IsData b
  · have hnew : t.vol.used b = bitSet t.dev.disk b := if_pos hdata
    have hold : s.vol.used b = bitSet s.dev.disk b := if_pos hdata
    rw [← hnew, ← hold, h.vol, Vol.truncated_used]
    refine and_congr_right fun _ => ⟨fun hfree p h0 heq => ?_, fun hfree p _ heq => ?_⟩
    · have hp : p < maxfile + 1 := by
        by_contra hp
        exact h0 (Vol.addr_high _ _ (by omega))
      exact hfree p hp heq
    · exact hfree p (heq ▸ hdata.pos) heq
  · rw [hmeta b hb hdata]
    refine ⟨fun hbit => ⟨hbit, fun p h0 heq => hdata ?_⟩, fun hbit => hbit.1⟩
    rw [← heq]
    exact hs.mounted.isData ((hs.intact n hn).owns.used p h0)

theorem Stable.wrote_of_write {u u' : State} {r' : InodeRef} {m k' off l : ℕ} {src : List UInt8}
    (hu : Stable u) (hr : u.refs r' = some (m, k'))
    (h : writei r' off src u = .ok (some l, u') ∨
      off = (u.node m).size ∧ ∃ e, appendi r' src u = .ok ((l, e), u')) :
    Wrote u m off src l u' := by
  rcases h with h | ⟨rfl, e, h⟩
  · have hwp : wp (writei r' off src) (fun _ => True)
        (fun o v => ∀ l, o = some l → Wrote u m off src l v) u := by
      refine wp_writei hu hr (fun _ l hl => by cases hl) fun l' v _ hw l hl => ?_
      obtain rfl := Option.some.inj hl
      exact hw
    have hpost := wp_ok hwp h
    exact hpost l rfl
  · have hwp : wp (appendi r' src) (fun _ => True)
        (fun o v => Wrote u m (u.node m).size src o.1 v) u :=
      wp_appendi hu hr fun l v hw => hw
    have hpost := wp_ok hwp h
    exact hpost

/-- Truncation releases exactly the blocks of a file. It empties the inode in
the cache and on disk, clears the bits of the blocks that the inode had, each
of which was set and occurs once, and touches nothing else; a later write puts
its bytes, and zeros before them, into a file, whichever blocks it gets. -/
theorem truncation_releases (hs : Reachable s) (hr : s.refs r = some (n, k)) :
    ∃ t, trunc r s = .ok ((), t) ∧
      ((t.icache r).valid = true ∧ (t.icache r).ip = (s.node n).emptied ∧
        t.vol.inode n = (s.node n).emptied.toDinode) ∧
      (∀ b, b < bpb → (bitSet t.dev.disk b = true ↔ bitSet s.dev.disk b = true ∧
        ∀ p, s.vol.addr (s.node n) p ≠ 0 → s.vol.addr (s.node n) p ≠ b)) ∧
      (∀ p, s.vol.addr (s.node n) p ≠ 0 → bitSet s.dev.disk (s.vol.addr (s.node n) p) = true ∧
        ∀ q, s.vol.addr (s.node n) q = s.vol.addr (s.node n) p → q = p) ∧
      (∀ m, m < ninodes → m ≠ n → t.node m = s.node m ∧ t.file m = s.file m) ∧
      ∀ u, u = t ∨ Reachable u → ∀ r' m k' off src l u', u.refs r' = some (m, k') →
        (writei r' off src u = .ok (some l, u') ∨
          off = (u.node m).size ∧ ∃ e, appendi r' src u = .ok ((l, e), u')) →
        ((u'.file m).data = overwrite (u.file m).data off (src.take l) ∨
            l = 0 ∧ (u'.file m).data = (u.file m).data) ∧
          ∀ m', m' < ninodes → m' ≠ m → u'.file m' = u.file m' := by
  obtain ⟨N, htidy⟩ := hs.tidy
  have hst := htidy.stable
  have hn := (hst.live r n k hr).1
  have howns := (hst.intact n hn).owns
  have hwp : wp (trunc r) (fun _ => False) (fun _ t => Truncated s n t ∧
      (t.icache r).valid = true ∧ (t.icache r).ip = (s.node n).emptied) s := by
    refine wp_trunc_store hst hr fun c' h => ⟨h, ?_⟩
    simp [State.store]
  obtain ⟨_, t, hrun, htr, hvalid, hip⟩ := exists_ok hwp
  have hmeta := trunc_metaBits hst hr hrun
  refine ⟨t, hrun, ⟨hvalid, hip, ?_⟩, fun b hb => htr.bitSet_iff hst hn hmeta hb, fun p hp => ?_,
    fun m hm hne => ⟨htr.node m hne, htr.file m hm hne⟩, ?_⟩
  · rw [htr.vol, Vol.truncated, node_inum]
    exact update_self _ _ _
  · have hused := howns.used p hp
    have hbit : s.vol.used (s.vol.addr (s.node n) p) =
        bitSet s.dev.disk (s.vol.addr (s.node n) p) := if_pos (hst.mounted.isData hused)
    exact ⟨hbit ▸ hused, fun q hq => (howns.inj p q hp hq.symm).symm⟩
  · intro u hu r' m k' off src l u' hr' hwrite
    have hust : Stable u := by
      rcases hu with rfl | hu
      · exact htr.stable
      · obtain ⟨_, hu⟩ := hu.tidy
        exact hu.stable
    have hw := hust.wrote_of_write hr' hwrite
    exact ⟨hw.written.content, hw.file⟩

/-- Truncation of the root directory, to which a reference is held. -/
theorem truncation_releases_root : ∃ s r, Reachable s ∧ s.refs r = some (rootino, 1) ∧
    ∃ t, trunc r s = .ok ((), t) ∧ (t.icache r).ip.size = 0 := by
  obtain ⟨s, N, r, hs, hinit⟩ := exists_rooted
  have hr : s.refs r = some (rootino, 1) := by
    rw [hinit.booting.refs]
    exact update_self _ _ _
  obtain ⟨t, hrun, ⟨-, hip, -⟩, -⟩ := truncation_releases hs hr
  exact ⟨s, r, hs, hr, t, hrun, by rw [hip]; rfl⟩

end ToyOs.Fs
