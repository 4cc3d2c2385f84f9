import ToyOs.Fs.Intact

/-!
Truncation frees the blocks of an inode position by position: the direct
blocks, then the entries of the indirect block, and the indirect block last.
An entry is read from the block while the earlier ones are already free, so
the loop relies on the blocks of the inode being distinct.
-/
namespace ToyOs.Fs

open Bytes Prog Function List Nat

variable {c : Dev} {H : Held} {V : Vol} {ip : Inode} {E : Panic → Prop} {n : ℕ}
  {Q : Inode → Dev → Prop}

/-- The volume with the blocks at the first `n` positions of an inode free. -/
def Vol.freed (V : Vol) (ip : Inode) (n : ℕ) : Vol :=
  { V with used := fun b => V.used b && (List.range n).all fun p => V.addr ip p != b }

theorem Vol.freed_used {b : ℕ} : (V.freed ip n).used b = true ↔
    V.used b = true ∧ ∀ p, p < n → V.addr ip p ≠ b := by
  simp [Vol.freed]

theorem Vol.freed_zero : V.freed ip 0 = V := by
  simp [Vol.freed]

/-- Positions without a block make no difference. -/
theorem Vol.freed_skip {m : ℕ} (hd : ∀ b, V.used b = true → b ≠ 0) (hnm : n ≤ m)
    (h : ∀ p, n ≤ p → p < m → V.addr ip p = 0) : V.freed ip m = V.freed ip n := by
  have hu : (V.freed ip m).used = (V.freed ip n).used := by
    funext b
    rw [Bool.eq_iff_iff, Vol.freed_used, Vol.freed_used]
    refine and_congr_right fun hb => ⟨fun hall p hp => hall p (by omega), fun hall p hp => ?_⟩
    by_cases hpn : p < n
    · exact hall p hpn
    · rw [h p (by omega) hp]
      exact (hd b hb).symm
  simp only [Vol.freed] at hu ⊢
  rw [hu]

theorem Vol.freed_succ : (V.freed ip n).setUsed (V.addr ip n) false = V.freed ip (n + 1) := by
  have hu : ((V.freed ip n).setUsed (V.addr ip n) false).used = (V.freed ip (n + 1)).used := by
    funext b
    rw [Bool.eq_iff_iff, Vol.freed_used]
    by_cases hb : b = V.addr ip n
    · subst hb
      simp only [Vol.setUsed, update_self, Bool.false_eq_true, false_iff, not_and]
      exact fun _ hall => hall n (by omega) rfl
    · simp only [Vol.setUsed, update_of_ne hb]
      rw [Vol.freed_used]
      refine and_congr_right fun _ => ⟨fun hall p hp => ?_, fun hall p hp => hall p (by omega)⟩
      by_cases hpn : p < n
      · exact hall p hpn
      · rw [show p = n by omega]
        exact Ne.symm hb
  simp only [Vol.freed, Vol.setUsed] at hu ⊢
  rw [hu]

/-- The block at the next position is still in use. -/
theorem Vol.Owns.freed_next (ho : V.Owns ip) (h : V.addr ip n ≠ 0) :
    (V.freed ip n).used (V.addr ip n) = true := by
  refine Vol.freed_used.mpr ⟨ho.used n h, fun p hp heq => ?_⟩
  have := ho.inj n p h heq.symm
  omega

/-- The inode with its first `n` addresses cleared. -/
def Inode.cleared (ip : Inode) (n : ℕ) : Inode :=
  { ip with addrs := fun k => if (k : ℕ) < n then 0 else ip.addrs k }

theorem Inode.cleared_zero : ip.cleared 0 = ip := by
  simp [Inode.cleared]

theorem Inode.cleared_succ (h : n < ndirect + 1) :
    (ip.cleared n).setAddr ⟨n, h⟩ 0 = ip.cleared (n + 1) := by
  simp only [Inode.setAddr, Inode.cleared, Inode.mk.injEq, true_and]
  funext k
  by_cases hk : k = ⟨n, h⟩
  · simp [hk]
  · have hne : (k : ℕ) ≠ n := fun heq => hk (Fin.ext heq)
    rw [update_of_ne hk]
    simp only [show (k : ℕ) < n + 1 ↔ (k : ℕ) < n by omega]

theorem directSlots_drop (h : n < ndirect) :
    directSlots.drop n = ⟨n, lt_succ_of_lt h⟩ :: directSlots.drop (n + 1) := by
  rw [drop_eq_getElem_cons (by simpa [directSlots] using h)]
  simp [directSlots]

theorem wp_itruncDirect (ho : V.Owns ip) (hd : ∀ b, V.used b = true → b ≠ 0) (hH : H.length < nbuf)
    (hQ : ∀ c', Mounted c' H (V.freed ip ndirect) → Q (ip.cleared ndirect) c') (left : ℕ) :
    ∀ (n : ℕ) (c : Dev), n + left = ndirect → Mounted c H (V.freed ip n) →
      wp (itruncDirect (directSlots.drop n) (ip.cleared n)) E Q c := by
  induction left with
  | zero =>
    intro n c hn hm
    have hnil : directSlots.drop n = [] := by
      rw [drop_eq_nil_iff]
      simp [directSlots]
      omega
    obtain rfl : n = ndirect := by omega
    rw [hnil]
    exact hQ c hm
  | succ left ih =>
    intro n c hn hm
    have hlt : n < ndirect := by omega
    have hk : (ip.cleared n).addrs ⟨n, lt_succ_of_lt hlt⟩ = V.addr ip n := by
      rw [V.addr_direct ip hlt]
      simp [Inode.cleared]
    rw [directSlots_drop hlt]
    unfold itruncDirect
    rw [hk]
    split
    · rename_i h0
      rw [wp_bind]
      refine hm.bfree hH (ho.freed_next h0) fun c' h' => ?_
      rw [Vol.freed_succ] at h'
      rw [Inode.cleared_succ (lt_succ_of_lt hlt)]
      exact ih (n + 1) c' (by omega) h'
    · rename_i h0
      have h0 : V.addr ip n = 0 := not_not.mp h0
      have hself : ip.cleared (n + 1) = ip.cleared n := by
        rw [← Inode.cleared_succ (lt_succ_of_lt hlt)]
        simp only [Inode.setAddr, ← h0, ← hk, update_eq_self]
      have hsame : V.freed ip (n + 1) = V.freed ip n :=
        Vol.freed_skip hd (by omega) fun p hp hp' => by rwa [show p = n by omega]
      rw [← hself]
      exact ih (n + 1) c (by omega) (by rwa [hsame])

/-- What stands at the head of a final part of a range. -/
theorem suffix_range {i m : ℕ} {rest : List ℕ} (h : (i :: rest) <:+ List.range m) :
    i + rest.length + 1 = m := by
  obtain ⟨front, hfront⟩ := h
  have hlen := congrArg List.length hfront
  simp only [length_append, length_cons, length_range] at hlen
  have hget : (front ++ i :: rest)[front.length]? = some i := by simp
  rw [hfront, List.getElem?_range (by omega)] at hget
  have := Option.some.inj hget
  omega

theorem wp_itruncIndirect {Q : Unit → Dev → Prop} (hm : Mounted c H (V.freed ip ndirect))
    (ho : V.Owns ip) (hd : ∀ b, V.used b = true → b ≠ 0) (hH : H.length + 1 < nbuf)
    (ht : ip.addrs indirectSlot ≠ 0)
    (hQ : ∀ c', Mounted c' H (V.freed ip (maxfile + 1)) → Q () c') :
    wp (itruncIndirect (ip.addrs indirectSlot)) E Q c := by
  have htable : V.addr ip maxfile = ip.addrs indirectSlot := V.addr_table ip
  have hdata : IsData (ip.addrs indirectSlot) := by
    refine hm.isData (Vol.freed_used.mpr ⟨?_, fun p hp heq => ?_⟩)
    · rw [← htable] at ht ⊢
      exact ho.used _ ht
    · rw [← htable] at ht heq
      have := ho.inj maxfile p ht heq.symm
      unfold maxfile at this
      omega
  have hblock : ∀ n, (V.freed ip n).block = V.block := fun _ => rfl
  simp only [itruncIndirect, wp_bind]
  refine hm.bread hdata.lt (by omega) fun i c1 h1 => ?_
  rw [wp_expect]
  refine ⟨fun j hj => ?_, fun h => by simp at h⟩
  obtain rfl := Option.some.inj hj
  -- with `rest` entries to go, all positions before them are free
  refine wp_post (wp_forEach (fun rest t => rest.length ≤ nindirect ∧
    Mounted t ((i, ip.addrs indirectSlot) :: H) (V.freed ip (maxfile - rest.length))) ?_ ?_) ?_
  · have hlen : indirectEntries.length = nindirect := by
      unfold indirectEntries
      exact length_range
    have hstart : maxfile - nindirect = ndirect := by
      unfold maxfile
      omega
    rw [hlen, hstart]
    exact ⟨le_rfl, h1⟩
  · rintro e rest t hsuf ⟨hle, ht1⟩
    unfold indirectEntries at hsuf
    have he := suffix_range hsuf
    rw [length_cons] at hle ht1
    have hpos : maxfile - (rest.length + 1) = ndirect + e := by
      unfold maxfile
      omega
    have hnext : maxfile - rest.length = ndirect + e + 1 := by
      unfold maxfile
      omega
    have hentry : V.addr ip (ndirect + e) = load 4 (V.block (ip.addrs indirectSlot)) (e * 4) := by
      rw [V.addr_entry ip (by omega) (by unfold maxfile; omega) ht, Nat.add_sub_cancel_left]
    rw [hpos] at ht1
    simp only [wp_bind]
    refine ht1.readBuf mem_cons_self hdata ?_
    rw [hblock, ← hentry, wp_ite, hnext]
    refine ⟨fun h0 => ?_, fun h0 => ?_⟩
    · refine ht1.bfree (by simpa using hH) (ho.freed_next h0) fun t' h' => ?_
      rw [Vol.freed_succ] at h'
      exact ⟨by omega, h'⟩
    · rw [wp_pure, Vol.freed_skip hd (Nat.le_succ _) fun p hp hp' => by
        rw [show p = ndirect + e by omega]
        exact not_not.mp h0]
      exact ⟨by omega, ht1⟩
  · rintro - t ⟨-, ht1⟩
    rw [length_nil, Nat.sub_zero] at ht1
    refine ht1.brelse fun t2 h2 => ?_
    rw [← htable] at ht ⊢
    refine h2.bfree (by omega) (ho.freed_next ht) fun t3 h3 => ?_
    rw [Vol.freed_succ] at h3
    exact hQ t3 h3

/-- The inode after truncation. -/
def Inode.emptied (ip : Inode) : Inode := { ip with size := 0, addrs := fun _ => 0 }

theorem Inode.cleared_all : ({ ip.cleared (ndirect + 1) with size := 0 } : Inode) = ip.emptied := by
  have haddrs : (ip.cleared (ndirect + 1)).addrs = fun _ => 0 := funext fun k => if_pos k.isLt
  simp only [haddrs]
  rfl

theorem Vol.addr_emptied (V : Vol) (ip : Inode) (p : ℕ) : V.addr ip.emptied p = 0 :=
  addr_slot_zero rfl

/-- The volume after truncation. -/
def Vol.truncated (V : Vol) (ip : Inode) : Vol :=
  (V.freed ip (maxfile + 1)).setInode ip.inum ip.emptied.toDinode

theorem Vol.truncated_used {b : ℕ} : (V.truncated ip).used b = true ↔
    V.used b = true ∧ ∀ p, p < maxfile + 1 → V.addr ip p ≠ b := Vol.freed_used

theorem Intact.truncated (hi : Intact V ip) : Intact (V.truncated ip) ip.emptied := by
  refine Intact.commit ip.emptied hi.inum ⟨fun p hp => ?_, fun p q hp => ?_⟩
    ⟨zero_le _, fun p hp => ?_⟩
  · exact absurd (Vol.addr_emptied _ ip p) hp
  · exact absurd (Vol.addr_emptied _ ip p) hp
  · exact absurd hp (not_lt_zero _)

theorem Frame.truncated (V : Vol) (ip : Inode) : Frame V ip (V.truncated ip) ip.emptied := by
  refine ⟨fun b hb hown => ⟨?_, rfl⟩, fun p hp => ?_, fun n hn => ?_, rfl⟩
  · exact Vol.truncated_used.mpr ⟨hb, fun p _ => hown p⟩
  · exact absurd (Vol.addr_emptied _ ip p) hp
  · exact update_of_ne hn _ _

theorem wp_itrunc (hm : Mounted c H V) (hi : Intact V ip) (hH : H.length + 1 < nbuf)
    (hQ : ∀ c', Mounted c' H (V.truncated ip) → Q ip.emptied c') :
    wp (itrunc ip) E Q c := by
  have hd := used_ne_zero hm
  have hfits : ip.emptied.toDinode.Fits := by
    have hx := hi.info_fits hm
    exact ⟨hx.typ, hx.major, hx.minor, hx.nlink, by simp [Inode.emptied, Inode.toDinode],
      fun _ => by simp [Inode.emptied, Inode.toDinode]⟩
  have hslot : (ip.cleared ndirect).addrs indirectSlot = ip.addrs indirectSlot := by
    simp [Inode.cleared, indirectSlot]
  have hdir := wp_itruncDirect (E := E) (H := H) (Q := fun r c' => wp (if r.addrs indirectSlot ≠ 0 then do
      itruncIndirect (r.addrs indirectSlot)
      let ip := { r.setAddr indirectSlot 0 with size := 0 }
      iupdate ip
      pure ip
    else do
      let ip := { r with size := 0 }
      iupdate ip
      pure ip) E Q c') hi.owns hd (by omega) (fun c1 h1 => ?_) ndirect 0 c (zero_add _)
      (by rwa [Vol.freed_zero])
  · rw [drop_zero, Inode.cleared_zero] at hdir
    simpa only [itrunc, wp_bind] using hdir
  · rw [hslot, wp_ite]
    refine ⟨fun ht => ?_, fun ht => ?_⟩
    · have hfin : ({ (ip.cleared ndirect).setAddr indirectSlot 0 with size := 0 } : Inode) =
          ip.emptied := by
        rw [show indirectSlot = ⟨ndirect, lt_succ_self _⟩ from rfl,
          Inode.cleared_succ (lt_succ_self ndirect), Inode.cleared_all]
      simp only [wp_bind, hfin]
      refine wp_itruncIndirect h1 hi.owns hd hH ht fun c2 h2 => ?_
      exact h2.writeDinode hi.inum hfits (by omega) hQ
    · have ht0 : ip.addrs indirectSlot = 0 := not_not.mp ht
      have hfin : ({ ip.cleared ndirect with size := 0 } : Inode) = ip.emptied := by
        rw [← Inode.cleared_all, ← Inode.cleared_succ (lt_succ_self ndirect)]
        have hself : (ip.cleared ndirect).setAddr indirectSlot 0 = ip.cleared ndirect := by
          simp only [Inode.setAddr, ← ht0, ← hslot, update_eq_self]
        exact congrArg (fun jp : Inode => { jp with size := 0 }) hself.symm
      have hsame : V.freed ip ndirect = V.freed ip (maxfile + 1) := by
        refine (Vol.freed_skip hd (by unfold maxfile; omega) fun p hp hp' => ?_).symm
        refine addr_slot_zero ?_
        rwa [slotOf, dif_neg (by omega)]
      rw [hsame] at h1
      simp only [wp_bind, hfin]
      exact h1.writeDinode hi.inum hfits (by omega) hQ

end ToyOs.Fs
