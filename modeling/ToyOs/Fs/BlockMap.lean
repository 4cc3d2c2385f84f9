import ToyOs.Fs.BlockOps
import ToyOs.Fs.Inode

/-!
The block map of an inode. A position is a logical block, or `maxfile` for
the indirect block itself. `Frame` is what a change of one inode means to all
the others: it leaves every used block that the inode does not own and takes
only blocks that were free. Growth keeps the positions that are mapped, and a
fresh block reads as zeros, as an unmapped one does.
-/
namespace ToyOs.Fs

open Bytes Prog

namespace Vol

/-- The block at a position of an inode; 0 is none. -/
def addr (V : Vol) (ip : Inode) (p : ℕ) : ℕ :=
  if h : p < ndirect then ip.addrs ⟨p, Nat.lt_succ_of_lt h⟩
  else if p < maxfile then
    if ip.addrs indirectSlot = 0 then 0
    else load 4 (V.block (ip.addrs indirectSlot)) ((p - ndirect) * 4)
  else if p = maxfile then ip.addrs indirectSlot
  else 0

/-- Byte `k` of an inode as its block map has it; a hole reads as 0. -/
def byte (V : Vol) (ip : Inode) (k : ℕ) : UInt8 :=
  if k / bsize < maxfile ∧ V.addr ip (k / bsize) ≠ 0 then
    V.block (V.addr ip (k / bsize)) (k % bsize)
  else 0

/-- The blocks of an inode are used ones, each at one position. -/
structure Owns (V : Vol) (ip : Inode) : Prop where
  used : ∀ p, V.addr ip p ≠ 0 → V.used (V.addr ip p) = true
  inj : ∀ p q, V.addr ip p ≠ 0 → V.addr ip p = V.addr ip q → p = q

/-- No block is free. -/
def Full (V : Vol) : Prop := ∀ b, IsData b → V.used b = true

theorem addr_direct (V : Vol) (ip : Inode) {p : ℕ} (h : p < ndirect) :
    V.addr ip p = ip.addrs ⟨p, Nat.lt_succ_of_lt h⟩ := dif_pos h

theorem addr_table (V : Vol) (ip : Inode) : V.addr ip maxfile = ip.addrs indirectSlot := by
  simp [addr, maxfile]

theorem addr_entry (V : Vol) (ip : Inode) {p : ℕ} (h : ndirect ≤ p) (h' : p < maxfile)
    (ht : ip.addrs indirectSlot ≠ 0) :
    V.addr ip p = load 4 (V.block (ip.addrs indirectSlot)) ((p - ndirect) * 4) := by
  simp [addr, h, h', ht]

theorem addr_entry_none (V : Vol) (ip : Inode) {p : ℕ} (h : ndirect ≤ p) (h' : p < maxfile)
    (ht : ip.addrs indirectSlot = 0) : V.addr ip p = 0 := by
  simp [addr, h, h', ht]

theorem addr_high (V : Vol) (ip : Inode) {p : ℕ} (h : maxfile < p) : V.addr ip p = 0 := by
  have h' : ¬ p < ndirect := by
    unfold maxfile at h
    omega
  rw [addr, dif_neg h', if_neg (by omega), if_neg (by omega)]

/-- The addresses of an inode are its direct positions and the table. -/
theorem addrs_eq (V : Vol) (ip : Inode) (k : Fin (ndirect + 1)) :
    ∃ p, V.addr ip p = ip.addrs k ∧ (p = k ∧ (k : ℕ) < ndirect ∨ p = maxfile ∧ k = indirectSlot) := by
  by_cases hk : (k : ℕ) < ndirect
  · exact ⟨k, V.addr_direct ip hk, Or.inl ⟨rfl, hk⟩⟩
  · have hlast : k = indirectSlot := Fin.ext (by
      have := k.isLt
      simp only [indirectSlot, Fin.val_last]
      omega)
    exact ⟨maxfile, by rw [addr_table, hlast], Or.inr ⟨rfl, hlast⟩⟩

/-- The map depends on the addresses and the content of the indirect block. -/
theorem addr_congr {V V' : Vol} {ip ip' : Inode} (ha : ip'.addrs = ip.addrs)
    (hb : ip.addrs indirectSlot ≠ 0 →
      V'.block (ip.addrs indirectSlot) = V.block (ip.addrs indirectSlot)) (p : ℕ) :
    V'.addr ip' p = V.addr ip p := by
  unfold addr
  rw [ha]
  split
  · rfl
  · split
    · split
      · rfl
      · rename_i ht
        rw [hb ht]
    · rfl

theorem byte_mapped (V : Vol) (ip : Inode) {k : ℕ} (h : k / bsize < maxfile)
    (h' : V.addr ip (k / bsize) ≠ 0) :
    V.byte ip k = V.block (V.addr ip (k / bsize)) (k % bsize) := if_pos ⟨h, h'⟩

theorem byte_hole (V : Vol) (ip : Inode) {k : ℕ} (h : V.addr ip (k / bsize) = 0) :
    V.byte ip k = 0 := if_neg fun hc => hc.2 h

end Vol

/-- A change of the inode `ip` seen from the others. -/
structure Frame (V : Vol) (ip : Inode) (V' : Vol) (ip' : Inode) : Prop where
  keep : ∀ b, V.used b = true → (∀ p, V.addr ip p ≠ b) →
    V'.used b = true ∧ V'.block b = V.block b
  own : ∀ p, V'.addr ip' p ≠ 0 →
    (∃ q, V.addr ip q = V'.addr ip' p) ∨ V.used (V'.addr ip' p) = false
  inode : ∀ n, n ≠ ip.inum → V'.inode n = V.inode n
  inum : ip'.inum = ip.inum

namespace Frame

variable {V V' V'' : Vol} {ip ip' ip'' : Inode}

theorem refl (V : Vol) (ip : Inode) : Frame V ip V ip where
  keep := fun _ h _ => ⟨h, rfl⟩
  own := fun p _ => Or.inl ⟨p, rfl⟩
  inode := fun _ _ => rfl
  inum := rfl

/-- A used block that is not the inode's stays out of its reach. -/
theorem not_own (h : Frame V ip V' ip') {b : ℕ} (hb : V.used b = true) (h0 : b ≠ 0)
    (hown : ∀ p, V.addr ip p ≠ b) (p : ℕ) : V'.addr ip' p ≠ b := by
  intro heq
  rcases h.own p (by rw [heq]; exact h0) with ⟨q, hq⟩ | hfree
  · exact hown q (hq.trans heq)
  · rw [heq, hb] at hfree
    exact absurd hfree (by decide)

theorem trans (hd : ∀ b, V.used b = true → b ≠ 0) (h : Frame V ip V' ip')
    (h' : Frame V' ip' V'' ip'') : Frame V ip V'' ip'' where
  keep := by
    intro b hb hown
    obtain ⟨hb', heq⟩ := h.keep b hb hown
    obtain ⟨hb'', heq'⟩ := h'.keep b hb' (h.not_own hb (hd b hb) hown)
    exact ⟨hb'', heq'.trans heq⟩
  own := by
    intro p hp
    rcases h'.own p hp with ⟨q, hq⟩ | hfree
    · rw [← hq] at hp ⊢
      exact h.own q hp
    · by_cases hV : V.used (V''.addr ip'' p) = true
      · by_cases hown : ∀ q, V.addr ip q ≠ V''.addr ip'' p
        · rw [(h.keep _ hV hown).1] at hfree
          exact absurd hfree (by decide)
        · obtain ⟨q, hq⟩ := not_forall.mp hown
          exact Or.inl ⟨q, not_not.mp hq⟩
      · exact Or.inr (by simpa using hV)
  inode := by
    intro n hn
    rw [h'.inode n (by rwa [h.inum]), h.inode n hn]
  inum := h'.inum.trans h.inum

end Frame

/-- Growth of an inode by at most `n` blocks, content apart. -/
structure Grows (n : ℕ) (V : Vol) (ip : Inode) (V' : Vol) (ip' : Inode) : Prop where
  owns : V'.Owns ip'
  frame : Frame V ip V' ip'
  kept : ∀ p, V.addr ip p ≠ 0 → V'.addr ip' p = V.addr ip p
  info : ip' = { ip with addrs := ip'.addrs }
  inode : V'.inode = V.inode
  budget : V.free ≤ V'.free + n

namespace Grows

variable {V V' V'' : Vol} {ip ip' ip'' : Inode} {n m : ℕ}

theorem refl (h : V.Owns ip) : Grows 0 V ip V ip where
  owns := h
  frame := Frame.refl V ip
  kept := fun _ _ => rfl
  info := rfl
  inode := rfl
  budget := le_rfl

theorem trans (hd : ∀ b, V.used b = true → b ≠ 0) (h : Grows n V ip V' ip')
    (h' : Grows m V' ip' V'' ip'') : Grows (n + m) V ip V'' ip'' where
  owns := h'.owns
  frame := h.frame.trans hd h'.frame
  kept := by
    intro p hp
    have hk := h.kept p hp
    rw [h'.kept p (by rwa [hk]), hk]
  info := by
    rw [h'.info, h.info]
  inode := h'.inode.trans h.inode
  budget := by
    have h1 := h.budget
    have h2 := h'.budget
    omega

end Grows

end ToyOs.Fs
