import ToyOs.Fs.Content
import ToyOs.Fs.State

/-!
What holds of one inode between operations: its blocks are its own, there is
no hole below its size, and the copy on disk, which lags behind after a
failed write, is as sound as the one in memory. Growth keeps it, writing the
inode back establishes it, and a change of another inode that shares no
block with this one does not touch it.
-/
namespace ToyOs.Fs

open Bytes Prog

variable {c : Dev} {H : Held} {V V' : Vol} {x : Dinode} {ip ip' jp : Inode} {n k p : ℕ}

/-- The address slot that a position goes through. -/
def slotOf (p : ℕ) : Fin (ndirect + 1) :=
  if h : p < ndirect then ⟨p, Nat.lt_succ_of_lt h⟩ else indirectSlot

/-- Addresses of `ip`, some of them missing. -/
def Sub (jp ip : Inode) : Prop := ∀ k, jp.addrs k ≠ 0 → jp.addrs k = ip.addrs k

theorem addr_slot_zero (h : jp.addrs (slotOf p) = 0) : V.addr jp p = 0 := by
  unfold slotOf at h
  split at h
  · rename_i hp
    rw [V.addr_direct jp hp]
    exact h
  · unfold Vol.addr
    simp [*]

theorem Sub.addr (hsub : Sub jp ip) (h : jp.addrs (slotOf p) ≠ 0) : V.addr jp p = V.addr ip p := by
  have heq := hsub _ h
  unfold slotOf at h heq
  split at h
  · rename_i hp
    rw [dif_pos hp] at heq
    rw [V.addr_direct jp hp, V.addr_direct ip hp, heq]
  · rename_i hp
    rw [dif_neg hp] at heq
    unfold Vol.addr
    rw [dif_neg hp, dif_neg hp, heq]

theorem Sub.addr_ne (hsub : Sub jp ip) (h : V.addr jp p ≠ 0) : V.addr jp p = V.addr ip p :=
  hsub.addr fun h0 => h (addr_slot_zero h0)

/-- The copy of an inode on disk. -/
structure Shadow (V : Vol) (x : Dinode) (ip : Inode) : Prop where
  typ : x.typ = ip.typ
  major : x.major = ip.major
  minor : x.minor = ip.minor
  nlink : x.nlink = ip.nlink
  size : x.size = ip.size
  sub : Sub (Inode.ofDinode ip.inum x) ip
  mapped : V.MappedTo (Inode.ofDinode ip.inum x) x.size

structure Intact (V : Vol) (ip : Inode) : Prop where
  inum : ip.inum < ninodes
  owns : V.Owns ip
  dense : V.Dense ip
  shadow : Shadow V (V.inode ip.inum) ip

theorem Vol.byte_congr (ha : ip'.addrs = ip.addrs) (hb : V'.block = V.block) (k : ℕ) :
    V'.byte ip' k = V.byte ip k := by
  have haddr : V'.addr ip' (k / bsize) = V.addr ip (k / bsize) :=
    Vol.addr_congr ha (fun _ => by rw [hb]) _
  rw [Vol.byte, Vol.byte, haddr, hb]

/-- The block map does not depend on the size. -/
theorem Vol.addr_resize (V : Vol) (ip : Inode) (s p : ℕ) :
    V.addr { ip with size := s } p = V.addr ip p :=
  Vol.addr_congr rfl (fun _ => rfl) p

theorem Vol.Owns.resize (h : V.Owns ip) (s : ℕ) : V.Owns { ip with size := s } where
  used := fun p hp => by
    rw [V.addr_resize] at hp ⊢
    exact h.used p hp
  inj := fun p q hp heq => by
    rw [V.addr_resize] at hp heq
    rw [V.addr_resize] at heq
    exact h.inj p q hp heq

theorem Frame.resize (h : Frame V ip V' ip') (s s' : ℕ) :
    Frame V { ip with size := s } V' { ip' with size := s' } where
  keep := fun b hb hown => h.keep b hb fun p => by
    rw [← V.addr_resize ip s]
    exact hown p
  own := fun p hp => by
    rw [V'.addr_resize] at hp ⊢
    simp only [V.addr_resize]
    exact h.own p hp
  inode := h.inode
  inum := h.inum

theorem Grows.resize (h : Grows n V ip V' ip') (s : ℕ) :
    Grows n V { ip with size := s } V' { ip' with size := s } where
  owns := h.owns.resize s
  frame := h.frame.resize s s
  kept := fun p hp => by
    rw [V.addr_resize] at hp ⊢
    rw [V'.addr_resize]
    exact h.kept p hp
  info := by
    rw [h.info]
  inode := h.inode
  budget := h.budget

/-- The 16-bit fields hold 16-bit values. -/
structure Inode.InfoFits (ip : Inode) : Prop where
  typ : -2 ^ 15 ≤ ip.typ ∧ ip.typ < 2 ^ 15
  major : -2 ^ 15 ≤ ip.major ∧ ip.major < 2 ^ 15
  minor : -2 ^ 15 ≤ ip.minor ∧ ip.minor < 2 ^ 15
  nlink : -2 ^ 15 ≤ ip.nlink ∧ ip.nlink < 2 ^ 15

theorem Vol.MappedTo.mono {k' : ℕ} (h : V.MappedTo ip k) (hle : k' ≤ k) : V.MappedTo ip k' :=
  fun p hp => h p (by omega)

theorem Vol.MappedTo.grow (h : V.MappedTo ip k) (hg : Grows n V ip V' ip') :
    V'.MappedTo ip' k := by
  intro p hp
  rw [hg.kept p (h p hp)]
  exact h p hp

/-- Addresses that are set stay as the inode grows. -/
theorem Grows.addrs (hg : Grows n V ip V' ip') : Sub ip ip' := by
  intro k hk
  obtain ⟨p, hp, hcase⟩ := V.addrs_eq ip k
  have hkept := hg.kept p (by rwa [hp])
  rw [hp] at hkept
  rw [← hkept]
  rcases hcase with ⟨rfl, hlt⟩ | ⟨rfl, rfl⟩
  · rw [V'.addr_direct ip' hlt]
  · rw [V'.addr_table]

theorem Sub.trans {kp : Inode} (h : Sub jp ip) (h' : Sub ip kp) : Sub jp kp := by
  intro k hk
  rw [h k hk]
  exact h' k (by rwa [← h k hk])

/-- A mapped position of the copy stays mapped while the inode keeps its map. -/
theorem Sub.mappedTo (hsub : Sub jp ip) (hsub' : Sub jp ip')
    (hmap : V.MappedTo jp k) (hkept : ∀ p, V.addr ip p ≠ 0 → V'.addr ip' p = V.addr ip p) :
    V'.MappedTo jp k := by
  intro p hp
  have hne := hmap p hp
  have hslot : jp.addrs (slotOf p) ≠ 0 := fun h0 => hne (addr_slot_zero h0)
  rw [hsub.addr hslot] at hne
  rw [hsub'.addr hslot, hkept p hne]
  exact hne

namespace Intact

/-- The fields of an intact inode are those of a `Dinode`. -/
theorem info_fits (h : Intact V ip) (hm : Mounted c H V) : ip.InfoFits := by
  have hx := hm.inode_fits ip.inum
  have hs := h.shadow
  exact ⟨hs.typ ▸ hx.typ, hs.major ▸ hx.major, hs.minor ▸ hx.minor, hs.nlink ▸ hx.nlink⟩

end Intact

theorem Inode.InfoFits.fits (hx : ip.InfoFits) (hm : Mounted c H V) (ho : V.Owns ip)
    (hd : V.Dense ip) : ip.toDinode.Fits where
  typ := hx.typ
  major := hx.major
  minor := hx.minor
  nlink := hx.nlink
  size := lt_of_le_of_lt hd.size (by decide)
  addrs := by
    intro k
    change ip.addrs k < 2 ^ 32
    obtain ⟨p, hp, -⟩ := V.addrs_eq ip k
    by_cases h0 : ip.addrs k = 0
    · rw [h0]
      decide
    · rw [← hp] at h0 ⊢
      exact (hm.isData (ho.used p h0)).lt.trans (by decide)

namespace Intact

theorem grow (h : Intact V ip) (hg : Grows n V ip V' ip') : Intact V' ip' := by
  have hinfo := hg.info
  have hinum : ip'.inum = ip.inum := hg.frame.inum
  have hsize : ip'.size = ip.size := by rw [hinfo]
  have hs := h.shadow
  have hsub : Sub (Inode.ofDinode ip.inum (V.inode ip.inum)) ip' := hs.sub.trans hg.addrs
  refine ⟨by rw [hinum]; exact h.inum, hg.owns, ⟨by rw [hsize]; exact h.dense.size, ?_⟩, ?_⟩
  · rw [hsize]
    exact h.dense.mapped.grow hg
  · rw [hg.inode, hinum]
    refine ⟨?_, ?_, ?_, ?_, hs.size.trans hsize.symm, ?_, ?_⟩
    · rw [hinfo, hs.typ]
    · rw [hinfo, hs.major]
    · rw [hinfo, hs.minor]
    · rw [hinfo, hs.nlink]
    · rw [hinum]
      exact hsub
    · rw [hinum]
      exact hs.sub.mappedTo hsub hs.mapped hg.kept

/-- Writing the inode back makes the copy on disk equal to it. -/
theorem commit (ip : Inode) (hn : ip.inum < ninodes) (ho : V.Owns ip) (hd : V.Dense ip) :
    Intact (V.setInode ip.inum ip.toDinode) ip := by
  have haddr : ∀ p, (V.setInode ip.inum ip.toDinode).addr ip p = V.addr ip p :=
    Vol.addr_congr rfl fun _ => rfl
  have hmap : (V.setInode ip.inum ip.toDinode).MappedTo ip ip.size := by
    intro p hp
    rw [haddr]
    exact hd.mapped p hp
  have hself : (V.setInode ip.inum ip.toDinode).inode ip.inum = ip.toDinode := by
    simp [Vol.setInode]
  refine ⟨hn, ⟨?_, ?_⟩, ⟨hd.size, hmap⟩, ?_⟩
  · intro p hp
    rw [haddr] at hp ⊢
    exact ho.used p hp
  · intro p q hp heq
    rw [haddr] at hp heq
    rw [haddr] at heq
    exact ho.inj p q hp heq
  · rw [hself]
    exact ⟨rfl, rfl, rfl, rfl, rfl, fun _ _ => rfl, hmap⟩

end Intact

/-- The inode table is not the business of a frame. -/
theorem Frame.setInode (h : Frame V ip V' ip') (hn : n = ip.inum) (x : Dinode) :
    Frame V ip (V'.setInode n x) ip' where
  keep := h.keep
  own := by
    intro p hp
    have haddr : (V'.setInode n x).addr ip' p = V'.addr ip' p :=
      Vol.addr_congr rfl (fun _ => rfl) p
    rw [haddr] at hp ⊢
    exact h.own p hp
  inode := by
    intro m hm
    simp only [Vol.setInode, Function.update_of_ne (hn ▸ hm)]
    exact h.inode m hm
  inum := h.inum

section Others

variable (hf : Frame V ip V' ip') (hj : Intact V jp) (hne : jp.inum ≠ ip.inum)
  (hdisj : ∀ p q, V.addr jp p ≠ 0 → V.addr jp p ≠ V.addr ip q)
include hf hj hdisj

theorem Frame.block_other (h : V.addr jp p ≠ 0) :
    V'.used (V.addr jp p) = true ∧ V'.block (V.addr jp p) = V.block (V.addr jp p) :=
  hf.keep _ (hj.owns.used p h) fun q => (hdisj p q h).symm

theorem Frame.addr_other (p : ℕ) : V'.addr jp p = V.addr jp p := by
  refine Vol.addr_congr rfl (fun ht => ?_) p
  rw [← V.addr_table] at ht ⊢
  exact (hf.block_other hj hdisj ht).2

theorem Frame.byte_other (k : ℕ) : V'.byte jp k = V.byte jp k := by
  unfold Vol.byte
  rw [hf.addr_other hj hdisj]
  split
  · rename_i h
    rw [(hf.block_other hj hdisj h.2).2]
  · rfl

theorem Frame.content_other : V'.content jp = V.content jp :=
  read_congr _ _ _ _ fun k _ _ => hf.byte_other hj hdisj k

/-- The blocks of the two inodes stay apart. -/
theorem Frame.apart (p q : ℕ) (h : V'.addr jp p ≠ 0) : V'.addr jp p ≠ V'.addr ip' q := by
  rw [hf.addr_other hj hdisj] at h ⊢
  exact (hf.not_own (hj.owns.used p h) h (fun r => (hdisj p r h).symm) q).symm

include hne

theorem Frame.intact_other : Intact V' jp := by
  have haddr := hf.addr_other hj hdisj
  have hs := hj.shadow
  refine ⟨hj.inum, ⟨?_, ?_⟩, ⟨hj.dense.size, ?_⟩, ?_⟩
  · intro p hp
    rw [haddr] at hp ⊢
    exact (hf.block_other hj hdisj hp).1
  · intro p q hp heq
    rw [haddr] at hp heq
    rw [haddr] at heq
    exact hj.owns.inj p q hp heq
  · intro p hp
    rw [haddr]
    exact hj.dense.mapped p hp
  · rw [hf.inode _ hne]
    exact { hs with mapped := hs.sub.mappedTo hs.sub hs.mapped fun p _ => haddr p }

end Others

end ToyOs.Fs
