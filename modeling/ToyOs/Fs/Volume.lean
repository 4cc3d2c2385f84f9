import ToyOs.Fs.Cache
import Mathlib.Data.Fintype.BigOperators

/-!
The volume behind the block layer: a table of inodes, a bitmap of used
blocks and the data blocks. The disk encodes the three side by side; every
operation of the block layer is a change of one of them that leaves the
other two alone.
-/
namespace ToyOs.Fs

open Bytes Prog Function List Nat

/-- The numbers that `balloc` may give out. -/
def IsData (b : ℕ) : Prop := datastart ≤ b ∧ b < fssize

instance (b : ℕ) : Decidable (IsData b) := inferInstanceAs (Decidable (_ ∧ _))

structure Vol where
  inode : ℕ → Dinode
  used : ℕ → Bool
  block : ℕ → Block

def bitSet (d : ℕ → Block) (b : ℕ) : Bool := d (bblock b) (bitByte b) &&& bitMask b != 0

def dinodeOn (d : ℕ → Block) (n : ℕ) : Dinode :=
  Dinode.decode (d (iblock n)) (n % ipb * dinodeSize)

/-- What a disk holds; numbers out of range have nothing. -/
def volume (d : ℕ → Block) : Vol where
  inode n := if n < ninodes then dinodeOn d n else ⟨0, 0, 0, 0, 0, fun _ => 0⟩
  used b := if IsData b then bitSet d b else false
  block b := if IsData b then d b else fun _ => 0

/-- Fields that a `Dinode` on disk can hold. -/
structure Dinode.Fits (x : Dinode) : Prop where
  typ : -2 ^ 15 ≤ x.typ ∧ x.typ < 2 ^ 15
  major : -2 ^ 15 ≤ x.major ∧ x.major < 2 ^ 15
  minor : -2 ^ 15 ≤ x.minor ∧ x.minor < 2 ^ 15
  nlink : -2 ^ 15 ≤ x.nlink ∧ x.nlink < 2 ^ 15
  size : x.size < 2 ^ 32
  addrs : ∀ k, x.addrs k < 2 ^ 32

theorem i16_bounds {w : ℕ} (h : w < 256 ^ 2) : -2 ^ 15 ≤ i16 w ∧ i16 w < 2 ^ 15 := by
  unfold i16
  split <;> omega

theorem i16_w16 {v : ℤ} (h : -2 ^ 15 ≤ v ∧ v < 2 ^ 15) : i16 (w16 v % 256 ^ 2) = v := by
  unfold i16 w16
  split <;> omega

theorem Dinode.decode_fits (b : Block) (off : ℕ) : (Dinode.decode b off).Fits where
  typ := i16_bounds (load_lt 2 b off)
  major := i16_bounds (load_lt 2 b _)
  minor := i16_bounds (load_lt 2 b _)
  nlink := i16_bounds (load_lt 2 b _)
  size := load_lt 4 b _
  addrs := fun _ => load_lt 4 b _

theorem volume_inode_fits (d : ℕ → Block) (n : ℕ) : ((volume d).inode n).Fits := by
  simp only [volume]
  split
  · exact Dinode.decode_fits _ _
  · constructor <;> simp

section Codec

variable (x : Dinode)

/-- The bytes of the addresses before position `k`. -/
def addrBytes (l : List (Fin (ndirect + 1))) : List UInt8 :=
  l.flatMap fun k => (List.range 4).map (byteAt (x.addrs k))

theorem addrBytes_length (l : List (Fin (ndirect + 1))) : (addrBytes x l).length = 4 * l.length := by
  induction l with
  | nil => rfl
  | cons k rest ih =>
    simp only [addrBytes, flatMap_cons, length_append, length_map,
      length_range, length_cons] at ih ⊢
    omega

/-- The bytes of the fields before the addresses. -/
def headBytes : List UInt8 :=
  (List.range 2).map (byteAt (w16 x.typ)) ++ (List.range 2).map (byteAt (w16 x.major)) ++
    (List.range 2).map (byteAt (w16 x.minor)) ++ (List.range 2).map (byteAt (w16 x.nlink)) ++
    (List.range 4).map (byteAt x.size)

theorem Dinode.encode_eq : x.encode = headBytes x ++ addrBytes x (List.finRange _) := rfl

theorem Dinode.encode_length : x.encode.length = dinodeSize := by
  rw [Dinode.encode_eq, length_append, addrBytes_length]
  simp [headBytes, ndirect, dinodeSize]

theorem Dinode.encode_addr (k : Fin (ndirect + 1)) :
    ∃ front back, x.encode = front ++ (List.range 4).map (byteAt (x.addrs k)) ++ back ∧
      front.length = 12 + 4 * k := by
  have hk : (k : ℕ) < (List.finRange (ndirect + 1)).length := by
    rw [length_finRange]
    exact k.isLt
  have hsplit : List.finRange (ndirect + 1) =
      (List.finRange (ndirect + 1)).take k ++ k :: (List.finRange (ndirect + 1)).drop (k + 1) := by
    conv_lhs => rw [← take_append_drop k (List.finRange (ndirect + 1)),
      drop_eq_getElem_cons hk]
    simp
  refine ⟨headBytes x ++ addrBytes x ((List.finRange (ndirect + 1)).take k),
    addrBytes x ((List.finRange (ndirect + 1)).drop (k + 1)), ?_, ?_⟩
  · rw [Dinode.encode_eq]
    conv_lhs => rw [hsplit]
    simp [addrBytes, append_assoc]
  · rw [length_append, addrBytes_length, length_take]
    have : (headBytes x).length = 12 := by simp [headBytes]
    omega

/-- A `Dinode` that fits is read back as it was written. -/
theorem Dinode.decode_write (h : x.Fits) (b : Block) (off : ℕ) :
    Dinode.decode (write b off x.encode) off = x := by
  have part : ∀ n v front back, x.encode = front ++ (List.range n).map (byteAt v) ++ back →
      load n (write b off x.encode) (off + front.length) = v % 256 ^ n := by
    intro n v front back heq
    rw [heq]
    exact load_write_append b off n v front back
  have htyp := part 2 (w16 x.typ) [] (x.encode.drop 2) (by simp [Dinode.encode_eq, headBytes])
  have hmajor := part 2 (w16 x.major) ((List.range 2).map (byteAt (w16 x.typ)))
    (x.encode.drop 4) (by simp [Dinode.encode_eq, headBytes, range_succ])
  have hminor := part 2 (w16 x.minor) (x.encode.take 4) (x.encode.drop 6)
    (by simp [Dinode.encode_eq, headBytes, range_succ])
  have hnlink := part 2 (w16 x.nlink) (x.encode.take 6) (x.encode.drop 8)
    (by simp [Dinode.encode_eq, headBytes, range_succ])
  have hsize := part 4 x.size (x.encode.take 8) (x.encode.drop 12)
    (by simp [Dinode.encode_eq, headBytes, range_succ])
  have hlen := x.encode_length
  unfold dinodeSize at hlen
  simp only [length_nil, add_zero, length_map, length_range,
    length_take, hlen, show min 4 64 = 4 from rfl, show min 6 64 = 6 from rfl,
    show min 8 64 = 8 from rfl] at htyp hmajor hminor hnlink hsize
  have haddr : ∀ k : Fin (ndirect + 1),
      load 4 (write b off x.encode) (off + 12 + 4 * k) = x.addrs k := by
    intro k
    obtain ⟨front, back, heq, hfront⟩ := x.encode_addr k
    have hk := part 4 (x.addrs k) front back heq
    rw [hfront, ← add_assoc] at hk
    rw [hk]
    exact mod_eq_of_lt (h.addrs k)
  have hsize' : x.size % 256 ^ 4 = x.size := mod_eq_of_lt h.size
  simp only [Dinode.decode, htyp, hmajor, hminor, hnlink, hsize, haddr, hsize', i16_w16 h.typ,
    i16_w16 h.major, i16_w16 h.minor, i16_w16 h.nlink]

/-- Writing one `Dinode` of a block leaves the others. -/
theorem Dinode.decode_write_ne (b : Block) {i j : ℕ} (h : i ≠ j) :
    Dinode.decode (write b (i * dinodeSize) x.encode) (j * dinodeSize) =
      Dinode.decode b (j * dinodeSize) := by
  have far : ∀ n k, k + n ≤ dinodeSize →
      load n (write b (i * dinodeSize) x.encode) (j * dinodeSize + k) =
        load n b (j * dinodeSize + k) := by
    intro n k hk
    apply load_write_of_disjoint
    rw [x.encode_length]
    rcases lt_or_gt_of_ne h with hlt | hlt
    · have := mul_le_mul_right dinodeSize hlt
      rw [succ_mul] at this
      omega
    · have := mul_le_mul_right dinodeSize hlt
      rw [succ_mul] at this
      omega
  have h0 := far 2 0 (by decide)
  rw [add_zero] at h0
  have haddr : ∀ k : Fin (ndirect + 1),
      load 4 (write b (i * dinodeSize) x.encode) (j * dinodeSize + 12 + 4 * k) =
        load 4 b (j * dinodeSize + 12 + 4 * k) := by
    intro k
    have hk : (k : ℕ) < 13 := k.isLt
    rw [add_assoc]
    exact far 4 _ (by unfold dinodeSize; omega)
  simp only [Dinode.decode, h0, far 2 2 (by decide), far 2 4 (by decide), far 2 6 (by decide),
    far 4 8 (by decide), haddr]

end Codec

section Bits

theorem mask_and (i j : Fin 8) :
    UInt8.ofNat (2 ^ i.val) &&& UInt8.ofNat (2 ^ j.val) =
      if i = j then UInt8.ofNat (2 ^ j.val) else 0 := by
  revert i j
  decide

theorem not_mask_and (i j : Fin 8) :
    ~~~UInt8.ofNat (2 ^ i.val) &&& UInt8.ofNat (2 ^ j.val) =
      if i = j then 0 else UInt8.ofNat (2 ^ j.val) := by
  revert i j
  decide

theorem mask_ne_zero (j : Fin 8) : UInt8.ofNat (2 ^ j.val) ≠ 0 := by
  revert j
  decide

theorem mask_or (x : UInt8) (i j : Fin 8) :
    ((x ||| UInt8.ofNat (2 ^ i.val)) &&& UInt8.ofNat (2 ^ j.val) != 0) =
      (i == j || x &&& UInt8.ofNat (2 ^ j.val) != 0) := by
  have hdist : ∀ a b k : UInt8, (a ||| b) &&& k = (a &&& k) ||| (b &&& k) := by
    intro a b k
    simp [← UInt8.toBitVec_inj, BitVec.and_or_distrib_right]
  rw [hdist, mask_and]
  by_cases h : i = j
  · simp [h, UInt8.or_eq_zero_iff, mask_ne_zero]
  · simp [h]

theorem mask_clear (x : UInt8) (i j : Fin 8) :
    ((x &&& ~~~UInt8.ofNat (2 ^ i.val)) &&& UInt8.ofNat (2 ^ j.val) != 0) =
      (i != j && x &&& UInt8.ofNat (2 ^ j.val) != 0) := by
  rw [UInt8.and_assoc, not_mask_and]
  by_cases h : i = j <;> simp [h]

end Bits

section Layout

variable {d : ℕ → Block} {b n : ℕ}

theorem iblock_lt (h : n < ninodes) : iblock n < bmapstart := by
  unfold iblock ipb inodestart bmapstart
  unfold ninodes at h
  omega

theorem bblock_data (h : IsData b) : bblock b = bmapstart := by
  obtain ⟨_, h⟩ := h
  unfold fssize at h
  unfold bblock bpb bsize
  omega

theorem volume_write_block (h : IsData b) (x : Block) :
    volume (update d b x) =
      { volume d with block := update (volume d).block b x } := by
  have hlow : ∀ a, a ≤ bmapstart → update d b x a = d a := by
    intro a ha
    apply update_of_ne
    have := h.1
    unfold datastart at this
    unfold bmapstart at ha
    omega
  simp only [volume, Vol.mk.injEq]
  refine ⟨?_, ?_, ?_⟩
  · funext n
    split
    · rename_i hn
      rw [dinodeOn, hlow _ (iblock_lt hn).le, dinodeOn]
    · rfl
  · funext a
    split
    · rename_i ha
      rw [bitSet, hlow _ (bblock_data ha).le, bitSet]
    · rfl
  · funext a
    by_cases ha : a = b
    · subst ha
      simp [h]
    · simp [ha]

theorem volume_write_inode (h : n < ninodes) {x : Dinode} (hx : x.Fits) :
    volume (update d (iblock n)
        (write (d (iblock n)) (n % ipb * dinodeSize) x.encode)) =
      { volume d with inode := update (volume d).inode n x } := by
  have hib := iblock_lt h
  have hhigh : ∀ a y, bmapstart ≤ a → update d (iblock n) y a = d a := fun a y ha =>
    update_of_ne (by omega) _ _
  simp only [volume, Vol.mk.injEq]
  refine ⟨?_, ?_, ?_⟩
  · funext m
    by_cases hm : m = n
    · subst hm
      simp only [h, if_true, update_self, dinodeOn]
      exact x.decode_write hx _ _
    · rw [update_of_ne hm]
      split
      · by_cases hblk : iblock m = iblock n
        · have hslot : n % ipb ≠ m % ipb := by
            unfold iblock at hblk
            unfold ipb at *
            omega
          simp only [dinodeOn, hblk, update_self]
          exact x.decode_write_ne _ hslot
        · simp only [dinodeOn, update_of_ne hblk]
      · rfl
  · funext a
    split
    · rename_i ha
      rw [bitSet, hhigh _ _ (bblock_data ha).ge, bitSet]
    · rfl
  · funext a
    split
    · rename_i ha
      exact hhigh _ _ (by have := ha.1; unfold datastart at this; unfold bmapstart; omega)
    · rfl

theorem bitMask_eq (b : ℕ) : bitMask b = UInt8.ofNat (2 ^ (⟨b % bpb % 8, by omega⟩ : Fin 8).val) :=
  rfl

theorem IsData.lt_bpb (h : IsData b) : b < bpb := by
  have h2 := h.2
  unfold fssize at h2
  unfold bpb bsize
  omega

theorem bblock_lt_bpb (h : b < bpb) : bblock b = bmapstart := by
  rw [bblock, div_eq_of_lt h, zero_add]

/-- A change of one bit in a byte of the bitmap. -/
theorem bitSet_write {a : ℕ} (ha : a < bpb) (hb : b < bpb) (y : UInt8) (v : Bool)
    (hy : ∀ j : Fin 8, (y &&& UInt8.ofNat (2 ^ j.val) != 0) =
      if j.val = b % bpb % 8 then v
      else d (bblock b) (bitByte b) &&& UInt8.ofNat (2 ^ j.val) != 0) :
    bitSet (update d (bblock b) (update (d (bblock b)) (bitByte b) y)) a =
      if a = b then v else bitSet d a := by
  have hblock : bblock a = bblock b := by rw [bblock_lt_bpb ha, bblock_lt_bpb hb]
  have hmod : a % bpb = a ∧ b % bpb = b := ⟨mod_eq_of_lt ha, mod_eq_of_lt hb⟩
  rw [bitSet, bitSet, hblock, update_self]
  by_cases hbyte : bitByte a = bitByte b
  · rw [hbyte, update_self, bitMask_eq, hy]
    by_cases hab : a = b
    · subst hab
      simp
    · rw [if_neg hab, if_neg]
      unfold bitByte at hbyte
      simp only [hmod.1, hmod.2] at hbyte ⊢
      omega
  · have hab : a ≠ b := fun h => hbyte (by rw [h])
    rw [update_of_ne hbyte, if_neg hab]

/-- A change of the bitmap byte of one block is a change of that block's bit. -/
theorem volume_write_bit (h : IsData b) (y : UInt8) (v : Bool)
    (hy : ∀ j : Fin 8, (y &&& UInt8.ofNat (2 ^ j.val) != 0) =
      if j.val = b % bpb % 8 then v
      else d (bblock b) (bitByte b) &&& UInt8.ofNat (2 ^ j.val) != 0) :
    volume (update d (bblock b) (update (d (bblock b)) (bitByte b) y)) =
      { volume d with used := update (volume d).used b v } := by
  have hbb := bblock_data h
  simp only [volume, Vol.mk.injEq]
  refine ⟨?_, ?_, ?_⟩
  · funext n
    split
    · rename_i hn
      have := iblock_lt hn
      rw [dinodeOn, update_of_ne (by omega), dinodeOn]
    · rfl
  · funext a
    by_cases hab : a = b
    · rw [hab, if_pos h, update_self, bitSet_write h.lt_bpb h.lt_bpb y v hy, if_pos rfl]
    · rw [update_of_ne hab]
      by_cases ha : IsData a
      · rw [if_pos ha, if_pos ha, bitSet_write ha.lt_bpb h.lt_bpb y v hy, if_neg hab]
      · rw [if_neg ha, if_neg ha]
  · funext a
    split
    · rename_i ha
      apply update_of_ne
      have := ha.1
      unfold datastart at this
      unfold bmapstart at hbb
      omega
    · rfl

end Layout

end ToyOs.Fs
