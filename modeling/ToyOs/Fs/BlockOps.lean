import ToyOs.Fs.Volume
import Mathlib.Order.Interval.Finset.Nat

/-!
The operations of the block layer as changes of the volume: reading and
writing a `Dinode`, allocating and freeing a block, and access to the data of
a held block. None of them panics on a mounted volume with a buffer to spare.
-/
namespace ToyOs.Fs

open Bytes Prog List

variable {Q : Unit → Dev → Prop}

/-- The device serves this volume, with these buffers held. -/
def Mounted (c : Dev) (H : Held) (V : Vol) : Prop := ∃ d, Cached c H d ∧ volume d = V

namespace Vol

def setInode (V : Vol) (n : ℕ) (x : Dinode) : Vol := { V with inode := Function.update V.inode n x }

def setUsed (V : Vol) (b : ℕ) (v : Bool) : Vol := { V with used := Function.update V.used b v }

def setBlock (V : Vol) (b : ℕ) (x : Block) : Vol := { V with block := Function.update V.block b x }

/-- Take a block from the bitmap and clear it. -/
def take (V : Vol) (b : ℕ) : Vol := (V.setUsed b true).setBlock b (fill (V.block b) 0 bsize 0)

/-- Number of free blocks. -/
def free (V : Vol) : ℕ := ((Finset.Ico datastart fssize).filter fun b => V.used b = false).card

end Vol

variable {c : Dev} {H : Held} {V : Vol} {b n : ℕ} {i : Fin nbuf} {E : Panic → Prop}

theorem IsData.lt (h : IsData b) : b < fssize := h.2

theorem IsData.pos (h : IsData b) : b ≠ 0 := by
  have := h.1
  unfold datastart at this
  omega

theorem mem_dataBlocks : b ∈ dataBlocks ↔ IsData b := by
  unfold dataBlocks IsData
  simp only [mem_range'_1]
  unfold datastart fssize
  omega

/-- What lies below the head of a final part of the data blocks is not in it. -/
theorem not_mem_of_suffix {a : ℕ} {rest : List ℕ} (h : (b :: rest) <:+ dataBlocks) (hab : a < b) :
    a ∉ b :: rest := by
  have hsorted : (b :: rest).Pairwise (· < ·) := by
    refine List.Pairwise.sublist h.sublist ?_
    unfold dataBlocks
    exact pairwise_lt_range'
  intro hmem
  rcases mem_cons.mp hmem with rfl | hrest
  · exact Nat.lt_irrefl a hab
  · exact Nat.lt_asymm hab (rel_of_pairwise_cons hsorted hrest)

namespace Mounted

theorem isData (hm : Mounted c H V) (h : V.used b = true) : IsData b := by
  obtain ⟨d, -, rfl⟩ := hm
  simp only [volume] at h
  by_contra hb
  rw [if_neg hb] at h
  exact absurd h (by decide)

theorem inode_fits (hm : Mounted c H V) (n : ℕ) : (V.inode n).Fits := by
  obtain ⟨d, -, rfl⟩ := hm
  exact volume_inode_fits d n

theorem bread {Q : Option (Fin nbuf) → Dev → Prop} (hm : Mounted c H V) (hb : b < fssize)
    (hH : H.length < nbuf) (hQ : ∀ i c', Mounted c' ((i, b) :: H) V → Q (some i) c') :
    wp (bread b) E Q c := by
  obtain ⟨d, hc, rfl⟩ := hm
  exact wp_bread hc hb hH fun i c' hc' => hQ i c' ⟨d, hc', rfl⟩

theorem readBuf {Q : Block → Dev → Prop} (hm : Mounted c H V) (hi : (i, b) ∈ H) (hb : IsData b)
    (hQ : Q (V.block b) c) : wp (readBuf i) E Q c := by
  obtain ⟨d, hc, rfl⟩ := hm
  refine wp_readBuf hc hi ?_
  simpa only [volume, if_pos hb] using hQ

theorem writeBuf (hm : Mounted c H V) (hi : (i, b) ∈ H) (hb : IsData b) (f : Block → Block)
    (hQ : ∀ c', Mounted c' H (V.setBlock b (f (V.block b))) → Q () c') :
    wp (writeBuf i f) E Q c := by
  obtain ⟨d, hc, rfl⟩ := hm
  refine wp_writeBuf hc hi f fun c' hc' => hQ c' ⟨_, hc', ?_⟩
  have hd : (volume d).block b = d b := if_pos hb
  rw [volume_write_block hb, hd]
  rfl

theorem brelse (hm : Mounted c ((i, b) :: H) V) (hQ : ∀ c', Mounted c' H V → Q () c') :
    wp (brelse i) E Q c := by
  obtain ⟨d, hc, rfl⟩ := hm
  exact wp_brelse hc fun c' hc' => hQ c' ⟨d, hc', rfl⟩

theorem readBlock {β : Type} {f : Block → DevM β} {Q : β → Dev → Prop} (hm : Mounted c H V)
    (hb : IsData b) (hH : H.length < nbuf)
    (hQ : ∀ c', Mounted c' H V → wp (f (V.block b)) E Q c') :
    wp (do
      let bp ← Prog.expect .bread (← Fs.bread b)
      let data ← Fs.readBuf bp
      Fs.brelse bp
      f data) E Q c := by
  simp only [wp_bind]
  refine hm.bread hb.lt hH fun i c1 h1 => ?_
  rw [wp_expect]
  refine ⟨fun j hj => ?_, fun h => by simp at h⟩
  obtain rfl := Option.some.inj hj
  exact h1.readBuf mem_cons_self hb (h1.brelse hQ)

theorem updateBlock {β : Type} {m : DevM β} {Q : β → Dev → Prop} (hm : Mounted c H V)
    (hb : IsData b) (hH : H.length < nbuf) (f : Block → Block)
    (hQ : ∀ c', Mounted c' H (V.setBlock b (f (V.block b))) → wp m E Q c') :
    wp (do
      let bp ← Prog.expect .bread (← Fs.bread b)
      Fs.writeBuf bp f
      Fs.brelse bp
      m) E Q c := by
  simp only [wp_bind]
  refine hm.bread hb.lt hH fun i c1 h1 => ?_
  rw [wp_expect]
  refine ⟨fun j hj => ?_, fun h => by simp at h⟩
  obtain rfl := Option.some.inj hj
  exact h1.writeBuf mem_cons_self hb f fun c2 h2 => h2.brelse hQ

theorem readDinode {Q : Dinode → Dev → Prop} (hm : Mounted c H V) (hn : n < ninodes)
    (hH : H.length < nbuf) (hQ : ∀ c', Mounted c' H V → Q (V.inode n) c') :
    wp (readDinode n) E Q c := by
  obtain ⟨d, hc, rfl⟩ := hm
  have hib : iblock n < fssize := (iblock_lt hn).trans (by decide)
  simp only [Fs.readDinode, wp_bind]
  refine wp_bread hc hib hH fun i c1 h1 => ?_
  rw [wp_expect]
  refine ⟨fun j hj => ?_, fun h => by simp at h⟩
  obtain rfl := Option.some.inj hj
  refine wp_readBuf h1 mem_cons_self (wp_brelse h1 fun c2 h2 => ?_)
  have hd : (volume d).inode n = dinodeOn d n := if_pos hn
  have hfin := hQ c2 ⟨d, h2, rfl⟩
  rw [hd] at hfin
  exact hfin

theorem writeDinode {x : Dinode} (hm : Mounted c H V) (hn : n < ninodes) (hx : x.Fits)
    (hH : H.length < nbuf) (hQ : ∀ c', Mounted c' H (V.setInode n x) → Q () c') :
    wp (writeDinode n x) E Q c := by
  obtain ⟨d, hc, rfl⟩ := hm
  have hib : iblock n < fssize := (iblock_lt hn).trans (by decide)
  simp only [Fs.writeDinode, wp_bind]
  refine wp_bread hc hib hH fun i c1 h1 => ?_
  rw [wp_expect]
  refine ⟨fun j hj => ?_, fun h => by simp at h⟩
  obtain rfl := Option.some.inj hj
  refine wp_writeBuf h1 mem_cons_self _ fun c2 h2 => wp_brelse h2 fun c3 h3 => ?_
  exact hQ c3 ⟨_, h3, volume_write_inode hn hx⟩

end Mounted

/-- The test and change of a bitmap byte in `balloc` and `bfree`. -/
theorem wp_bitmapTake {Q : Bool → Dev → Prop} {d : ℕ → Block} (hc : Cached c H d)
    (hi : (i, bblock b) ∈ H) (hb : IsData b)
    (hfree : (volume d).used b = false → ∀ c' d', Cached c' H d' →
      volume d' = (volume d).setUsed b true → Q true c')
    (hused : (volume d).used b = true → Q false c) : wp (bitmapTake i b) E Q c := by
  have hbit : (volume d).used b = (d (bblock b) (bitByte b) &&& bitMask b != 0) := if_pos hb
  refine wp_bitmapTake_disk hc hi (fun h0 c' hc' => ?_) fun h1 => hused ?_
  · refine hfree (by rw [hbit, h0]; rfl) c' _ hc' (volume_write_bit hb _ _ fun j => ?_)
    rw [bitMask_eq, mask_or]
    by_cases hj : j.val = b % bpb % 8
    · simp [hj, Fin.ext_iff]
    · simp [hj, Fin.ext_iff, Ne.symm hj]
  · rw [hbit]
    simpa using h1

theorem wp_bitmapDrop {d : ℕ → Block} (hc : Cached c H d) (hi : (i, bblock b) ∈ H) (hb : IsData b)
    (hu : (volume d).used b = true)
    (hQ : ∀ c' d', Cached c' H d' → volume d' = (volume d).setUsed b false → Q () c') :
    wp (bitmapDrop i b) E Q c := by
  have hbit : (volume d).used b = (d (bblock b) (bitByte b) &&& bitMask b != 0) := if_pos hb
  refine wp_bitmapDrop_disk hc hi (fun _ c' hc' => ?_) fun h0 => absurd hu (by simp [hbit, h0])
  refine hQ c' _ hc' (volume_write_bit hb _ _ fun j => ?_)
  rw [bitMask_eq, mask_clear]
  by_cases hj : j.val = b % bpb % 8
  · simp [hj, Fin.ext_iff]
  · simp [hj, Fin.ext_iff, Ne.symm hj]

namespace Mounted

/-- `balloc` clears the lowest free block; it fails only when no block is free. -/
theorem balloc_lowest {Q : Option ℕ → Dev → Prop} (hm : Mounted c H V) (hH : H.length < nbuf)
    (hfull : (∀ b, IsData b → V.used b = true) → ∀ c', Mounted c' H V → Q none c')
    (hQ : ∀ b c', IsData b → V.used b = false → (∀ a, IsData a → a < b → V.used a = true) →
      Mounted c' H (V.take b) → Q (some b) c') :
    wp balloc E Q c := by
  refine wp_firstSome (fun rest t => Mounted t H V ∧ ∀ b, IsData b → b ∉ rest → V.used b = true)
    ⟨hm, fun b hb hmem => absurd (mem_dataBlocks.mpr hb) hmem⟩ ?_ ?_
  · rintro t ⟨ht, hall⟩
    exact hfull (fun b hb => hall b hb not_mem_nil) t ht
  · rintro b rest t hsuf ⟨ht, hall⟩
    have hb : IsData b := mem_dataBlocks.mp (hsuf.subset mem_cons_self)
    have hlow : ∀ a, IsData a → a < b → V.used a = true :=
      fun a ha hab => hall a ha (not_mem_of_suffix hsuf hab)
    have hbb : bblock b < fssize := by
      rw [bblock_data hb]
      decide
    obtain ⟨d, hd, rfl⟩ := ht
    simp only [ballocTry, wp_bind]
    refine wp_bread hd hbb hH fun i c1 h1 => ?_
    rw [wp_expect]
    refine ⟨fun j hj => ?_, fun h => by simp at h⟩
    obtain rfl := Option.some.inj hj
    refine wp_bitmapTake h1 mem_cons_self hb (fun hfree c2 d2 h2 hv2 => ?_) fun hused => ?_
    · refine wp_brelse h2 fun c3 h3 => ?_
      rw [if_pos rfl]
      have hm3 : Mounted c3 H ((volume d).setUsed b true) := ⟨d2, h3, hv2⟩
      exact hm3.updateBlock hb hH _ fun c4 h4 => hQ b c4 hb hfree hlow h4
    · refine wp_brelse h1 fun c2 h2 => ?_
      rw [if_neg (by decide)]
      refine ⟨⟨d, h2, rfl⟩, fun a ha hmem => ?_⟩
      by_cases hab : a = b
      · exact hab ▸ hused
      · exact hall a ha (by simp [hab, hmem])

/-- `balloc` finds a free block and clears it; it fails only when no block is free. -/
theorem balloc {Q : Option ℕ → Dev → Prop} (hm : Mounted c H V) (hH : H.length < nbuf)
    (hfull : (∀ b, IsData b → V.used b = true) → ∀ c', Mounted c' H V → Q none c')
    (hQ : ∀ b c', IsData b → V.used b = false → Mounted c' H (V.take b) → Q (some b) c') :
    wp balloc E Q c :=
  hm.balloc_lowest hH hfull fun b c' hb hfree _ hm' => hQ b c' hb hfree hm'

theorem bfree (hm : Mounted c H V) (hH : H.length < nbuf) (hu : V.used b = true)
    (hQ : ∀ c', Mounted c' H (V.setUsed b false) → Q () c') :
    wp (bfree b) E Q c := by
  have hb := hm.isData hu
  have hbb : bblock b < fssize := by
    rw [bblock_data hb]
    decide
  obtain ⟨d, hd, rfl⟩ := hm
  simp only [Fs.bfree, wp_bind, wp_assert]
  refine ⟨fun _ => ?_, fun h => absurd hb (by simpa [IsData] using h)⟩
  refine wp_bread hd hbb hH fun i c1 h1 => ?_
  rw [wp_expect]
  refine ⟨fun j hj => ?_, fun h => by simp at h⟩
  obtain rfl := Option.some.inj hj
  refine wp_bitmapDrop h1 mem_cons_self hb hu fun c2 d2 h2 hv2 => ?_
  exact wp_brelse h2 fun c3 h3 => hQ c3 ⟨d2, h3, hv2⟩

end Mounted

end ToyOs.Fs
