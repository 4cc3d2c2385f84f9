import ToyOs.Fs.BlockAlloc

/-!
Reading and writing the content of an inode. The bytes of an inode are a
store of their own, laid over its blocks: a read delivers a part of it, and a
chunk that stays within one block is a write to it, wherever the block is
and whether or not it had to be allocated. The loops put chunks together.
-/
namespace ToyOs.Fs

open Bytes Prog Function

namespace Vol

/-- The content of an inode: the bytes below its size. -/
def content (V : Vol) (ip : Inode) : List UInt8 := read (V.byte ip) 0 ip.size

/-- Every position that starts before `k` is mapped. -/
def MappedTo (V : Vol) (ip : Inode) (k : ℕ) : Prop := ∀ p, p * bsize < k → V.addr ip p ≠ 0

/-- No holes below the size. -/
structure Dense (V : Vol) (ip : Inode) : Prop where
  size : ip.size ≤ maxfile * bsize
  mapped : V.MappedTo ip ip.size

end Vol

variable {c : Dev} {H : Held} {V : Vol} {ip : Inode} {E : Panic → Prop}

/-- Within one block the bytes of the inode are those of the block. -/
theorem read_block {k n : ℕ} (h : k / bsize < maxfile) (h0 : V.addr ip (k / bsize) ≠ 0)
    (hn : k % bsize + n ≤ bsize) :
    read (V.block (V.addr ip (k / bsize))) (k % bsize) n = read (V.byte ip) k n := by
  refine List.ext_getElem (by simp [read_length]) fun j h1 h2 => ?_
  rw [read_length] at h1
  have hdiv : (k + j) / bsize = k / bsize := by
    unfold bsize at *
    omega
  have hmod : (k + j) % bsize = k % bsize + j := by
    unfold bsize at *
    omega
  rw [read_getElem, read_getElem, V.byte_mapped ip (by rwa [hdiv]) (by rwa [hdiv]), hdiv, hmod]

theorem wp_readiLoop {Q : List UInt8 → Dev → Prop} {off n : ℕ} (ho : V.Owns ip) (hd : V.Dense ip)
    (hH : H.length < nbuf) (hn : off + n ≤ ip.size)
    (hQ : ∀ c', Mounted c' H V → Q (read (V.byte ip) off n) c') (fuel : ℕ) :
    ∀ (got : List UInt8) (c : Dev), Mounted c H V → got = read (V.byte ip) off got.length →
      got.length ≤ n → n ≤ got.length + fuel → wp (readiLoop ip off n fuel got) E Q c := by
  induction fuel with
  | zero =>
    intro got c hm hgot hle hfuel
    have hlen : got.length = n := by omega
    rw [hlen] at hgot
    simp only [readiLoop, wp_pure, hgot]
    exact hQ c hm
  | succ fuel ih =>
    intro got c hm hgot hle hfuel
    unfold readiLoop
    by_cases hlt : got.length < n
    · have hsize := hd.size
      have hpos : (off + got.length) / bsize < maxfile := by
        unfold bsize at *
        omega
      have hmap : V.addr ip ((off + got.length) / bsize) ≠ 0 :=
        hd.mapped _ (by unfold bsize; omega)
      rw [if_pos hlt]
      simp only [wp_bind]
      refine wp_bmapLookup hm ho hH hpos fun c1 h1 => ?_
      rw [nonZero, if_pos hmap, wp_expect]
      refine ⟨fun b hb => ?_, fun h => by simp at h⟩
      obtain rfl := Option.some.inj hb
      have hdata : IsData (V.addr ip ((off + got.length) / bsize)) :=
        hm.isData (ho.used _ hmap)
      have hmod : (off + got.length) % bsize < bsize := Nat.mod_lt _ (by decide)
      have hread := h1.readBlock (E := E) (Q := Q) (f := fun data => readiLoop ip off n fuel
        (got ++ read data ((off + got.length) % bsize)
          (min (n - got.length) (bsize - (off + got.length) % bsize)))) hdata hH fun c2 h2 => by
        rw [read_block hpos hmap (by omega)]
        refine ih _ c2 h2 ?_ ?_ ?_
        · rw [List.length_append, read_length, read_add, ← hgot]
        · rw [List.length_append, read_length]
          omega
        · rw [List.length_append, read_length]
          omega
      simp only [wp_bind] at hread
      exact hread
    · have hlen : got.length = n := by omega
      rw [hlen] at hgot
      rw [if_neg hlt, wp_pure, hgot]
      exact hQ c hm

/-- `_readi` delivers the part of the content that is there and changes nothing. -/
theorem wp_readiInner {Q : List UInt8 → Dev → Prop} {off len : ℕ} (hm : Mounted c H V)
    (ho : V.Owns ip) (hd : V.Dense ip) (hH : H.length < nbuf)
    (hQ : ∀ c', Mounted c' H V → Q (read (V.byte ip) off (min len (ip.size - off))) c') :
    wp (readiInner ip off len) E Q c := by
  unfold readiInner
  split
  · rename_i hle
    have h0 := hQ c hm
    rw [show min len (ip.size - off) = 0 by omega, read_zero] at h0
    exact h0
  · refine wp_readiLoop ho hd hH (by omega) hQ _ [] c hm rfl (Nat.zero_le _) ?_
    simp

/-- Writing into a mapped block is writing into the bytes of the inode. -/
theorem byte_setBlock {k : ℕ} {l : List UInt8} (ho : V.Owns ip) (h : k / bsize < maxfile)
    (h0 : V.addr ip (k / bsize) ≠ 0) (hl : k % bsize + l.length ≤ bsize) (x : ℕ) :
    (V.setBlock (V.addr ip (k / bsize)) (write (V.block (V.addr ip (k / bsize))) (k % bsize) l)).byte
      ip x = write (V.byte ip) k l x := by
  have haddr : ∀ p, (V.setBlock (V.addr ip (k / bsize))
      (write (V.block (V.addr ip (k / bsize))) (k % bsize) l)).addr ip p = V.addr ip p := by
    refine fun p => Vol.addr_congr rfl (fun ht => ?_) p
    apply update_of_ne
    rw [← V.addr_table] at ht ⊢
    intro heq
    have := ho.inj _ _ ht heq
    omega
  unfold Vol.byte
  rw [haddr]
  have hx := Nat.div_add_mod x bsize
  have hk := Nat.div_add_mod k bsize
  by_cases hxm : x / bsize < maxfile ∧ V.addr ip (x / bsize) ≠ 0
  · rw [if_pos hxm]
    by_cases hsame : x / bsize = k / bsize
    · rw [hsame] at hx ⊢
      simp only [Vol.setBlock, update_self, write]
      have hiff : (k % bsize ≤ x % bsize ∧ x % bsize < k % bsize + l.length) ↔
          (k ≤ x ∧ x < k + l.length) := by omega
      simp only [hiff, hsame, h, h0, ne_eq, not_false_eq_true, and_self, if_true]
      congr 1
      congr 1
      omega
    · have hne : V.addr ip (x / bsize) ≠ V.addr ip (k / bsize) := fun heq =>
        hsame (ho.inj _ _ hxm.2 heq)
      have hout : x < k ∨ k + l.length ≤ x := by
        unfold bsize at *
        omega
      simp only [Vol.setBlock, update_of_ne hne]
      rw [write_outside hout, if_pos hxm]
  · rw [if_neg hxm]
    have hout : x < k ∨ k + l.length ≤ x := by
      by_contra hin
      apply hxm
      have hsame : x / bsize = k / bsize := by
        unfold bsize at *
        omega
      rw [hsame]
      exact ⟨h, h0⟩
    rw [write_outside hout, if_neg hxm]

/-- Writing into a block of its own is a growth by nothing. -/
theorem fills_setBlock (ho : V.Owns ip) {p : ℕ} (hp : p ≠ maxfile) (x : Block) :
    Fills ∅ V ip (V.setBlock (V.addr ip p) x) ip := by
  have haddr : ∀ q, (V.setBlock (V.addr ip p) x).addr ip q = V.addr ip q := by
    refine fun q => Vol.addr_congr rfl (fun ht => ?_) q
    apply update_of_ne
    rw [← V.addr_table] at ht ⊢
    intro heq
    exact hp (ho.inj _ _ ht heq).symm
  refine Fills.of_used ⟨⟨?_, ?_⟩, ⟨?_, ?_, fun _ _ => rfl, rfl⟩, fun q _ => haddr q, rfl, rfl,
    le_rfl⟩ haddr rfl
  · intro q hq
    rw [haddr] at hq ⊢
    exact ho.used q hq
  · intro q r hq heq
    rw [haddr] at hq heq
    rw [haddr] at heq
    exact ho.inj q r hq heq
  · intro b hb hown
    refine ⟨hb, ?_⟩
    simp only [Vol.setBlock]
    exact update_of_ne (hown p).symm _ _
  · intro q _
    exact Or.inl ⟨q, (haddr q).symm⟩

/-- A chunk within one block is written once the block has what it needs, or
the disk is full and nothing is. -/
theorem wp_putChunk_fills {Q : Bool × Inode → Dev → Prop} {cur : ℕ} {l : List UInt8}
    (hm : Mounted c H V) (ho : V.Owns ip) (hH : H.length + 1 < nbuf)
    (hcur : cur / bsize < maxfile) (hl : cur % bsize + l.length ≤ bsize)
    (hfull : ∀ c' V' ip' P, Mounted c' H V' → Fills P V ip V' ip' →
      (∀ k, V'.byte ip' k = V.byte ip k) → V'.free = 0 → P ⊂ V.needs ip (cur / bsize) →
      P ⊆ {maxfile} → Q (false, ip') c')
    (hQ : ∀ c' V' ip', Mounted c' H V' → Fills (V.needs ip (cur / bsize)) V ip V' ip' →
      (∀ k, V'.byte ip' k = write (V.byte ip) cur l k) → V'.addr ip' (cur / bsize) ≠ 0 →
      Q (true, ip') c') :
    wp (putChunk ip cur l) E Q c := by
  simp only [putChunk, wp_bind]
  refine wp_bmapAlloc_fills hm ho hH hcur hfull fun c1 V1 ip1 h1 hfill hbyte hne => ?_
  have ho1 := hfill.grows.owns
  have hfun : V1.byte ip1 = V.byte ip := funext hbyte
  have hdata : IsData (V1.addr ip1 (cur / bsize)) := h1.isData (ho1.used _ hne)
  refine h1.updateBlock hdata (by omega) _ fun c2 h2 => ?_
  have hstep := fills_setBlock ho1 (p := cur / bsize) (by omega)
    (write (V1.block (V1.addr ip1 (cur / bsize))) (cur % bsize) l)
  have htrans := hfill.trans (used_ne_zero hm) hstep
  rw [Finset.union_empty] at htrans
  refine hQ c2 _ ip1 h2 htrans (fun k => ?_) ?_
  · rw [byte_setBlock ho1 hcur hne hl, hfun]
  · rw [hstep.grows.kept _ hne]
    exact hne

end ToyOs.Fs
