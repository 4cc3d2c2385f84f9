import ToyOs.Fs.Fills

/-!
Looking up and allocating logical blocks. An allocation fills one position
that was empty: a direct address, the indirect block, or an entry of it. All
three have the same effect on the block map, and the content of the inode,
holes read as zeros, does not change.
-/
namespace ToyOs.Fs

open Bytes Prog Function Finset Nat

variable {c : Dev} {H : Held} {V V' : Vol} {ip ip' : Inode} {b bn q : ℕ} {E : Panic → Prop}
  {Q : Option ℕ → Dev → Prop}

/-- Taking a block uses up one free block. -/
theorem Vol.free_take (hb : IsData b) (hfree : V.used b = false)
    (hused : V'.used = update V.used b true) : V.free ≤ V'.free + 1 :=
  (Vol.free_update hb hfree hused).ge

/-- A position that was empty gets a free block `b`. -/
structure Extends (V : Vol) (ip : Inode) (V' : Vol) (ip' : Inode) (q b : ℕ) : Prop where
  data : IsData b
  fresh : V.used b = false
  empty : V.addr ip q = 0
  addr : ∀ p, V'.addr ip' p = if p = q then b else V.addr ip p
  used : V'.used = Function.update V.used b true
  block : ∀ a, V.used a = true → a ≠ V.addr ip maxfile → V'.block a = V.block a
  zero : q < maxfile → ∀ k, k < bsize → V'.block b k = 0
  inode : V'.inode = V.inode
  info : ip' = { ip with addrs := ip'.addrs }

namespace Extends

theorem addr_self (h : Extends V ip V' ip' q b) : V'.addr ip' q = b := by
  rw [h.addr, if_pos rfl]

theorem fresh_ne (h : Extends V ip V' ip' q b) (ho : V.Owns ip) (p : ℕ) : V.addr ip p ≠ b := by
  intro heq
  have hu := ho.used p (by rw [heq]; exact h.data.pos)
  rw [heq, h.fresh] at hu
  exact absurd hu (by decide)

theorem owns (h : Extends V ip V' ip' q b) (ho : V.Owns ip) : V'.Owns ip' where
  used := by
    intro p hp
    rw [h.addr] at hp ⊢
    rw [h.used]
    split
    · simp
    · rename_i hpq
      rw [if_neg hpq] at hp
      rw [update_of_ne (h.fresh_ne ho p)]
      exact ho.used p hp
  inj := by
    intro p p' hp heq
    rw [h.addr] at hp heq
    rw [h.addr p'] at heq
    split at heq
    · rename_i hpq
      split at heq
      · rename_i hpq'
        rw [hpq, hpq']
      · exact absurd heq.symm (h.fresh_ne ho p')
    · rename_i hpq
      rw [if_neg hpq] at hp
      split at heq
      · exact absurd heq (h.fresh_ne ho p)
      · exact ho.inj p p' hp heq

theorem grows (h : Extends V ip V' ip' q b) (ho : V.Owns ip) : Grows 1 V ip V' ip' where
  owns := h.owns ho
  frame := by
    refine ⟨?_, ?_, fun n _ => by rw [h.inode], by rw [h.info]⟩
    · intro a ha hown
      have hab : a ≠ b := by
        rintro rfl
        rw [h.fresh] at ha
        exact absurd ha (by decide)
      refine ⟨?_, h.block a ha (hown maxfile).symm⟩
      rw [h.used, update_of_ne hab]
      exact ha
    · intro p hp
      rw [h.addr] at hp ⊢
      split
      · exact Or.inr h.fresh
      · exact Or.inl ⟨p, rfl⟩
  kept := by
    intro p hp
    rw [h.addr, if_neg]
    rintro rfl
    exact hp h.empty
  info := h.info
  inode := h.inode
  budget := Vol.free_take h.data h.fresh h.used

theorem fills (h : Extends V ip V' ip' q b) (ho : V.Owns ip) : Fills {q} V ip V' ip' where
  grows := h.grows ho
  empty := by simp [h.empty]
  addr := by
    intro p
    rw [h.addr, mem_singleton]
    split
    · rename_i hpq
      simp [hpq, h.data.pos]
    · rename_i hpq
      simp [hpq]
  used := by
    intro a
    simp only [mem_singleton, exists_eq_left, h.addr_self, h.used]
    by_cases hab : a = b
    · simp [hab]
    · simp [hab, Ne.symm hab]
  free := Vol.free_update h.data h.fresh h.used

theorem byte (h : Extends V ip V' ip' q b) (ho : V.Owns ip) (k : ℕ) :
    V'.byte ip' k = V.byte ip k := by
  by_cases hlt : k / bsize < maxfile
  · by_cases hq : k / bsize = q
    · have haddr : V'.addr ip' (k / bsize) = b := by rw [hq, h.addr_self]
      rw [V'.byte_mapped ip' hlt (by rw [haddr]; exact h.data.pos), haddr,
        V.byte_hole ip (by rw [hq]; exact h.empty)]
      exact h.zero (hq ▸ hlt) _ (mod_lt _ (by decide))
    · have haddr : V'.addr ip' (k / bsize) = V.addr ip (k / bsize) := by rw [h.addr, if_neg hq]
      by_cases h0 : V.addr ip (k / bsize) = 0
      · rw [V.byte_hole ip h0, V'.byte_hole ip' (haddr.trans h0)]
      · rw [V.byte_mapped ip hlt h0, V'.byte_mapped ip' hlt (by rwa [haddr]), haddr,
          h.block _ (ho.used _ h0)]
        intro heq
        have := ho.inj _ _ h0 heq
        omega
  · simp [Vol.byte, hlt]

end Extends

/-- A free block becomes a direct block. -/
theorem extends_direct (ho : V.Owns ip) (hb : IsData b) (hfree : V.used b = false)
    (h : bn < ndirect) (h0 : V.addr ip bn = 0) :
    Extends V ip (V.take b) (ip.setAddr ⟨bn, lt_succ_of_lt h⟩ b) bn b := by
  have hother : ∀ a, V.used a = true → (V.take b).block a = V.block a := by
    intro a ha
    have hab : a ≠ b := by
      rintro rfl
      rw [hfree] at ha
      exact absurd ha (by decide)
    simp [Vol.take, Vol.setBlock, Vol.setUsed, hab]
  refine ⟨hb, hfree, h0, ?_, rfl, fun a ha _ => hother a ha, ?_, rfl, rfl⟩
  · intro p
    have hslot : (ip.setAddr ⟨bn, lt_succ_of_lt h⟩ b).addrs indirectSlot =
        ip.addrs indirectSlot := by
      apply update_of_ne
      simp only [indirectSlot, Ne, Fin.ext_iff, Fin.val_last]
      omega
    by_cases hp : p < ndirect
    · rw [Vol.addr_direct _ _ hp]
      split
      · rename_i hpb
        simp [Inode.setAddr, hpb]
      · rename_i hpb
        rw [Vol.addr_direct _ _ hp]
        exact update_of_ne (by simpa [Fin.ext_iff] using hpb) _ _
    · rw [if_neg (by omega)]
      unfold Vol.addr
      rw [dif_neg hp, dif_neg hp, hslot]
      by_cases ht : ip.addrs indirectSlot = 0
      · simp [ht]
      · rw [← V.addr_table] at ht
        rw [← V.addr_table, hother _ (ho.used _ ht)]
  · intro _ k hk
    simp only [Vol.take, Vol.setBlock, update_self]
    exact fill_inside (zero_le _) (by omega)

/-- A free block becomes the indirect block. -/
theorem extends_table (hb : IsData b) (hfree : V.used b = false)
    (h0 : ip.addrs indirectSlot = 0) :
    Extends V ip (V.take b) (ip.setAddr indirectSlot b) maxfile b := by
  refine ⟨hb, hfree, by rw [V.addr_table, h0], ?_, rfl, ?_, fun h => absurd h (lt_irrefl _), rfl,
    rfl⟩
  · intro p
    have hslot : (ip.setAddr indirectSlot b).addrs indirectSlot = b := by simp [Inode.setAddr]
    by_cases hp : p < ndirect
    · rw [if_neg (by unfold maxfile; omega), Vol.addr_direct _ _ hp, Vol.addr_direct _ _ hp]
      apply update_of_ne
      simp only [indirectSlot, Ne, Fin.ext_iff, Fin.val_last]
      omega
    · by_cases hp' : p < maxfile
      · rw [if_neg (by omega), V.addr_entry_none ip (by omega) hp' h0,
          Vol.addr_entry _ _ (by omega) hp' (by rw [hslot]; exact hb.pos), hslot]
        simp only [Vol.take, Vol.setBlock, update_self]
        apply load_fill_zero
        · omega
        · unfold maxfile ndirect nindirect at hp'
          unfold ndirect bsize
          unfold ndirect at hp
          omega
      · by_cases hpm : p = maxfile
        · rw [if_pos hpm, hpm, Vol.addr_table, hslot]
        · rw [if_neg hpm, Vol.addr_high _ _ (by omega), Vol.addr_high _ _ (by omega)]
  · intro a ha _
    have hab : a ≠ b := by
      rintro rfl
      rw [hfree] at ha
      exact absurd ha (by decide)
    simp [Vol.take, Vol.setBlock, Vol.setUsed, hab]

/-- A free block becomes an entry of the indirect block. -/
theorem extends_entry (ho : V.Owns ip) (hb : IsData b) (hfree : V.used b = false)
    (ht : ip.addrs indirectSlot ≠ 0) (h : ndirect ≤ bn) (h' : bn < maxfile)
    (h0 : V.addr ip bn = 0) :
    Extends V ip ((V.take b).setBlock (ip.addrs indirectSlot)
      (store 4 ((V.take b).block (ip.addrs indirectSlot)) ((bn - ndirect) * 4) b)) ip bn b := by
  have htu : V.used (ip.addrs indirectSlot) = true := by
    rw [← V.addr_table] at ht ⊢
    exact ho.used _ ht
  have hne : ∀ a, V.used a = true → a ≠ b := by
    rintro a ha rfl
    rw [hfree] at ha
    exact absurd ha (by decide)
  have htable : (V.take b).block (ip.addrs indirectSlot) = V.block (ip.addrs indirectSlot) := by
    simp [Vol.take, Vol.setBlock, Vol.setUsed, hne _ htu]
  have hlt : b < 256 ^ 4 := hb.lt.trans (by decide)
  refine ⟨hb, hfree, h0, ?_, rfl, ?_, ?_, rfl, rfl⟩
  · intro p
    by_cases hp : p < ndirect
    · rw [if_neg (by omega), Vol.addr_direct _ _ hp, Vol.addr_direct _ _ hp]
    · by_cases hp' : p < maxfile
      · rw [Vol.addr_entry _ _ (by omega) hp' ht]
        simp only [Vol.setBlock, update_self] at htable ⊢
        rw [htable]
        split
        · rename_i hpb
          rw [hpb, load_store_same, mod_eq_of_lt hlt]
        · rename_i hpb
          rw [load_store_of_disjoint _ _ _ _ _ _ (by omega),
            Vol.addr_entry _ _ (by omega) hp' ht]
      · rw [if_neg (by omega)]
        by_cases hpm : p = maxfile
        · rw [hpm, Vol.addr_table, Vol.addr_table]
        · rw [Vol.addr_high _ _ (by omega), Vol.addr_high _ _ (by omega)]
  · intro a ha hna
    rw [V.addr_table] at hna
    simp [Vol.take, Vol.setBlock, Vol.setUsed, hne _ ha, hna]
  · intro _ k hk
    simp only [Vol.setBlock, Vol.take, update_of_ne (hne _ htu).symm, update_self]
    exact fill_inside (zero_le _) (by omega)

/-- A lookup finds the block at a position of the map. -/
theorem wp_bmapLookup (hm : Mounted c H V) (ho : V.Owns ip) (hH : H.length < nbuf)
    (hbn : bn < maxfile) (hQ : ∀ c', Mounted c' H V → Q (nonZero (V.addr ip bn)) c') :
    wp (bmapLookup ip bn) E Q c := by
  unfold bmapLookup
  split
  · rename_i h
    rw [wp_pure, ← V.addr_direct ip h]
    exact hQ c hm
  · rename_i h
    rw [if_pos (by unfold maxfile at hbn; omega)]
    split
    · rename_i ht
      have h0 := hQ c hm
      rw [V.addr_entry_none ip (by omega) hbn ht] at h0
      exact h0
    · rename_i ht
      have hu : V.used (ip.addrs indirectSlot) = true := by
        rw [← V.addr_table] at ht ⊢
        exact ho.used _ ht
      refine hm.readBlock (hm.isData hu) hH fun c' hc' => ?_
      rw [wp_pure, ← V.addr_entry ip (by omega) hbn ht]
      exact hQ c' hc'

/-- The positions that one logical block needs. -/
theorem Vol.mem_missing_block {k n p : ℕ} (hk : k / bsize < maxfile) (hn : 0 < n)
    (h : k % bsize + n ≤ bsize) : p ∈ V.missing ip k (k + n) ↔
      V.addr ip p = 0 ∧ (p = k / bsize ∨ ndirect ≤ k / bsize ∧ p = maxfile) := by
  rw [Vol.mem_missing, and_comm]
  apply and_congr_right
  intro _
  unfold Touches bsize ndirect at *
  omega

/-- The empty positions that logical block `bn` needs. -/
def Vol.needs (V : Vol) (ip : Inode) (bn : ℕ) : Finset ℕ :=
  V.missing ip (bn * bsize) (bn * bsize + bsize)

theorem Vol.mem_needs {p : ℕ} (hbn : bn < maxfile) : p ∈ V.needs ip bn ↔
    V.addr ip p = 0 ∧ (p = bn ∨ ndirect ≤ bn ∧ p = maxfile) := by
  have hdiv : bn * bsize / bsize = bn := Nat.mul_div_cancel _ (by decide)
  rw [Vol.needs, Vol.mem_missing_block (by rwa [hdiv]) (by decide) (by simp), hdiv]

/-- A chunk within one block needs what the block needs. -/
theorem Vol.missing_chunk {k n : ℕ} (hk : k / bsize < maxfile) (hn : 0 < n)
    (h : k % bsize + n ≤ bsize) : V.missing ip k (k + n) = V.needs ip (k / bsize) := by
  ext p
  rw [Vol.mem_missing_block hk hn h, Vol.mem_needs hk]

/-- An entry of the indirect block that is in place; the entry is filled if it
is empty and a block is free. -/
theorem wp_indirectAlloc_fills (hm : Mounted c H V) (ho : V.Owns ip) (hH : H.length + 1 < nbuf)
    (ht : ip.addrs indirectSlot ≠ 0) (hbn : bn < maxfile) (hge : ndirect ≤ bn)
    (hfull : V.free = 0 → V.needs ip bn = {bn} → ∀ c', Mounted c' H V → Q none c')
    (hQ : ∀ c' V', Mounted c' H V' → Fills (V.needs ip bn) V ip V' ip →
      (∀ k, V'.byte ip k = V.byte ip k) → V'.addr ip bn ≠ 0 → Q (some (V'.addr ip bn)) c') :
    wp (indirectAlloc (ip.addrs indirectSlot) (bn - ndirect)) E Q c := by
  have htd : IsData (ip.addrs indirectSlot) := hm.isData (by
    rw [← V.addr_table] at ht ⊢
    exact ho.used _ ht)
  have hentry := V.addr_entry ip hge hbn ht
  have hneeds : V.needs ip bn = if V.addr ip bn = 0 then {bn} else ∅ := by
    ext p
    rw [Vol.mem_needs hbn]
    have htable : p = maxfile → V.addr ip p ≠ 0 := by
      rintro rfl
      rwa [V.addr_table]
    split
    · rename_i h0
      rw [mem_singleton]
      constructor
      · rintro ⟨hp, rfl | ⟨-, rfl⟩⟩
        · rfl
        · exact absurd hp (htable rfl)
      · rintro rfl
        exact ⟨h0, Or.inl rfl⟩
    · rename_i h0
      simp only [notMem_empty, iff_false]
      rintro ⟨hp, rfl | ⟨-, rfl⟩⟩
      · exact h0 hp
      · exact htable rfl hp
  simp only [indirectAlloc, wp_bind]
  refine hm.bread htd.lt (by omega) fun i c1 h1 => ?_
  rw [wp_expect]
  refine ⟨fun i' hi => ?_, fun h => by simp at h⟩
  obtain rfl := Option.some.inj hi
  refine h1.readBuf List.mem_cons_self htd ?_
  rw [← hentry, wp_ite]
  refine ⟨fun h0 => ?_, fun h0 => ?_⟩
  · rw [if_pos h0] at hneeds
    simp only [wp_bind]
    refine h1.balloc (by simpa using hH) (fun hf c2 h2 => ?_) fun b c2 hb hfree h2 => ?_
    · simp only [wp_bind]
      exact h2.brelse fun c3 h3 => hfull (Vol.full_iff.mp hf) hneeds c3 h3
    · simp only [wp_bind]
      refine h2.writeBuf List.mem_cons_self htd _ fun c3 h3 => h3.brelse fun c4 h4 => ?_
      have hext := extends_entry ho hb hfree ht hge hbn h0
      have hfin := hQ c4 _ h4 (hneeds ▸ hext.fills ho) (hext.byte ho)
      rw [hext.addr_self] at hfin
      exact hfin hb.pos
  · rw [if_neg h0] at hneeds
    simp only [wp_bind]
    refine h1.brelse fun c2 h2 => ?_
    exact hQ c2 V h2 (hneeds ▸ Fills.refl ho) (fun _ => rfl) h0

theorem used_ne_zero (hm : Mounted c H V) (b : ℕ) (h : V.used b = true) : b ≠ 0 :=
  (hm.isData h).pos

/-- `bmap_alloc` fills exactly what a logical block needs, without changing
the content; when it fails no block is free, and the indirect block may have
been added. -/
theorem wp_bmapAlloc_fills {Q : Option ℕ × Inode → Dev → Prop} (hm : Mounted c H V)
    (ho : V.Owns ip) (hH : H.length + 1 < nbuf) (hbn : bn < maxfile)
    (hfull : ∀ c' V' ip' P, Mounted c' H V' → Fills P V ip V' ip' →
      (∀ k, V'.byte ip' k = V.byte ip k) → V'.free = 0 → P ⊂ V.needs ip bn →
      P ⊆ {maxfile} → Q (none, ip') c')
    (hQ : ∀ c' V' ip', Mounted c' H V' → Fills (V.needs ip bn) V ip V' ip' →
      (∀ k, V'.byte ip' k = V.byte ip k) → V'.addr ip' bn ≠ 0 →
      Q (some (V'.addr ip' bn), ip') c') :
    wp (bmapAlloc ip bn) E Q c := by
  have hnone : ∀ q c', V.addr ip q = 0 → (q = bn ∨ ndirect ≤ bn ∧ q = maxfile) →
      V.Full → Mounted c' H V → Q (none, ip) c' := by
    intro q c' h0 hq hf hc'
    refine hfull c' V ip ∅ hc' (Fills.refl ho) (fun _ => rfl) (Vol.full_iff.mp hf) ?_ (by simp)
    exact empty_ssubset.mpr ⟨q, (Vol.mem_needs hbn).mpr ⟨h0, hq⟩⟩
  unfold bmapAlloc
  split
  · rename_i h
    have hneeds : V.needs ip bn = if V.addr ip bn = 0 then {bn} else ∅ := by
      ext p
      rw [Vol.mem_needs hbn]
      split
      · rename_i h0
        rw [mem_singleton]
        constructor
        · rintro ⟨-, rfl | ⟨hge, -⟩⟩
          · rfl
          · omega
        · rintro rfl
          exact ⟨h0, Or.inl rfl⟩
      · rename_i h0
        simp only [notMem_empty, iff_false]
        rintro ⟨hp, rfl | ⟨hge, -⟩⟩
        · exact h0 hp
        · omega
    simp only [← V.addr_direct ip h]
    split
    · rename_i h0
      rw [if_pos h0] at hneeds
      rw [wp_bind]
      refine hm.balloc (by omega) (fun hf c' hc' => hnone bn c' h0 (Or.inl rfl) hf hc')
        fun b c' hb hfree hc' => ?_
      have hext := extends_direct ho hb hfree h h0
      have hfin := hQ c' _ _ hc' (hneeds ▸ hext.fills ho) (hext.byte ho)
      rw [hext.addr_self] at hfin
      exact hfin hb.pos
    · rename_i h0
      rw [if_neg h0] at hneeds
      exact hQ c V ip hm (hneeds ▸ Fills.refl ho) (fun _ => rfl) h0
  · rename_i h
    have hge : ndirect ≤ bn := by omega
    rw [if_pos (by unfold maxfile at hbn; omega)]
    split
    · rename_i ht
      rw [wp_bind]
      refine hm.balloc (by omega)
        (fun hf c' hc' => hnone maxfile c' (by rw [V.addr_table, ht]) (Or.inr ⟨hge, rfl⟩) hf hc')
        fun b c1 hb hfree h1 => ?_
      -- the indirect block is in place before its entry is looked at
      have hext := extends_table hb hfree ht
      have hfill := hext.fills ho
      have hslot : (ip.setAddr indirectSlot b).addrs indirectSlot = b := by simp [Inode.setAddr]
      have hneeds : V.needs ip bn = {maxfile, bn} := by
        ext p
        rw [Vol.mem_needs hbn, mem_insert, mem_singleton]
        constructor
        · rintro ⟨-, hp | ⟨-, hp⟩⟩
          · exact Or.inr hp
          · exact Or.inl hp
        · rintro (rfl | rfl)
          · exact ⟨by rw [V.addr_table, ht], Or.inr ⟨hge, rfl⟩⟩
          · exact ⟨V.addr_entry_none ip hge hbn ht, Or.inl rfl⟩
      have hneeds' : (V.take b).needs (ip.setAddr indirectSlot b) bn = {bn} := by
        ext p
        rw [Vol.mem_needs hbn, hfill.addr, mem_singleton, mem_singleton]
        constructor
        · rintro ⟨⟨-, hp⟩, rfl | ⟨-, rfl⟩⟩
          · rfl
          · exact absurd rfl hp
        · rintro rfl
          exact ⟨⟨V.addr_entry_none ip hge hbn ht, by omega⟩, Or.inl rfl⟩
      have hstrict : ({maxfile} : Finset ℕ) ⊂ {maxfile, bn} := by
        rw [pair_comm]
        exact ssubset_insert (by simp; omega)
      have hwp := wp_indirectAlloc_fills (E := E)
        (Q := fun r c' => Q (r, ip.setAddr indirectSlot b) c') h1 hfill.grows.owns hH
        (by rw [hslot]; exact hb.pos) hbn hge
        (fun hf _ c' hc' => hfull c' _ _ {maxfile} hc' hfill (hext.byte ho) hf
          (hneeds ▸ hstrict) (Finset.Subset.refl _))
        (fun c' V' hc' hfill' hbyte hne => by
          have htrans := hfill.trans (used_ne_zero hm) hfill'
          rw [hneeds', ← insert_eq, ← hneeds] at htrans
          exact hQ c' V' _ hc' htrans (fun k => (hbyte k).trans (hext.byte ho k)) hne)
      rw [hslot] at hwp
      simpa only [wp_bind, wp_pure] using hwp
    · rename_i ht
      rw [wp_bind]
      refine wp_indirectAlloc_fills hm ho hH ht hbn hge (fun hf hneeds c' hc' => ?_)
        fun c' V' hc' hfill hbyte hne => hQ c' V' ip hc' hfill hbyte hne
      have h0 : bn ∈ V.needs ip bn := hneeds ▸ mem_singleton_self bn
      exact hnone bn c' ((Vol.mem_needs hbn).mp h0).1 (Or.inl rfl) (Vol.full_iff.mpr hf) hc'

end ToyOs.Fs
