import ToyOs.Fs.Transparent

/-!
The inode table on disk as an array of independent inodes. An inode occupies
its own bytes of one block of the table, so writing it changes no other inode
and nothing outside the table, and reading it back delivers every field.
-/
namespace ToyOs.Fs

open Bytes Prog Function Option

variable {c c' : Dev} {H : Held} {d : ℕ → Block} {x : Dinode} {m n : ℕ}

/-- The bytes of an inode, each given by its block and its place there. -/
def dinodeBytes (n : ℕ) : Set (ℕ × ℕ) :=
  {a | a.1 = iblock n ∧ n % ipb * dinodeSize ≤ a.2 ∧ a.2 < n % ipb * dinodeSize + dinodeSize}

/-- An inode lies within one block of the table. -/
theorem dinodeBytes_subset (hn : n < ninodes) :
    dinodeBytes n ⊆ {a | inodestart ≤ a.1 ∧ a.1 < bmapstart ∧ a.2 < bsize} := by
  rintro ⟨b, k⟩ ⟨rfl, -, hk⟩
  have hlt := iblock_lt hn
  refine ⟨Nat.le_add_left _ _, hlt, ?_⟩
  have hmod : n % ipb < ipb := Nat.mod_lt n (by decide)
  simp only [ipb, dinodeSize, bsize] at hmod hk ⊢
  omega

/-- Two inodes have no byte in common. -/
theorem dinodeBytes_disjoint (h : m ≠ n) {a : ℕ × ℕ} (ha : a ∈ dinodeBytes m) :
    a ∉ dinodeBytes n := by
  obtain ⟨hbm, hm, hm'⟩ := ha
  rintro ⟨hbn, hn, hn'⟩
  -- the same block and the same place in it make the same number
  have hdiv : m / ipb = n / ipb := Nat.add_right_cancel (hbm.symm.trans hbn)
  have hmod : m % ipb = n % ipb := by
    simp only [dinodeSize] at hm hm' hn hn'
    omega
  apply h
  rw [← Nat.div_add_mod m ipb, ← Nat.div_add_mod n ipb, hdiv, hmod]

/-- The disk with one inode written. -/
def putDinode (d : ℕ → Block) (n : ℕ) (x : Dinode) : ℕ → Block :=
  Function.update d (iblock n) (write (d (iblock n)) (n % ipb * dinodeSize) x.encode)

theorem putDinode_outside {b k : ℕ} (h : (b, k) ∉ dinodeBytes n) : putDinode d n x b k = d b k := by
  unfold putDinode
  by_cases hb : b = iblock n
  · subst hb
    rw [update_self]
    apply write_outside
    rw [Dinode.encode_length]
    by_contra hin
    push Not at hin
    exact h ⟨rfl, hin⟩
  · rw [update_of_ne hb]

theorem dinodeOn_putDinode (hm : m < ninodes) (hn : n < ninodes) (hx : x.Fits) :
    dinodeOn (putDinode d n x) m = if m = n then x else dinodeOn d m := by
  have hvol := congrFun (congrArg Vol.inode (volume_write_inode (d := d) hn hx)) m
  simp only [volume, if_pos hm, update_apply] at hvol
  exact hvol

/-- A read delivers the inode of the disk, unless no buffer is left for its block. -/
theorem wp_readDinode (hc : Cached c H d) (hib : iblock n < fssize) :
    (readDinode n).wp (fun e => e = .bread ∧ ¬ Served H (iblock n))
      (fun y _ => y = dinodeOn d n ∧ Served H (iblock n)) c := by
  simp only [readDinode, wp_bind]
  refine wp_bread_served hc hib (fun hs => ?_) fun i c1 hs h1 => ?_
  · rw [wp_expect]
    exact ⟨fun j hj => absurd hj.symm (some_ne_none j), fun _ => ⟨rfl, hs⟩⟩
  · rw [wp_expect]
    refine ⟨fun j hj => ?_, fun h => absurd h (some_ne_none i)⟩
    obtain rfl := Option.some.inj hj
    exact wp_readBuf h1 List.mem_cons_self (wp_brelse h1 fun c2 h2 => ⟨rfl, hs⟩)

/-- A write changes the bytes of the inode, on disk and in the cache. -/
theorem wp_writeDinode (hc : Cached c H d) (hn : n < ninodes) :
    (writeDinode n x).wp (fun e => e = .bread ∧ ¬ Served H (iblock n))
      (fun _ c' => Cached c' H (putDinode d n x) ∧ Served H (iblock n)) c := by
  have hib : iblock n < fssize := (iblock_lt hn).trans (by decide)
  simp only [writeDinode, wp_bind]
  refine wp_bread_served hc hib (fun hs => ?_) fun i c1 hs h1 => ?_
  · rw [wp_expect]
    exact ⟨fun j hj => absurd hj.symm (some_ne_none j), fun _ => ⟨rfl, hs⟩⟩
  · rw [wp_expect]
    refine ⟨fun j hj => ?_, fun h => absurd h (some_ne_none i)⟩
    obtain rfl := Option.some.inj hj
    refine wp_writeBuf h1 List.mem_cons_self _ fun c2 h2 => wp_brelse h2 fun c3 h3 => ⟨h3, hs⟩

/-- The answer of a read depends on the inode on disk and on the held buffers. -/
theorem readDinode_result (hc : Cached c H d) (hn : n < ninodes) :
    (Served H (iblock n) ∧ ∃ c', readDinode n c = .ok (dinodeOn d n, c')) ∨
      (¬ Served H (iblock n) ∧ readDinode n c = .error .bread) := by
  have hread := wp_readDinode hc ((iblock_lt hn).trans (by decide))
  cases hrun : readDinode n c with
  | ok r =>
    obtain ⟨hy, hs⟩ := wp_ok hread hrun
    exact .inl ⟨hs, r.2, by rw [← hy]⟩
  | error e =>
    obtain ⟨rfl, hs⟩ := wp_error hread hrun
    exact .inr ⟨hs, rfl⟩

/-- Writing an inode and reading the table. -/
theorem inode_table (hc : Cached c H d) (hn : n < ninodes) (hx : x.Fits) :
    (∀ m, m < ninodes →
      dinodeBytes m ⊆ {a | inodestart ≤ a.1 ∧ a.1 < bmapstart ∧ a.2 < bsize} ∧
      (m ≠ n → ∀ a ∈ dinodeBytes m, a ∉ dinodeBytes n)) ∧
    (∀ b off, Dinode.decode (write b off x.encode) off = x) ∧
    ((∃ c', writeDinode n x c = .ok ((), c')) ↔ Served H (iblock n)) ∧
    ∀ c', writeDinode n x c = .ok ((), c') →
      (∃ c'', readDinode n c' = .ok (x, c'')) ∧
      (∀ m, m < ninodes → m ≠ n →
        (readDinode m c').map Prod.fst = (readDinode m c).map Prod.fst) ∧
      (∀ b k, (b, k) ∉ dinodeBytes n → c'.disk b k = c.disk b k) ∧
      (∀ b, b < inodestart ∨ bmapstart ≤ b → c'.disk b = c.disk b) := by
  refine ⟨fun m hm => ⟨dinodeBytes_subset hm, fun h _ => dinodeBytes_disjoint h⟩,
    fun b off => x.decode_write hx b off, ⟨?_, fun hs => ?_⟩, fun c' hrun => ?_⟩
  · rintro ⟨c', hrun⟩
    exact (wp_ok (wp_writeDinode hc hn) hrun).2
  · have hwrite := wp_mono (wp_writeDinode (x := x) hc hn) (fun e he => he.2 hs) fun _ _ h => h
    obtain ⟨⟨⟩, c', hrun, -⟩ := exists_ok hwrite
    exact ⟨c', hrun⟩
  · obtain ⟨hc', hs⟩ := wp_ok (wp_writeDinode hc hn) hrun
    have hbytes : ∀ b k, (b, k) ∉ dinodeBytes n → c'.disk b k = c.disk b k := by
      intro b k hbk
      rw [hc'.disk, hc.disk]
      exact putDinode_outside hbk
    refine ⟨?_, fun m hm hmn => ?_, hbytes, fun b hb => ?_⟩
    · rcases readDinode_result hc' hn with ⟨-, c'', hread⟩ | ⟨hns, -⟩
      · rw [dinodeOn_putDinode hn hn hx, if_pos rfl] at hread
        exact ⟨c'', hread⟩
      · exact absurd hs hns
    · rcases readDinode_result hc' hm with ⟨hsm, c1, hread⟩ | ⟨hsm, hread⟩
      · rcases readDinode_result hc hm with ⟨-, c2, hread'⟩ | ⟨hns, -⟩
        · rw [hread, hread', dinodeOn_putDinode hm hn hx, if_neg hmn]
          rfl
        · exact absurd hsm hns
      · rcases readDinode_result hc hm with ⟨hs', -⟩ | ⟨-, hread'⟩
        · exact absurd hs' hsm
        · rw [hread, hread']
    · funext k
      refine hbytes b k fun hmem => ?_
      obtain ⟨h1, h2, -⟩ := dinodeBytes_subset hn hmem
      exact hb.elim (fun h => absurd h1 (Nat.not_le.mpr h)) fun h => absurd h2 (Nat.not_lt.mpr h)

/-- An inode with extreme values in its fields. -/
def extremeDinode : Dinode where
  typ := -1
  major := -2 ^ 15
  minor := 2 ^ 15 - 1
  nlink := 1
  size := 2 ^ 32 - 1
  addrs := fun k => 2 ^ 32 - 1 - k

theorem extremeDinode_fits : extremeDinode.Fits where
  typ := by decide
  major := by decide
  minor := by decide
  nlink := by decide
  size := by decide
  addrs := by decide

theorem inode_table_blank :
    ∃ c', writeDinode 17 extremeDinode blank.dev = .ok ((), c') ∧
      ∃ c'', readDinode 17 c' = .ok (extremeDinode, c'') := by
  obtain ⟨-, -, hw, hafter⟩ := inode_table blank_cached (by decide : 17 < ninodes) extremeDinode_fits
  obtain ⟨c', hrun⟩ := hw.mpr (.inl ⟨⟨0, by decide⟩, List.not_mem_nil⟩)
  exact ⟨c', hrun, (hafter c' hrun).1⟩

end ToyOs.Fs
