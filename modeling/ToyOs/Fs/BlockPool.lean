import ToyOs.Fs.Init

/-!
The bitmap as a pool of blocks. A run of the pool starts from a bitmap of
zeros and any idle cache; blocks are taken, written to and given back in any
order. The bits that are set are those of the outstanding blocks, at every
point of every run.
-/
namespace ToyOs.Fs

open Bytes Prog List Finset

/-- Change the data of a block through the cache, as every writer does. -/
def writeBlock (blockno : ℕ) (f : Block → Block) : DevM Unit := do
  let bp ← Prog.expect .bread (← bread blockno)
  writeBuf bp f
  brelse bp

/-- The runs of the pool, with the blocks that are outstanding. -/
inductive PoolRun : Dev → List ℕ → Prop
  | start {c : Dev} {d : ℕ → Block} : Cached c [] d → (∀ k, k < bsize → d bmapstart k = 0) →
      PoolRun c []
  | taken {c c' : Dev} {O : List ℕ} {b : ℕ} : PoolRun c O → balloc c = .ok (some b, c') →
      PoolRun c' (b :: O)
  | refused {c c' : Dev} {O : List ℕ} : PoolRun c O → balloc c = .ok (none, c') → PoolRun c' O
  | freed {c c' : Dev} {O : List ℕ} {b : ℕ} : PoolRun c O → b ∈ O → bfree b c = .ok ((), c') →
      PoolRun c' (O.erase b)
  | written {c c' : Dev} {O : List ℕ} {b : ℕ} {f : Block → Block} : PoolRun c O → b ∈ O →
      writeBlock b f c = .ok ((), c') → PoolRun c' O

/-- A block that `balloc` may give out: its bit is clear on disk. -/
def Available (c : Dev) (b : ℕ) : Prop := IsData b ∧ bitSet c.disk b = false

/-- The bytes of a block are zero, on disk and in every buffer that caches it. -/
structure Zeroed (c : Dev) (b : ℕ) : Prop where
  disk : ∀ k, k < bsize → c.disk b k = 0
  cache : ∀ i, (c.bcache i).valid = true → (c.bcache i).blockno = b →
    ∀ k, k < bsize → (c.bcache i).data k = 0

/-- The bits that are set are those of the outstanding blocks. -/
structure PoolInv (c : Dev) (O : List ℕ) (V : Vol) : Prop where
  mounted : Mounted c [] V
  nodup : O.Nodup
  used : ∀ b, V.used b = true ↔ b ∈ O

section Views

variable {c c' : Dev} {H : Held} {V : Vol} {O : List ℕ} {b : ℕ}

theorem Mounted.disk_block (hm : Mounted c H V) (hb : IsData b) : c.disk b = V.block b := by
  obtain ⟨d, hc, rfl⟩ := hm
  rw [hc.disk]
  exact (if_pos hb).symm

theorem Mounted.available_iff (hm : Mounted c H V) :
    Available c b ↔ IsData b ∧ V.used b = false := by
  obtain ⟨d, hc, rfl⟩ := hm
  unfold Available
  rw [hc.disk]
  refine and_congr_right fun hb => ?_
  rw [show (volume d).used b = bitSet d b from if_pos hb]

/-- Zeros on disk are zeros in the cache. -/
theorem Mounted.zeroed (hm : Mounted c H V) (hb : IsData b)
    (h0 : ∀ k, k < bsize → V.block b k = 0) : Zeroed c b where
  disk k hk := by
    rw [hm.disk_block hb]
    exact h0 k hk
  cache i hv hi k hk := by
    have hdisk := hm.disk_block hb
    obtain ⟨d, hc, rfl⟩ := hm
    rw [hc.clean i hv, hi, ← hc.disk, hdisk]
    exact h0 k hk

theorem PoolInv.isData (h : PoolInv c O V) (hb : b ∈ O) : IsData b :=
  h.mounted.isData ((h.used b).mpr hb)

theorem PoolInv.available_iff (h : PoolInv c O V) : Available c b ↔ IsData b ∧ b ∉ O := by
  rw [h.mounted.available_iff, ← h.used b, Bool.not_eq_true]

end Views

section Steps

variable {c : Dev} {O : List ℕ} {V : Vol} {b : ℕ} {E : Panic → Prop}

theorem poolInv_start {d : ℕ → Block} (hc : Cached c [] d)
    (h0 : ∀ k, k < bsize → d bmapstart k = 0) : PoolInv c [] (volume d) := by
  refine ⟨⟨d, hc, rfl⟩, nodup_nil, fun b => ?_⟩
  have hclear : IsData b → bitSet d b = false := by
    intro hb
    have hbyte : bitByte b < bsize := by
      unfold bitByte bpb bsize
      omega
    unfold bitSet
    rw [bblock_data hb, h0 _ hbyte]
    simp
  by_cases hb : IsData b
  · simp [volume, hb, hclear hb]
  · simp [volume, hb]

/-- `balloc` hands out the lowest block that is not outstanding. -/
theorem PoolInv.wp_balloc (h : PoolInv c O V) {Q : Option ℕ → Dev → Prop}
    (hfull : (∀ b, IsData b → b ∈ O) → ∀ c', PoolInv c' O V → Q none c')
    (hQ : ∀ b c', IsData b → b ∉ O → (∀ a, IsData a → a < b → a ∈ O) →
      PoolInv c' (b :: O) (V.take b) → Q (some b) c') : wp balloc E Q c := by
  refine h.mounted.balloc_lowest (by decide) ?_ ?_
  · intro hall c' hm'
    exact hfull (fun b hb => (h.used b).mp (hall b hb)) c' ⟨hm', h.nodup, h.used⟩
  · intro b c' hb hfree hlow hm'
    have hnot : b ∉ O := fun hmem => absurd ((h.used b).mpr hmem) (by simp [hfree])
    refine hQ b c' hb hnot (fun a ha hab => (h.used a).mp (hlow a ha hab))
      ⟨hm', nodup_cons.mpr ⟨hnot, h.nodup⟩, fun a => ?_⟩
    by_cases hab : a = b
    · simp [Vol.take, Vol.setBlock, Vol.setUsed, hab]
    · simp [Vol.take, Vol.setBlock, Vol.setUsed, hab, h.used a]

theorem PoolInv.wp_bfree (h : PoolInv c O V) (hb : b ∈ O) {Q : Unit → Dev → Prop}
    (hQ : ∀ c', PoolInv c' (O.erase b) (V.setUsed b false) → Q () c') : wp (bfree b) E Q c := by
  refine h.mounted.bfree (by decide) ((h.used b).mpr hb) fun c' hm' => ?_
  refine hQ c' ⟨hm', h.nodup.erase b, fun a => ?_⟩
  rw [h.nodup.mem_erase_iff]
  by_cases hab : a = b
  · simp [Vol.setUsed, hab]
  · simp [Vol.setUsed, hab, h.used a]

theorem PoolInv.wp_writeBlock (h : PoolInv c O V) (hb : b ∈ O) {f : Block → Block}
    {Q : Unit → Dev → Prop}
    (hQ : ∀ c', PoolInv c' O (V.setBlock b (f (V.block b))) → Q () c') :
    wp (writeBlock b f) E Q c := by
  have hdata := h.isData hb
  simp only [writeBlock, wp_bind]
  refine h.mounted.bread hdata.lt (by decide) fun i c1 h1 => ?_
  rw [wp_expect]
  refine ⟨fun j hj => ?_, fun h => by simp at h⟩
  obtain rfl := Option.some.inj hj
  refine h1.writeBuf mem_cons_self hdata f fun c2 h2 => ?_
  exact h2.brelse fun c3 h3 => hQ c3 ⟨h3, h.nodup, h.used⟩

/-- Every state of a run satisfies the invariant. -/
theorem PoolRun.inv (h : PoolRun c O) : ∃ V, PoolInv c O V := by
  induction h with
  | start hc h0 => exact ⟨_, poolInv_start hc h0⟩
  | @taken c c' O b _ hrun ih =>
    obtain ⟨V, hV⟩ := ih
    have hpost := wp_ok (E := fun _ => False) (hV.wp_balloc (Q := fun r c' => ∀ b, r = some b →
      ∃ V', PoolInv c' (b :: O) V') (fun _ _ _ b hb => by simp at hb)
      fun b c' _ _ _ hinv b' hb' => ⟨_, Option.some.inj hb' ▸ hinv⟩) hrun
    exact hpost b rfl
  | @refused c c' O _ hrun ih =>
    obtain ⟨V, hV⟩ := ih
    have hpost := wp_ok (E := fun _ => False) (hV.wp_balloc (Q := fun r c' => r = none →
      PoolInv c' O V) (fun _ c' hinv _ => hinv) fun b c' _ _ _ _ hr => by simp at hr) hrun
    exact ⟨V, hpost rfl⟩
  | @freed c c' O b _ hb hrun ih =>
    obtain ⟨V, hV⟩ := ih
    have hpost := wp_ok (E := fun _ => False) (hV.wp_bfree hb
      (Q := fun _ c' => PoolInv c' (O.erase b) (V.setUsed b false)) fun c' hinv => hinv) hrun
    exact ⟨_, hpost⟩
  | @written c c' O b f _ hb hrun ih =>
    obtain ⟨V, hV⟩ := ih
    have hpost := wp_ok (E := fun _ => False) (hV.wp_writeBlock hb
      (Q := fun _ c' => PoolInv c' O (V.setBlock b (f (V.block b)))) fun c' hinv => hinv) hrun
    exact ⟨_, hpost⟩

end Steps

/-- All data blocks are outstanding when there are as many as there are blocks. -/
theorem PoolInv.all_iff {c : Dev} {O : List ℕ} {V : Vol} (h : PoolInv c O V) :
    (∀ b, IsData b → b ∈ O) ↔ O.length = fssize - datastart := by
  have hsub : O.toFinset ⊆ Finset.Ico datastart fssize := by
    intro b hb
    exact mem_Ico.mpr (h.isData (mem_toFinset.mp hb))
  have hcard : O.toFinset.card = O.length := toFinset_card_of_nodup h.nodup
  rw [← hcard, ← Nat.card_Ico]
  constructor
  · intro hall
    congr 1
    refine Finset.Subset.antisymm hsub fun b hb => ?_
    exact mem_toFinset.mpr (hall b (mem_Ico.mp hb))
  · intro heq b hb
    have hfin := eq_of_subset_of_card_le hsub (Nat.le_of_eq heq.symm)
    exact mem_toFinset.mp (hfin ▸ mem_Ico.mpr hb)

/-- The block pool. At every point of a run the outstanding blocks are
different data blocks; `balloc` takes the lowest one left and clears it without
touching the others, and fails exactly when none is left; `bfree` makes its
argument available again and nothing else. -/
theorem block_pool {c : Dev} {O : List ℕ} (h : PoolRun c O) :
    O.Nodup ∧ (∀ b ∈ O, datastart ≤ b ∧ b < fssize) ∧
    (∀ b, Available c b ↔ (datastart ≤ b ∧ b < fssize) ∧ b ∉ O) ∧
    (∃ r c', balloc c = .ok (r, c') ∧ (r = none ↔ O.length = fssize - datastart) ∧
      ∀ b, r = some b → IsLeast {a | (datastart ≤ a ∧ a < fssize) ∧ a ∉ O} b ∧ Zeroed c' b ∧
        ∀ a ∈ O, c'.disk a = c.disk a) ∧
    ∀ b ∈ O, ∃ c', bfree b c = .ok ((), c') ∧
      (∀ a, Available c' a ↔ Available c a ∨ a = b) ∧ ∀ a ∈ O, c'.disk a = c.disk a := by
  obtain ⟨V, hinv⟩ := h.inv
  refine ⟨hinv.nodup, fun b hb => hinv.isData hb, fun b => hinv.available_iff, ?_, ?_⟩
  · obtain ⟨r, c', hrun, hpost⟩ := exists_ok (hinv.wp_balloc
      (Q := fun r c' => (r = none ↔ ∀ b, IsData b → b ∈ O) ∧ ∀ b, r = some b →
        IsData b ∧ b ∉ O ∧ (∀ a, IsData a → a < b → a ∈ O) ∧ PoolInv c' (b :: O) (V.take b))
      (fun hall _ _ => ⟨by simpa using hall, fun b hb => by simp at hb⟩)
      fun b c' hb hnot hlow hinv' => ⟨by simpa using ⟨b, hb, hnot⟩, fun b' hb' => by
        obtain rfl := Option.some.inj hb'
        exact ⟨hb, hnot, hlow, hinv'⟩⟩)
    obtain ⟨hnone, hsome⟩ := hpost
    refine ⟨r, c', hrun, hnone.trans hinv.all_iff, fun b hr => ?_⟩
    obtain ⟨hb, hnot, hlow, hinv'⟩ := hsome b hr
    refine ⟨⟨⟨hb, hnot⟩, fun a ha => ?_⟩, hinv'.mounted.zeroed hb ?_, fun a ha => ?_⟩
    · by_contra hlt
      exact ha.2 (hlow a ha.1 (by omega))
    · intro k hk
      simp [Vol.take, Vol.setBlock, Vol.setUsed, fill, hk]
    · have hab : a ≠ b := fun heq => hnot (heq ▸ ha)
      rw [hinv'.mounted.disk_block (hinv.isData ha), hinv.mounted.disk_block (hinv.isData ha)]
      simp [Vol.take, Vol.setBlock, Vol.setUsed, hab]
  · intro b hb
    obtain ⟨_, c', hrun, hinv'⟩ := exists_ok (hinv.wp_bfree hb
      (Q := fun _ c' => PoolInv c' (O.erase b) (V.setUsed b false)) fun c' hinv' => hinv')
    refine ⟨c', hrun, fun a => ?_, fun a ha => ?_⟩
    · rw [hinv'.available_iff, hinv.available_iff, hinv.nodup.mem_erase_iff]
      have hdata := hinv.isData hb
      by_cases hab : a = b
      · simp [hab, hdata]
      · simp [hab]
    · rw [hinv'.mounted.disk_block (hinv.isData ha), hinv.mounted.disk_block (hinv.isData ha)]
      rfl

/-- On the zeroed disk of `init` the first block of the data area is taken. -/
theorem block_pool_blank : PoolRun blank.dev [] ∧ ∃ c', balloc blank.dev = .ok (some datastart, c') ∧
    Zeroed c' datastart := by
  obtain ⟨d, hc, -⟩ := blank_mounted
  have hrun : PoolRun blank.dev [] := .start hc fun k _ => by rw [← hc.disk]; rfl
  obtain ⟨-, -, -, ⟨r, c', hok, hnone, hsome⟩, -⟩ := block_pool hrun
  cases r with
  | none => exact absurd (hnone.mp rfl) (by decide)
  | some b =>
    obtain ⟨hleast, hzero, -⟩ := hsome b rfl
    have hle : b ≤ datastart := hleast.2 ⟨⟨le_rfl, by decide⟩, List.not_mem_nil⟩
    obtain rfl : b = datastart := Nat.le_antisymm hle hleast.1.1.1
    exact ⟨hrun, c', hok, hzero⟩

end ToyOs.Fs
