import ToyOs.Fs.WriteSpec

/-!
The inode cache against the inodes on disk. No inode ever has two slots in
use. A slot differs from the disk after an operation only when a write
returned 0 without writing the inode back although it had put a block into an
address of the inode: the disk ran out of blocks within the gap, or between
the indirect block and the first block behind it.
-/
namespace ToyOs.Fs

open Bytes Prog Function

variable {s t u : State} {N : Finset ℕ} {r : InodeRef} {n m k l off : ℕ} {src : List UInt8}
  {V V' : Vol} {ip ip' : Inode} {E : Panic → Prop}

/-- No inode has two slots in use. -/
def SlotsUnique (s : State) : Prop :=
  ∀ r r', 0 < (s.icache r).refcnt → 0 < (s.icache r').refcnt →
    (s.icache r).ip.inum = (s.icache r').ip.inum → r = r'

/-- Every slot in use that is valid has the fields of its inode on disk. -/
def SlotsCoherent (s : State) : Prop :=
  ∀ r, 0 < (s.icache r).refcnt → (s.icache r).valid = true →
    s.vol.inode (s.icache r).ip.inum = (s.icache r).ip.toDinode

theorem Stable.slotsUnique (hs : Stable s) : SlotsUnique s := by
  intro r r' h h' heq
  exact hs.uniq r r' _ _ _ (refs_some.mpr ⟨h, rfl, rfl⟩) (refs_some.mpr ⟨h', rfl, heq.symm⟩)

theorem Stable.slotsCoherent_iff (hs : Stable s) : SlotsCoherent s ↔ Coherent s := by
  constructor
  · intro h n hn
    by_cases hold : ∃ r, s.Holds n r
    · obtain ⟨r, hr⟩ := hold
      rw [node_of_holds (fun r' hr' => hs.holds_uniq r' r hr' hr) hr, ← h r hr.1 hr.2.1, hr.2.2]
    · rw [node_of_not_holds fun r hr => hold ⟨r, hr⟩]
      rfl
  · intro h r hpos hvalid
    have hr : s.Holds (s.icache r).ip.inum r := ⟨hpos, hvalid, rfl⟩
    have hlt := (hs.live r _ _ hr.refs).1
    rw [h _ hlt, node_of_holds (fun r' hr' => hs.holds_uniq r' r hr' hr) hr]

/-- The bytes that a write has to map before it writes the inode back. -/
def firstRange (size off : ℕ) : ℕ × ℕ := if size < off then (size, off) else (off, off + 1)

/-- A write takes the last free block before the inode is written back, and
an address of the inode is among those that it fills. -/
def Strands (V : Vol) (ip : Inode) (off : ℕ) (src : List UInt8) : Prop :=
  src ≠ [] ∧ off + src.length ≤ maxfile * bsize ∧ 0 < V.free ∧
    V.free < (V.missing ip (firstRange ip.size off).1 (firstRange ip.size off).2).card ∧
    ∃ p ∈ V.missing ip (firstRange ip.size off).1 (firstRange ip.size off).2, IsSlot p

/-- The operations after which a slot differs from the disk. -/
def Op.Strands (s : State) : Op → Prop
  | .writei r off src => off < 2 ^ 32 ∧
    ∃ n k, s.refs r = some (n, k) ∧ Fs.Strands s.vol (s.node n) off src
  | .appendi r src =>
    ∃ n k, s.refs r = some (n, k) ∧ Fs.Strands s.vol (s.node n) (s.node n).size src
  | _ => False

/-- A slot of the inode that is filled changes its addresses. -/
theorem Fills.addrs_iff {P : Finset ℕ} (h : Fills P V ip V' ip') :
    ip'.addrs = ip.addrs ↔ ∀ p ∈ P, ¬ IsSlot p := by
  refine ⟨fun heq p hp hslot => ?_, h.addrs_eq⟩
  have hzero := h.empty p hp
  have hnew : V'.addr ip' p ≠ 0 := fun h0 => ((h.addr p).mp h0).2 hp
  rcases hslot with hlt | rfl
  · rw [Vol.addr_direct _ _ hlt] at hzero hnew
    exact hnew (by rw [heq, hzero])
  · rw [Vol.addr_table] at hzero hnew
    exact hnew (by rw [heq, hzero])

/-- Blocks ran out before the inode was written back. -/
theorem Fills.back_iff {P : Finset ℕ} {a b : ℕ} (h : Fills P V ip V' ip')
    (hs : Short V ip V' P a b) (hback : V.inode ip.inum = ip.toDinode) :
    V'.inode ip.inum = ip'.toDinode ↔
      ¬ (0 < V.free ∧ V.free < (V.missing ip a b).card ∧ ∃ p ∈ V.missing ip a b, IsSlot p) := by
  obtain ⟨hcard, hlt⟩ := hs.lt h
  have haddrs : V'.inode ip.inum = ip'.toDinode ↔ ip'.addrs = ip.addrs := by
    rw [h.grows.inode, hback, h.grows.info]
    simp only [Inode.toDinode, Dinode.mk.injEq, true_and]
    exact eq_comm
  rw [haddrs, h.addrs_iff]
  constructor
  · rintro hno ⟨hpos, -, q, hq, hslot⟩
    have hne : P.Nonempty := Finset.card_pos.mp (by omega)
    obtain ⟨p, hp, hslot'⟩ := hs.slots hne q hq hslot
    exact hno p hp hslot'
  · intro hno p hp hslot
    exact hno ⟨hcard ▸ Finset.card_pos.mpr ⟨p, hp⟩, hlt, p, hs.part.subset hp, hslot⟩

/-- A write to inode `n` keeps the cache coherent when it wrote `n` back. -/
theorem Wrote.coherent_iff_back (h : Wrote s n off src l t) (hn : n < ninodes) (hc : Coherent s) :
    Coherent t ↔ t.vol.inode n = (t.node n).toDinode := by
  refine ⟨fun ht => ht n hn, fun hback m hm => ?_⟩
  by_cases hmn : m = n
  · rw [hmn, hback]
  · have hne : m ≠ (s.node n).inum := by rwa [node_inum]
    rw [h.written.frame.inode m hne, h.node m hmn, hc m hm]

theorem Wrote.coherent_iff (h : Wrote s n off src l t) (hn : n < ninodes) (hc : Coherent s) :
    Coherent t ↔ ¬ Strands s.vol (s.node n) off src := by
  have hback := hc n hn
  have hinum := node_inum s n
  rw [h.coherent_iff_back hn hc]
  by_cases hskip : src = [] ∨ maxfile * bsize < off + src.length
  · obtain ⟨-, hvol, hnode⟩ := h.skipped hskip
    rw [hvol, hnode]
    refine ⟨fun _ hst => ?_, fun _ => hback⟩
    rcases hskip with h0 | h0
    · exact hst.1 h0
    · have := hst.2.1
      omega
  · obtain ⟨hne, hle⟩ := not_or.mp hskip
    have hch := h.charged hne (by omega)
    rcases Nat.eq_zero_or_pos l with rfl | hpos
    · cases hch.none rfl with
      | @gap P past fills short =>
        have hiff := fills.back_iff short (by rwa [hinum])
        rw [hinum] at hiff
        rw [hiff, Strands, firstRange, if_pos past]
        constructor
        · exact fun hno hst => hno ⟨hst.2.2.1, hst.2.2.2.1, hst.2.2.2.2⟩
        · exact fun hno hst => hno ⟨hne, by omega, hst⟩
      | data past fits size back =>
        rw [hinum] at back
        refine ⟨fun _ hst => ?_, fun _ => back⟩
        have hlt := hst.2.2.2.1
        rw [firstRange, if_pos past] at hlt
        exact absurd fits (Nat.not_le_of_lt hlt)
      | @first P inside fills short =>
        have hiff := fills.back_iff short (by rwa [hinum])
        rw [hinum] at hiff
        rw [hiff, Strands, firstRange, if_neg (by omega)]
        constructor
        · exact fun hno hst => hno ⟨hst.2.2.1, hst.2.2.2.1, hst.2.2.2.2⟩
        · exact fun hno hst => hno ⟨hne, by omega, hst⟩
    · have hb := hch.back hpos
      rw [hinum] at hb
      refine ⟨fun _ hst => ?_, fun _ => hb⟩
      have hfits := hch.some.mp hpos
      have hlt := hst.2.2.2.1
      rw [firstRange] at hlt
      split at hlt
      · rename_i hpast
        have hmono : s.vol.missing (s.node n) (s.node n).size off ⊆
            s.vol.missing (s.node n) (s.node n).size (off + 1) := Vol.missing_mono (Nat.le_succ off)
        rw [Nat.min_eq_left hpast.le] at hfits
        exact absurd ((Finset.card_le_card hmono).trans hfits) (Nat.not_le_of_lt hlt)
      · rename_i hin
        rw [Nat.min_eq_right (by omega)] at hfits
        exact absurd hfits (Nat.not_le_of_lt hlt)

theorem Truncated.coherent (h : Truncated s n t) (hc : Coherent s) : Coherent t := by
  intro m hm
  have hinum := node_inum s n
  by_cases hmn : m = n
  · rw [hmn, h.self, h.vol, Vol.truncated, hinum]
    exact update_self n _ _
  · rw [h.node m hmn, h.vol, Vol.truncated, hinum, ← hc m hm]
    exact update_of_ne hmn _ _

theorem exists_ref_iff {P : ℕ → Prop} (hr : s.refs r = some (n, k)) :
    (∃ m j, s.refs r = some (m, j) ∧ P m) ↔ P n := by
  constructor
  · rintro ⟨m, j, hm, hP⟩
    rw [hr] at hm
    obtain ⟨rfl, -⟩ := Prod.mk.inj (Option.some.inj hm)
    exact hP
  · exact fun hP => ⟨n, k, hr, hP⟩

theorem Op.Gentle.not_strands {op : Op} (h : op.Gentle) : ¬ op.Strands s := by
  cases op <;> first | exact h.elim | exact not_false

/-- One operation: the cache stays coherent exactly when it strands nothing. -/
theorem Effect.coherent_iff (ht : Tidy s N) (hc : Coherent s) {op : Op} (h : Effect s N op t) :
    Coherent t ↔ ¬ op.Strands s := by
  cases h with
  | quiet hop hq => exact iff_of_true (hq.coherent hc) hop.not_strands
  | leaked hop hl => exact iff_of_true (hl.coherent hc) hop.not_strands
  | created hop hcr => exact iff_of_true (hcr.coherent hc) hop.not_strands
  | far hfar => exact iff_of_true hc fun hst => absurd hst.1 (Nat.not_lt.mpr hfar)
  | writei hr _ hnear hw =>
    rw [hw.coherent_iff (ht.stable.live _ _ _ hr).1 hc, Op.Strands, exists_ref_iff hr,
      and_iff_right hnear]
  | appendi hr _ hw =>
    rw [hw.coherent_iff (ht.stable.live _ _ _ hr).1 hc, Op.Strands, exists_ref_iff hr]
  | trunc hr _ htr => exact iff_of_true (htr.coherent hc) not_false

/-- A run: the states with the operations done in them, the last one first,
and the state reached. -/
inductive Run : List (State × Op) → State → Prop
  | init {e : Embedded} {s₀ s : State} : init e s₀ = .ok ((), s) → Run [] s
  | step {steps : List (State × Op)} {s t : State} {op : Op} {v : Reply} :
      Run steps s → op.Allowed s → op.run s = .ok (v, t) → Run ((s, op) :: steps) t

theorem Run.reachable {steps : List (State × Op)} (h : Run steps s) : Reachable s := by
  induction h with
  | init h => exact .init h
  | step _ ha hrun ih => exact .step ih ha hrun

theorem Reachable.run (h : Reachable s) : ∃ steps, Run steps s := by
  induction h with
  | init h => exact ⟨[], .init h⟩
  | step _ ha hrun ih =>
    obtain ⟨steps, h⟩ := ih
    exact ⟨_, .step h ha hrun⟩

/-- Along a run all slots are coherent exactly when no step strands a block. -/
theorem Run.coherent_iff {steps : List (State × Op)} (h : Run steps t) :
    (SlotsCoherent t ∧ ∀ p ∈ steps, SlotsCoherent p.1) ↔ ∀ p ∈ steps, ¬ p.2.Strands p.1 := by
  induction h with
  | @init e s₀ s h =>
    obtain ⟨N, hi⟩ := Initial.of_init h
    have hc := hi.booting.tidy.stable.slotsCoherent_iff.mpr hi.booting.coherent
    simp [hc]
  | @step steps s t op v hrun ha hop ih =>
    obtain ⟨N, ht⟩ := hrun.reachable.tidy
    obtain ⟨N', -, ht'⟩ := wp_ok (wp_op ht ha) hop
    have hstep : SlotsCoherent s → (SlotsCoherent t ↔ ¬ op.Strands s) := fun hs => by
      have hiff := (wp_ok (wp_effect ht ha) hop).coherent_iff ht (ht.stable.slotsCoherent_iff.mp hs)
      rwa [ht'.stable.slotsCoherent_iff]
    simp only [List.forall_mem_cons]
    constructor
    · rintro ⟨hct, hcs, hrest⟩
      exact ⟨(hstep hcs).mp hct, ih.mp ⟨hcs, hrest⟩⟩
    · rintro ⟨hop', hrest⟩
      obtain ⟨hcs, hall⟩ := ih.mpr hrest
      exact ⟨(hstep hcs).mpr hop', hcs, hall⟩

/-- In a coherent state the version that eviction falls back to is the cached one. -/
theorem Quiet.node_eq (h : Quiet s t) (hc : Coherent s) (hn : n < ninodes) :
    t.node n = s.node n := by
  rcases h.node n hn with heq | heq
  · exact heq
  · rw [heq, hc n hn]
    have hinum := node_inum s n
    cases hnode : s.node n with
    | mk inum typ major minor nlink size addrs =>
      rw [hnode] at hinum
      subst hinum
      rfl

/-- The inode cache along a run. No inode has two slots. The slots agree with
the disk after each operation exactly when no operation strands a block; in a
state where they agree, giving up a reference and looking the inode up again
yields the same inode with the same blocks. -/
theorem icache_coherent_iff {steps : List (State × Op)} (h : Run steps t) :
    SlotsUnique t ∧
    ((SlotsCoherent t ∧ ∀ p ∈ steps, SlotsCoherent p.1) ↔ ∀ p ∈ steps, ¬ p.2.Strands p.1) ∧
    (SlotsCoherent t → ∀ r n k u, t.refs r = some (n, k) → iput r t = .ok ((), u) →
      u.node n = t.node n ∧ ∀ p, u.vol.addr (u.node n) p = t.vol.addr (t.node n) p) := by
  obtain ⟨N, ht⟩ := h.reachable.tidy
  refine ⟨ht.stable.slotsUnique, h.coherent_iff, fun hc r n k u hr hrun => ?_⟩
  have hq : Quiet t u := by
    have hwp : wp (iput r) (fun _ => True) (fun _ u => Quiet t u) t :=
      wp_iput ht.stable hr fun u hq _ => hq
    have hquiet := wp_ok hwp hrun
    exact hquiet
  have hnode := hq.node_eq (ht.stable.slotsCoherent_iff.mp hc) (ht.stable.live r n k hr).1
  exact ⟨hnode, fun p => by rw [hnode, hq.vol]⟩

end ToyOs.Fs
