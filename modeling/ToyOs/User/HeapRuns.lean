import ToyOs.User.Coalesce
import Mathlib.Data.List.Pairwise
import Mathlib.Logic.Relation

/-!
Programs that use the heap. A session is the heap with the pointers that were
handed out and not yet given back; its steps are calls of `alloc` and
`dealloc` and stores of the program to the bytes it asked for. Free and live
blocks together cover the memory obtained from `sbrk`, each address once, and
this count carries the disjointness that every update needs.
-/
namespace ToyOs.User

open Bytes Blocks Heap Prog List Nat

/-- The block whose payload starts at a pointer. -/
def Heap.blockOf (h : Heap) (p : ℕ) : Block := ⟨p - headerSize, h.sizeAt (p - headerSize)⟩

structure Session where
  heap : Heap
  live : List (ℕ × AllocLayout)

def liveBlocks (h : Heap) (live : List (ℕ × AllocLayout)) : List Block :=
  live.map fun e => h.blockOf e.1

/-- What is assumed of `sbrk`: an answer that is not negative is the address of
page-aligned memory above the null page that was not obtained before. -/
structure SbrkOk (obtained : List Block) (answer : ℕ → ℤ) : Prop where
  pos : ∀ n, 0 ≤ answer n → 0 < answer n
  isize : ∀ n, answer n ≤ isizeMax
  aligned : ∀ n, 0 ≤ answer n → answer n % pgSize = 0
  fresh : ∀ n, 0 ≤ answer n → ∀ r ∈ obtained, Separate ⟨(answer n).toNat, n⟩ r

inductive Step : Session → Session → Prop
  | alloc {s : Session} {answer : ℕ → ℤ} {l : AllocLayout} {p : ℕ} {h : Heap}
      (ok : SbrkOk s.heap.obtained answer) (run : alloc answer l s.heap = .ok (p, h)) :
      Step s ⟨h, if p = 0 then s.live else (p, l) :: s.live⟩
  | dealloc {s : Session} {before after : List (ℕ × AllocLayout)} {p : ℕ} {l : AllocLayout}
      {h : Heap} (live : s.live = before ++ (p, l) :: after)
      (run : dealloc p s.heap = .ok ((), h)) : Step s ⟨h, before ++ after⟩
  | store {s : Session} {p a : ℕ} {l : AllocLayout} {bytes : List UInt8} (live : (p, l) ∈ s.live)
      (above : p ≤ a) (below : a + bytes.length ≤ p + l.size) :
      Step s ⟨{ s.heap with mem := write s.heap.mem a bytes }, s.live⟩

/-- The allocator as it is linked: no memory yet. -/
def Session.start (m : Store) : Session := ⟨⟨m, 0, []⟩, []⟩

def Reachable (s : Session) : Prop := ∃ m, Relation.ReflTransGen Step (Session.start m) s

/-- The state of the heap between calls. -/
structure Tidy (h : Heap) (live : List (ℕ × AllocLayout)) (F : List Block) : Prop where
  seg : Seg h.mem h.head F 0
  gap : F.Pairwise Gap
  good : ∀ b ∈ F ++ liveBlocks h live, Good b
  tiled : ∀ x, cover (F ++ liveBlocks h live) x = cover h.obtained x
  once : ∀ x, cover h.obtained x ≤ 1
  room : ∀ e ∈ live, e.1 + e.2.size ≤ (h.blockOf e.1).stop

variable {h : Heap} {live : List (ℕ × AllocLayout)} {F : List Block} {l : AllocLayout}
  {answer : ℕ → ℤ} {needed p : ℕ} {b : Block} {E : Fault → Prop}

namespace Tidy

theorem good_free (t : Tidy h live F) : ∀ b ∈ F, Good b :=
  fun b hb => t.good b (mem_append_left _ hb)

theorem good_live (t : Tidy h live F) : ∀ b ∈ liveBlocks h live, Good b :=
  fun b hb => t.good b (mem_append_right _ hb)

theorem separate (t : Tidy h live F) : (F ++ liveBlocks h live).Pairwise Separate :=
  pairwise_separate (fun x => t.tiled x ▸ t.once x)
    fun c hc => lt_of_lt_of_le (by omega) (t.good c hc).least

/-- What lies outside the obtained memory is separate from every block. -/
theorem separate_fresh (t : Tidy h live F) (hb : 0 < b.size)
    (hfresh : ∀ r ∈ h.obtained, Separate b r) : ∀ c ∈ F ++ liveBlocks h live, Separate b c := by
  intro c hc
  by_contra hs
  have hc0 := (t.good c hc).least
  -- The common address is covered by `c`, hence by an obtained region.
  have hx : b.Has (max b.start c.start) ∧ c.Has (max b.start c.start) := by
    unfold Separate Block.stop at hs
    unfold Block.Has Block.stop
    omega
  have hpos : 0 < cover h.obtained (max b.start c.start) := by
    rw [← t.tiled]
    exact cover_pos_iff.mpr ⟨c, hc, hx.2⟩
  obtain ⟨r, hr, hhas⟩ := cover_pos_iff.mp hpos
  have := hfresh r hr
  have hbx := hx.1
  unfold Separate Block.Has Block.stop at *
  omega

end Tidy

/-- Live blocks do not change when memory changes only in blocks apart from them. -/
theorem liveBlocks_congr {mem : Store} {head : ℕ} {obtained l : List Block}
    (hout : Outside l h.mem mem) (hgood : ∀ b ∈ liveBlocks h live, Good b)
    (hsep : ∀ b ∈ liveBlocks h live, ∀ c ∈ l, Separate b c) :
    liveBlocks ⟨mem, head, obtained⟩ live = liveBlocks h live := by
  apply map_congr_left
  intro e he
  have hmem : h.blockOf e.1 ∈ liveBlocks h live := mem_map_of_mem he
  have hkeep := hout.load (b := h.blockOf e.1) (le_trans (by omega) (hgood _ hmem).least)
    (hsep _ hmem) (k := 0) (by omega)
  unfold Heap.blockOf
  congr 1

section Sizes

theorem alignUp_some {x a v : ℕ} (h : alignUp x a = some v) (ha : 0 < a) :
    v % a = 0 ∧ x ≤ v ∧ v < x + a := by
  unfold alignUp at h
  obtain ⟨w, hw, rfl⟩ := Option.map_eq_some_iff.mp h
  have hsum := checkedAdd_some hw
  have hdiv := div_add_mod w a
  have hlt := mod_lt w ha
  refine ⟨mul_mod_left _ _, ?_, ?_⟩
  · rw [mul_comm] at hdiv
    omega
  · rw [mul_comm] at hdiv
    omega

/-- The size of the block for a request. -/
theorem neededFor_some (h : neededFor l = some needed) :
    needed % 16 = 0 ∧ 32 ≤ needed ∧ headerSize + l.size ≤ needed := by
  unfold neededFor at h
  obtain ⟨payload, hp, hsum⟩ := Option.bind_eq_some_iff.mp h
  obtain ⟨hmod, hle, -⟩ := alignUp_some hp (by decide)
  have hadd := checkedAdd_some hsum
  rw [headerSize_eq] at *
  unfold align at hmod
  omega

end Sizes

theorem Good.split {c : Block} (hc : Good c) (hn : needed % 16 = 0) (h32 : 32 ≤ needed)
    (hfit : needed ≤ c.size) (hrest : minBlockSize ≤ c.size - needed) :
    Good ⟨c.start, needed⟩ ∧ Good ⟨c.start + needed, c.size - needed⟩ := by
  rw [minBlockSize_eq] at hrest
  have h1 := hc.pos
  have h2 := hc.aligned
  have h3 := hc.size_aligned
  have h4 := hc.below
  unfold Block.stop at h4
  constructor
  · exact ⟨h1, h2, hn, h32, by simp only [Block.stop]; omega⟩
  · exact ⟨by dsimp only; omega, by dsimp only; omega, by dsimp only; omega, hrest,
      by simp only [Block.stop]; omega⟩

theorem Tidy.taken (t : Tidy h live F) (hneed : neededFor l = some needed) {rest : List Block}
    {mem : Store} {head : ℕ} (hff : firstFit needed minBlockSize F = some (b, rest))
    (hseg : Seg mem head rest 0) (hload : load 8 mem b.start = b.size)
    (hout : Outside F h.mem mem) :
    Tidy { h with mem := mem, head := head } ((b.start + headerSize, l) :: live) rest := by
  obtain ⟨hmod, h32, hsize⟩ := neededFor_some hneed
  have hsep := pairwise_append.mp t.separate
  have hlive : liveBlocks { h with mem := mem, head := head } live = liveBlocks h live :=
    liveBlocks_congr hout t.good_live fun c hc d hd => (hsep.2.2 d hd c hc).symm
  have hparts := firstFit_forall (P := Good) hff (fun c hc => hc.split hmod h32) t.good_free
  have hblock : ({ h with mem := mem, head := head } : Heap).blockOf (b.start + headerSize) = b := by
    unfold Heap.blockOf Heap.sizeAt
    rw [Nat.add_sub_cancel, hload]
  have hblocks : liveBlocks { h with mem := mem, head := head }
      ((b.start + headerSize, l) :: live) = b :: liveBlocks h live := by
    rw [← hlive]
    exact congrArg (· :: _) hblock
  refine ⟨hseg, gap_firstFit hff t.gap, ?_, ?_, t.once, ?_⟩
  · rw [hblocks]
    intro c hc
    rcases mem_append.mp hc with hc | hc
    · exact hparts.2 c hc
    · rcases mem_cons.mp hc with rfl | hc
      · exact hparts.1
      · exact t.good_live c hc
  · intro x
    have h1 := t.tiled x
    have h2 := cover_firstFit (x := x) hff
    rw [hblocks]
    simp only [cover_append, cover_cons] at *
    omega
  · refine forall_mem_cons.mpr ⟨?_, fun e he => ?_⟩
    · have hfit := firstFit_size hff
      rw [hblock]
      unfold Block.stop
      dsimp only
      omega
    · have hsame := map_inj_left.mp hlive e he
      rw [hsame]
      exact t.room e he

/-- A block apart from all others that joins the free list. -/
theorem Tidy.given (t : Tidy h live F) {mem : Store} {head : ℕ}
    {live' : List (ℕ × AllocLayout)} {obtained : List Block} (hb : Good b)
    (hsub : ∀ e ∈ live', e ∈ live)
    (hseg : Seg mem head (insertBlock b F) 0) (hsepF : ∀ c ∈ F, Separate b c)
    (hlive : liveBlocks ⟨mem, head, obtained⟩ live' = liveBlocks h live')
    (hcover : ∀ x, cover (b :: F ++ liveBlocks h live') x = cover obtained x)
    (hone : ∀ x, cover obtained x ≤ 1) :
    Tidy ⟨mem, head, obtained⟩ live' (insertBlock b F) := by
  have hsubl : ∀ c ∈ liveBlocks h live', c ∈ liveBlocks h live := by
    intro c hc
    obtain ⟨e, he, rfl⟩ := mem_map.mp hc
    exact mem_map_of_mem (hsub e he)
  refine ⟨hseg, ?_, ?_, ?_, hone, ?_⟩
  · exact gap_insertBlock t.gap
      (fun c hc => lt_of_lt_of_le (by omega) (t.good_free c hc).least) hsepF
  · rw [hlive]
    refine forall_mem_append.mpr ⟨?_, fun c hc => t.good_live c (hsubl c hc)⟩
    exact insertBlock_forall (fun _ _ => Good.join) hb t.good_free
  · intro x
    rw [hlive, ← hcover x]
    simp only [cover_append, cover_insertBlock, cons_append, cover_cons]
    omega
  · intro e he
    have hsame := map_inj_left.mp hlive e he
    rw [hsame]
    exact t.room e (hsub e he)

/-- Why `grow_heap` fails. -/
def Stuck (answer : ℕ → ℤ) (needed : ℕ) : Prop :=
  alignUp needed pgSize = none ∨
    ∃ total, alignUp needed pgSize = some total ∧ (isizeMax < total ∨ answer total < 0)

theorem wp_growHeap (t : Tidy h live F) (hs : SbrkOk h.obtained answer) (h32 : 32 ≤ needed)
    {Q : Option Unit → Heap → Prop} (hnone : Stuck answer needed → Q none h)
    (hsome : ∀ h' F', Tidy h' live F' → (∃ c ∈ F', needed ≤ c.size) → Q (some ()) h') :
    (growHeap answer needed).wp E Q h := by
  unfold growHeap
  cases htotal : alignUp needed pgSize with
  | none => exact hnone (Or.inl htotal)
  | some total =>
    dsimp only
    rw [wp_ite]
    refine ⟨fun hbig => hnone (Or.inr ⟨total, htotal, Or.inl hbig⟩), fun hsmall => ?_⟩
    obtain ⟨hmod, hle, -⟩ := alignUp_some htotal (by decide)
    by_cases hneg : answer total < 0
    · simp only [sbrk, wp_bind, if_neg (Int.not_le.mpr hneg), wp_pure, if_pos hneg]
      exact hnone (Or.inr ⟨total, htotal, Or.inr hneg⟩)
    · have hge : 0 ≤ answer total := Int.not_lt.mp hneg
      have hpos := hs.pos total hge
      have hisize := hs.isize total
      have halign := hs.aligned total hge
      have hb : Good ⟨(answer total).toNat, total⟩ := by
        unfold pgSize at hmod halign
        refine ⟨by dsimp only; omega, by dsimp only; omega, by dsimp only; omega,
          by dsimp only; omega, ?_⟩
        unfold isizeMax at hisize hsmall
        unfold Block.stop usizeSize
        dsimp only
        omega
      have hsep := t.separate_fresh (b := ⟨(answer total).toNat, total⟩)
        (by dsimp only; omega) (hs.fresh total hge)
      rw [forall_mem_append] at hsep
      simp only [sbrk, wp_bind, if_pos hge, wp_pure, wp_modify, if_neg hneg, setSize,
        setNext]
      have h16 : 16 ≤ total := by omega
      have hout : Outside [⟨(answer total).toNat, total⟩] h.mem
          (store 8 (store 8 h.mem (answer total).toNat total) ((answer total).toNat + 8) 0) :=
        (outside_store (b := ⟨(answer total).toNat, total⟩) (k := 0) h16 (by omega)).trans
          (outside_store (b := ⟨(answer total).toNat, total⟩) h16 (by omega))
      have htw : total < usizeSize := by
        have := hb.below
        simp only [Block.stop] at this
        omega
      have hsepF : ∀ c ∈ F, ∀ d ∈ [(⟨(answer total).toNat, total⟩ : Block)], Separate c d := by
        intro c hc d hd
        rw [mem_singleton.mp hd]
        exact (hsep.1 c hc).symm
      refine wp_insertFreeBlock (b := ⟨(answer total).toNat, total⟩) (F := F) ?_ t.good_free t.gap
        hb ?_ hsep.1 ?_
      · exact t.seg.frame hout (fun c hc => le_trans (by omega) (t.good_free c hc).least) hsepF
      · dsimp only
        rw [load_store_of_disjoint _ _ _ _ _ _ (by omega), load_store_same]
        exact mod_eq_of_lt htw
      · intro mem head hseg hout2
        refine hsome _ _ (t.given hb (fun e he => he) hseg hsep.1 ?_ ?_ ?_) ?_
        · have hall : Outside (⟨(answer total).toNat, total⟩ :: F) h.mem mem :=
            (hout.subset (by simp)).trans hout2
          refine liveBlocks_congr hall t.good_live fun c hc => ?_
          refine forall_mem_cons.mpr ⟨(hsep.2 c hc).symm, fun d hd => ?_⟩
          exact ((pairwise_append.mp t.separate).2.2 d hd c hc).symm
        · intro x
          have := t.tiled x
          simp only [cons_append, cover_cons] at *
          omega
        · intro x
          have hone := t.once x
          rw [cover_cons]
          split_ifs with hx
          · -- A fresh address was not covered before.
            have hzero : cover h.obtained x = 0 := by
              by_contra hne
              obtain ⟨r, hr, hhas⟩ := cover_pos_iff.mp (pos_of_ne_zero hne)
              have := hs.fresh total hge r hr
              unfold Separate Block.Has Block.stop at *
              omega
            omega
          · omega
        · obtain ⟨c, hc, hle'⟩ := insertBlock_size (b := ⟨(answer total).toNat, total⟩) (l := F)
          exact ⟨c, hc, le_trans hle hle'⟩

/-- Why `alloc` returns null. -/
def Refused (F : List Block) (answer : ℕ → ℤ) (l : AllocLayout) : Prop :=
  align < l.align ∨ neededFor l = none ∨
    ∃ needed, neededFor l = some needed ∧ (∀ b ∈ F, b.size < needed) ∧ Stuck answer needed

theorem wp_alloc (t : Tidy h live F) (hs : SbrkOk h.obtained answer) {Q : ℕ → Heap → Prop}
    (hnull : Refused F answer l → Q 0 h)
    (hptr : ∀ p h' F', p ≠ 0 → Tidy h' ((p, l) :: live) F' → Q p h') :
    (alloc answer l).wp E Q h := by
  unfold alloc
  rw [wp_ite]
  refine ⟨fun hbig => hnull (Or.inl hbig), fun _ => ?_⟩
  cases hneed : neededFor l with
  | none => exact hnull (Or.inr (Or.inl hneed))
  | some needed =>
    obtain ⟨hmod, h32, hsize⟩ := neededFor_some hneed
    have hne : ∀ b : Block, b.start + headerSize ≠ 0 := fun b => by
      rw [headerSize_eq]
      omega
    dsimp only
    rw [wp_bind]
    refine wp_allocFromFreelist h32 t.seg t.good_free t.gap (fun hff => ?_) ?_
    · dsimp only
      rw [wp_bind]
      refine wp_growHeap t hs h32 (fun hstuck => ?_) fun h' F' t' hlarge => ?_
      · exact hnull (Or.inr (Or.inr ⟨needed, hneed, firstFit_none hff, hstuck⟩))
      · dsimp only
        rw [wp_bind]
        refine wp_allocFromFreelist h32 t'.seg t'.good_free t'.gap (fun hff' => ?_) ?_
        · obtain ⟨c, hc, hle⟩ := hlarge
          have := firstFit_none hff' c hc
          omega
        · intro b rest mem head hff' hseg hload hout
          exact hptr _ _ rest (hne b) (t'.taken hneed hff' hseg hload hout)
    · intro b rest mem head hff hseg hload hout
      exact hptr _ _ rest (hne b) (t.taken hneed hff hseg hload hout)

theorem wp_dealloc {before after : List (ℕ × AllocLayout)}
    (t : Tidy h (before ++ (p, l) :: after) F) {Q : Unit → Heap → Prop}
    (hQ : ∀ h' F', Tidy h' (before ++ after) F' → Q () h') : (dealloc p).wp E Q h := by
  have hsplit : liveBlocks h (before ++ (p, l) :: after) =
      liveBlocks h before ++ h.blockOf p :: liveBlocks h after := by
    simp [liveBlocks]
  have hrest : liveBlocks h (before ++ after) = liveBlocks h before ++ liveBlocks h after := by
    simp [liveBlocks]
  have hmem : h.blockOf p ∈ liveBlocks h (before ++ (p, l) :: after) := by simp [hsplit]
  have hb := t.good_live _ hmem
  have hsep := pairwise_append.mp t.separate
  have hsepF : ∀ c ∈ F, Separate (h.blockOf p) c := fun c hc => (hsep.2.2 c hc _ hmem).symm
  have hp : p ≠ 0 := by
    intro h0
    have hpos := hb.pos
    rw [h0] at hpos
    simp [Heap.blockOf] at hpos
  rw [dealloc, if_neg hp]
  refine wp_insertFreeBlock (b := h.blockOf p) t.seg t.good_free t.gap hb rfl hsepF ?_
  intro mem head hseg hout
  have hothers : ∀ c ∈ liveBlocks h (before ++ after), Separate c (h.blockOf p) := by
    have hpair := hsep.2.1
    rw [hsplit, pairwise_append, pairwise_cons] at hpair
    intro c hc
    rw [hrest] at hc
    rcases mem_append.mp hc with hc | hc
    · exact hpair.2.2 c hc _ mem_cons_self
    · exact (hpair.2.1.1 c hc).symm
  have hsub : ∀ e ∈ before ++ after, e ∈ before ++ (p, l) :: after := by
    intro e he
    rcases mem_append.mp he with he | he
    · exact mem_append_left _ he
    · exact mem_append_right _ (mem_cons_of_mem _ he)
  have hsubl : ∀ c ∈ liveBlocks h (before ++ after),
      c ∈ liveBlocks h (before ++ (p, l) :: after) := by
    intro c hc
    obtain ⟨e, he, rfl⟩ := mem_map.mp hc
    exact mem_map_of_mem (hsub e he)
  refine hQ _ _ (t.given hb hsub hseg hsepF ?_ ?_ t.once)
  · refine liveBlocks_congr hout (fun c hc => t.good_live c (hsubl c hc)) fun c hc => ?_
    refine forall_mem_cons.mpr ⟨hothers c hc, fun d hd => ?_⟩
    exact (hsep.2.2 d hd c (hsubl c hc)).symm
  · intro x
    rw [← t.tiled x, hsplit, hrest]
    simp only [cover_append, cons_append, cover_cons]
    omega

/-- A store of the program stays within its payload. -/
theorem Tidy.stored (t : Tidy h live F) {a : ℕ} {bytes : List UInt8} (hlive : (p, l) ∈ live)
    (hlo : p ≤ a) (hhi : a + bytes.length ≤ p + l.size) :
    Tidy { h with mem := write h.mem a bytes } live F := by
  have hmem : h.blockOf p ∈ liveBlocks h live := mem_map.mpr ⟨(p, l), hlive, rfl⟩
  have hb := t.good_live _ hmem
  have hroom := t.room _ hlive
  have hstart : (h.blockOf p).start + headerSize = p := by
    have hpos : 0 < p - headerSize := hb.pos
    change p - headerSize + headerSize = p
    omega
  have hsep := pairwise_append.mp t.separate
  have hout : Outside [h.blockOf p] h.mem (write h.mem a bytes) := by
    intro x hx
    have := hx _ (mem_singleton_self _)
    apply write_outside
    unfold Block.Has at this
    dsimp only at hroom
    omega
  have hseg : Seg (write h.mem a bytes) h.head F 0 := by
    refine t.seg.frame hout (fun c hc => le_trans (by omega) (t.good_free c hc).least) ?_
    intro c hc d hd
    rw [mem_singleton.mp hd]
    exact hsep.2.2 c hc _ hmem
  -- The header of the block itself lies below the payload.
  have hkeep : ∀ e ∈ live, ({ h with mem := write h.mem a bytes } : Heap).blockOf e.1 =
      h.blockOf e.1 := by
    intro e he
    have hme : h.blockOf e.1 ∈ liveBlocks h live := mem_map.mpr ⟨e, he, rfl⟩
    have hsize : load 8 (write h.mem a bytes) (h.blockOf e.1).start =
        load 8 h.mem (h.blockOf e.1).start := by
      apply load_write_of_disjoint
      have h32 := (t.good_live _ hme).least
      rw [headerSize_eq] at hstart
      by_cases heq : h.blockOf e.1 = h.blockOf p
      · rw [heq]
        omega
      · have hapart := hsep.2.1.forall hme hmem heq
        unfold Separate Block.stop at hapart
        unfold Block.stop at hroom
        dsimp only at hroom
        omega
    exact congrArg (Block.mk (e.1 - headerSize)) hsize
  have hblocks : liveBlocks { h with mem := write h.mem a bytes } live = liveBlocks h live :=
    map_congr_left hkeep
  refine ⟨hseg, t.gap, ?_, ?_, t.once, ?_⟩
  · rw [hblocks]
    exact t.good
  · rw [hblocks]
    exact t.tiled
  · intro e he
    rw [hkeep e he]
    exact t.room e he

theorem tidy_start (m : Store) : Tidy (Session.start m).heap (Session.start m).live [] where
  seg := .nil 0
  gap := List.Pairwise.nil
  good := by simp [Session.start, liveBlocks]
  tiled := fun _ => rfl
  once := fun _ => zero_le _
  room := by simp [Session.start]

/-- Every step keeps the heap tidy. -/
theorem Step.tidy {s s' : Session} (hstep : Step s s') (t : Tidy s.heap s.live F) :
    ∃ F', Tidy s'.heap s'.live F' := by
  cases hstep with
  | alloc hs run =>
    refine wp_ok (E := fun _ => True) (Q := fun p h' =>
      ∃ F', Tidy h' (if p = 0 then s.live else (p, _) :: s.live) F') ?_ run
    refine wp_alloc t hs (fun _ => ?_) fun p h' F' hp t' => ?_
    · rw [if_pos rfl]
      exact ⟨F, t⟩
    · rw [if_neg hp]
      exact ⟨F', t'⟩
  | dealloc hlive run =>
    rw [hlive] at t
    refine wp_ok (E := fun _ => True) (Q := fun _ h' => ∃ F', Tidy h' _ F') ?_ run
    exact wp_dealloc t fun h' F' t' => ⟨F', t'⟩
  | store hlive hlo hhi => exact ⟨F, t.stored hlive hlo hhi⟩

theorem Reachable.tidy {s : Session} (hr : Reachable s) : ∃ F, Tidy s.heap s.live F := by
  obtain ⟨m, hrun⟩ := hr
  induction hrun with
  | refl => exact ⟨[], tidy_start m⟩
  | tail _ hstep ih =>
    obtain ⟨F, t⟩ := ih
    exact hstep.tidy t

/-- The free list of every reachable heap is in address order with a gap after
each block, free and live blocks tile the memory obtained from `sbrk`, and
every pointer has the bytes that were asked for. Every further call returns,
and `alloc` returns null only for one of the reasons of `Refused`. -/
theorem heap_sound {s : Session} (hr : Reachable s) :
    ∃ F, Seg s.heap.mem s.heap.head F 0 ∧ F.Pairwise Gap ∧
      (∀ b ∈ F ++ liveBlocks s.heap s.live, b.size % 16 = 0 ∧ 32 ≤ b.size) ∧
      (F ++ liveBlocks s.heap s.live).Pairwise Separate ∧
      (∀ x, (∃ b ∈ F ++ liveBlocks s.heap s.live, b.Has x) ↔ ∃ r ∈ s.heap.obtained, r.Has x) ∧
      (∀ e ∈ s.live, e.1 % 16 = 0 ∧ e.1 = (s.heap.blockOf e.1).start + headerSize ∧
        e.1 + e.2.size ≤ (s.heap.blockOf e.1).stop) ∧
      (∀ answer l, SbrkOk s.heap.obtained answer →
        ∃ p h, alloc answer l s.heap = .ok (p, h) ∧ (p = 0 → Refused F answer l)) ∧
      ∀ e ∈ s.live, ∃ h, dealloc e.1 s.heap = .ok ((), h) := by
  obtain ⟨F, t⟩ := hr.tidy
  refine ⟨F, t.seg, t.gap, ?_, t.separate, ?_, ?_, ?_, ?_⟩
  · intro b hb
    exact ⟨(t.good b hb).size_aligned, (t.good b hb).least⟩
  · intro x
    rw [← cover_pos_iff, ← cover_pos_iff, t.tiled x]
  · intro e he
    have hb := t.good_live _ (List.mem_map.mpr ⟨e, he, rfl⟩)
    have hpos : 0 < e.1 - headerSize := hb.pos
    have hmod : (e.1 - headerSize) % 16 = 0 := hb.aligned
    refine ⟨?_, ?_, t.room e he⟩
    · rw [headerSize_eq] at *
      omega
    · change e.1 = e.1 - headerSize + headerSize
      omega
  · intro answer l hs
    have hrun := wp_alloc (E := fun _ => False) (l := l) t hs
      (Q := fun p _ => p = 0 → Refused F answer l) (fun h _ => h) fun p _ _ hp _ h0 => absurd h0 hp
    exact exists_ok hrun
  · intro e he
    obtain ⟨before, after, hsplit⟩ := List.append_of_mem he
    obtain ⟨p, l⟩ := e
    rw [hsplit] at t
    obtain ⟨_, h, hrun, -⟩ := exists_ok (wp_dealloc (E := fun _ => False)
      (Q := fun _ _ => True) t fun _ _ _ => trivial)
    exact ⟨h, hrun⟩

/-- `sbrk` answers every request with the second page. -/
theorem sbrkOk_second_page : SbrkOk [] fun _ => 4096 := by
  constructor <;> intros <;> simp_all [isizeMax, pgSize]

/-- A request for 100 bytes with alignment 8. -/
def hundredBytes : AllocLayout := ⟨100, 8, by decide⟩

theorem neededFor_hundredBytes : neededFor hundredBytes = some 128 := by
  simp [neededFor, alignUp, hundredBytes, checkedAdd, align, headerSize_eq, usizeSize]

theorem hundredBytes_not_refused : ¬ Refused [] (fun _ => 4096) hundredBytes := by
  rintro (hbig | hnone | ⟨needed, hneed, -, hstuck⟩)
  · simp [hundredBytes, align] at hbig
  · simp [neededFor_hundredBytes] at hnone
  · rw [neededFor_hundredBytes] at hneed
    obtain rfl := Option.some.inj hneed
    simp [Stuck, alignUp, checkedAdd, pgSize, usizeSize, isizeMax] at hstuck

/-- A heap from which one block was taken. -/
theorem exists_one_block : ∃ s : Session, Reachable s ∧ s.live.map Prod.snd = [hundredBytes] := by
  have hrun := wp_alloc (E := fun _ => False) (l := hundredBytes) (tidy_start fun _ => 0)
    sbrkOk_second_page (Q := fun p _ => p ≠ 0) (fun h => absurd h hundredBytes_not_refused)
    fun _ _ _ hp _ => hp
  obtain ⟨p, h, halloc, hp⟩ := exists_ok hrun
  refine ⟨_, ⟨fun _ => 0, .single (.alloc sbrkOk_second_page halloc)⟩, ?_⟩
  rw [if_neg hp]
  rfl

/-- The block of that heap has room for the 100 bytes. -/
theorem heap_sound_hundred : ∃ s : Session, s.live.map Prod.snd = [hundredBytes] ∧
    ∀ e ∈ s.live, e.1 % 16 = 0 ∧ e.1 + 100 ≤ (s.heap.blockOf e.1).stop := by
  obtain ⟨s, hr, hlive⟩ := exists_one_block
  obtain ⟨F, -, -, -, -, -, hptr, -, -⟩ := heap_sound hr
  refine ⟨s, hlive, fun e he => ?_⟩
  have hl : e.2 = hundredBytes := by
    have hmem : e.2 ∈ s.live.map Prod.snd := List.mem_map_of_mem he
    rw [hlive] at hmem
    exact List.mem_singleton.mp hmem
  obtain ⟨hmod, -, hroom⟩ := hptr e he
  rw [hl] at hroom
  exact ⟨hmod, hroom⟩

end ToyOs.User
