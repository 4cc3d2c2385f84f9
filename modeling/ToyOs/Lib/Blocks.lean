import Mathlib.Data.List.Basic
import Mathlib.Data.List.Count
import Mathlib.Order.Nat

/-!
Blocks of consecutive addresses and address-ordered lists of them.
How often an address is covered is counted, so that splitting and merging a
block or moving it between lists are equations of counts. Disjointness is read
off the count. Insertion keeps a list in address order and merges the new
block with the neighbours it touches; first fit takes the low end of the first
block that is large enough.
-/
namespace Blocks

open List Nat

structure Block where
  start : ℕ
  size : ℕ
  deriving DecidableEq, Repr

variable {pre post : List Block}

def Block.stop (b : Block) : ℕ := b.start + b.size

def Block.Has (b : Block) (x : ℕ) : Prop := b.start ≤ x ∧ x < b.stop

instance (b : Block) (x : ℕ) : Decidable (b.Has x) := inferInstanceAs (Decidable (_ ∧ _))

/-- How many blocks of the list cover an address. -/
def cover (l : List Block) (x : ℕ) : ℕ := l.countP fun b => b.Has x

/-- No address is in both blocks. -/
def Separate (a b : Block) : Prop := a.stop ≤ b.start ∨ b.stop ≤ a.start

/-- The second block lies above the first and does not touch it. -/
def Gap (a b : Block) : Prop := a.stop < b.start

/-- The second block lies above the first and may touch it. -/
def Below (a b : Block) : Prop := a.stop ≤ b.start

/-- The block from the start of `a` with the bytes of both. -/
def Block.join (a b : Block) : Block := ⟨a.start, a.size + b.size⟩

/-- Put a block in front of a list, merged with the first block if it touches it. -/
def joinHead (b : Block) : List Block → List Block
  | [] => [b]
  | c :: rest => if b.stop = c.start then b.join c :: rest else b :: c :: rest

/-- Insertion in address order with merging on both sides. -/
def insertBlock (b : Block) : List Block → List Block
  | [] => [b]
  | c :: rest =>
    if c.start < b.start then
      if c.stop = b.start then joinHead (c.join b) rest else c :: insertBlock b rest
    else joinHead b (c :: rest)

/-- The first block of at least `needed` bytes and the remaining list; a rest
smaller than `least` goes with the block. -/
def firstFit (needed least : ℕ) : List Block → Option (Block × List Block)
  | [] => none
  | c :: rest =>
    if needed ≤ c.size then
      if least ≤ c.size - needed then
        some (⟨c.start, needed⟩, ⟨c.start + needed, c.size - needed⟩ :: rest)
      else some (c, rest)
    else (firstFit needed least rest).map fun r => (r.1, c :: r.2)

section Cover

variable {a b : Block} {l l' : List Block} {x : ℕ}

@[simp] theorem cover_nil : cover [] x = 0 := rfl

theorem cover_cons : cover (b :: l) x = cover l x + if b.Has x then 1 else 0 := by
  simp [cover, countP_cons]

@[simp] theorem cover_append : cover (l ++ l') x = cover l x + cover l' x := countP_append

/-- The bytes of a joined block are those of its parts. -/
theorem has_join (h : a.stop = b.start) :
    (if (a.join b).Has x then 1 else 0) =
      (if a.Has x then 1 else 0) + if b.Has x then 1 else 0 := by
  split_ifs <;> simp only [Block.Has, Block.join, Block.stop] at * <;> omega

theorem cover_joinHead : cover (joinHead b l) x = cover (b :: l) x := by
  cases l with
  | nil => rfl
  | cons c rest =>
    simp only [joinHead]
    split_ifs with h
    · simp only [cover_cons, has_join h]
      omega
    · rfl

theorem cover_insertBlock : cover (insertBlock b l) x = cover (b :: l) x := by
  induction l with
  | nil => rfl
  | cons c rest ih =>
    simp only [insertBlock]
    split_ifs with h h'
    · simp only [cover_joinHead, cover_cons, has_join h']
      omega
    · simp only [cover_cons, ih]
      omega
    · exact cover_joinHead

/-- Blocks that no address shares are separate. -/
theorem separate_of_cover (h : ∀ x, cover (a :: l) x ≤ 1) (hb : b ∈ l) (ha0 : 0 < a.size)
    (hb0 : 0 < b.size) : Separate a b := by
  by_contra hs
  unfold Separate Block.stop at hs
  -- The larger of the two starts lies in both blocks.
  have hx := h (max a.start b.start)
  have hhas' : b.Has (max a.start b.start) := by
    unfold Block.Has Block.stop
    omega
  have hpos : 0 < cover l (max a.start b.start) :=
    countP_pos_iff.mpr ⟨b, hb, decide_eq_true hhas'⟩
  have hhas : a.Has (max a.start b.start) := by
    unfold Block.Has Block.stop
    omega
  rw [cover_cons, if_pos hhas] at hx
  omega

/-- A list that covers no address twice. -/
theorem pairwise_separate (h : ∀ x, cover l x ≤ 1) (hpos : ∀ c ∈ l, 0 < c.size) :
    l.Pairwise Separate := by
  induction l with
  | nil => exact List.Pairwise.nil
  | cons a rest ih =>
    rw [forall_mem_cons] at hpos
    refine pairwise_cons.mpr ⟨?_, ih (fun x => ?_) hpos.2⟩
    · intro c hc
      exact separate_of_cover h hc hpos.1 (hpos.2 c hc)
    · have := h x
      rw [cover_cons] at this
      omega

theorem cover_pos_iff : 0 < cover l x ↔ ∃ b ∈ l, b.Has x := by
  simp [cover, countP_pos_iff]

end Cover

section Order

variable {b c : Block} {l : List Block} {P : Block → Prop}

theorem joinHead_forall (hjoin : ∀ a b, P a → P b → a.stop = b.start → P (a.join b)) (hb : P b)
    (hl : ∀ c ∈ l, P c) : ∀ c ∈ joinHead b l, P c := by
  cases l with
  | nil => simpa [joinHead] using hb
  | cons c rest =>
    rw [forall_mem_cons] at hl
    simp only [joinHead]
    split_ifs with h
    · exact forall_mem_cons.mpr ⟨hjoin b c hb hl.1 h, hl.2⟩
    · exact forall_mem_cons.mpr ⟨hb, forall_mem_cons.mpr hl⟩

/-- What merging keeps, insertion keeps. -/
theorem insertBlock_forall (hjoin : ∀ a b, P a → P b → a.stop = b.start → P (a.join b)) (hb : P b)
    (hl : ∀ c ∈ l, P c) : ∀ c ∈ insertBlock b l, P c := by
  induction l with
  | nil => simpa [insertBlock] using hb
  | cons c rest ih =>
    have hall := forall_mem_cons.mp hl
    simp only [insertBlock]
    split_ifs with h h'
    · exact joinHead_forall hjoin (hjoin c b hall.1 hb h') hall.2
    · exact forall_mem_cons.mpr ⟨hall.1, ih hall.2⟩
    · exact joinHead_forall hjoin hb hl

theorem gap_joinHead (hb : l.Pairwise Gap) (hle : ∀ c ∈ l, b.stop ≤ c.start) :
    (joinHead b l).Pairwise Gap := by
  cases l with
  | nil => exact pairwise_singleton _ _
  | cons c rest =>
    rw [pairwise_cons] at hb
    rw [forall_mem_cons] at hle
    simp only [joinHead]
    split_ifs with h
    · refine pairwise_cons.mpr ⟨fun d hd => ?_, hb.2⟩
      have := hb.1 d hd
      simp only [Gap, Block.join, Block.stop] at *
      omega
    · refine pairwise_cons.mpr ⟨?_, pairwise_cons.mpr hb⟩
      refine forall_mem_cons.mpr ⟨lt_of_le_of_ne hle.1 h, fun d hd => ?_⟩
      have := hb.1 d hd
      unfold Gap Block.stop at *
      omega

/-- Insertion of a block that overlaps no other keeps the order and leaves no
two blocks touching. -/
theorem gap_insertBlock (hl : l.Pairwise Gap) (hpos : ∀ c ∈ l, 0 < c.size)
    (hsep : ∀ c ∈ l, Separate b c) : (insertBlock b l).Pairwise Gap := by
  induction l with
  | nil => exact pairwise_singleton _ _
  | cons c rest ih =>
    have hp := pairwise_cons.mp hl
    have hs := forall_mem_cons.mp hsep
    have h0 := forall_mem_cons.mp hpos
    simp only [insertBlock]
    split_ifs with h h'
    · refine gap_joinHead hp.2 fun d hd => ?_
      have h1 := hp.1 d hd
      have h2 := hs.2 d hd
      have h3 := h0.2 d hd
      simp only [Gap, Separate, Block.join, Block.stop] at *
      omega
    · refine pairwise_cons.mpr ⟨?_, ih hp.2 h0.2 hs.2⟩
      have hcb : c.stop < b.start := by
        have h1 := hs.1
        unfold Separate Block.stop at *
        omega
      exact insertBlock_forall (fun _ _ ha _ _ => ha) hcb hp.1
    · refine gap_joinHead hl fun d hd => ?_
      have hle : c.start ≤ d.start := by
        rcases mem_cons.mp hd with rfl | hd
        · exact le_refl _
        · have h1 := hp.1 d hd
          unfold Gap Block.stop at h1
          omega
      have h2 := hsep d hd
      have h3 := hpos d hd
      unfold Separate Block.stop at *
      omega

/-- The new block is part of a block of the result. -/
theorem insertBlock_size : ∃ c ∈ insertBlock b l, b.size ≤ c.size := by
  have hhead : ∀ (d : Block) (r : List Block), b.size ≤ d.size →
      ∃ c ∈ joinHead d r, b.size ≤ c.size := by
    intro d r hd
    cases r with
    | nil => exact ⟨d, mem_singleton_self d, hd⟩
    | cons e rest =>
      simp only [joinHead]
      split_ifs
      · exact ⟨_, mem_cons_self, le_trans hd (le_add_right _ _)⟩
      · exact ⟨d, mem_cons_self, hd⟩
  induction l with
  | nil => exact ⟨b, mem_singleton_self b, le_refl _⟩
  | cons c rest ih =>
    simp only [insertBlock]
    split_ifs
    · exact hhead _ _ (le_add_left _ _)
    · obtain ⟨d, hd, hle⟩ := ih
      exact ⟨d, mem_cons_of_mem _ hd, hle⟩
    · exact hhead _ _ (le_refl _)

theorem insertBlock_append (h : ∀ c ∈ pre, c.start < b.start ∧ c.stop ≠ b.start) :
    insertBlock b (pre ++ post) = pre ++ insertBlock b post := by
  induction pre with
  | nil => rfl
  | cons c rest ih =>
    rw [forall_mem_cons] at h
    rw [cons_append, insertBlock, if_pos h.1.1, if_neg h.1.2, ih h.2, cons_append]

theorem insertBlock_eq_joinHead (h : ∀ c ∈ l.head?, b.start ≤ c.start) : insertBlock b l = joinHead b l := by
  cases l with
  | nil => rfl
  | cons c rest => rw [insertBlock, if_neg (not_lt.mpr (h c rfl))]

/-- A block put at its place in the order. -/
theorem below_place (hl : (pre ++ post).Pairwise Gap) (hpos : ∀ c ∈ pre ++ post, 0 < c.size)
    (hsep : ∀ c ∈ pre ++ post, Separate b c) (hpre : ∀ c ∈ pre, c.start < b.start)
    (hpost : ∀ c ∈ post.head?, b.start ≤ c.start) :
    (pre ++ b :: post).Pairwise Below := by
  have hbelow : (pre ++ post).Pairwise Below := hl.imp le_of_lt
  rw [pairwise_append] at hbelow hl ⊢
  rw [forall_mem_append] at hpos hsep
  have hb : ∀ c ∈ post, Below b c := by
    intro c hc
    have hle : b.start ≤ c.start := by
      cases post with
      | nil => simp at hc
      | cons d rest =>
        have hd := hpost d rfl
        rcases mem_cons.mp hc with rfl | hc
        · exact hd
        · have := (pairwise_cons.mp hl.2.1).1 c hc
          unfold Gap Block.stop at this
          omega
    have h1 := hsep.2 c hc
    have h2 := hpos.2 c hc
    unfold Separate Below Block.stop at *
    omega
  refine ⟨hbelow.1, pairwise_cons.mpr ⟨hb, hbelow.2.1⟩, fun c hc => ?_⟩
  refine forall_mem_cons.mpr ⟨?_, hbelow.2.2 c hc⟩
  have h1 := hsep.1 c hc
  have h2 := hpre c hc
  unfold Separate Below Block.stop at *
  omega

/-- An ordered list of blocks of at least `n` bytes is not long. -/
theorem length_le {n lo hi : ℕ} (hl : l.Pairwise Gap) (hn : ∀ c ∈ l, n ≤ c.size)
    (hlo : ∀ c ∈ l, lo ≤ c.start) (hhi : ∀ c ∈ l, c.stop ≤ hi) (hle : lo ≤ hi) :
    lo + n * l.length ≤ hi := by
  induction l generalizing lo with
  | nil => simpa using hle
  | cons c rest ih =>
    rw [pairwise_cons] at hl
    rw [forall_mem_cons] at hn hlo hhi
    have hrest := ih hl.2 hn.2 (fun d hd => le_of_lt (hl.1 d hd)) hhi.2 hhi.1
    unfold Block.stop at hrest
    simp only [length_cons, mul_succ]
    omega

end Order

section FirstFit

variable {b c : Block} {l rest : List Block} {needed least x : ℕ} {P : Block → Prop}

/-- The first block is split or taken whole, or the search goes on behind it. -/
theorem firstFit_cons (h : firstFit needed least (c :: l) = some (b, rest)) :
    needed ≤ c.size ∧ least ≤ c.size - needed ∧ b = ⟨c.start, needed⟩ ∧
      rest = ⟨c.start + needed, c.size - needed⟩ :: l ∨
    needed ≤ c.size ∧ b = c ∧ rest = l ∨ ∃ r, firstFit needed least l = some (b, r) ∧ rest = c :: r := by
  rw [firstFit] at h
  split_ifs at h with h1 h2
  · obtain ⟨rfl, rfl⟩ := Prod.mk.inj (Option.some.inj h)
    exact .inl ⟨h1, h2, rfl, rfl⟩
  · obtain ⟨rfl, rfl⟩ := Prod.mk.inj (Option.some.inj h)
    exact .inr (.inl ⟨h1, rfl, rfl⟩)
  · obtain ⟨r, hr, heq⟩ := Option.map_eq_some_iff.mp h
    obtain ⟨rfl, rfl⟩ := Prod.mk.inj heq
    exact .inr (.inr ⟨r.2, hr, rfl⟩)

theorem cover_firstFit (h : firstFit needed least l = some (b, rest)) :
    cover l x = cover (b :: rest) x := by
  induction l generalizing b rest with
  | nil => cases h
  | cons c tail ih =>
    rcases firstFit_cons h with ⟨h1, h2, rfl, rfl⟩ | ⟨h1, rfl, rfl⟩ | ⟨r, hr, rfl⟩
    · have hsplit := has_join (x := x) (a := ⟨c.start, needed⟩)
        (b := ⟨c.start + needed, c.size - needed⟩) rfl
      have hjoin : Block.join ⟨c.start, needed⟩ ⟨c.start + needed, c.size - needed⟩ = c := by
        unfold Block.join
        rw [show needed + (c.size - needed) = c.size by omega]
      rw [hjoin] at hsplit
      simp only [cover_cons, hsplit]
      omega
    · rfl
    · have := ih hr
      simp only [cover_cons] at this ⊢
      omega

/-- What both parts of a split keep holds of the block and of the rest. -/
theorem firstFit_forall (h : firstFit needed least l = some (b, rest))
    (hsplit : ∀ c, P c → needed ≤ c.size → least ≤ c.size - needed →
      P ⟨c.start, needed⟩ ∧ P ⟨c.start + needed, c.size - needed⟩)
    (hl : ∀ c ∈ l, P c) : P b ∧ ∀ c ∈ rest, P c := by
  induction l generalizing b rest with
  | nil => cases h
  | cons c tail ih =>
    rw [forall_mem_cons] at hl
    rcases firstFit_cons h with ⟨h1, h2, rfl, rfl⟩ | ⟨h1, rfl, rfl⟩ | ⟨r, hr, rfl⟩
    · obtain ⟨hb, hr⟩ := hsplit c hl.1 h1 h2
      exact ⟨hb, forall_mem_cons.mpr ⟨hr, hl.2⟩⟩
    · exact hl
    · obtain ⟨hb, htail⟩ := ih hr hl.2
      exact ⟨hb, forall_mem_cons.mpr ⟨hl.1, htail⟩⟩

theorem gap_firstFit (h : firstFit needed least l = some (b, rest)) (hl : l.Pairwise Gap) :
    rest.Pairwise Gap := by
  induction l generalizing b rest with
  | nil => cases h
  | cons c tail ih =>
    have hp := pairwise_cons.mp hl
    rcases firstFit_cons h with ⟨h1, h2, rfl, rfl⟩ | ⟨h1, rfl, rfl⟩ | ⟨r, hr, rfl⟩
    · refine pairwise_cons.mpr ⟨fun d hd => ?_, hp.2⟩
      have := hp.1 d hd
      simp only [Gap, Block.stop] at *
      omega
    · exact hp.2
    · refine pairwise_cons.mpr ⟨?_, ih hr hp.2⟩
      -- A part of a block starts no lower than the block.
      have hparts := firstFit_forall (P := fun d => c.stop < d.start) hr
        (fun d hd _ _ => ⟨hd, lt_of_lt_of_le hd (le_add_right _ _)⟩) hp.1
      exact hparts.2

theorem firstFit_size (h : firstFit needed least l = some (b, rest)) : needed ≤ b.size := by
  induction l generalizing b rest with
  | nil => cases h
  | cons c tail ih =>
    rcases firstFit_cons h with ⟨h1, h2, rfl, rfl⟩ | ⟨h1, rfl, rfl⟩ | ⟨r, hr, rfl⟩
    · exact le_refl _
    · exact h1
    · exact ih hr

theorem firstFit_none (h : firstFit needed least l = none) : ∀ c ∈ l, c.size < needed := by
  induction l with
  | nil => simp
  | cons c tail ih =>
    simp only [firstFit] at h
    split_ifs at h with h1
    exact forall_mem_cons.mpr ⟨not_le.mp h1, ih (Option.map_eq_none_iff.mp h)⟩

theorem firstFit_append (h : ∀ c ∈ pre, c.size < needed) :
    firstFit needed least (pre ++ post) =
      (firstFit needed least post).map fun r => (r.1, pre ++ r.2) := by
  induction pre with
  | nil => simp
  | cons c tail ih =>
    rw [forall_mem_cons] at h
    rw [cons_append, firstFit, if_neg (not_le.mpr h.1), ih h.2, Option.map_map]
    rfl

end FirstFit

end Blocks
