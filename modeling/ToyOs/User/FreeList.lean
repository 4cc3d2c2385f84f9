import ToyOs.User.Allocator

/-!
The free list in memory and its list of blocks. A segment of the list is read
off the headers from one pointer to another, so the search loops split it and
the updates of a link or of a header are rewrites of one segment. The two
operations on memory are insertion and first fit on the list of blocks.
-/
namespace ToyOs.User

open Bytes Blocks Heap Prog List Nat

theorem headerSize_eq : headerSize = 16 := by decide

theorem minBlockSize_eq : minBlockSize = 32 := by decide

/-- A block the allocator can hold. -/
structure Good (b : Block) : Prop where
  pos : 0 < b.start
  aligned : b.start % 16 = 0
  size_aligned : b.size % 16 = 0
  least : 32 ≤ b.size
  below : b.stop < usizeSize

theorem Good.join {a b : Block} (ha : Good a) (hb : Good b) (h : a.stop = b.start) :
    Good (a.join b) where
  pos := ha.pos
  aligned := ha.aligned
  size_aligned := by
    have h1 := ha.size_aligned
    have h2 := hb.size_aligned
    simp only [Block.join]
    omega
  least := le_trans ha.least (le_add_right _ _)
  below := by
    have := hb.below
    simp only [Block.join, Block.stop] at *
    omega

/-- Headers threaded from the first pointer to the second. -/
inductive Seg (m : Store) : ℕ → List Block → ℕ → Prop
  | nil (a : ℕ) : Seg m a [] a
  | cons {b : Block} {rest : List Block} {z : ℕ} (h0 : b.start ≠ 0)
      (hsize : load 8 m b.start = b.size) (hrest : Seg m (load 8 m (b.start + 8)) rest z) :
      Seg m b.start (b :: rest) z

/-- Memory is the same outside the blocks. -/
def Outside (l : List Block) (m m' : Store) : Prop := ∀ x, (∀ b ∈ l, ¬ b.Has x) → m' x = m x

/-- The start of the last block, null without one. -/
def lastStart (l : List Block) : ℕ := (l.getLast?.map Block.start).getD 0

variable {m m' m'' : Store} {a y z v : ℕ} {b c : Block} {F G l l' : List Block}

theorem Outside.trans (h : Outside l m m') (h' : Outside l m' m'') : Outside l m m'' :=
  fun x hx => (h' x hx).trans (h x hx)

theorem Outside.mono (h : Outside l m m') (hsub : ∀ b ∈ l, ∀ x, b.Has x → ∃ c ∈ l', c.Has x) :
    Outside l' m m' := by
  intro x hx
  apply h
  intro b hb hhas
  obtain ⟨c, hc, hbc⟩ := hsub b hb x hhas
  exact hx c hc hbc

theorem Outside.subset (h : Outside l m m') (hsub : ∀ b ∈ l, b ∈ l') : Outside l' m m' :=
  h.mono fun b hb _ hx => ⟨b, hsub b hb, hx⟩

theorem outside_store (hb : 16 ≤ b.size) {k : ℕ} (hk : k + 8 ≤ 16) :
    Outside [b] m (store 8 m (b.start + k) v) := by
  intro x hx
  apply store_outside
  have := hx b (mem_singleton_self b)
  unfold Block.Has Block.stop at this
  omega

/-- The header words of a separate block stay. -/
theorem Outside.load (h : Outside l m m') (hb : 16 ≤ b.size) (hsep : ∀ c ∈ l, Separate b c)
    {k : ℕ} (hk : k + 8 ≤ 16) : load 8 m' (b.start + k) = load 8 m (b.start + k) := by
  apply load_congr
  intro x hx hx'
  apply h
  intro c hc hhas
  have := hsep c hc
  unfold Separate Block.Has Block.stop at *
  omega

theorem Separate.symm (h : Separate b c) : Separate c b := Or.symm h

instance : Std.Symm Separate := ⟨fun _ _ => Separate.symm⟩

theorem Gap.separate (h : Gap b c) : Separate b c := Or.inl (le_of_lt h)

namespace Seg

theorem cons_iff : Seg m a (b :: F) z ↔
    a = b.start ∧ b.start ≠ 0 ∧ load 8 m b.start = b.size ∧
      Seg m (load 8 m (b.start + 8)) F z := by
  constructor
  · intro h
    cases h with
    | cons h0 hsize hrest => exact ⟨rfl, h0, hsize, hrest⟩
  · rintro ⟨rfl, h0, hsize, hrest⟩
    exact .cons h0 hsize hrest

theorem nil_iff : Seg m a [] z ↔ a = z := by
  constructor
  · intro h
    cases h
    rfl
  · rintro rfl
    exact .nil a

theorem append_iff : Seg m a (F ++ G) z ↔ ∃ y, Seg m a F y ∧ Seg m y G z := by
  induction F generalizing a with
  | nil => simp [nil_iff]
  | cons b rest ih => simp [cons_iff, ih, and_assoc]

/-- A segment whose headers are not touched. -/
theorem frame (h : Seg m a F z) (hout : Outside l m m') (hsize : ∀ b ∈ F, 16 ≤ b.size)
    (hsep : ∀ b ∈ F, ∀ c ∈ l, Separate b c) : Seg m' a F z := by
  induction h with
  | nil a => exact .nil a
  | cons h0 hs hrest ih =>
    rw [forall_mem_cons] at hsize hsep
    have h1 := hout.load hsize.1 hsep.1 (k := 0) (by omega)
    have h2 := hout.load hsize.1 hsep.1 (k := 8) (by omega)
    refine .cons h0 (h1.trans hs) ?_
    rw [h2]
    exact ih hsize.2 hsep.2

theorem relink (h : Seg m a (F ++ [b]) y) (hv : v < usizeSize) (hb : 16 ≤ b.size)
    (hsize : ∀ c ∈ F, 16 ≤ c.size) (hsep : ∀ c ∈ F, Separate c b) :
    Seg (store 8 m (b.start + 8) v) a (F ++ [b]) v := by
  obtain ⟨y, hF, hlast⟩ := append_iff.mp h
  obtain ⟨rfl, h0, hs, -⟩ := cons_iff.mp hlast
  refine append_iff.mpr ⟨b.start, ?_, ?_⟩
  · exact hF.frame (outside_store hb (by omega)) hsize fun c hc d hd => by
      rw [mem_singleton.mp hd]
      exact hsep c hc
  · refine .cons h0 ?_ ?_
    · rw [load_store_of_disjoint 8 8 m (b.start + 8) b.start v (by omega), hs]
    · rw [load_store_same, show (256 : ℕ) ^ 8 = usizeSize by decide, mod_eq_of_lt hv]
      exact .nil v

theorem start_ne_zero (h : Seg m a F z) : ∀ b ∈ F, b.start ≠ 0 := by
  induction h with
  | nil a => simp
  | cons h0 _ _ ih => exact forall_mem_cons.mpr ⟨h0, ih⟩

/-- The first pointer of a chain that ends in null. -/
theorem head_eq (h : Seg m a F 0) : a = (F.head?.map Block.start).getD 0 := by
  cases h with
  | nil => rfl
  | cons h0 hs hrest => rfl

end Seg

section Operations

variable {E : Fault → Prop} {h : Heap} {needed : ℕ} {pre post : List Block}
  {Q : Option ℕ → Heap → Prop}

theorem wp_setLink (hseg : Seg h.mem h.head pre y) (hv : v < usizeSize)
    (hsize : ∀ c ∈ pre, 16 ≤ c.size) (hgap : pre.Pairwise Gap) {Q : Unit → Heap → Prop}
    (hQ : ∀ mem head, Seg mem head pre v → Outside pre h.mem mem →
      Q () { h with mem := mem, head := head }) :
    (setLink (lastStart pre) v).wp E Q h := by
  rcases eq_nil_or_concat' pre with rfl | ⟨F, b, rfl⟩
  · exact hQ h.mem v (.nil v) fun _ _ => rfl
  · have hb := hsize b (by simp)
    have hne := hseg.start_ne_zero b (by simp)
    have hlast : lastStart (F ++ [b]) = b.start := by simp [lastStart]
    rw [hlast, setLink, if_neg hne]
    refine hQ _ h.head (hseg.relink hv hb (fun c hc => hsize c (by simp [hc])) ?_) ?_
    · intro c hc
      exact Gap.separate ((pairwise_append.mp hgap).2.2 c hc b (mem_singleton_self b))
    · exact (outside_store hb (by omega)).subset (by simp)

/-- What `carve` leaves of the chain from the block on. -/
theorem wp_carve (hseg : Seg h.mem c.start (c :: post) 0) (hc : Good c) (hfit : needed ≤ c.size)
    (h32 : 32 ≤ needed) (hsize : ∀ d ∈ post, 16 ≤ d.size) (hgap : ∀ d ∈ post, Gap c d)
    {Q : ℕ → Heap → Prop}
    (hQ : ∀ after mem b rest, firstFit needed minBlockSize (c :: post) = some (b, rest) →
      b.start = c.start → 32 ≤ b.size → b.stop ≤ c.stop → (∀ d ∈ rest, b.stop ≤ d.start) →
      Seg mem after rest 0 → load 8 mem b.start = b.size → after < usizeSize →
      Outside [c] h.mem mem → Q after { h with mem := mem }) :
    (carve needed c.start).wp E Q h := by
  obtain ⟨-, h0, hs, hrest⟩ := Seg.cons_iff.mp hseg
  have hstop := hc.below
  have hleast := hc.least
  have hw : c.start + needed < usizeSize := by
    unfold Block.stop at hstop
    omega
  have hmod : ∀ k, k < usizeSize → k % 256 ^ 8 = k := fun k hk => mod_eq_of_lt hk
  unfold carve
  simp only [wp_bind, wp_get, Heap.sizeAt, hs]
  rw [wp_ite]
  refine ⟨fun hlarge => ?_, fun hsmall => ?_⟩
  · simp only [wp_bind, wp_get, wp_pure, setSize, setNext, wp_modify,
      Heap.nextAt, wrappingAdd, mod_eq_of_lt hw]
    have hff : firstFit needed minBlockSize (c :: post) =
        some (⟨c.start, needed⟩, ⟨c.start + needed, c.size - needed⟩ :: post) := by
      rw [firstFit, if_pos hfit, if_pos hlarge]
    rw [minBlockSize_eq] at hlarge
    refine hQ (c.start + needed) _ ⟨c.start, needed⟩ _ hff rfl h32 ?_ ?_ ?_ ?_ hw ?_
    · simp only [Block.stop]
      omega
    · refine forall_mem_cons.mpr ⟨le_refl _, fun d hd => ?_⟩
      have := hgap d hd
      simp only [Gap, Block.stop] at *
      omega
    · -- The new header reads back as written and leads to what followed the block.
      refine Seg.cons (b := ⟨c.start + needed, c.size - needed⟩) (by dsimp only; omega) ?_ ?_
      · dsimp only
        rw [load_store_of_disjoint _ _ _ _ _ _ (by omega),
          load_store_of_disjoint _ _ _ _ _ _ (by omega), load_store_same]
        unfold Block.stop at hstop
        exact hmod _ (by omega)
      · dsimp only
        rw [load_store_of_disjoint 8 8 h.mem _ (c.start + 8) _ (by omega),
          load_store_of_disjoint 8 8 _ c.start _ needed (by omega), load_store_same,
          hmod _ (load_lt 8 _ _)]
        refine hrest.frame (l := [c]) ?_ hsize fun d hd e he => ?_
        · intro x hx
          have hx := hx c (mem_singleton_self c)
          unfold Block.Has Block.stop at hx
          rw [store_outside (by omega), store_outside (by omega), store_outside (by omega)]
        · rw [mem_singleton.mp he]
          exact (Gap.separate (hgap d hd)).symm
    · dsimp only
      rw [load_store_same]
      unfold Block.stop at hstop
      exact hmod _ (by omega)
    · intro x hx
      have hx := hx c (mem_singleton_self c)
      unfold Block.Has Block.stop at hx
      rw [store_outside (by omega), store_outside (by omega), store_outside (by omega)]
  · have hff : firstFit needed minBlockSize (c :: post) = some (c, post) := by
      rw [firstFit, if_pos hfit, if_neg hsmall]
    refine hQ _ h.mem c post hff rfl hleast (le_refl _) ?_ hrest hs (load_lt 8 _ _)
      fun _ _ => rfl
    intro d hd
    exact le_of_lt (hgap d hd)

/-- Where the first block that is large enough stands in the list. -/
structure Hit (F : List Block) (needed : ℕ) (pre : List Block) (c : Block) (post : List Block) :
    Prop where
  split : F = pre ++ c :: post
  small : ∀ d ∈ pre, d.size < needed
  fit : needed ≤ c.size
  good : ∀ d ∈ F, Good d
  gap : F.Pairwise Gap

namespace Hit

theorem mem (hit : Hit F needed pre c post) : c ∈ F := by simp [hit.split]

theorem gaps (hit : Hit F needed pre c post) :
    pre.Pairwise Gap ∧ (∀ d ∈ post, Gap c d) ∧ ∀ d ∈ pre, Gap d c := by
  have h := hit.gap
  rw [hit.split, pairwise_append, pairwise_cons] at h
  exact ⟨h.1, h.2.1.1, fun d hd => h.2.2 d hd c mem_cons_self⟩

theorem large (hit : Hit F needed pre c post) :
    (∀ d ∈ pre, 16 ≤ d.size) ∧ ∀ d ∈ c :: post, 16 ≤ d.size := by
  have h : ∀ d ∈ F, 16 ≤ d.size := fun d hd => le_trans (by omega) (hit.good d hd).least
  rw [hit.split] at h
  exact ⟨fun d hd => h d (mem_append_left _ hd), fun d hd => h d (mem_append_right _ hd)⟩

theorem firstFit_eq (hit : Hit F needed pre c post) {rest : List Block}
    (h : firstFit needed minBlockSize (c :: post) = some (b, rest)) :
    firstFit needed minBlockSize F = some (b, pre ++ rest) := by
  rw [hit.split, firstFit_append hit.small, h]
  rfl

end Hit

/-- The block is cut, unlinked and its pointer cleared. -/
theorem wp_take (hit : Hit F needed pre c post) (h32 : 32 ≤ needed)
    (hseg : Seg h.mem h.head pre c.start) (htail : Seg h.mem c.start (c :: post) 0)
    {Q : Unit → Heap → Prop}
    (hQ : ∀ b rest mem head, firstFit needed minBlockSize F = some (b, rest) →
      b.start = c.start → Seg mem head rest 0 → load 8 mem b.start = b.size →
      Outside F h.mem mem → Q () { h with mem := mem, head := head }) :
    (do let after ← carve needed c.start
        setLink (lastStart pre) after
        setNext c.start 0 : HeapM Unit).wp E Q h := by
  obtain ⟨hgpre, hgpost, hgc⟩ := hit.gaps
  obtain ⟨hpre16, hpost16⟩ := hit.large
  rw [wp_bind]
  refine wp_carve htail (hit.good c hit.mem) hit.fit h32
    (fun d hd => hpost16 d (mem_cons_of_mem _ hd)) hgpost ?_
  intro after mem b rest hff hstart hb32 hbstop hrestgap hsegr hload hafter hout
  have hprec : ∀ d ∈ pre, ∀ e ∈ [c], Separate d e := by
    intro d hd e he
    rw [mem_singleton.mp he]
    exact Gap.separate (hgc d hd)
  have hpreb : ∀ d ∈ pre, Separate d b := by
    intro d hd
    have := hgc d hd
    unfold Gap at this
    exact Or.inl (by omega)
  have hprerest : ∀ d ∈ rest, ∀ e ∈ pre, Separate d e := by
    intro d hd e he
    have h1 := hgc e he
    have h2 := hrestgap d hd
    unfold Gap at h1
    unfold Block.stop at h2
    exact Or.inr (by omega)
  have hrest16 : ∀ d ∈ rest, 16 ≤ d.size := by
    refine (firstFit_forall (P := fun d => 16 ≤ d.size) hff (fun d _ _ hl => ?_) hpost16).2
    rw [minBlockSize_eq] at hl
    dsimp only
    omega
  rw [wp_bind]
  have hseg1 : Seg mem h.head pre c.start := hseg.frame hout hpre16 hprec
  refine wp_setLink (h := { h with mem := mem }) hseg1 hafter hpre16 hgpre ?_
  intro mem2 head2 hseg2 hout2
  rw [← hstart]
  refine hQ b (pre ++ rest) _ head2 (hit.firstFit_eq hff) hstart ?_ ?_ ?_
  · have hjoined : Seg mem2 head2 (pre ++ rest) 0 :=
      Seg.append_iff.mpr ⟨after, hseg2, hsegr.frame hout2 hrest16 hprerest⟩
    refine hjoined.frame (l := [b]) (outside_store (by omega) (by omega)) ?_ ?_
    · exact forall_mem_append.mpr ⟨hpre16, hrest16⟩
    · intro d hd e he
      rw [mem_singleton.mp he]
      rcases mem_append.mp hd with hd | hd
      · exact hpreb d hd
      · exact Or.inr (hrestgap d hd)
  · have hkept := hout2.load (b := b) (by omega) (fun d hd => (hpreb d hd).symm) (k := 0) (by omega)
    rw [load_store_of_disjoint _ _ _ _ _ _ (by omega)]
    exact hkept.trans hload
  · have h1 : Outside F h.mem mem2 := by
      refine Outside.trans (hout.subset ?_) (hout2.subset ?_)
      · simpa using hit.mem
      · intro d hd
        simp [hit.split, hd]
    refine h1.trans ((outside_store (b := b) (by omega) (by omega)).mono fun d hd x hx => ?_)
    rw [mem_singleton.mp hd] at hx
    refine ⟨c, hit.mem, ?_⟩
    unfold Block.Has Block.stop at *
    omega

theorem wp_allocLoop (h32 : 32 ≤ needed) (hgood : ∀ b ∈ F, Good b) (hgap : F.Pairwise Gap)
    (hnone : firstFit needed minBlockSize F = none → Q none h)
    (hsome : ∀ b rest mem head, firstFit needed minBlockSize F = some (b, rest) →
      Seg mem head rest 0 → load 8 mem b.start = b.size → Outside F h.mem mem →
      Q (some (b.start + headerSize)) { h with mem := mem, head := head }) (fuel : ℕ) :
    ∀ y pre post, post.length < fuel → F = pre ++ post → (∀ c ∈ pre, c.size < needed) →
      Seg h.mem h.head pre y → Seg h.mem y post 0 →
      (allocLoop needed fuel (lastStart pre) y).wp E Q h := by
  induction fuel with
  | zero => intro y pre post hfuel; omega
  | succ fuel ih =>
    intro y pre post hfuel hF hpre hseg htail
    unfold allocLoop
    cases post with
    | nil =>
      obtain rfl := Seg.nil_iff.mp htail
      rw [if_pos rfl, wp_pure]
      apply hnone
      rw [hF, firstFit_append hpre]
      rfl
    | cons c post =>
      obtain ⟨rfl, h0, hs, hrest⟩ := Seg.cons_iff.mp htail
      rw [if_neg h0]
      simp only [wp_bind, wp_get, Heap.sizeAt, hs]
      rw [wp_ite]
      refine ⟨fun hfit => ?_, fun hmiss => ?_⟩
      · have hit : Hit F needed pre c post := ⟨hF, hpre, hfit, hgood, hgap⟩
        have hw : c.start + headerSize < usizeSize := by
          have h1 := (hgood c hit.mem).below
          have h2 := (hgood c hit.mem).least
          rw [headerSize_eq]
          unfold Block.stop at h1
          omega
        have htake := wp_take (E := E) hit h32 hseg htail
          (Q := fun _ t => Q (some (c.start + headerSize)) t) ?_
        · simp only [wp_bind, wp_pure] at htake ⊢
          rw [wrappingAdd, mod_eq_of_lt hw]
          exact htake
        · intro b rest mem head hff hstart hsegr hload hout
          rw [← hstart]
          exact hsome b rest mem head hff hsegr hload hout
      · have hstep : lastStart (pre ++ [c]) = c.start := by simp [lastStart]
        have hnext := ih (h.nextAt c.start) (pre ++ [c]) post ?_ ?_ ?_ ?_ hrest
        · rw [hstep] at hnext
          exact hnext
        · simp only [length_cons] at hfuel
          omega
        · simp [hF]
        · refine forall_mem_append.mpr ⟨hpre, fun d hd => ?_⟩
          rw [mem_singleton.mp hd]
          omega
        · exact Seg.append_iff.mpr ⟨c.start, hseg, .cons h0 hs (.nil _)⟩

/-- The fuel of the loops is more than any list of free blocks needs. -/
theorem length_lt_usize (hgood : ∀ b ∈ F, Good b) (hgap : F.Pairwise Gap) :
    F.length < usizeSize := by
  have h := length_le hgap (fun c hc => (hgood c hc).least) (fun c _ => zero_le _)
    (fun c hc => le_of_lt (hgood c hc).below) (zero_le _)
  unfold usizeSize at *
  omega

/-- `alloc_from_freelist` is first fit. -/
theorem wp_allocFromFreelist (h32 : 32 ≤ needed) (hseg : Seg h.mem h.head F 0)
    (hgood : ∀ b ∈ F, Good b) (hgap : F.Pairwise Gap)
    (hnone : firstFit needed minBlockSize F = none → Q none h)
    (hsome : ∀ b rest mem head, firstFit needed minBlockSize F = some (b, rest) →
      Seg mem head rest 0 → load 8 mem b.start = b.size → Outside F h.mem mem →
      Q (some (b.start + headerSize)) { h with mem := mem, head := head }) :
    (allocFromFreelist needed).wp E Q h := by
  simp only [allocFromFreelist, wp_bind, wp_get]
  exact wp_allocLoop h32 hgood hgap hnone hsome usizeSize h.head [] F
    (length_lt_usize hgood hgap) rfl (by simp) (.nil _) hseg

end Operations

end ToyOs.User
