import ToyOs.User.FreeList

/-!
Giving a block back. The search loop finds its place, the block is linked in,
and then it is merged with the block before it and with the block after it
where they touch. Each merge is one rewrite of the list, and together they are
the insertion of the abstract list.
-/
namespace ToyOs.User

open Bytes Blocks Heap Prog List Nat

variable {E : Fault → Prop} {h : Heap} {a y z : ℕ} {b c d : Block} {F l pre post : List Block}
  {Q : Unit → Heap → Prop}

theorem Below.separate (h : Below b c) : Separate b c := Or.inl h

/-- The place of a block in the list. -/
structure Place (F : List Block) (b : Block) (pre post : List Block) : Prop where
  split : F = pre ++ post
  lower : ∀ c ∈ pre, c.start < b.start
  upper : ∀ c ∈ post.head?, b.start ≤ c.start

theorem wp_insertLoop {Q : ℕ × ℕ → Heap → Prop}
    (hQ : ∀ pre post y, Place F b pre post → Seg h.mem h.head pre y → Seg h.mem y post 0 →
      Q (lastStart pre, y) h) (fuel : ℕ) :
    ∀ y pre post, post.length < fuel → F = pre ++ post → (∀ c ∈ pre, c.start < b.start) →
      Seg h.mem h.head pre y → Seg h.mem y post 0 →
      (insertLoop b.start fuel (lastStart pre) y).wp E Q h := by
  induction fuel with
  | zero => intro y pre post hfuel; omega
  | succ fuel ih =>
    intro y pre post hfuel hF hpre hseg htail
    unfold insertLoop
    cases post with
    | nil =>
      obtain rfl := Seg.nil_iff.mp htail
      rw [if_neg (by simp), wp_pure]
      exact hQ pre [] 0 ⟨hF, hpre, by simp⟩ hseg htail
    | cons c post =>
      obtain ⟨rfl, h0, hs, hrest⟩ := Seg.cons_iff.mp htail
      rw [wp_ite]
      refine ⟨fun hlt => ?_, fun hge => ?_⟩
      · have hstep : lastStart (pre ++ [c]) = c.start := by simp [lastStart]
        simp only [wp_bind, wp_get]
        have hnext := ih (h.nextAt c.start) (pre ++ [c]) post ?_ ?_ ?_ ?_ hrest
        · rw [hstep] at hnext
          exact hnext
        · simp only [length_cons] at hfuel
          omega
        · simp [hF]
        · refine forall_mem_append.mpr ⟨hpre, fun d hd => ?_⟩
          rw [mem_singleton.mp hd]
          exact hlt.2
        · exact Seg.append_iff.mpr ⟨c.start, hseg, .cons h0 hs (.nil _)⟩
      · rw [wp_pure]
        refine hQ pre (c :: post) c.start ⟨hF, hpre, ?_⟩ hseg htail
        intro d hd
        cases hd
        omega

/-- A chain of blocks in order, with room for headers. -/
structure Chain (h : Heap) (l : List Block) : Prop where
  seg : Seg h.mem h.head l 0
  order : l.Pairwise Below
  good : ∀ b ∈ l, Good b

theorem Chain.large (hc : Chain h l) : ∀ b ∈ l, 16 ≤ b.size :=
  fun b hb => le_trans (by omega) (hc.good b hb).least

theorem Chain.sizeAt (hc : Chain h (pre ++ b :: post)) : h.sizeAt b.start = b.size := by
  obtain ⟨y, -, htail⟩ := Seg.append_iff.mp hc.seg
  obtain ⟨-, -, hs, -⟩ := Seg.cons_iff.mp htail
  exact hs

theorem Chain.blockEnd (hc : Chain h (pre ++ b :: post)) : blockEnd h b.start = b.stop := by
  have hlt := (hc.good b (by simp)).below
  rw [User.blockEnd, hc.sizeAt, wrappingAdd]
  exact mod_eq_of_lt hlt

theorem wp_absorb (hc : Chain h (pre ++ b :: c :: post)) (hadj : b.stop = c.start)
    (hQ : ∀ mem, Chain { h with mem := mem } (pre ++ b.join c :: post) →
      Outside [b] h.mem mem → Q () { h with mem := mem }) :
    (absorb b.start c.start).wp E Q h := by
  have hb := hc.good b (by simp)
  have hcg := hc.good c (by simp)
  have hjoin := hb.join hcg hadj
  have hb16 := hc.large b (by simp)
  have hc16 := hc.large c (by simp)
  have hsum : b.size + c.size < usizeSize := by
    have := hjoin.below
    simp only [Block.join, Block.stop] at this
    omega
  obtain ⟨y, hpre, htail⟩ := Seg.append_iff.mp hc.seg
  obtain ⟨rfl, h0, hsb, hmid⟩ := Seg.cons_iff.mp htail
  obtain ⟨hcs, -, hsc, hrest⟩ := Seg.cons_iff.mp hmid
  have hord := pairwise_append.mp hc.order
  have hordb := pairwise_cons.mp hord.2.1
  have hordc := pairwise_cons.mp hordb.2
  have hsep : Separate c b := (Below.separate (hordb.1 c mem_cons_self)).symm
  have hout1 : Outside [b] h.mem (store 8 h.mem (b.start + 0) (b.size + c.size)) :=
    outside_store hb16 (by omega)
  simp only [absorb, wp_bind, wp_get, setSize, setNext, wp_modify, Heap.sizeAt,
    Heap.nextAt, hsb, hsc, wrappingAdd, mod_eq_of_lt hsum]
  have hnext : load 8 (store 8 h.mem b.start (b.size + c.size)) (c.start + 8) =
      load 8 h.mem (c.start + 8) :=
    hout1.load hc16 (fun e he => by rw [mem_singleton.mp he]; exact hsep) (by omega)
  rw [hnext]
  have hout : Outside [b] h.mem (store 8 (store 8 h.mem b.start (b.size + c.size)) (b.start + 8)
      (load 8 h.mem (c.start + 8))) :=
    hout1.trans (outside_store hb16 (by omega))
  have hsepb : ∀ e ∈ pre ++ post, ∀ f ∈ [b], Separate e f := by
    intro e he f hf
    rw [mem_singleton.mp hf]
    rcases mem_append.mp he with he | he
    · exact Below.separate (hord.2.2 e he b mem_cons_self)
    · exact (Below.separate (hordb.1 e (mem_cons_of_mem _ he))).symm
  refine hQ _ ⟨?_, ?_, ?_⟩ hout
  · refine Seg.append_iff.mpr ⟨b.start, ?_, ?_⟩
    · exact hpre.frame hout (fun e he => hc.large e (by simp [he]))
        fun e he => hsepb e (mem_append_left _ he)
    · refine Seg.cons (b := b.join c) h0 ?_ ?_
      · change load 8 _ b.start = b.size + c.size
        rw [load_store_of_disjoint _ _ _ _ _ _ (by omega), load_store_same]
        exact mod_eq_of_lt hsum
      · change Seg _ (load 8 _ (b.start + 8)) post 0
        rw [load_store_same, mod_eq_of_lt (load_lt 8 _ _)]
        exact hrest.frame hout (fun e he => hc.large e (by simp [he]))
          fun e he => hsepb e (mem_append_right _ he)
  · refine pairwise_append.mpr ⟨hord.1, pairwise_cons.mpr ⟨?_, hordc.2⟩, ?_⟩
    · intro e he
      have := hordc.1 e he
      simp only [Below, Block.join, Block.stop] at *
      omega
    · intro e he
      refine forall_mem_cons.mpr ⟨hord.2.2 e he b mem_cons_self, fun f hf => ?_⟩
      exact hord.2.2 e he f (by simp [hf])
  · intro e he
    rcases mem_append.mp he with he | he
    · exact hc.good e (by simp [he])
    · rcases mem_cons.mp he with rfl | he
      · exact hjoin
      · exact hc.good e (by simp [he])

theorem wp_linkIn (hp : Place F b pre post) (hpre : Seg h.mem h.head pre y)
    (hpost : Seg h.mem y post 0) (hb : Good b) (hsize : load 8 h.mem b.start = b.size)
    (hgood : ∀ c ∈ F, Good c) (hgap : F.Pairwise Gap) (hsep : ∀ c ∈ F, Separate b c)
    (hQ : ∀ mem head, Chain { h with mem := mem, head := head } (pre ++ b :: post) →
      Outside (b :: F) h.mem mem → Q () { h with mem := mem, head := head }) :
    (do setNext b.start y
        setLink (lastStart pre) b.start : HeapM Unit).wp E Q h := by
  have h16 : ∀ c ∈ F, 16 ≤ c.size := fun c hc => le_trans (by omega) (hgood c hc).least
  have hb16 : 16 ≤ b.size := le_trans (by omega) hb.least
  have hbw : b.start < usizeSize := lt_of_le_of_lt (le_add_right _ _) hb.below
  have hyw : y < usizeSize := by
    cases hpost with
    | nil => decide
    | @cons c rest =>
      exact lt_of_le_of_lt (le_add_right _ _) (hgood c (by simp [hp.split])).below
  have hposp : ∀ c ∈ pre ++ post, 0 < c.size := by
    rw [← hp.split]
    exact fun c hc => lt_of_lt_of_le (by omega) (h16 c hc)
  have horder : (pre ++ b :: post).Pairwise Below :=
    below_place (hp.split ▸ hgap) hposp (hp.split ▸ hsep) hp.lower hp.upper
  have hmem : ∀ c, c ∈ pre ∨ c ∈ post → c ∈ F := by
    intro c hc
    rw [hp.split]
    exact mem_append.mpr hc
  have hsepb : ∀ c ∈ F, ∀ e ∈ [b], Separate c e := by
    intro c hc e he
    rw [mem_singleton.mp he]
    exact (hsep c hc).symm
  have hgpre : pre.Pairwise Gap := (pairwise_append.mp (hp.split ▸ hgap)).1
  have hout : Outside [b] h.mem (store 8 h.mem (b.start + 8) y) := outside_store hb16 (by omega)
  simp only [wp_bind, setNext, wp_modify]
  have hpre1 : Seg (store 8 h.mem (b.start + 8) y) h.head pre y :=
    hpre.frame hout (fun c hc => h16 c (hmem c (Or.inl hc))) fun c hc => hsepb c (hmem c (Or.inl hc))
  refine wp_setLink (h := { h with mem := store 8 h.mem (b.start + 8) y }) hpre1 hbw
    (fun c hc => h16 c (hmem c (Or.inl hc))) hgpre ?_
  intro mem head hseg hout2
  have htail : Seg (store 8 h.mem (b.start + 8) y) b.start (b :: post) 0 := by
    refine Seg.cons hb.pos.ne' ?_ ?_
    · rw [load_store_of_disjoint _ _ _ _ _ _ (by omega), hsize]
    · rw [load_store_same, show (256 : ℕ) ^ 8 = usizeSize by decide, mod_eq_of_lt hyw]
      exact hpost.frame hout (fun c hc => h16 c (hmem c (Or.inr hc)))
        fun c hc => hsepb c (hmem c (Or.inr hc))
  have hcross := (pairwise_append.mp horder).2.2
  refine hQ mem head ⟨Seg.append_iff.mpr ⟨b.start, hseg, htail.frame hout2 ?_ ?_⟩, horder, ?_⟩ ?_
  · exact forall_mem_cons.mpr ⟨hb16, fun c hc => h16 c (hmem c (Or.inr hc))⟩
  · intro c hc e he
    exact (Below.separate (hcross e he c hc)).symm
  · intro c hc
    rcases mem_append.mp hc with hc | hc
    · exact hgood c (hmem c (Or.inl hc))
    · rcases mem_cons.mp hc with rfl | hc
      · exact hb
      · exact hgood c (hmem c (Or.inr hc))
  · refine Outside.trans (hout.subset (by simp)) (hout2.subset fun c hc => ?_)
    exact mem_cons_of_mem _ (hmem c (Or.inl hc))

/-- The merge with the block before: the block the rest is merged with. -/
theorem wp_mergePrev (hp : Place F b pre post) (hgap : F.Pairwise Gap)
    (hc : Chain h (pre ++ b :: post)) {Q : ℕ → Heap → Prop}
    (hQ : ∀ mem pre' d, Chain { h with mem := mem } (pre' ++ d :: post) →
      insertBlock b F = pre' ++ joinHead d post → Outside (b :: F) h.mem mem →
      (∀ x, d.Has x → ∃ e ∈ b :: F, e.Has x) → Q d.start { h with mem := mem }) :
    (mergePrev (lastStart pre) b.start).wp E Q h := by
  simp only [mergePrev, wp_bind, wp_get]
  have hfront : insertBlock b post = joinHead b post := insertBlock_eq_joinHead hp.upper
  have hself : ∀ x, b.Has x → ∃ e ∈ b :: F, e.Has x := fun x hx => ⟨b, mem_cons_self, hx⟩
  rcases eq_nil_or_concat' pre with rfl | ⟨A, p, rfl⟩
  · rw [if_neg (by simp [lastStart]), wp_pure]
    exact hQ h.mem [] b hc (by rw [hp.split]; exact hfront) (fun _ _ => rfl) hself
  · have hlast : lastStart (A ++ [p]) = p.start := by simp [lastStart]
    have hchain : Chain h (A ++ p :: b :: post) := by simpa using hc
    have hpF : p ∈ F := by simp [hp.split]
    have hpb : p.start < b.start := hp.lower p (by simp)
    have hA : ∀ e ∈ A, e.start < b.start ∧ e.stop ≠ b.start := by
      intro e he
      have h1 := hp.lower e (by simp [he])
      have h2 : Gap e p := by
        have h3 := hp.split ▸ hgap
        rw [append_assoc, pairwise_append] at h3
        exact h3.2.2 e he p (by simp)
      unfold Gap at h2
      exact ⟨h1, by omega⟩
    have hsplit : F = A ++ p :: post := by simp [hp.split]
    rw [hlast, hchain.blockEnd, wp_ite]
    refine ⟨fun hadj => ?_, fun hnot => ?_⟩
    · rw [wp_bind]
      refine wp_absorb hchain hadj.2 fun mem hc' hout => ?_
      refine hQ mem A (p.join b) hc' ?_ (hout.subset (by simp [hpF])) ?_
      · rw [hsplit, insertBlock_append hA, insertBlock, if_pos hpb, if_pos hadj.2]
      · intro x hx
        by_cases hxp : p.Has x
        · exact ⟨p, mem_cons_of_mem _ hpF, hxp⟩
        · refine ⟨b, mem_cons_self, ?_⟩
          have := hadj.2
          simp only [Block.Has, Block.join, Block.stop] at *
          omega
    · rw [wp_pure]
      refine hQ h.mem (A ++ [p]) b hc ?_ (fun _ _ => rfl) hself
      have hp0 := (hchain.good p (by simp)).pos
      have hne : p.stop ≠ b.start := fun heq => hnot ⟨by omega, heq⟩
      rw [hp.split, insertBlock_append, hfront]
      exact forall_mem_append.mpr ⟨hA, by simpa using ⟨hpb, hne⟩⟩

theorem wp_mergeNext (hc : Chain h (pre ++ d :: post))
    (hQ : ∀ mem, Seg mem h.head (pre ++ joinHead d post) 0 → Outside [d] h.mem mem →
      Q () { h with mem := mem }) :
    (mergeNext d.start ((post.head?.map Block.start).getD 0)).wp E Q h := by
  cases post with
  | nil => exact hQ h.mem hc.seg fun _ _ => rfl
  | cons c post =>
    have hc0 := (hc.good c (by simp)).pos
    have hhead : (((c :: post).head?.map Block.start).getD 0) = c.start := rfl
    rw [hhead, mergeNext, wp_bind, wp_get, hc.blockEnd, wp_ite]
    refine ⟨fun hadj => ?_, fun hnot => ?_⟩
    · refine wp_absorb hc hadj.2 fun mem hc' hout => hQ mem ?_ hout
      rw [joinHead, if_pos hadj.2]
      exact hc'.seg
    · refine hQ h.mem ?_ fun _ _ => rfl
      rw [joinHead, if_neg fun heq => hnot ⟨by omega, heq⟩]
      exact hc.seg

/-- `insert_free_block` is insertion with merging. -/
theorem wp_insertFreeBlock (hseg : Seg h.mem h.head F 0) (hgood : ∀ c ∈ F, Good c)
    (hgap : F.Pairwise Gap) (hb : Good b) (hsize : load 8 h.mem b.start = b.size)
    (hsep : ∀ c ∈ F, Separate b c)
    (hQ : ∀ mem head, Seg mem head (insertBlock b F) 0 → Outside (b :: F) h.mem mem →
      Q () { h with mem := mem, head := head }) :
    (insertFreeBlock b.start).wp E Q h := by
  unfold insertFreeBlock
  rw [wp_bind, wp_get, wp_bind]
  refine wp_insertLoop (F := F) ?_ usizeSize h.head [] F (length_lt_usize hgood hgap) rfl (by simp)
    (.nil _) hseg
  intro pre post y hp hpre hpost
  have hlink := wp_linkIn (E := E) hp hpre hpost hb hsize hgood hgap hsep (Q := fun _ t =>
    Prog.wp (do
      let merged ← mergePrev (lastStart pre) b.start
      mergeNext merged y : HeapM Unit) E Q t) ?_
  · simp only [wp_bind] at hlink ⊢
    exact hlink
  intro mem head hc hout
  rw [wp_bind]
  refine wp_mergePrev hp hgap hc ?_
  intro mem' pre' d hc' hins hout' hd
  rw [hpost.head_eq]
  refine wp_mergeNext hc' fun mem2 hseg2 hout2 => ?_
  rw [← hins] at hseg2
  refine hQ mem2 head hseg2 ((hout.trans hout').trans (hout2.mono fun e he x hx => ?_))
  rw [mem_singleton.mp he] at hx
  exact hd x hx

end ToyOs.User
