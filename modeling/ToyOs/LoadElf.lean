import ToyOs.LoadImage

/-!
The loader as a whole. A successful load
leaves the image of all PT_LOAD headers and one stack page; a failed one
leaves a blank address space, except when the header table is cut off by the
end of the file: then everything loaded so far stays mapped.
-/
namespace ToyOs

open Bytes Prog Function Nat

/-- The loaded address space: the image and the stack page. -/
structure Loaded (L : Layout) (tf : ℕ) (segs : List Phdr) (T : Tree) : Prop where
  image : ∃ T0 pa, Image L tf T0 segs ∧ isValid (T0.pte (2 ^ 26 - 3)) = false ∧
    T.pte = Function.update T0.pte (2 ^ 26 - 3) (leafWord pa (pteU ||| pteR ||| pteW))

/-- The bytes of a loaded address space: those of the segments, and a zeroed stack. -/
structure Loaded.Bytes (content : List UInt8) (segs : List Phdr) (s : Ram) (T : Tree) : Prop where
  image : Holds content s T segs
  stack : ∀ off, off < pgSize → s.mem (ptePa (T.pte (2 ^ 26 - 3)) + off) = 0

/-- The stack page fits beside the segments. -/
structure StackFits (G : Tree) (free : ℕ) (segs : List Phdr) : Prop where
  entry : 2 ^ 26 - 3 ∉ slotsOf segs
  room : G.need (slotsOf segs ∪ {2 ^ 26 - 3}) ≤ free

/-- The file has this header, and with `free` pages its image and the stack can be loaded. -/
structure Loadable (content : List UInt8) (G : Tree) (free : ℕ) (e : Ehdr) : Prop where
  header : readEhdr content = some e
  fitting : Fitting content e G free e.phnum
  low : imageEnd (segments content e e.phnum) + pgSize < usizeSize
  stack : StackFits G free (segments content e e.phnum)

/-- The loader gives up and removes what it has mapped: at the file header, at
a program header or at the stack page. -/
inductive LoadFails (content : List UInt8) (G : Tree) (free : ℕ) : Prop
  | refused (h : readEhdr content = none)
  | stopped (e : Ehdr) (i : ℕ) (ph : Phdr) (he : readEhdr content = some e) (hi : i < e.phnum)
      (hfit : Fitting content e G free i) (hload : loadable content e i = some ph)
      (hstop : ph.Stops content G free (slotsOf (segments content e i)))
      (hdense : DenseSegments (segments content e i))
  | full (e : Ehdr) (he : readEhdr content = some e) (hfit : Fitting content e G free e.phnum)
      (hlow : imageEnd (segments content e e.phnum) + pgSize < usizeSize)
      (hstack : ¬ StackFits G free (segments content e e.phnum))
      (hdense : DenseSegments (segments content e e.phnum))

/-- Header `i` of the table is not in the file, and those before it are loaded. -/
structure CutAt (content : List UInt8) (G : Tree) (free : ℕ) (e : Ehdr) (i : ℕ) : Prop where
  header : readEhdr content = some e
  lt : i < e.phnum
  fitting : Fitting content e G free i
  missing : readPhdr content e i = none

/-- The loader returns. -/
structure LoadSafe (content : List UInt8) (G : Tree) (free : ℕ) (e : Ehdr) : Prop where
  orderly : Orderly content e G free e.phnum
  low : Fitting content e G free e.phnum →
    imageEnd (segments content e e.phnum) + pgSize < usizeSize
  stack : Fitting content e G free e.phnum →
    StackFits G free (segments content e e.phnum) ∨ DenseSegments (segments content e e.phnum)

/-- The outcomes of the loader. -/
structure LoadPost (L : Layout) (R : Multiset ℕ) (tf : ℕ) (content : List UInt8) (G : Tree)
    (s : Ram) (T : Tree) (F : List ℕ) (Q : Option LoadedImage → Ram → Prop) : Prop where
  cut : ∀ e i s' T' F', CutAt content G F.length e i → Moved L R s T F s' T' F' →
    Image L tf T' (segments content e i) → Holds content s' T' (segments content e i) → Q none s'
  fail : ∀ s' T' F', LoadFails content G F.length → Moved L R s T F s' T' F' →
    T'.Blank L tf → Q none s'
  done : ∀ e s' T' F', Loadable content G F.length e → Moved L R s T F s' T' F' →
    Loaded L tf (segments content e e.phnum) T' →
    Loaded.Bytes content (segments content e e.phnum) s' T' →
    Q (some { entry := e.entry, sp := userStack + pgSize,
              sz := pages (imageEnd (segments content e e.phnum)) * pgSize }) s'

section Outcomes

variable {content : List UInt8} {G : Tree} {free i : ℕ} {e : Ehdr}

/-- A file whose headers fit up to one of them is orderly up to there. -/
theorem Fitting.orderly (h : Fitting content e G free i) : Orderly content e G free i :=
  fun j ph hj _ hload => Or.inl ((h j hj).2 ph hload)

/-- One header after which no further header is loaded. -/
theorem Fitting.orderly_of_end {stop : ℕ} (h : Fitting content e G free i) (hi : i < stop)
    (hend : ¬ Fitting content e G free (i + 1))
    (hat : ∀ ph, loadable content e i = some ph →
      ph.Loads content G free (slotsOf (segments content e i)) ∨
        ph.Stops content G free (slotsOf (segments content e i)) ∧
          DenseSegments (segments content e i)) : Orderly content e G free stop := by
  intro j ph hj hfit hload
  rcases lt_trichotomy j i with hlt | rfl | hgt
  · exact Or.inl ((h j hlt).2 ph hload)
  · exact hat ph hload
  · exact absurd (hfit.mono hgt) hend

theorem CutAt.ends (h : CutAt content G free e i) : ¬ Fitting content e G free (i + 1) :=
  fun hfit => (hfit i (lt_succ_self i)).1 h.missing

theorem CutAt.safe (h : CutAt content G free e i) : LoadSafe content G free e := by
  have hend : ¬ Fitting content e G free e.phnum := fun hfit => h.ends (hfit.mono h.lt)
  refine ⟨h.fitting.orderly_of_end h.lt h.ends fun ph hload => ?_, fun hfit => absurd hfit hend,
    fun hfit => absurd hfit hend⟩
  exact absurd hload (by simp [loadable, h.missing])

theorem Loadable.safe (h : Loadable content G free e) : LoadSafe content G free e :=
  ⟨h.fitting.orderly, fun _ => h.low, fun _ => Or.inl h.stack⟩

theorem LoadFails.safe (h : LoadFails content G free) (he : readEhdr content = some e) :
    LoadSafe content G free e := by
  cases h with
  | refused hnone => exact absurd (hnone.symm.trans he) (by simp)
  | stopped e' i ph he' hi hfit hload hstop hdense =>
    obtain rfl := Option.some.inj (he.symm.trans he')
    have hend : ¬ Fitting content e G free (i + 1) := fun hnext =>
      ((hnext i (lt_succ_self i)).2 ph hload).not_stops hstop
    have hall : ¬ Fitting content e G free e.phnum := fun hnext => hend (hnext.mono hi)
    refine ⟨hfit.orderly_of_end hi hend fun q hq => ?_, fun hnext => absurd hnext hall,
      fun hnext => absurd hnext hall⟩
    obtain rfl := Option.some.inj (hload.symm.trans hq)
    exact Or.inr ⟨hstop, hdense⟩
  | full e' he' hfit hlow hstack hdense =>
    obtain rfl := Option.some.inj (he.symm.trans he')
    exact ⟨hfit.orderly, fun _ => hlow, fun _ => Or.inr hdense⟩

theorem LoadFails.not_loadable (h : LoadFails content G free) : ¬ Loadable content G free e := by
  intro hl
  cases h with
  | refused hnone => exact absurd (hnone.symm.trans hl.header) (by simp)
  | stopped e' i ph he hi hfit hload hstop hdense =>
    obtain rfl := Option.some.inj (hl.header.symm.trans he)
    exact ((hl.fitting i hi).2 ph hload).not_stops hstop
  | full e' he hfit hlow hstack hdense =>
    obtain rfl := Option.some.inj (hl.header.symm.trans he)
    exact hstack hl.stack

/-- The headers cannot be read past the cut. -/
theorem CutAt.le_of_fitting {j : ℕ} (h : CutAt content G free e i)
    (hfit : Fitting content e G free j) : j ≤ i := by
  by_contra hlt
  exact h.ends (hfit.mono (by omega))

theorem CutAt.unique {e' : Ehdr} {j : ℕ} (h : CutAt content G free e i)
    (h' : CutAt content G free e' j) : e = e' ∧ i = j := by
  obtain rfl := Option.some.inj (h.header.symm.trans h'.header)
  exact ⟨rfl, le_antisymm (h'.le_of_fitting h.fitting) (h.le_of_fitting h'.fitting)⟩

theorem CutAt.not_fails (h : CutAt content G free e i) : ¬ LoadFails content G free := by
  intro hfails
  cases hfails with
  | refused hnone => exact absurd (hnone.symm.trans h.header) (by simp)
  | stopped e' j ph he hj hfit hload hstop hdense =>
    obtain rfl := Option.some.inj (h.header.symm.trans he)
    rcases lt_or_eq_of_le (h.le_of_fitting hfit) with hlt | rfl
    · exact ((h.fitting j hlt).2 ph hload).not_stops hstop
    · exact absurd hload (by simp [loadable, h.missing])
  | full e' he hfit hlow hstack hdense =>
    obtain rfl := Option.some.inj (h.header.symm.trans he)
    exact absurd h.lt (by have := h.le_of_fitting hfit; omega)

theorem CutAt.not_loadable {e' : Ehdr} (h : CutAt content G free e i) :
    ¬ Loadable content G free e' := by
  intro hl
  obtain rfl := Option.some.inj (h.header.symm.trans hl.header)
  exact h.ends (hl.fitting.mono h.lt)

end Outcomes

section Load

variable {L : Layout} {R : Multiset ℕ} {s s' : Ram} {T T' : Tree} {F F' : List ℕ} {tf sz : ℕ}
  {segs : List Phdr} {content : List UInt8} {E : Panic → Prop}

theorem pages_rounded (sz : ℕ) : pages (pages sz * pgSize) = pages sz := by
  unfold pages pgSize
  omega

theorem Holds.stack {pa : ℕ} {s1 : Ram} {F1 : List ℕ} (h : Holds content s T segs)
    (himg : Image L tf T segs) (hspace : AddrSpace L s T F R) (htaken : Taken L R s T F s1 pa F1)
    (hkept : Kept s1 T F1 s' T' F') (hinv : isValid (T.pte (2 ^ 26 - 3)) = false)
    (hpte : T'.pte = update T.pte (2 ^ 26 - 3) (leafWord pa (pteU ||| pteR ||| pteW)))
    (hzero : ∀ x, pa ≤ x → x < pa + pgSize → s1.mem x = 0) :
    Loaded.Bytes content segs s' T' := by
  have hstack := (Filled.init s T F (fun _ => 2 ^ 26 - 3) (fun _ _ => 0)).step hspace htaken hkept
    hpte (by decide) (fun j hj => absurd hj (not_lt_zero j))
    (fun off hoff => hzero _ (le_add_right _ _) (by omega))
  refine ⟨⟨h.le, h.chunk, h.user, h.apart, fun q hq j hj off hoff => ?_⟩,
    hstack.bytes 0 zero_lt_one⟩
  refine h.page_kept himg hspace hstack.kept hq hj ?_ hoff
  rw [hpte, update_of_ne]
  intro heq
  obtain ⟨pb, hw⟩ := himg.word q hq j hj
  rw [← heq, hw, isValid_leafWord] at hinv
  exact Bool.noConfusion hinv

/-- The stack fits when its entry is free and there are pages for it. -/
theorem Image.stackFits_iff {G : Tree} {FG : List ℕ} (h : Image L tf T segs)
    (hpaid : Paid G FG (slotsOf segs) T F) :
    StackFits G FG.length segs ↔
      isValid (T.pte (2 ^ 26 - 3)) = false ∧ T.need {2 ^ 26 - 3} ≤ F.length := by
  have hcount := hpaid.count
  have hvalid := h.valid_iff (2 ^ 26 - 3) (vpn_userStack ▸ stack_user)
  have hneed : 2 ^ 26 - 3 ∉ slotsOf segs →
      G.need (slotsOf segs ∪ {2 ^ 26 - 3}) = G.need (slotsOf segs) + T.need {2 ^ 26 - 3} :=
    fun hnew => hpaid.need_union (Finset.disjoint_singleton_right.mpr hnew)
  constructor
  · rintro ⟨hnew, hroom⟩
    rw [hneed hnew] at hroom
    rw [← hvalid] at hnew
    exact ⟨by simpa using hnew, by omega⟩
  · rintro ⟨hinv, hroom⟩
    have hnew : 2 ^ 26 - 3 ∉ slotsOf segs := by
      rw [← hvalid, hinv]
      decide
    exact ⟨hnew, by rw [hneed hnew]; omega⟩

theorem wp_loadStack {G : Tree} {FG : List ℕ} (h : AddrSpace L s T F R) (himg : Image L tf T segs)
    (hheld : Holds content s T segs) (hpaid : Paid G FG (slotsOf segs) T F)
    {Q : Option Unit → Ram → Prop}
    (hE : StackFits G FG.length segs ∨ DenseSegments segs ∨ ∀ err, E err)
    (hfail : ∀ s' T' F', ¬ StackFits G FG.length segs → DenseSegments segs →
      Moved L R s T F s' T' F' → T'.Blank L tf → Q none s')
    (hdone : ∀ s' T' F', StackFits G FG.length segs → Moved L R s T F s' T' F' →
      Loaded L tf segs T' → Loaded.Bytes content segs s' T' → Q (some ()) s') :
    (loadStack L T.root (pages (imageEnd segs) * pgSize)).wp E Q s := by
  have hfits := himg.stackFits_iff hpaid
  have hdense : ∀ {T' : Tree}, T'.pte = T.pte →
      (T'.Dense (pages (imageEnd segs) * pgSize) ↔ DenseSegments segs) := by
    intro T' hpte
    rw [← himg.dense_iff (AddrSpace.dense_le h)]
    unfold Tree.Dense
    rw [hpte, pages_rounded]
  have hclean : ∀ s' T' F', ¬ StackFits G FG.length segs → Moved L R s T F s' T' F' →
      T'.pte = T.pte →
      (cleanupUser L T.root (pages (imageEnd segs) * pgSize)).wp E (fun _ s'' => Q none s'') s' := by
    intro s' T' F' hwhy hm hpte
    have hker : T'.Fixed L tf :=
      ⟨by rw [hpte]; exact himg.kernel.trampoline, by rw [hpte]; exact himg.kernel.trapframe⟩
    rw [← hm.root]
    refine wp_cleanupUser hm.space hker ?_ ?_ ?_
    · intro k hk hv
      rw [hpte] at hv
      rw [pages_rounded]
      exact himg.covered hk hv
    · rcases hE with hfit | hd | hall
      · exact absurd hfit hwhy
      · exact Or.inl ((hdense hpte).mpr hd)
      · exact Or.inr hall
    · intro s'' T'' F'' hd hm' hb
      exact hfail s'' T'' F'' hwhy ((hdense hpte).mp hd) (hm.trans hm') hb
  simp only [loadStack, wp_bind]
  refine wp_kallocZeroed_taken h ?_ ?_
  · intro hnil
    simp only [wp_bind, wp_pure]
    refine hclean s T F (fun hfit => ?_) (Moved.refl h) rfl
    have hneed := (hfits.mp hfit).2
    rw [hnil, Tree.need_singleton, List.length_nil] at hneed
    omega
  · intro pa F1 s1 htaken hzero
    simp only [wp_bind]
    refine htaken.wp_map (by decide) (by decide) (fun _ => stack_user)
      (fun hover => absurd hover (by decide)) ?_ ?_
    · intro s2 T2 F2 _ hwhy hpte hm
      rw [vpn_userStack] at hwhy
      simp only [wp_bind, wp_pure]
      refine wp_of_ok (kfree_apply htaken.managed s2) ?_
      refine hclean _ T2 _ (fun hfit => ?_) hm hpte
      obtain ⟨hinv, hneed⟩ := hfits.mp hfit
      rcases hwhy with hshort | hv
      · omega
      · rw [hv] at hinv
        exact Bool.noConfusion hinv
    · intro s2 T2 F2 hinv _ hpaid' hpte hm hkept
      rw [vpn_userStack] at hinv hpte hpaid'
      have hcount := hpaid'.count
      simp only [wp_pure]
      exact hdone s2 T2 F2 (hfits.mpr ⟨hinv, by omega⟩) hm ⟨T, pa, himg, hinv, hpte⟩
        (hheld.stack himg h htaken hkept hinv hpte hzero)

/-- The loader, on a new page table whose tables are those of `G`. -/
theorem wp_loadElf {G : Tree} (h : AddrSpace L s T F R) (hko : T.KernelOnly L tf)
    (htab : G.Tabled ∅ T) {Q : Option LoadedImage → Ram → Prop}
    (hE : (∀ e, readEhdr content = some e → LoadSafe content G F.length e) ∨ ∀ err, E err)
    (hpost : LoadPost L R tf content G s T F Q) :
    (loadElfFromInode L T.root content).wp E Q s := by
  unfold loadElfFromInode
  cases hr : readEhdr content with
  | none =>
    refine hpost.fail s T F (.refused hr) (Moved.refl h) ⟨hko.kernel, ?_⟩
    intro k hk
    obtain ⟨-, h1, h2⟩ := mem_userSlots.mp hk
    rw [hko.rest k h1 h2]
    rfl
  | some e =>
    have hempty : segments content e 0 = [] := rfl
    have hpaid : Paid G F (slotsOf (segments content e 0)) T F :=
      ⟨htab, by simp [hempty, slotsOf, Tree.need, Tree.lack]⟩
    have hsafe := hE.imp_left fun hs => hs e hr
    simp only [wp_bind]
    refine wp_loadHeaders (i := 0) h (hempty ▸ hko.image) (hempty ▸ Holds.nil content s T) hpaid
      (fun j hj => absurd hj (not_lt_zero j)) ?_ ?_
    · rw [zero_add]
      exact hsafe.imp_left LoadSafe.orderly
    rw [zero_add]
    refine ⟨?_, ?_, ?_⟩
    · intro i s' T' F' hm hi hfit hnone himg hheld
      exact hpost.cut e i s' T' F' ⟨hr, hi, hfit, hnone⟩ hm himg hheld
    · intro i ph s' T' F' hi hfit hload hstop hdense hm hb
      exact hpost.fail s' T' F' (.stopped e i ph hr hi hfit hload hstop hdense) hm hb
    · intro s' T' F' hfit hpaid' hm himg hheld
      simp only [wp_bind, wp_pageRoundUp]
      refine ⟨fun hlow => ?_, fun hover => ?_⟩
      · rw [← hm.root]
        refine wp_loadStack hm.space himg hheld hpaid' ?_ ?_ ?_
        · rcases hsafe with hs | hall
          · exact (hs.stack hfit).imp_right Or.inl
          · exact Or.inr (Or.inr hall)
        · intro s'' T'' F'' hwhy hd hm' hb
          exact hpost.fail s'' T'' F'' (.full e hr hfit hlow hwhy hd) (hm.trans hm') hb
        · intro s'' T'' F'' hfits hm' hl hbytes
          exact hpost.done e s'' T'' F'' ⟨hr, hfit, hlow, hfits⟩ (hm.trans hm') hl hbytes
      · rcases hsafe with hs | hall
        · exact absurd (hs.low hfit) (by omega)
        · exact hall _

end Load

end ToyOs
