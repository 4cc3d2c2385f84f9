import ToyOs.Fs.Links

/-!
New files and directories. An inode is allocated, filled, and entered into
its parent. When all of it succeeds the tree has one node more. When a later
step fails the tree is as before, but the inode stays allocated outside of it.
-/
namespace ToyOs.Fs

open Bytes Prog DirTree Function

variable {s s' t t' : State} {N : Finset ℕ} {r parent : InodeRef} {n m d k b b' : ℕ} {typ : ℤ}
  {name data : List UInt8} {f : FileState} {E : Panic → Prop} {Q : Option InodeRef → State → Prop}

/-- An inode `n` that was free is in use at slot `r`, outside of the tree. -/
structure Fresh (s : State) (typ : ℤ) (n : ℕ) (r : InodeRef) (b : ℕ) (t : State) : Prop where
  stable : Stable t
  pos : 0 < n
  lt : n < ninodes
  was : (s.file n).typ = 0
  slot : s.refs r = none
  refs : t.refs = Function.update s.refs r (some (n, 1))
  typ : (t.file n).typ = typ
  file : ∀ m, m < ninodes → m ≠ n → t.file m = s.file m
  spent : t.vol.free ≤ s.vol.free
  budget : s.vol.free ≤ t.vol.free + b
  coherent : Coherent s → Coherent t

/-- A creation that failed after its inode was allocated. -/
structure Leaked (s : State) (N : Finset ℕ) (typ : ℤ) (n b : ℕ) (t : State) : Prop where
  tidy : Tidy t N
  refs : t.refs = s.refs
  outside : n ∉ N
  pos : 0 < n
  lt : n < ninodes
  was : (s.file n).typ = 0
  now : (t.file n).typ = typ
  file : ∀ m, m < ninodes → m ≠ n → t.file m = s.file m
  spent : t.vol.free ≤ s.vol.free
  budget : s.vol.free ≤ t.vol.free + b
  coherent : Coherent s → Coherent t

/-- A creation that succeeded: file `n` is `f`, with a reference at slot `r`. -/
structure Created (s : State) (N : Finset ℕ) (d n : ℕ) (name : List UInt8) (f : FileState)
    (r : InodeRef) (b : ℕ) (t : State) : Prop where
  entered : Entered s N d n name t
  was : (s.file n).typ = 0
  lt : n < ninodes
  slot : s.refs r = none
  refs : t.refs = Function.update s.refs r (some (n, 1))
  new : t.file n = f
  dir : (s.file d).typ = tDir
  parent : t.file d =
    ⟨tDir, (s.file d).nlink + linksUp f, (s.file d).data ++ (newDirent name n).encode⟩
  file : ∀ m, m < ninodes → m ≠ n → m ≠ d → t.file m = s.file m
  spent : t.vol.free ≤ s.vol.free
  budget : s.vol.free ≤ t.vol.free + b
  coherent : Coherent s → Coherent t

theorem Leaked.mono (h : Leaked s N typ n b t) (hb : b ≤ b') : Leaked s N typ n b' t :=
  { h with budget := h.budget.trans (by omega) }

/-- An inode that is free is not in the tree. -/
theorem Tidy.not_mem (ht : Tidy s N) (h : (s.file n).typ = 0) : n ∉ N := fun hn =>
  ht.typ_ne hn h

/-- Other files kept, the tree is as it was. -/
theorem Tidy.keep (ht : Tidy s N) (hstable : Stable t) (hfile : ∀ m ∈ N, t.file m = s.file m)
    (hheld : ∀ r m k, t.refs r = some (m, k) → m ∈ N) : Tidy t N where
  stable := hstable
  tree := by
    refine ht.tree.congr (fun m hm => ?_) fun m hm => by rw [hfile m hm]
    rw [ht.graph_eq hm]
    simp only [State.graph, hfile m hm, ht.lt hm, true_and]
  packed := fun m hm => by
    rw [hfile m hm]
    exact ht.packed m hm
  kind := fun m hm => by
    rw [hfile m hm]
    exact ht.kind m hm
  held := hheld

namespace Fresh

theorem ref (h : Fresh s typ n r b t) : t.refs r = some (n, 1) := by
  rw [h.refs, update_self]

/-- References held before are still held. -/
theorem ref_old (h : Fresh s typ n r b t) (hr : s.refs parent = some (d, k)) :
    t.refs parent = some (d, k) := by
  rw [h.refs, update_of_ne, hr]
  rintro rfl
  rw [h.slot] at hr
  simp at hr

theorem quiet (h : Fresh s typ n r b t) (hq : Quiet t t') (hrefs : t'.refs = t.refs) :
    Fresh s typ n r b t' :=
  { h with
    stable := hq.stable
    refs := hrefs.trans h.refs
    typ := by rw [hq.file n h.lt, h.typ]
    file := fun m hm hne => (hq.file m hm).trans (h.file m hm hne)
    spent := by rw [hq.vol]; exact h.spent
    budget := by rw [hq.vol]; exact h.budget
    coherent := fun hc => hq.coherent (h.coherent hc) }

theorem changed (h : Fresh s typ n r b t) (hc : Changed t n f b' t') (htyp : f.typ = typ) :
    Fresh s typ n r (b + b') t' :=
  { h with
    stable := hc.stable
    refs := hc.refs.trans h.refs
    typ := by rw [hc.self h.lt, htyp]
    file := fun m hm hne => (hc.other hm hne).trans (h.file m hm hne)
    spent := hc.spent.trans h.spent
    budget := by
      have h1 := h.budget
      have h2 := hc.budget
      omega
    coherent := fun hcoh => hc.coherent (h.coherent hcoh) }

/-- A step that leaves another file as it was. -/
theorem refused (h : Fresh s typ n r b t) (hc : Changed t d (t.file d) b' t') :
    Fresh s typ n r (b + b') t' := by
  have hsame : ∀ m, m < ninodes → t'.file m = t.file m := by
    intro m hm
    rw [hc.file m hm]
    split
    · rename_i heq
      rw [heq]
    · rfl
  exact { h with
    stable := hc.stable
    refs := hc.refs.trans h.refs
    typ := by rw [hsame n h.lt, h.typ]
    file := fun m hm hne => (hsame m hm).trans (h.file m hm hne)
    spent := hc.spent.trans h.spent
    budget := by
      have h1 := h.budget
      have h2 := hc.budget
      omega
    coherent := fun hcoh => hc.coherent (h.coherent hcoh) }

end Fresh

theorem wp_ialloc_tidy (ht : Tidy s N) (hfit : -2 ^ 15 ≤ typ ∧ typ < 2 ^ 15) (htyp : typ ≠ 0)
    (hnone : (∀ n, 0 < n → n < ninodes → (s.file n).typ ≠ 0) →
      ∀ t, Quiet s t → t.refs = s.refs → Q none t)
    (hfull : ∀ n t, Leaked s N typ n 0 t → t.file n = ⟨typ, 0, []⟩ → (∀ r, s.refs r ≠ none) →
      Q none t) (hQ : ∀ n r t, Fresh s typ n r 0 t → t.file n = ⟨typ, 0, []⟩ → Q (some r) t) :
    wp (ialloc typ) E Q s := by
  have hfacts : ∀ n t, Allocated s typ n t → (s.file n).typ = 0 ∧ t.file n = ⟨typ, 0, []⟩ ∧
      (∀ m, m < ninodes → m ≠ n → t.file m = s.file m) ∧ t.vol.free = s.vol.free ∧
      (Coherent s → Coherent t) := by
    intro n t ha
    refine ⟨?_, ?_, fun m hm hne => ?_, ?_, ha.coherent⟩
    · rw [← ht.stable.inode_typ ha.lt]
      exact ha.free
    · rw [ha.file n ha.lt, if_pos rfl]
    · rw [ha.file m hm, if_neg hne]
    · rw [ha.vol]
      rfl
  refine wp_ialloc ht.stable hfit htyp (fun hall => hnone fun n h1 h2 => ?_)
    (fun n t ha hrefs hbusy => ?_) fun n r t ha hslot hrefs => ?_
  · rw [← ht.stable.inode_typ h2]
    exact hall n h1 h2
  · obtain ⟨hwas, hnew, hfile, hfree, hcoh⟩ := hfacts n t ha
    have hout := ht.not_mem hwas
    refine hfull n t ⟨ht.keep ha.stable (fun m hm => hfile m (ht.lt hm) fun h => hout (h ▸ hm))
      fun r m k hr => ht.held r m k (by rwa [← hrefs]), hrefs, hout, ha.pos, ha.lt, hwas,
      by rw [hnew], hfile, hfree.le, hfree.ge, hcoh⟩ hnew hbusy
  · obtain ⟨hwas, hnew, hfile, hfree, hcoh⟩ := hfacts n t ha
    exact hQ n r t ⟨ha.stable, ha.pos, ha.lt, hwas, hslot, hrefs, by rw [hnew], hfile, hfree.le,
      hfree.ge, hcoh⟩ hnew

/-- The new inode is given up, but stays allocated. -/
theorem wp_abandon {Q : Unit → State → Prop} (ht : Tidy s N) (h : Fresh s typ n r b t)
    (hQ : ∀ t', Leaked s N typ n b t' → t'.vol = t.vol → t'.file n = t.file n → Q () t') :
    wp (iput r) E Q t := by
  have hout := ht.not_mem h.was
  refine wp_iput h.stable h.ref fun t' hq hrefs => hQ t' ?_ hq.vol (hq.file n h.lt)
  have hback : t'.refs = s.refs := by
    rw [hrefs, h.ref, h.refs, update_idem]
    change update s.refs r none = s.refs
    rw [← h.slot, update_eq_self]
  have hfile : ∀ m, m < ninodes → m ≠ n → t'.file m = s.file m := fun m hm hne =>
    (hq.file m hm).trans (h.file m hm hne)
  exact ⟨ht.keep hq.stable (fun m hm => hfile m (ht.lt hm) fun heq => hout (heq ▸ hm))
    fun r m k hr => ht.held r m k (by rwa [← hback]), hback, hout, h.pos, h.lt, h.was,
    by rw [hq.file n h.lt, h.typ], hfile, by rw [hq.vol]; exact h.spent,
    by rw [hq.vol]; exact h.budget, fun hc => hq.coherent (h.coherent hc)⟩

theorem wp_attach {Q : Bool → State → Prop} (ht : Tidy s N) (hr : s.refs parent = some (d, k))
    (h : Fresh s typ n r b t)
    (hno : ∀ t', Fresh s typ n r (b + 2) t' → t'.file n = t.file n → LinkRefused s d name t' →
      Q false t')
    (hyes : ∀ t', (s.file d).typ = tDir → s.find d name = none →
      Changed t d ⟨tDir, (s.file d).nlink, (s.file d).data ++ (newDirent name n).encode⟩ 2 t' →
      Q true t') :
    wp (linkChild parent name n) E Q t := by
  have hd := ht.held parent d k hr
  have hdn : d ≠ n := fun heq => ht.not_mem h.was (heq ▸ hd)
  have hfd := h.file d (ht.lt hd) hdn
  refine wp_linkChild h.stable (h.ref_old hr) (by rw [hfd]; exact ht.packed d hd)
    (by rw [hfd]; exact ht.size_lt hd)
    (fun t' hc hwhy => hno t' (h.refused hc) (hc.other h.lt hdn.symm) ?_)
    fun t' hdir hfind hc => ?_
  · rwa [LinkRefused, hfd] at hwhy
  · rw [hfd] at hdir hfind hc
    refine hyes t' hdir ?_ hc
    rw [ht.find_eq hd, if_pos hdir, hfind]

/-- Why a creation failed after its inode was allocated. -/
def Blocked (s : State) (d : ℕ) (t : State) : Prop :=
  (∀ r, s.refs r ≠ none) ∨ (s.file d).typ ≠ tDir ∨ t.vol.free = 0

theorem blocked_of_refused (ht : Tidy s N) (hd : d ∈ N) (hfind : s.find d name = none)
    (h : LinkRefused s d name t) : Blocked s d t := by
  by_cases hdir : (s.file d).typ = tDir
  · have hlt := ht.size_lt hd hdir
    rw [ht.find_eq hd, if_pos hdir] at hfind
    rcases h with h | h | h | h
    · exact absurd hdir h
    · exact absurd hfind h
    · unfold maxfile ndirect nindirect bsize direntSize at *
      omega
    · exact Or.inr (Or.inr h)
  · exact Or.inr (Or.inl hdir)

/-- With the new reference all references are to nodes of the larger tree. -/
theorem held_update (ht : Tidy s N) (hrefs : t.refs = update s.refs r (some (n, 1)))
    (r' : InodeRef) (m j : ℕ) (hr' : t.refs r' = some (m, j)) : m ∈ insert n N := by
  rw [hrefs] at hr'
  by_cases hrr : r' = r
  · subst hrr
    rw [update_self] at hr'
    obtain ⟨rfl, -⟩ := Prod.mk.inj (Option.some.inj hr')
    exact Finset.mem_insert_self _ _
  · rw [update_of_ne hrr] at hr'
    exact Finset.mem_insert_of_mem (ht.held r' m j hr')

/-- The last step of a new regular file: its link count. -/
theorem wp_finishFile (ht : Tidy s N) (hd : d ∈ N) (h : Fresh s tFile n r b t)
    (hdata : t.file n = ⟨tFile, 0, data⟩) (hdir : (s.file d).typ = tDir)
    (hname : s.find d name = none)
    (hc : Changed t d ⟨tDir, (s.file d).nlink, (s.file d).data ++ (newDirent name n).encode⟩ 2 t')
    (hQ : ∀ u, Created s N d n name ⟨tFile, 1, data⟩ r (b + 2) u → Q (some r) u) :
    wp (do
      incNlink r
      pure (some r)) E Q t' := by
  have hdn : d ≠ n := fun heq => ht.not_mem h.was (heq ▸ hd)
  have hfn : t'.file n = ⟨tFile, 0, data⟩ := (hc.other h.lt hdn.symm).trans hdata
  rw [wp_bind]
  refine wp_incNlink hc.stable (hc.refs ▸ h.ref) (by rw [hfn]; norm_num) fun u hu => ?_
  rw [hfn] at hu
  have hnew : u.file n = ⟨tFile, 1, data⟩ := hu.self h.lt
  have hfile : ∀ m, m < ninodes → m ≠ n → m ≠ d → u.file m = s.file m := fun m hm hmn hmd => by
    rw [hu.other hm hmn, hc.other hm hmd, h.file m hm hmn]
  have hparent : u.file d = ⟨tDir, (s.file d).nlink + linksUp (u.file n),
      (s.file d).data ++ (newDirent name n).encode⟩ := by
    rw [hu.other (ht.lt hd) hdn, hc.self (ht.lt hd), hnew]
    change _ = (⟨tDir, (s.file d).nlink + 0, _⟩ : FileState)
    rw [add_zero]
  have hrefs : u.refs = update s.refs r (some (n, 1)) :=
    hu.refs.trans (hc.refs.trans h.refs)
  refine hQ u ⟨ht.enter hd hdir h.pos h.lt (ht.not_mem h.was) hname hu.stable hparent
    (fun m hm hmd => hfile m (ht.lt hm) (fun heq => ht.not_mem h.was (heq ▸ hm)) hmd)
    (by rw [hnew]; exact Or.inl ⟨rfl, rfl⟩) (held_update ht hrefs), h.was, h.lt, h.slot, hrefs,
    hnew, hdir, by rw [hparent, hnew], hfile, hu.spent.trans (hc.spent.trans h.spent), ?_,
    fun hcoh => hu.coherent (hc.coherent (h.coherent hcoh))⟩
  have h1 := h.budget
  have h2 := hc.budget
  have h3 := hu.budget
  omega

theorem Fresh.inum {Q : ℕ → State → Prop} (h : Fresh s typ n r b t)
    (hQ : ∀ t', Quiet t t' → t'.refs = t.refs → Q n t') :
    wp (withInode r (peek fun ip => pure ip.inum)) E Q t := by
  refine wp_peek h.stable h.ref fun c hc => ?_
  rw [wp_pure, node_inum]
  exact ⟨hc, hQ⟩

theorem wp_createEmptyFile (ht : Tidy s N) (hr : s.refs parent = some (d, k))
    (hname : s.find d name = none)
    (hnone : (∀ n, 0 < n → n < ninodes → (s.file n).typ ≠ 0) →
      ∀ t, Quiet s t → t.refs = s.refs → Q none t)
    (hleak : ∀ n t, Leaked s N tFile n 2 t → Blocked s d t → Q none t)
    (hQ : ∀ n r t, Created s N d n name ⟨tFile, 1, []⟩ r 2 t → Q (some r) t) :
    wp (createEmptyFile parent name) E Q s := by
  have hd := ht.held parent d k hr
  simp only [createEmptyFile, wp_bind]
  refine wp_ialloc_tidy ht (by decide) (by decide) hnone
    (fun n t hl _ hbusy => hleak n t (hl.mono (by omega)) (Or.inl hbusy)) fun n r t hf hnew => ?_
  simp only [wp_bind]
  refine hf.inum fun t1 hq1 hrefs1 => ?_
  have hf1 := hf.quiet hq1 hrefs1
  have hnew1 : t1.file n = ⟨tFile, 0, []⟩ := (hq1.file n hf.lt).trans hnew
  refine wp_attach ht hr hf1 (fun t2 hf2 _ hwhy => ?_) fun t2 hdir hname hc => ?_
  · simp only [Bool.not_false, if_true, wp_bind]
    refine wp_abandon ht hf2 fun t3 hl hvol _ => hleak n t3 hl ?_
    have hblocked := blocked_of_refused ht hd hname hwhy
    rwa [Blocked, ← hvol] at hblocked
  · simp only [Bool.not_true, Bool.false_eq_true, if_false]
    exact wp_finishFile ht hd hf1 hnew1 hdir hname hc (hQ n r)

/-- Number of blocks that the data of a file may need. -/
def dataBudget (data : List UInt8) : ℕ := 2 * span 0 data.length

theorem wp_fillFile {Q : ℕ × Bool → State → Prop} (h : Fresh s tFile n r b t)
    (hnew : t.file n = ⟨tFile, 0, []⟩)
    (hno : data ≠ [] → ∀ t', Stable t' → t'.refs r = some (n, 1) → Q (n, false) t')
    (hyes : ∀ t', Fresh s tFile n r (b + dataBudget data) t' → t'.file n = ⟨tFile, 0, data⟩ →
      Q (n, true) t') :
    wp (withInode r fun ip => do
      let (n, ip') ← writeiInner ip 0 data
      pure ((ip.inum, n == data.length), ip')) E Q t := by
  have hi := h.stable.intact n h.lt
  have hnode : (t.node n).typ = tFile ∧ (t.node n).nlink = 0 ∧ t.vol.content (t.node n) = [] := by
    simpa [State.file, Vol.file] using hnew
  have hsize : (t.node n).size = 0 := by
    rw [← content_length t.vol, hnode.2.2]
    rfl
  -- a complete write is a step on the inode
  have hall : ∀ (c' : Dev) (V' : Vol) (ip' : Inode), Mounted c' [] V' →
      Written t.vol (t.node n) V' ip' 0 data data.length → Tends t.vol (t.node n) V' ip' →
      Q (n, true) (t.store r c' ip') := by
    intro c' V' ip' hc' hw htend
    have hbudget := hw.budget
    rw [hsize, Nat.sub_self, show span 0 0 = 0 from rfl, Nat.zero_add] at hbudget
    have hfn : V'.file ip' = ⟨tFile, 0, data⟩ := by
      have hcontent : V'.content ip' = data := by
        rcases hw.content with heq | ⟨h0, heq⟩
        · rw [heq, hnode.2.2, List.take_length]
          simp [overwrite]
        · rw [heq, hnode.2.2, List.length_eq_zero_iff.mp h0]
      rw [Vol.file, hcontent, hw.info]
      simp only [hnode.1, hnode.2.1]
    obtain ⟨-, hchanged⟩ := htend.changed h.stable h.ref hc' hbudget
    rw [hfn] at hchanged
    exact hyes _ (h.changed hchanged rfl) (hchanged.self h.lt)
  have hpart : ∀ (c' : Dev) (V' : Vol) (ip' : Inode) (l : ℕ), Mounted c' [] V' →
      Written t.vol (t.node n) V' ip' 0 data l → data ≠ [] → Q (n, false) (t.store r c' ip') := by
    intro c' V' ip' l hc' hw hne
    have htyp : ip'.typ ≠ 0 := by
      rw [hw.info]
      exact h.stable.typ_ne h.ref
    obtain ⟨hst, -, -⟩ := Stable.store h.stable h.ref hc' hw.frame hw.intact htyp
    exact hno hne _ hst (by rw [store_refs h.ref hw.frame, h.ref])
  refine wp_withInode h.stable h.ref fun c hc => ?_
  simp only [wp_bind, wp_pure, node_inum]
  refine wp_writeiInner_charged hc hi (by decide) (fun _ hw c' hc' => ?_)
    fun c' V' ip' l hc' hw hne _ hch => ?_
  · by_cases hnil : data = []
    · subst hnil
      exact hall c' _ _ hc' hw (Tends.refl hi)
    · have hlen : (0 == data.length) = false :=
        beq_eq_false_iff_ne.mpr fun h0 => hnil (List.length_eq_zero_iff.mp h0.symm)
      simp only [hlen]
      exact hpart c' _ _ 0 hc' hw hnil
  · by_cases hl : l = data.length
    · subst hl
      have hpos := List.length_pos_iff.mpr hne
      simp only [beq_self_eq_true]
      exact hall c' V' ip' hc' hw
        ⟨hw.intact, hw.frame, by rw [hw.info], hch.spent, fun _ => hch.back hpos⟩
    · have hlen : (l == data.length) = false := by simpa using hl
      simp only [hlen]
      exact hpart c' V' ip' l hc' hw hne

/-- `create_file` with its data; what a failed one leaves does not matter, as
its only caller stops then. -/
theorem wp_createFile (ht : Tidy s N) (hr : s.refs parent = some (d, k))
    (hname : s.find d name = none)
    (hnone : ∀ t, (∀ n, 0 < n → n < ninodes → (s.file n).typ ≠ 0) ∨ data ≠ [] ∨
        Blocked s d t ∧ s.vol.free ≤ t.vol.free + (dataBudget data + 2) → Q none t)
    (hQ : ∀ n r t, Created s N d n name ⟨tFile, 1, data⟩ r (dataBudget data + 2) t →
      Q (some r) t) :
    wp (createFile parent name data) E Q s := by
  have hd := ht.held parent d k hr
  simp only [createFile, wp_bind]
  refine wp_ialloc_tidy ht (by decide) (by decide) (fun hall t _ _ => hnone t (Or.inl hall))
    (fun n t hl _ hbusy => hnone t (Or.inr (Or.inr ⟨Or.inl hbusy, hl.budget.trans (by omega)⟩)))
    fun n r t hf hnew => ?_
  simp only [wp_bind]
  refine wp_fillFile hf hnew (fun hne t1 hst1 hr1 => ?_) fun t1 hf1 hnew1 => ?_
  · simp only [Bool.not_false, if_true, wp_bind]
    exact wp_iput hst1 hr1 fun t2 _ _ => hnone t2 (Or.inr (Or.inl hne))
  · simp only [Bool.not_true, Bool.false_eq_true, if_false, wp_bind]
    refine wp_attach ht hr hf1 (fun t2 hf2 _ hwhy => ?_) fun t2 hdir hname hc => ?_
    · simp only [Bool.not_false, if_true, wp_bind]
      refine wp_abandon ht hf2 fun t3 hl hvol _ => hnone t3 (Or.inr (Or.inr ?_))
      have hblocked := blocked_of_refused ht hd hname hwhy
      rw [Blocked, ← hvol] at hblocked
      exact ⟨hblocked, hl.budget.trans (by omega)⟩
    · simp only [Bool.not_true, Bool.false_eq_true, if_false]
      rw [Nat.zero_add] at hf1
      exact wp_finishFile ht hd hf1 hnew1 hdir hname hc (hQ n r)

theorem wp_fillDir {Q : ℕ × Bool → State → Prop} (h : Fresh s tDir n r b t)
    (hnew : t.file n = ⟨tDir, 0, []⟩)
    (hno : ∀ t', Fresh s tDir n r (b + 4) t' → t'.vol.free = 0 →
      (t'.file n).data.length % direntSize = 0 → Q (n, false) t')
    (hyes : ∀ t', Fresh s tDir n r (b + 4) t' → t'.file n = ⟨tDir, 1, emptyDir n d⟩ →
      Q (n, true) t') :
    wp (withInode r fun ip => do
      let (ok, ip') ← mkdirInit d ip
      pure ((ip.inum, ok), ip')) E Q t := by
  have hi := h.stable.intact n h.lt
  have hnode : (t.node n).typ = tDir ∧ (t.node n).nlink = 0 ∧ t.vol.content (t.node n) = [] := by
    simpa [State.file, Vol.file] using hnew
  have hmod : (t.node n).inum % 2 ^ 16 ≠ 0 := by
    rw [node_inum, inum_mod h.lt]
    exact h.pos.ne'
  refine wp_scope (b := 4) h.stable h.ref fun c hc => ?_
  simp only [wp_bind, wp_pure, node_inum]
  refine wp_mkdirInit hc hi (by decide) hnode.1 hnode.2.2 hmod
    (fun c' V' ip' hc' htend hfree hwhole hbudget =>
      ⟨V', hc', htend, hbudget, fun t' hvol hch => ?_⟩)
    fun c' V' ip' hc' htend hfile hbudget => ⟨V', hc', htend, hbudget, fun t' _ hch => ?_⟩
  · refine hno t' (h.changed hch (htend.typ.trans hnode.1)) (by rw [hvol, hfree]) ?_
    rw [hch.self h.lt]
    exact hwhole
  · rw [hfile, node_inum] at hch
    exact hyes t' (h.changed hch rfl) (hch.self h.lt)

/-- The last steps of a new directory: its link count and that of its parent. -/
theorem wp_finishDir (ht : Tidy s N) (hr : s.refs parent = some (d, k)) (h : Fresh s tDir n r b t)
    (hdata : t.file n = ⟨tDir, 1, emptyDir n d⟩) (hdir : (s.file d).typ = tDir)
    (hname : s.find d name = none)
    (hc : Changed t d ⟨tDir, (s.file d).nlink, (s.file d).data ++ (newDirent name n).encode⟩ 2 t')
    (hQ : ∀ u, Created s N d n name ⟨tDir, 2, emptyDir n d⟩ r (b + 2) u → Q (some r) u) :
    wp (do
      incNlink r
      incNlink parent
      pure (some r)) E Q t' := by
  have hd := ht.held parent d k hr
  have hdn : d ≠ n := fun heq => ht.not_mem h.was (heq ▸ hd)
  have hfn : t'.file n = ⟨tDir, 1, emptyDir n d⟩ := (hc.other h.lt hdn.symm).trans hdata
  have hlink := ht.nlink_lt hd
  rw [wp_bind]
  refine wp_incNlink hc.stable (hc.refs ▸ h.ref) (by rw [hfn]; norm_num) fun u hu => ?_
  rw [hfn] at hu
  have hfd : u.file d = ⟨tDir, (s.file d).nlink, (s.file d).data ++ (newDirent name n).encode⟩ := by
    rw [hu.other (ht.lt hd) hdn, hc.self (ht.lt hd)]
  have hur : u.refs parent = some (d, k) := by
    rw [hu.refs, hc.refs]
    exact h.ref_old hr
  rw [wp_bind]
  refine wp_incNlink hu.stable hur (by rw [hfd]; simp only; omega) fun w hw => ?_
  rw [hfd] at hw
  have hnew : w.file n = ⟨tDir, 2, emptyDir n d⟩ := by
    rw [hw.other h.lt hdn.symm, hu.self h.lt]
    rfl
  have hfile : ∀ m, m < ninodes → m ≠ n → m ≠ d → w.file m = s.file m := fun m hm hmn hmd => by
    rw [hw.other hm hmd, hu.other hm hmn, hc.other hm hmd, h.file m hm hmn]
  have hparent : w.file d = ⟨tDir, (s.file d).nlink + linksUp (w.file n),
      (s.file d).data ++ (newDirent name n).encode⟩ := by
    rw [hw.self (ht.lt hd), hnew]
    rfl
  have hrefs : w.refs = update s.refs r (some (n, 1)) :=
    hw.refs.trans (hu.refs.trans (hc.refs.trans h.refs))
  refine hQ w ⟨ht.enter hd hdir h.pos h.lt (ht.not_mem h.was) hname hw.stable hparent
    (fun m hm hmd => hfile m (ht.lt hm) (fun heq => ht.not_mem h.was (heq ▸ hm)) hmd)
    (by rw [hnew]; exact Or.inr rfl) (held_update ht hrefs), h.was, h.lt, h.slot, hrefs, hnew,
    hdir, by rw [hparent, hnew], hfile, ?_, ?_,
    fun hcoh => hw.coherent (hu.coherent (hc.coherent (h.coherent hcoh)))⟩
  · exact hw.spent.trans (hu.spent.trans (hc.spent.trans h.spent))
  · have h1 := h.budget
    have h2 := hc.budget
    have h3 := hu.budget
    have h4 := hw.budget
    omega

/-- References that come and go around a creation that failed. -/
theorem Leaked.wrap (ht : Tidy s N) (hq : Quiet s s') (h : Leaked s' N typ n b t)
    (hq' : Quiet t t') (hrefs : t'.refs = s.refs) : Leaked s N typ n b t' where
  tidy := h.tidy.quiet hq' fun r m k hr => ht.held r m k (by rwa [← hrefs])
  refs := hrefs
  outside := h.outside
  pos := h.pos
  lt := h.lt
  was := by rw [← hq.file n h.lt, h.was]
  now := by rw [hq'.file n h.lt, h.now]
  file := fun m hm hne => by rw [hq'.file m hm, h.file m hm hne, hq.file m hm]
  spent := by rw [hq'.vol, ← hq.vol]; exact h.spent
  budget := by rw [hq'.vol, ← hq.vol]; exact h.budget
  coherent := fun hc => hq'.coherent (h.coherent (hq.coherent hc))

/-- References that come and go around a node's entry into the tree. -/
theorem Entered.wrap (ht : Tidy s N) (hq : Quiet s s') (h : Entered s' N d n name t)
    (hq' : Quiet t t') (hrefs : t'.refs = update s.refs r (some (n, 1))) :
    Entered s N d n name t' := by
  have htree := h.tidy.quiet hq' (held_update ht hrefs)
  obtain ⟨es, ha⟩ := h.adds
  rw [hq.graph] at ha
  refine ⟨htree, h.fresh, h.parent, by rw [← hq.find, h.absent], ⟨es, ?_⟩, fun m hm hne => ?_⟩
  · have hlt : n < ninodes := h.tidy.lt (Finset.mem_insert_self n N)
    refine ⟨ha.dir_mem, ha.dir, ha.fresh, ha.name_fresh, ?_, fun m hm hne => ?_, ?_, ?_,
      fun m hm => ?_⟩
    · rw [hq'.graph, ha.dir']
    · rw [hq'.graph, ha.other m hm hne]
    · rw [hq'.graph]
      exact ha.new
    · rw [hq'.graph, hq'.file n hlt]
      exact ha.link_new
    · rw [hq'.graph, hq'.file m (ht.lt hm), ← hq.file m (ht.lt hm)]
      exact ha.link_old m hm
  · rw [hq'.file m (ht.lt hm), h.file m hm hne, hq.file m (ht.lt hm)]

theorem Created.wrap (ht : Tidy s N) (hq : Quiet s s') (h : Created s' N d n name f r b t)
    (hq' : Quiet t t') (hslot : s.refs r = none)
    (hrefs : t'.refs = update s.refs r (some (n, 1))) :
    Created s N d n name f r b t' := by
  have hd := ht.lt h.entered.parent
  have hfd := hq.file d hd
  refine ⟨h.entered.wrap ht hq hq' hrefs, by rw [← hq.file n h.lt, h.was], h.lt, hslot, hrefs,
    by rw [hq'.file n h.lt, h.new], by rw [← hfd, h.dir], by rw [hq'.file d hd, h.parent, hfd],
    fun m hm hmn hmd => by rw [hq'.file m hm, h.file m hm hmn hmd, hq.file m hm],
    by rw [hq'.vol, ← hq.vol]; exact h.spent, by rw [hq'.vol, ← hq.vol]; exact h.budget,
    fun hc => hq'.coherent (h.coherent (hq.coherent hc))⟩

theorem wp_mkdirChild (ht : Tidy s N) (hr : s.refs parent = some (d, k))
    (hname : s.find d name = none)
    (hnone : (∀ n, 0 < n → n < ninodes → (s.file n).typ ≠ 0) →
      ∀ t, Quiet s t → t.refs = s.refs → Q none t)
    (hleak : ∀ n t, Leaked s N tDir n 6 t → (t.file n).data.length % direntSize = 0 →
      Blocked s d t → Q none t)
    (hQ : ∀ n r t, Created s N d n name ⟨tDir, 2, emptyDir n d⟩ r 6 t → Q (some r) t) :
    wp (mkdirChild parent name) E Q s := by
  have hd := ht.held parent d k hr
  simp only [mkdirChild, wp_bind]
  refine wp_peek ht.stable hr fun c hc => ?_
  rw [wp_pure, node_inum]
  refine ⟨hc, fun s1 hq1 hrefs1 => ?_⟩
  -- what is said of `s1` below holds of `s`, which only differs in a cached inode
  have ht1 := ht.held_quiet hq1 hrefs1
  have hname1 : s1.find d name = none := by rw [hq1.find, hname]
  have hblocked1 : ∀ t, Blocked s1 d t → Blocked s d t := fun t h => by
    rwa [Blocked, hrefs1, hq1.file d (ht.lt hd)] at h
  have hleak1 : ∀ n t, Leaked s1 N tDir n 6 t → (t.file n).data.length % direntSize = 0 →
      Blocked s1 d t → Q none t := fun n t hl hwhole hb =>
    hleak n t (hl.wrap ht hq1 hl.tidy.stable.quiet (hl.refs.trans hrefs1)) hwhole (hblocked1 t hb)
  rw [← hrefs1] at hr
  refine wp_ialloc_tidy ht1 (by decide) (by decide) (fun hall t hq hrefs => ?_)
    (fun n t hl hnew hbusy => hleak1 n t (hl.mono (by omega)) (by rw [hnew]; rfl) (Or.inl hbusy))
    fun n r t hf hnew => ?_
  · refine hnone (fun n h1 h2 => ?_) t (hq1.trans hq) (hrefs.trans hrefs1)
    rw [← hq1.file n h2]
    exact hall n h1 h2
  · simp only [wp_bind]
    refine wp_fillDir hf hnew (fun t2 hf2 hfree hwhole => ?_) fun t2 hf2 hnew2 => ?_
    · simp only [Bool.not_false, if_true, wp_bind]
      refine wp_abandon ht1 hf2 fun t3 hl hvol hfile =>
        hleak1 n t3 (hl.mono (by omega)) (by rw [hfile, hwhole]) ?_
      exact Or.inr (Or.inr (by rw [hvol, hfree]))
    · simp only [Bool.not_true, Bool.false_eq_true, if_false, wp_bind]
      refine wp_attach ht1 hr hf2 (fun t3 hf3 hfile3 hwhy => ?_) fun t3 hdir hname hc => ?_
      · simp only [Bool.not_false, if_true, wp_bind]
        refine wp_abandon ht1 hf3 fun t4 hl hvol hfile4 => hleak1 n t4 hl ?_ ?_
        · rw [hfile4, hfile3, hnew2]
          exact emptyDir_length n d
        · have hblocked := blocked_of_refused ht1 hd hname1 hwhy
          rwa [Blocked, ← hvol] at hblocked
      · simp only [Bool.not_true, Bool.false_eq_true, if_false]
        refine wp_finishDir ht1 hr hf2 hnew2 hdir hname hc fun u hu => hQ n r u ?_
        exact hu.wrap ht hq1 hu.entered.tidy.stable.quiet (by rw [← hrefs1, hu.slot])
          (by rw [hu.refs, hrefs1])

end ToyOs.Fs
