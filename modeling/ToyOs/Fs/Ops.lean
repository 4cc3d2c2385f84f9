import ToyOs.Fs.CreatePath

/-!
The operations on an open file, and all operations of the file system as one
type. The rest of the kernel passes references that it holds, and it writes
to and truncates files only, never directories; under these two conditions
every operation keeps the state tidy and the only panic left is the one of
`root` when the inode cache is full.
-/
namespace ToyOs.Fs

open Bytes Prog DirTree Function

variable {s t : State} {N : Finset ℕ} {r : InodeRef} {n m k off len : ℕ} {src : List UInt8}
  {E : Panic → Prop}

/-- A write of `l` bytes of `src` at `off` has been done on file `n`. -/
structure Wrote (s : State) (n off : ℕ) (src : List UInt8) (l : ℕ) (t : State) : Prop where
  stable : Stable t
  refs : t.refs = s.refs
  written : Written s.vol (s.node n) t.vol (t.node n) off src l
  charged : src ≠ [] → off + src.length ≤ maxfile * bsize →
    Charged s.vol (s.node n) t.vol (t.node n) off src l
  skipped : src = [] ∨ maxfile * bsize < off + src.length →
    l = 0 ∧ t.vol = s.vol ∧ t.node n = s.node n
  node : ∀ m, m ≠ n → t.node m = s.node m
  file : ∀ m, m < ninodes → m ≠ n → t.file m = s.file m

/-- `_writei` under the guard of an inode; the inode that it leaves is stored
back when the guard is dropped. -/
theorem wp_wrote {c : Dev} {Q : ℕ × Inode → Dev → Prop} (hs : Stable s)
    (hr : s.refs r = some (n, k)) (hc : Mounted c [] s.vol)
    (hQ : ∀ l ip' c', Wrote s n off src l (s.store r c' ip') → Q (l, ip') c') :
    wp (writeiInner (s.node n) off src) E Q c := by
  have hi := hs.intact n (hs.live r n k hr).1
  have hstore : ∀ c' V' ip' l, Mounted c' [] V' → Written s.vol (s.node n) V' ip' off src l →
      (src ≠ [] → off + src.length ≤ maxfile * bsize →
        Charged s.vol (s.node n) V' ip' off src l) →
      (src = [] ∨ maxfile * bsize < off + src.length → l = 0 ∧ V' = s.vol ∧ ip' = s.node n) →
      Q (l, ip') c' := by
    intro c' V' ip' l hc' hw hch hskip
    have htyp : ip'.typ ≠ 0 := by
      rw [hw.info]
      exact hs.typ_ne hr
    obtain ⟨hst, hvol, hfile⟩ := Stable.store hs hr hc' hw.frame hw.intact htyp
    have hnode := store_node hs hr hc' hw.frame
    have hself : (s.store r c' ip').node n = ip' := by rw [hnode, if_pos rfl]
    refine hQ l ip' c' ⟨hst, store_refs hr hw.frame, by rwa [hvol, hself], ?_, ?_, fun m hm => ?_,
      fun m hmn hm => ?_⟩
    · rwa [hvol, hself]
    · rwa [hvol, hself]
    · rw [hnode, if_neg hm]
    · rw [hfile m hmn, if_neg hm]
  refine wp_writeiInner_charged hc hi (by decide) (fun hwhy hw c' hc' => ?_)
    fun c' V' ip' l hc' hw hne hle hch => ?_
  · refine hstore c' _ _ 0 hc' hw (fun hne hle => ?_) fun _ => ⟨rfl, rfl, rfl⟩
    rcases hwhy with h | h
    · exact absurd h hne
    · omega
  · refine hstore c' V' ip' l hc' hw (fun _ _ => hch) fun hwhy => ?_
    rcases hwhy with h | h
    · exact absurd h hne
    · omega

theorem wp_writei {Q : Option ℕ → State → Prop} (hs : Stable s) (hr : s.refs r = some (n, k))
    (hno : 2 ^ 32 ≤ off → Q none s)
    (hQ : ∀ l t, off < 2 ^ 32 → Wrote s n off src l t → Q (some l) t) :
    wp (writei r off src) E Q s := by
  unfold writei
  split
  · rename_i hoff
    rw [wp_bind]
    refine wp_withInode hs hr fun c hc => wp_wrote hs hr hc fun l ip' c' h => ?_
    rw [wp_pure]
    exact hQ l _ hoff h
  · exact hno (by omega)

theorem wp_appendi {Q : ℕ × ℕ → State → Prop} (hs : Stable s) (hr : s.refs r = some (n, k))
    (hQ : ∀ l t, Wrote s n (s.node n).size src l t →
      Q (l, if 0 < l then (s.node n).size + l else (s.node n).size) t) :
    wp (appendi r src) E Q s := by
  refine wp_withInode hs hr fun c hc => ?_
  simp only [wp_bind, wp_pure]
  exact wp_wrote hs hr hc fun l ip' c' h => hQ l _ h

/-- A read delivers the part of the content that is there. -/
theorem wp_readi {Q : Option (List UInt8) → State → Prop} (hs : Stable s)
    (hr : s.refs r = some (n, k)) (hno : 2 ^ 32 ≤ off → Q none s)
    (hQ : ∀ t, off < 2 ^ 32 → Quiet s t → t.refs = s.refs →
      Q (some (((s.file n).data.drop off).take len)) t) :
    wp (readi r off len) E Q s := by
  have hn := (hs.live r n k hr).1
  have hi := hs.intact n hn
  unfold readi
  split
  next hoff =>
    rw [wp_bind]
    refine wp_peek hs hr fun c hc => ?_
    refine wp_readiInner hc hi.owns hi.dense (by decide) fun c' hc' => ⟨hc', fun t hq hrefs => ?_⟩
    rw [wp_pure, ← read_slice]
    exact hQ t hoff hq hrefs
  next hoff => exact hno (by omega)

/-- The file `n` has been truncated. -/
structure Truncated (s : State) (n : ℕ) (t : State) : Prop where
  stable : Stable t
  refs : t.refs = s.refs
  vol : t.vol = s.vol.truncated (s.node n)
  self : t.node n = (s.node n).emptied
  node : ∀ m, m ≠ n → t.node m = s.node m
  file : ∀ m, m < ninodes → m ≠ n → t.file m = s.file m

theorem wp_trunc_store {Q : Unit → State → Prop} (hs : Stable s) (hr : s.refs r = some (n, k))
    (hQ : ∀ c', Truncated s n (s.store r c' (s.node n).emptied) →
      Q () (s.store r c' (s.node n).emptied)) : wp (trunc r) E Q s := by
  have hn := (hs.live r n k hr).1
  have hi := hs.intact n hn
  refine wp_withInode hs hr fun c hc => ?_
  simp only [wp_bind, wp_pure]
  refine wp_itrunc hc hi (by decide) fun c' hc' => ?_
  have hf := Frame.truncated s.vol (s.node n)
  obtain ⟨hst, hvol, hfile⟩ := Stable.store hs hr hc' hf hi.truncated (hs.typ_ne hr)
  have hnode := store_node hs hr hc' hf
  refine hQ c' ⟨hst, store_refs hr hf, hvol, by rw [hnode, if_pos rfl], fun m hm => ?_,
    fun m hmn hm => ?_⟩
  · rw [hnode, if_neg hm]
  · rw [hfile m hmn, if_neg hm]

theorem wp_trunc {Q : Unit → State → Prop} (hs : Stable s) (hr : s.refs r = some (n, k))
    (hQ : ∀ t, Truncated s n t → Q () t) : wp (trunc r) E Q s :=
  wp_trunc_store hs hr fun _ h => hQ _ h

theorem wp_stati {Q : Stat → State → Prop} (hs : Stable s) (hr : s.refs r = some (n, k))
    (hQ : ∀ t, Quiet s t → t.refs = s.refs →
      Q ⟨(s.file n).typ, n, (s.file n).nlink, (s.file n).data.length⟩ t) :
    wp (stati r) E Q s := by
  refine wp_peek hs hr fun c hc => ?_
  rw [wp_pure, node_inum]
  have hsize : (s.node n).size = (s.file n).data.length := (content_length _ _).symm
  rw [hsize]
  exact ⟨hc, hQ⟩

theorem wp_root {Q : InodeRef → State → Prop} (ht : Tidy s N) (hE : ¬ Room s.refs rootino → E .noRoot)
    (hQ : ∀ r t, Holding s r rootino t → Q r t) : wp root E Q s := by
  simp only [root, wp_bind, wp_expect]
  refine wp_iget_tidy ht ht.tree.root_mem (fun hno => ⟨fun r h => by simp at h, fun _ => hE hno⟩)
    fun r t h => ⟨fun r' hr' => ?_, fun h => by simp at h⟩
  obtain rfl := Option.some.inj hr'
  exact hQ r t h

theorem Tidy.refill (ht : Tidy s N) (hn : n ∈ N) (hdir : (s.file n).typ ≠ tDir) (hst : Stable t)
    (hrefs : t.refs = s.refs) (htyp : (t.file n).typ = (s.file n).typ)
    (hlink : (t.file n).nlink = (s.file n).nlink)
    (hfile : ∀ m, m < ninodes → m ≠ n → t.file m = s.file m) : Tidy t N where
  stable := hst
  tree := by
    refine ht.tree.congr (fun m hm => ?_) fun m hm => ?_
    · by_cases hmn : m = n
      · subst hmn
        simp only [State.graph, htyp, hdir, and_false, if_false]
      · simp only [State.graph, hfile m (ht.lt hm) hmn]
    · by_cases hmn : m = n
      · rw [hmn, hlink]
      · rw [hfile m (ht.lt hm) hmn]
  packed := by
    intro m hm hmdir
    by_cases hmn : m = n
    · subst hmn
      rw [htyp] at hmdir
      exact absurd hmdir hdir
    · rw [hfile m (ht.lt hm) hmn] at hmdir ⊢
      exact ht.packed m hm hmdir
  kind := by
    intro m hm
    by_cases hmn : m = n
    · subst hmn
      rw [htyp]
      exact ht.kind m hm
    · rw [hfile m (ht.lt hm) hmn]
      exact ht.kind m hm
  held := fun r m k hr => ht.held r m k (by rwa [← hrefs])

theorem Wrote.tidy {l : ℕ} (ht : Tidy s N) (hn : n ∈ N) (hdir : (s.file n).typ ≠ tDir)
    (h : Wrote s n off src l t) : Tidy t N := by
  have hinfo := h.written.info
  exact ht.refill hn hdir h.stable h.refs
    (by rw [State.file, Vol.file, hinfo]; rfl) (by rw [State.file, Vol.file, hinfo]; rfl) h.file

theorem Truncated.tidy (ht : Tidy s N) (hn : n ∈ N) (hdir : (s.file n).typ ≠ tDir)
    (h : Truncated s n t) : Tidy t N :=
  ht.refill hn hdir h.stable h.refs (by rw [State.file, Vol.file, h.self]; rfl)
    (by rw [State.file, Vol.file, h.self]; rfl) h.file

/-- The calls of the rest of the kernel. -/
inductive Op
  | namei (cwd : InodeRef) (path : List UInt8)
  | create (cwd : InodeRef) (path : List UInt8)
  | mkdir (cwd : InodeRef) (path : List UInt8)
  | root
  | idup (r : InodeRef)
  | iput (r : InodeRef)
  | inodeType (r : InodeRef)
  | stati (r : InodeRef)
  | readi (r : InodeRef) (off len : ℕ)
  | writei (r : InodeRef) (off : ℕ) (src : List UInt8)
  | appendi (r : InodeRef) (src : List UInt8)
  | trunc (r : InodeRef)

/-- What a call returns. -/
inductive Reply
  | ref (r : Option InodeRef)
  | kind (typ : InodeType)
  | stat (st : Stat)
  | bytes (data : Option (List UInt8))
  | count (l : Option ℕ)
  | appended (l off : ℕ)
  | unit

def Op.run [Access] : Op → FsM Reply
  | .namei cwd path => do pure (.ref (← Fs.namei cwd path))
  | .create cwd path => do pure (.ref (← Fs.create cwd path))
  | .mkdir cwd path => do pure (.ref (← Fs.mkdir cwd path))
  | .root => do pure (.ref (some (← Fs.root)))
  | .idup r => do pure (.ref (some (← Fs.idup r)))
  | .iput r => do
    Fs.iput r
    pure .unit
  | .inodeType r => do pure (.kind (← Fs.inodeType r))
  | .stati r => do pure (.stat (← Fs.stati r))
  | .readi r off len => do pure (.bytes (← Fs.readi r off len))
  | .writei r off src => do pure (.count (← Fs.writei r off src))
  | .appendi r src => do
    let (l, off) ← Fs.appendi r src
    pure (.appended l off)
  | .trunc r => do
    Fs.trunc r
    pure .unit

/-- What the callers promise: they hold the references that they pass, and
they do not write to directories. -/
def Op.Allowed (s : State) : Op → Prop
  | .namei cwd _ | .create cwd _ | .mkdir cwd _ => s.refs cwd ≠ none
  | .root => True
  | .idup r | .iput r | .inodeType r | .stati r | .readi r _ _ => s.refs r ≠ none
  | .writei r _ _ | .appendi r _ | .trunc r =>
    ∃ n k, s.refs r = some (n, k) ∧ (s.file n).typ ≠ tDir

theorem exists_ref (h : s.refs r ≠ none) : ∃ n k, s.refs r = some (n, k) := by
  obtain ⟨⟨n, k⟩, hr⟩ := Option.ne_none_iff_exists'.mp h
  exact ⟨n, k, hr⟩

/-- Calls that do not write to a file. -/
def Op.Gentle : Op → Prop
  | .writei _ _ _ | .appendi _ _ | .trunc _ => False
  | _ => True

/-- What an allowed call does to a tidy state. -/
inductive Effect (s : State) (N : Finset ℕ) : Op → State → Prop
  | quiet {op : Op} {t : State} (gentle : op.Gentle) (quiet : Quiet s t)
      (held : ∀ r n k, t.refs r = some (n, k) → n ∈ N) : Effect s N op t
  | leaked {op : Op} {t : State} {typ : ℤ} {n b : ℕ} (gentle : op.Gentle)
      (leaked : Leaked s N typ n b t)
      (whole : typ = tDir → (t.file n).data.length % direntSize = 0) : Effect s N op t
  | created {op : Op} {t : State} {d n b : ℕ} {name : List UInt8} {f : FileState} {r : InodeRef}
      (gentle : op.Gentle) (created : Created s N d n name f r b t)
      (whole : f.typ = tDir → f.data.length % direntSize = 0) : Effect s N op t
  | far {r : InodeRef} {off : ℕ} {src : List UInt8} (far : 2 ^ 32 ≤ off) :
      Effect s N (.writei r off src) s
  | writei {r : InodeRef} {n k off l : ℕ} {src : List UInt8} {t : State}
      (ref : s.refs r = some (n, k)) (file : (s.file n).typ ≠ tDir) (near : off < 2 ^ 32)
      (wrote : Wrote s n off src l t) : Effect s N (.writei r off src) t
  | appendi {r : InodeRef} {n k l : ℕ} {src : List UInt8} {t : State}
      (ref : s.refs r = some (n, k)) (file : (s.file n).typ ≠ tDir)
      (wrote : Wrote s n (s.node n).size src l t) : Effect s N (.appendi r src) t
  | trunc {r : InodeRef} {n k : ℕ} {t : State} (ref : s.refs r = some (n, k))
      (file : (s.file n).typ ≠ tDir) (truncated : Truncated s n t) : Effect s N (.trunc r) t

theorem wp_effect (ht : Tidy s N) {op : Op} (ha : op.Allowed s) :
    wp op.run (fun e => e = .noRoot) (fun _ t => Effect s N op t) s := by
  have hkeep : ∀ t : State, t.refs = s.refs → ∀ r n k, t.refs r = some (n, k) → n ∈ N :=
    fun t hrefs r n k hr => ht.held r n k (by rwa [← hrefs])
  have hhold : ∀ r n t, n ∈ N → Holding s r n t → ∀ r' m k, t.refs r' = some (m, k) → m ∈ N :=
    fun r n t hn h => (h.tidy ht hn).held
  cases op with
  | namei cwd path =>
    obtain ⟨d, k, hr⟩ := exists_ref ha
    simp only [Op.run, wp_bind, wp_pure]
    refine wp_namei ht hr (fun _ t hq hrefs => .quiet trivial hq (hkeep t hrefs))
      fun m r t _ hm h => .quiet trivial h.quiet (hhold r m t ?_ h)
    exact ht.resolve_mem (ht.startOf_mem (ht.held _ _ _ hr) path) hm
  | create cwd path =>
    obtain ⟨d, k, hr⟩ := exists_ref ha
    simp only [Op.run, wp_bind, wp_pure]
    refine wp_create ht hr (fun _ t hq hrefs => .quiet trivial hq (hkeep t hrefs))
      (fun _ _ _ t _ _ _ hl _ => .leaked trivial hl fun h => absurd h (by decide))
      (fun d name m r t htar hf _ h => .quiet trivial h.quiet (hhold r m t ?_ h))
      fun _ _ n _ t _ hc => .created trivial hc fun h => absurd h (by decide)
    exact ht.find_mem (ht.resolve_mem (ht.startOf_mem (ht.held _ _ _ hr) path) htar.dir) hf
  | mkdir cwd path =>
    obtain ⟨d, k, hr⟩ := exists_ref ha
    simp only [Op.run, wp_bind, wp_pure]
    exact wp_mkdir ht hr (fun _ t hq hrefs => .quiet trivial hq (hkeep t hrefs))
      (fun _ _ _ t _ _ _ hl hwhole _ => .leaked trivial hl fun _ => hwhole)
      fun _ _ n _ t _ hc => .created trivial hc fun _ => emptyDir_length _ _
  | root =>
    simp only [Op.run, wp_bind, wp_pure]
    exact wp_root ht (fun _ => rfl) fun r t h =>
      .quiet trivial h.quiet (hhold r _ t ht.tree.root_mem h)
  | idup r =>
    obtain ⟨n, k, hr⟩ := exists_ref ha
    simp only [Op.run, wp_bind, wp_pure]
    refine wp_idup ht.stable hr fun t hq hrefs => .quiet trivial hq fun r' m j hr' => ?_
    rw [hrefs] at hr'
    by_cases hrr : r' = r
    · subst hrr
      rw [update_self] at hr'
      obtain ⟨rfl, -⟩ := Prod.mk.inj (Option.some.inj hr')
      exact ht.held _ _ _ hr
    · rw [update_of_ne hrr] at hr'
      exact ht.held _ _ _ hr'
  | iput r =>
    obtain ⟨n, k, hr⟩ := exists_ref ha
    simp only [Op.run, wp_bind, wp_pure]
    refine wp_iput ht.stable hr fun t hq hrefs => .quiet trivial hq fun r' m j hr' => ?_
    rw [hrefs] at hr'
    by_cases hrr : r' = r
    · subst hrr
      rw [update_self, hr] at hr'
      obtain ⟨rfl, -⟩ := dropRef_eq_some hr'
      exact ht.held _ _ _ hr
    · rw [update_of_ne hrr] at hr'
      exact ht.held _ _ _ hr'
  | inodeType r =>
    obtain ⟨n, k, hr⟩ := exists_ref ha
    simp only [Op.run, wp_bind, wp_pure]
    exact wp_inodeType ht hr (fun _ t hq hrefs => .quiet trivial hq (hkeep t hrefs))
      fun _ t hq hrefs => .quiet trivial hq (hkeep t hrefs)
  | stati r =>
    obtain ⟨n, k, hr⟩ := exists_ref ha
    simp only [Op.run, wp_bind, wp_pure]
    exact wp_stati ht.stable hr fun t hq hrefs => .quiet trivial hq (hkeep t hrefs)
  | readi r off len =>
    obtain ⟨n, k, hr⟩ := exists_ref ha
    simp only [Op.run, wp_bind, wp_pure]
    exact wp_readi ht.stable hr (fun _ => .quiet trivial ht.stable.quiet (hkeep s rfl))
      fun t _ hq hrefs => .quiet trivial hq (hkeep t hrefs)
  | writei r off src =>
    obtain ⟨n, k, hr, hdir⟩ := ha
    simp only [Op.run, wp_bind, wp_pure]
    exact wp_writei ht.stable hr (fun hfar => .far hfar) fun l t hnear hw => .writei hr hdir hnear hw
  | appendi r src =>
    obtain ⟨n, k, hr, hdir⟩ := ha
    simp only [Op.run, wp_bind, wp_pure]
    exact wp_appendi ht.stable hr fun l t hw => .appendi hr hdir hw
  | trunc r =>
    obtain ⟨n, k, hr, hdir⟩ := ha
    simp only [Op.run, wp_bind, wp_pure]
    exact wp_trunc ht.stable hr fun t htr => .trunc hr hdir htr

theorem Effect.tidy (ht : Tidy s N) {op : Op} (h : Effect s N op t) :
    ∃ N', N ⊆ N' ∧ Tidy t N' := by
  cases h with
  | quiet _ hq hheld => exact ⟨N, Finset.Subset.refl N, ht.quiet hq hheld⟩
  | leaked _ hl => exact ⟨N, Finset.Subset.refl N, hl.tidy⟩
  | created _ hc => exact ⟨_, Finset.subset_insert _ N, hc.entered.tidy⟩
  | far => exact ⟨N, Finset.Subset.refl N, ht⟩
  | writei hr hdir _ hw => exact ⟨N, Finset.Subset.refl N, hw.tidy ht (ht.held _ _ _ hr) hdir⟩
  | appendi hr hdir hw => exact ⟨N, Finset.Subset.refl N, hw.tidy ht (ht.held _ _ _ hr) hdir⟩
  | trunc hr hdir htr => exact ⟨N, Finset.Subset.refl N, htr.tidy ht (ht.held _ _ _ hr) hdir⟩

/-- Every operation keeps a tidy state; the tree never shrinks. -/
theorem wp_op (ht : Tidy s N) {op : Op} (ha : op.Allowed s) :
    wp op.run (fun e => e = .noRoot) (fun _ t => ∃ N', N ⊆ N' ∧ Tidy t N') s :=
  wp_post (wp_effect ht ha) fun _ _ h => h.tidy ht

end ToyOs.Fs
