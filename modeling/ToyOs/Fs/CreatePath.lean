import ToyOs.Fs.Create

/-!
`create` and `mkdir` on paths. The parent is resolved and held while the name
is looked up and the new node is made; its reference is given up at the end.
A call either changes nothing but what is cached, or leaves an inode outside
of the tree, or enters a node into the tree.
-/
namespace ToyOs.Fs

open Bytes Prog DirTree Function

variable {s t u : State} {N : Finset ℕ} {r parent cwd : InodeRef} {n m d d₀ k b : ℕ} {typ : ℤ}
  {name path : List UInt8} {f : FileState} {E : Panic → Prop} {Q : Option InodeRef → State → Prop}

/-- The directory and the name in it that a path stands for. -/
structure Target (s : State) (d₀ : ℕ) (path : List UInt8) (d : ℕ) (name : List UInt8) : Prop where
  last : (components path).getLast? = some name
  dir : s.resolve (startOf d₀ path) (components path).dropLast = some d

/-- Why a call returned without allocating an inode. -/
inductive NotMade (s : State) (d₀ : ℕ) (path : List UInt8) : Prop
  | noParent (h : components path = [] ∨
      s.resolve (startOf d₀ path) (components path).dropLast = none)
  | noSlot (h : ¬ s.RoomFor d₀ path (components path).dropLast)
  | taken {d m : ℕ} {name : List UInt8} (target : Target s d₀ path d name)
      (found : s.find d name = some m)
  | noInode {d : ℕ} {name : List UInt8} (target : Target s d₀ path d name)
      (absent : s.find d name = none) (all : ∀ n, 0 < n → n < ninodes → (s.file n).typ ≠ 0)

/-- No slot is free beside the one of directory `d`. -/
def NoSlotBeside (s : State) (d : ℕ) : Prop :=
  ∃ r, RefFits s.refs r d ∧ ∀ r', addRefAt s.refs r d r' ≠ none

/-- Why a call returned nothing after its inode was allocated. -/
def Stuck (s : State) (d : ℕ) (t : State) : Prop :=
  NoSlotBeside s d ∨ (s.file d).typ ≠ tDir ∨ t.vol.free = 0

theorem Holding.stuck (h : Holding s parent d t) (hd : d < ninodes) (hb : Blocked t d u) :
    Stuck s d u := by
  rcases hb with hb | hb | hb
  · exact Or.inl ⟨parent, h.fits, fun r' => by rw [← h.refs]; exact hb r'⟩
  · rw [h.quiet.file d hd] at hb
    exact Or.inr (Or.inl hb)
  · exact Or.inr (Or.inr hb)

/-- The reference to the parent is given up after a creation that failed. -/
theorem wp_release_leaked {Q : Unit → State → Prop} (ht : Tidy s N) (h : Holding s parent d t)
    (hl : Leaked t N typ n b u)
    (hQ : ∀ u', Leaked s N typ n b u' → u'.vol = u.vol → u'.file n = u.file n → Q () u') :
    wp (iput parent) E Q u := by
  obtain ⟨k, hk⟩ := h.ref
  refine wp_iput hl.tidy.stable (hl.refs ▸ hk) fun u' hq hrefs =>
    hQ u' ?_ hq.vol (hq.file n hl.lt)
  refine hl.wrap ht h.quiet hq ?_
  rw [hrefs, hl.refs, h.refs, drop_addRefAt (refs_pos s parent)]

/-- The reference to the parent is given up after a creation. -/
theorem wp_release_created {Q : Unit → State → Prop} (ht : Tidy s N) (h : Holding s parent d t)
    (hc : Created t N d n name f r b u)
    (hQ : ∀ u', Created s N d n name f r b u' → Q () u') : wp (iput parent) E Q u := by
  obtain ⟨k, hk⟩ := h.ref
  have hne : r ≠ parent := by
    rintro rfl
    rw [hc.slot] at hk
    simp at hk
  have hslot : s.refs r = none := by
    rw [← hc.slot, h.refs, addRefAt_of_ne hne]
  have huk : u.refs parent = some (d, k) := by
    rw [hc.refs, update_of_ne hne.symm, hk]
  refine wp_iput hc.entered.tidy.stable huk fun u' hq hrefs => hQ u' ?_
  refine hc.wrap ht h.quiet hq hslot ?_
  have hdrop : dropRef (t.refs parent) = s.refs parent := by
    rw [h.refs, addRefAt, update_self, drop_addRef (refs_pos s parent)]
  rw [hrefs, huk, ← hk, hdrop, hc.refs, h.refs, addRefAt, update_comm hne,
    update_idem, update_eq_self]

theorem wp_inodeType {Q : InodeType → State → Prop} (ht : Tidy s N) (hr : s.refs r = some (n, k))
    (hfile : (s.file n).typ = tFile → ∀ t, Quiet s t → t.refs = s.refs → Q .file t)
    (hdir : (s.file n).typ = tDir → ∀ t, Quiet s t → t.refs = s.refs → Q .dir t) :
    wp (inodeType r) E Q s := by
  have hn := ht.held r n k hr
  refine wp_peek ht.stable hr fun c hc => ?_
  rcases (ht.kind n hn).2 with htyp | htyp
  · have hnode : (s.node n).typ = tDir := htyp
    rw [hnode, if_neg (by decide), if_pos rfl]
    exact ⟨hc, hdir htyp⟩
  · have hnode : (s.node n).typ = tFile := htyp
    rw [hnode, if_pos rfl]
    exact ⟨hc, hfile htyp⟩

theorem wp_create (ht : Tidy s N) (hcwd : s.refs cwd = some (d₀, k))
    (hsame : NotMade s d₀ path → ∀ t, Quiet s t → t.refs = s.refs → Q none t)
    (hleak : ∀ d name n t, Target s d₀ path d name →
      s.RoomFor d₀ path (components path).dropLast → s.find d name = none →
      Leaked s N tFile n 2 t → Stuck s d t → Q none t)
    (hold : ∀ d name m r t, Target s d₀ path d name → s.find d name = some m →
      (s.file m).typ = tFile → Holding s r m t → Q (some r) t)
    (hnew : ∀ d name n r t, Target s d₀ path d name →
      Created s N d n name ⟨tFile, 1, []⟩ r 2 t → Q (some r) t) :
    wp (create cwd path) E Q s := by
  simp only [create, wp_bind]
  refine wp_nameiparent ht hcwd (fun hwhy t hq hrefs => hsame ?_ t hq hrefs)
    fun d parent t name hlast hdir hroom h => ?_
  · rcases hwhy with h | h | h
    · exact .noParent (Or.inl h)
    · exact .noParent (Or.inr h)
    · exact .noSlot h
  have htarget : Target s d₀ path d name := ⟨hlast, hdir⟩
  have hd := ht.resolve_mem (ht.startOf_mem (ht.held _ _ _ hcwd) path) hdir
  obtain ⟨j, hj⟩ := h.ref
  simp only [wp_bind]
  refine wp_lookup (h.tidy ht hd) hj fun t1 hq1 hrefs1 => ?_
  have h1 : Holding s parent d t1 := ⟨h.quiet.trans hq1, h.fits, hrefs1.trans h.refs⟩
  have ht1 := h1.tidy ht hd
  obtain ⟨j1, hj1⟩ := h1.ref
  rw [h.quiet.find]
  cases hf : s.find d name with
  | some m =>
    have hm := ht.find_mem hd hf
    simp only [wp_bind]
    refine wp_iput_holding h1 fun t2 hq2 hrefs2 => ?_
    have ht2 := ht.held_quiet hq2 hrefs2
    refine wp_iget_tidy ht2 hm (fun _ => hsame (.taken htarget hf) t2 hq2 hrefs2)
      fun r t3 h3 => ?_
    have h3 := hq2.holding hrefs2 h3
    obtain ⟨j3, hj3⟩ := h3.ref
    simp only [wp_bind]
    refine wp_inodeType (h3.tidy ht hm) hj3 (fun htyp t4 hq4 hrefs4 => ?_)
      fun htyp t4 hq4 hrefs4 => ?_
    · rw [if_pos rfl]
      rw [h3.quiet.file m (ht.lt hm)] at htyp
      exact hold d name m r t4 htarget hf htyp
        ⟨h3.quiet.trans hq4, h3.fits, hrefs4.trans h3.refs⟩
    · rw [if_neg (by decide), wp_bind]
      exact wp_iput_holding ⟨h3.quiet.trans hq4, h3.fits, hrefs4.trans h3.refs⟩
        fun t5 hq5 hrefs5 => hsame (.taken htarget hf) t5 hq5 hrefs5
  | none =>
    have hf1 : t1.find d name = none := by rw [h1.quiet.find, hf]
    simp only [wp_bind]
    refine wp_createEmptyFile ht1 hj1 hf1 (fun hall t2 hq2 hrefs2 => ?_)
      (fun n t2 hl hb => ?_) fun n r t2 hc => ?_
    · refine wp_iput_holding ⟨h1.quiet.trans hq2, h1.fits, hrefs2.trans h1.refs⟩
        fun t3 hq3 hrefs3 => hsame (.noInode htarget hf fun n hn0 hn => ?_) t3 hq3 hrefs3
      rw [← h1.quiet.file n hn]
      exact hall n hn0 hn
    · refine wp_release_leaked ht h1 hl fun t3 hl3 hvol _ => hleak d name n t3 htarget hroom hf hl3 ?_
      have hstuck := h1.stuck (ht.lt hd) hb
      rwa [Stuck, ← hvol] at hstuck
    · exact wp_release_created ht h1 hc fun t3 hc3 => hnew d name n r t3 htarget hc3

theorem wp_mkdir (ht : Tidy s N) (hcwd : s.refs cwd = some (d₀, k))
    (hsame : NotMade s d₀ path → ∀ t, Quiet s t → t.refs = s.refs → Q none t)
    (hleak : ∀ d name n t, Target s d₀ path d name →
      s.RoomFor d₀ path (components path).dropLast → s.find d name = none →
      Leaked s N tDir n 6 t → (t.file n).data.length % direntSize = 0 → Stuck s d t → Q none t)
    (hnew : ∀ d name n r t, Target s d₀ path d name →
      Created s N d n name ⟨tDir, 2, emptyDir n d⟩ r 6 t → Q (some r) t) :
    wp (mkdir cwd path) E Q s := by
  simp only [mkdir, wp_bind]
  refine wp_nameiparent ht hcwd (fun hwhy t hq hrefs => hsame ?_ t hq hrefs)
    fun d parent t name hlast hdir hroom h => ?_
  · rcases hwhy with h | h | h
    · exact .noParent (Or.inl h)
    · exact .noParent (Or.inr h)
    · exact .noSlot h
  have htarget : Target s d₀ path d name := ⟨hlast, hdir⟩
  have hd := ht.resolve_mem (ht.startOf_mem (ht.held _ _ _ hcwd) path) hdir
  obtain ⟨j, hj⟩ := h.ref
  simp only [wp_bind]
  refine wp_lookup (h.tidy ht hd) hj fun t1 hq1 hrefs1 => ?_
  have h1 : Holding s parent d t1 := ⟨h.quiet.trans hq1, h.fits, hrefs1.trans h.refs⟩
  have ht1 := h1.tidy ht hd
  obtain ⟨j1, hj1⟩ := h1.ref
  rw [h.quiet.find]
  cases hf : s.find d name with
  | some m =>
    simp only [Option.isSome_some, if_true, wp_bind]
    exact wp_iput_holding h1 fun t2 hq2 hrefs2 => hsame (.taken htarget hf) t2 hq2 hrefs2
  | none =>
    have hf1 : t1.find d name = none := by rw [h1.quiet.find, hf]
    simp only [Option.isSome_none, Bool.false_eq_true, if_false, wp_bind]
    refine wp_mkdirChild ht1 hj1 hf1 (fun hall t2 hq2 hrefs2 => ?_)
      (fun n t2 hl hwhole hb => ?_) fun n r t2 hc => ?_
    · refine wp_iput_holding ⟨h1.quiet.trans hq2, h1.fits, hrefs2.trans h1.refs⟩
        fun t3 hq3 hrefs3 => hsame (.noInode htarget hf fun n hn0 hn => ?_) t3 hq3 hrefs3
      rw [← h1.quiet.file n hn]
      exact hall n hn0 hn
    · refine wp_release_leaked ht h1 hl fun t3 hl3 hvol hfile =>
        hleak d name n t3 htarget hroom hf hl3 (by rw [hfile, hwhole]) ?_
      have hstuck := h1.stuck (ht.lt hd) hb
      rwa [Stuck, ← hvol] at hstuck
    · exact wp_release_created ht h1 hc fun t3 hc3 => hnew d name n r t3 htarget hc3

end ToyOs.Fs
