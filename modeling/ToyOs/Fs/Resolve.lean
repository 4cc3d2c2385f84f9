import ToyOs.Fs.Namespace

/-!
Path resolution. On the way down exactly one reference is held, to the inode
reached so far; it moves on when the next name is found and is given up when
it is not. So a resolution only looks at the name space, and all that is left
of it is one reference to its result.
-/
namespace ToyOs.Fs

open Bytes Prog DirTree Function

variable {s s' t : State} {N : Finset ℕ} {r r' cwd : InodeRef} {n m d k : ℕ} {name : List UInt8}
  {R : InodeRef → Option (ℕ × ℕ)} {E : Panic → Prop} {Q : Option InodeRef → State → Prop}

/-- A slot that takes a reference to `n`: the one for `n`, or an unused one
when there is none. -/
def RefFits (R : InodeRef → Option (ℕ × ℕ)) (r : InodeRef) (n : ℕ) : Prop :=
  R r = none ∧ (∀ r' k, R r' ≠ some (n, k)) ∨ ∃ k, R r = some (n, k)

/-- The references with one more to `n` at slot `r`. -/
def addRefAt (R : InodeRef → Option (ℕ × ℕ)) (r : InodeRef) (n : ℕ) :
    InodeRef → Option (ℕ × ℕ) :=
  Function.update R r (addRef n (R r))

/-- There is a slot for `n`. -/
def Room (R : InodeRef → Option (ℕ × ℕ)) (n : ℕ) : Prop := ∃ r, RefFits R r n

/-- An unused slot is room for any inode. -/
theorem room_of_free (h : R r = none) (n : ℕ) : Room R n := by
  by_cases hn : ∃ r' k, R r' = some (n, k)
  · obtain ⟨r', k, hr'⟩ := hn
    exact ⟨r', Or.inr ⟨k, hr'⟩⟩
  · exact ⟨r, Or.inl ⟨h, fun r' k hr' => hn ⟨r', k, hr'⟩⟩⟩

theorem RefFits.added (h : RefFits R r n) : ∃ k, addRefAt R r n r = some (n, k) := by
  rw [addRefAt, update_self]
  rcases h with ⟨h, -⟩ | ⟨k, h⟩
  · exact ⟨1, by rw [h]; rfl⟩
  · exact ⟨k + 1, by rw [h]; rfl⟩

theorem addRefAt_of_ne (h : r' ≠ r) : addRefAt R r n r' = R r' := update_of_ne h _ _

/-- Whatever a slot refers to after a reference was added is old or the new inode. -/
theorem addRefAt_some {h : RefFits R r n} (heq : addRefAt R r n r' = some (m, k)) :
    m = n ∨ ∃ j, R r' = some (m, j) := by
  by_cases hr : r' = r
  · subst hr
    obtain ⟨j, hj⟩ := h.added
    rw [hj] at heq
    exact Or.inl (Prod.mk.inj (Option.some.inj heq)).1.symm
  · rw [addRefAt_of_ne hr] at heq
    exact Or.inr ⟨k, heq⟩

theorem drop_addRef (hpos : ∀ m k, R r = some (m, k) → 0 < k) :
    dropRef (addRef n (R r)) = R r := by
  cases hr : R r with
  | none => rfl
  | some p =>
    obtain ⟨m, k⟩ := p
    obtain ⟨j, rfl⟩ := Nat.exists_eq_succ_of_ne_zero (hpos m k hr).ne'
    rfl

/-- A reference that was added is given up again. -/
theorem drop_addRefAt (hpos : ∀ m k, R r = some (m, k) → 0 < k) :
    update (addRefAt R r n) r (dropRef (addRefAt R r n r)) = R := by
  rw [addRefAt, update_self, drop_addRef hpos, update_idem,
    update_eq_self]

/-- The reference to `n` moves on to `m`. -/
theorem move_ref (hpos : ∀ r m k, R r = some (m, k) → 0 < k) (hr : RefFits R r n)
    (hr' : RefFits (addRefAt R r n) r' m) :
    RefFits R r' m ∧ update (addRefAt (addRefAt R r n) r' m) r
      (dropRef (addRefAt (addRefAt R r n) r' m r)) = addRefAt R r' m := by
  by_cases hrr : r' = r
  · subst hrr
    obtain ⟨k, hk⟩ := hr.added
    have hmn : m = n := by
      rcases hr' with ⟨h, -⟩ | ⟨j, h⟩
      · rw [hk] at h
        simp at h
      · rw [hk] at h
        exact (Prod.mk.inj (Option.some.inj h)).1.symm
    subst hmn
    refine ⟨hr, drop_addRefAt fun a b hab => ?_⟩
    rw [hk] at hab
    obtain ⟨rfl, rfl⟩ := Prod.mk.inj (Option.some.inj hab)
    rcases hr with ⟨h, -⟩ | ⟨j, h⟩
    · rw [addRefAt, update_self, h] at hk
      simp only [addRef, Option.some.injEq, Prod.mk.injEq, true_and] at hk
      omega
    · rw [addRefAt, update_self, h] at hk
      simp only [addRef, Option.some.injEq, Prod.mk.injEq, true_and] at hk
      omega
  · refine ⟨?_, ?_⟩
    · rw [RefFits, addRefAt_of_ne hrr] at hr'
      refine hr'.imp_left fun hno => ⟨hno.1, fun x j hx => ?_⟩
      by_cases hxr : x = r
      · refine hno.2 r (j + 1) ?_
        rw [← hxr, addRefAt, update_self, hx]
        rfl
      · exact hno.2 x j (by rw [addRefAt_of_ne hxr, hx])
    · rw [addRefAt_of_ne (Ne.symm hrr), addRefAt, addRefAt, addRefAt, update_of_ne hrr,
        update_self, drop_addRef (hpos r), update_comm hrr,
        update_idem, update_eq_self]

theorem refs_pos (s : State) (r : InodeRef) (m k : ℕ) (h : s.refs r = some (m, k)) : 0 < k :=
  (refs_some.mp h).1

/-- Which unused slot takes the reference to `n` does not matter to `m`. -/
theorem RefFits.room (hr : RefFits R r n) (hr' : RefFits R r' n) (h : Room (addRefAt R r n) m) :
    Room (addRefAt R r' n) m := by
  have hold : ∀ x k, R x = some (m, k) → Room (addRefAt R r' n) m := by
    intro x k hx
    by_cases hxr : x = r'
    · exact ⟨r', Or.inr ⟨k + 1, by rw [addRefAt, update_self, ← hxr, hx]; rfl⟩⟩
    · exact ⟨x, Or.inr ⟨k, by rw [addRefAt_of_ne hxr, hx]⟩⟩
  obtain ⟨x, ⟨hx, -⟩ | ⟨k, hx⟩⟩ := h
  · -- an unused slot is left, or the one that the other choice leaves
    have hxr : x ≠ r := fun heq => by
      obtain ⟨j, hj⟩ := hr.added
      rw [heq, hj] at hx
      simp at hx
    rw [addRefAt_of_ne hxr] at hx
    by_cases hxr' : x = r'
    · subst hxr'
      rcases hr with ⟨hfree, -⟩ | ⟨j, hj⟩
      · exact room_of_free (r := r) (by rw [addRefAt_of_ne (Ne.symm hxr), hfree]) m
      · rcases hr' with ⟨-, hno⟩ | ⟨i, hi⟩
        · exact absurd hj (hno r j)
        · rw [hx] at hi
          simp at hi
    · exact room_of_free (r := x) (by rw [addRefAt_of_ne hxr', hx]) m
  · rcases addRefAt_some (h := hr) hx with rfl | ⟨j, hj⟩
    · obtain ⟨j, hj⟩ := hr'.added
      exact ⟨r', Or.inr ⟨j, hj⟩⟩
    · exact hold x j hj

/-- With a reference to `n` there is a slot for `m`. -/
def State.RoomBeside (s : State) (n m : ℕ) : Prop :=
  ∀ r, RefFits s.refs r n → Room (addRefAt s.refs r n) m

/-- A slot is free whenever the resolution of the names needs a new one. -/
def State.RoomAlong (s : State) : ℕ → List (List UInt8) → Prop
  | _, [] => True
  | n, name :: names => ∀ m, s.find n name = some m → s.RoomBeside n m ∧ s.RoomAlong m names

/-- A state in which one reference more is held than in `s`. -/
structure Holding (s : State) (r : InodeRef) (n : ℕ) (t : State) : Prop where
  quiet : Quiet s t
  fits : RefFits s.refs r n
  refs : t.refs = addRefAt s.refs r n

theorem Holding.ref (h : Holding s r n t) : ∃ k, t.refs r = some (n, k) := by
  rw [h.refs]
  exact h.fits.added

/-- The reference to `cwd` is kept when another one is added. -/
theorem Holding.ref_cwd {a k : ℕ} (h : Holding s r n t) (hcwd : s.refs cwd = some (a, k)) :
    ∃ j, t.refs cwd = some (a, j) := by
  rw [h.refs]
  by_cases hr : cwd = r
  · rw [addRefAt, ← hr, update_self, hcwd]
    exact ⟨k + 1, rfl⟩
  · exact ⟨k, by rw [addRefAt_of_ne hr, hcwd]⟩

theorem Holding.tidy (ht : Tidy s N) (h : Holding s r n t) (hn : n ∈ N) : Tidy t N := by
  refine ht.quiet h.quiet fun r' m k hr => ?_
  rw [h.refs] at hr
  rcases addRefAt_some (h := h.fits) hr with rfl | ⟨j, hj⟩
  · exact hn
  · exact ht.held r' m j hj

theorem Tidy.held_quiet (ht : Tidy s N) (hq : Quiet s t) (hrefs : t.refs = s.refs) : Tidy t N :=
  ht.quiet hq fun r n k hr => ht.held r n k (by rwa [← hrefs])

theorem Quiet.holding (hq : Quiet s s') (hrefs : s'.refs = s.refs) (h : Holding s' r n t) :
    Holding s r n t :=
  ⟨hq.trans h.quiet, hrefs ▸ h.fits, by rw [h.refs, hrefs]⟩

theorem wp_iget_tidy (ht : Tidy s N) (hn : n ∈ N) (hfull : ¬ Room s.refs n → Q none s)
    (hQ : ∀ r t, Holding s r n t → Q (some r) t) :
    wp (iget n) E Q s := by
  have htyp : (s.vol.inode n).typ ≠ 0 := by
    rw [ht.stable.inode_typ (ht.lt hn)]
    exact ht.typ_ne hn
  refine wp_iget ht.stable (ht.lt hn) htyp (fun hused hother => hfull ?_)
    fun r t hq hfit hrefs => hQ r t ⟨hq, ?_, hrefs⟩
  · rintro ⟨r, ⟨h, -⟩ | ⟨k, h⟩⟩
    · exact hused r h
    · exact hother r k h
  · -- no inode has two slots afterwards, so an unused slot was taken for want of one
    refine hfit.imp_left fun hfree => ⟨hfree, fun r' k hr' => ?_⟩
    have hne : r' ≠ r := fun h => by
      rw [h, hfree] at hr'
      simp at hr'
    refine hne (hq.stable.uniq r' r n k 1 ?_ ?_)
    · rw [hrefs, update_of_ne hne, hr']
    · rw [hrefs, update_self, hfree]
      rfl

theorem wp_iput_holding {Q : Unit → State → Prop} (h : Holding s r n t)
    (hQ : ∀ t', Quiet s t' → t'.refs = s.refs → Q () t') : wp (iput r) E Q t := by
  obtain ⟨k, hk⟩ := h.ref
  refine wp_iput h.quiet.stable hk fun t' hq hrefs => hQ t' (h.quiet.trans hq) ?_
  rw [hrefs, h.refs, drop_addRefAt (refs_pos s r)]

/-- A lookup under the guard of an inode of the tree. -/
theorem wp_lookup {Q : Option ℕ → State → Prop} (ht : Tidy s N)
    (hr : s.refs r = some (n, k)) (hQ : ∀ t, Quiet s t → t.refs = s.refs → Q (s.find n name) t) :
    wp (withInode r (peek fun ip => dirlookup ip name)) E Q s := by
  have hn := ht.held r n k hr
  refine wp_peek ht.stable hr fun c hc => ?_
  have hi := ht.stable.intact n (ht.lt hn)
  refine wp_dirlookup hc hi.owns hi.dense (by decide) (fun hdir => ?_) fun c' hc' => ⟨hc', fun t hq hrefs => ?_⟩
  · have hwhole := (ht.packed n hn hdir).whole
    rwa [State.file, Vol.file, content_length] at hwhole
  · have hfin := hQ t hq hrefs
    rwa [ht.find_eq hn] at hfin

/-- The test of the type in `step` repeats the one in `dirlookup`. -/
theorem step_body (ip : Inode) (name : List UInt8) :
    (if ip.typ ≠ tDir then pure none else dirlookup ip name) = dirlookup ip name := by
  unfold dirlookup
  split <;> rfl

theorem wp_step (ht : Tidy s N) (hn : n ∈ N) (h : Holding s r n t)
    (hnone : s.find n name = none → ∀ t', Quiet s t' → t'.refs = s.refs → Q none t')
    (hfull : ∀ m, s.find n name = some m → ¬ s.RoomBeside n m →
      ∀ t', Quiet s t' → t'.refs = s.refs → Q none t')
    (hQ : ∀ m r' t', s.find n name = some m → s.RoomBeside n m → Holding s r' m t' →
      Q (some r') t') :
    wp (step r name) E Q t := by
  obtain ⟨k, hk⟩ := h.ref
  have htidy := h.tidy ht hn
  simp only [step, step_body, wp_bind]
  refine wp_lookup htidy hk fun t1 hq1 hrefs1 => ?_
  have h1 : Holding s r n t1 := ⟨h.quiet.trans hq1, h.fits, hrefs1.trans h.refs⟩
  rw [h.quiet.find]
  cases hf : s.find n name with
  | none =>
    simp only [wp_bind]
    exact wp_iput_holding h1 fun t2 hq2 hrefs2 => hnone hf t2 hq2 hrefs2
  | some m =>
    simp only [wp_bind]
    refine wp_iget_tidy (h1.tidy ht hn) (ht.find_mem hn hf) (fun hno => ?_) fun r' t2 h2 => ?_
    · simp only [wp_bind]
      refine wp_iput_holding h1 fun t2 hq2 hrefs2 => hfull m hf (fun hroom => ?_) t2 hq2 hrefs2
      rw [h1.refs] at hno
      exact hno (hroom r h.fits)
    · -- the new reference is taken before the old one is given up
      have hfits := h2.fits
      rw [h1.refs] at hfits
      obtain ⟨hfit, hmove⟩ := move_ref (refs_pos s) h.fits hfits
      have hrefs2 : t2.refs = addRefAt (addRefAt s.refs r n) r' m := by rw [h2.refs, h1.refs]
      have hkept : ∃ j, t2.refs r = some (n, j) := by
        rw [hrefs2]
        by_cases hrr : r = r'
        · subst hrr
          obtain ⟨j, hj⟩ := hfits.added
          obtain ⟨i, hi⟩ := h.fits.added
          have hmn : m = n := by
            rcases hfits with h0 | ⟨i', hi'⟩
            · rw [hi] at h0
              simp at h0
            · rw [hi] at hi'
              exact (Prod.mk.inj (Option.some.inj hi')).1.symm
          exact ⟨j, hmn ▸ hj⟩
        · rw [addRefAt_of_ne hrr]
          exact h.fits.added
      obtain ⟨j, hj⟩ := hkept
      simp only [wp_bind]
      refine wp_iput h2.quiet.stable hj fun t3 hq3 hrefs3 => ?_
      refine hQ m r' t3 hf (fun x hx => h.fits.room hx ⟨r', hfits⟩)
        ⟨(h1.quiet.trans h2.quiet).trans hq3, hfit, ?_⟩
      rw [hrefs3, hrefs2, hmove]

theorem wp_nameiLoop (ht : Tidy s N) (fuel : ℕ) :
    ∀ (n : ℕ) (r : InodeRef) (path : List UInt8) (t : State), path.length < fuel → n ∈ N →
      Holding s r n t →
      (s.resolve n (components path) = none ∨ ¬ s.RoomAlong n (components path) →
        ∀ t', Quiet s t' → t'.refs = s.refs → Q none t') →
      (∀ m r' t', s.resolve n (components path) = some m → Holding s r' m t' → Q (some r') t') →
      wp (nameiLoop fuel r path) E Q t := by
  induction fuel with
  | zero => exact fun _ _ path _ hlt => absurd hlt (Nat.not_lt_zero _)
  | succ fuel ih =>
    intro n r path t hlt hn h hnone hQ
    rw [nameiLoop]
    cases hskip : skipelem path with
    | none =>
      rw [skipelem_none hskip] at hQ
      exact hQ n r t rfl h
    | some p =>
      obtain ⟨name, next⟩ := p
      obtain ⟨hcomp, hlen⟩ := skipelem_some hskip
      rw [hcomp, resolve_cons] at hnone hQ
      simp only [wp_bind]
      refine wp_step ht hn h (fun hf => hnone (Or.inl (by rw [hf]; rfl)))
        (fun m hf hno => hnone (Or.inr fun hall => hno (hall m hf).1)) fun m r' t' hf _ h' => ?_
      rw [hf, Option.bind_some] at hnone hQ
      refine ih m r' next t' (by omega) (ht.find_mem hn hf) h' (fun hbad => hnone ?_) hQ
      rcases hbad with hbad | hbad
      · exact Or.inl hbad
      · exact Or.inr fun hall => hbad (hall m hf).2

/-- Where the resolution of a path starts. -/
def startOf (d : ℕ) (path : List UInt8) : ℕ := if path.head? = some slash then rootino else d

/-- A slot is free whenever the resolution of a path needs a new one: at the
start for the root, and for every name in `names`. -/
def State.RoomFor (s : State) (d : ℕ) (path : List UInt8) (names : List (List UInt8)) : Prop :=
  (path.head? = some slash → Room s.refs rootino) ∧ s.RoomAlong (startOf d path) names

theorem Tidy.startOf_mem (ht : Tidy s N) (hd : d ∈ N) (path : List UInt8) : startOf d path ∈ N := by
  unfold startOf
  split
  · exact ht.tree.root_mem
  · exact hd

theorem wp_startRef {path : List UInt8} (ht : Tidy s N) (hcwd : s.refs cwd = some (d, k))
    (hfull : path.head? = some slash → ¬ Room s.refs rootino → Q none s)
    (hQ : ∀ r t, (path.head? = some slash → Room s.refs rootino) →
      Holding s r (startOf d path) t → Q (some r) t) :
    wp (startRef cwd path) E Q s := by
  unfold startRef
  split
  · rename_i habs
    refine wp_iget_tidy ht ht.tree.root_mem (hfull habs) fun r t h =>
      hQ r t (fun _ => ⟨r, h.fits⟩) ?_
    rwa [startOf, if_pos habs]
  · rename_i hrel
    rw [wp_bind]
    refine wp_idup ht.stable hcwd fun t hq hrefs => hQ cwd t (fun habs => absurd habs hrel) ?_
    rw [startOf, if_neg hrel]
    exact ⟨hq, Or.inr ⟨k, hcwd⟩, by rw [hrefs, addRefAt, hcwd]; rfl⟩

/-- `namei` follows the components from the start of the path. -/
theorem wp_namei {path : List UInt8} (ht : Tidy s N) (hcwd : s.refs cwd = some (d, k))
    (hnone : path = [] ∨ s.resolve (startOf d path) (components path) = none ∨
        ¬ s.RoomFor d path (components path) →
      ∀ t, Quiet s t → t.refs = s.refs → Q none t)
    (hQ : ∀ m r t, path ≠ [] → s.resolve (startOf d path) (components path) = some m →
      Holding s r m t → Q (some r) t) :
    wp (namei cwd path) E Q s := by
  unfold namei
  split
  · rename_i hnil
    exact hnone (Or.inl hnil) s ht.stable.quiet rfl
  · rename_i hne
    rw [wp_bind]
    refine wp_startRef ht hcwd
      (fun habs hno => hnone (Or.inr (Or.inr fun h => hno (h.1 habs))) s ht.stable.quiet rfl)
      fun r t _ h => ?_
    refine wp_nameiLoop ht _ _ r path t (by omega) (ht.startOf_mem (ht.held _ _ _ hcwd) path) h
      (fun hbad => hnone (Or.inr ?_)) fun m r' t' hm h' => hQ m r' t' hne hm h'
    rcases hbad with hbad | hbad
    · exact Or.inl hbad
    · exact Or.inr fun hroom => hbad hroom.2

/-- The loop of `nameiparent` follows all components but the last. -/
theorem wp_nameiparentLoop {Q : Option (InodeRef × List UInt8) → State → Prop} (ht : Tidy s N)
    (fuel : ℕ) :
    ∀ (n : ℕ) (r : InodeRef) (path : List UInt8) (t : State), path.length < fuel → n ∈ N →
      Holding s r n t →
      (components path = [] ∨ s.resolve n (components path).dropLast = none ∨
          ¬ s.RoomAlong n (components path).dropLast →
        ∀ t', Quiet s t' → t'.refs = s.refs → Q none t') →
      (∀ m r' t' name, (components path).getLast? = some name →
        s.resolve n (components path).dropLast = some m →
        s.RoomAlong n (components path).dropLast → Holding s r' m t' → Q (some (r', name)) t') →
      wp (nameiparentLoop fuel r path) E Q t := by
  induction fuel with
  | zero => exact fun _ _ path _ hlt => absurd hlt (Nat.not_lt_zero _)
  | succ fuel ih =>
    intro n r path t hlt hn h hnone hQ
    rw [nameiparentLoop]
    cases hskip : skipelem path with
    | none =>
      simp only [wp_bind]
      exact wp_iput_holding h fun t' hq hrefs => hnone (Or.inl (skipelem_none hskip)) t' hq hrefs
    | some p =>
      obtain ⟨name, next⟩ := p
      obtain ⟨hcomp, hlen⟩ := skipelem_some hskip
      rw [hcomp] at hnone hQ
      dsimp only
      cases hnext : skipelem next with
      | none =>
        rw [skipelem_none hnext] at hQ
        exact hQ n r t name rfl rfl trivial h
      | some p' =>
        obtain ⟨name', next'⟩ := p'
        obtain ⟨hcomp', -⟩ := skipelem_some hnext
        have hne : components next ≠ [] := by simp [hcomp']
        rw [if_neg (by simp), wp_bind]
        rw [List.dropLast_cons_of_ne_nil hne, resolve_cons] at hnone hQ
        rw [List.getLast?_cons_of_ne_nil hne] at hQ
        refine wp_step ht hn h (fun hf => hnone (Or.inr (Or.inl (by rw [hf]; rfl))))
          (fun m hf hno => hnone (Or.inr (Or.inr fun hall => hno (hall m hf).1)))
          fun m r' t' hf hbeside h' => ?_
        rw [hf, Option.bind_some] at hnone hQ
        refine ih m r' next t' (by omega) (ht.find_mem hn hf) h' (fun hbad => hnone ?_)
          fun m' r'' t'' last hlast hm' hall => hQ m' r'' t'' last hlast hm' fun x hx => ?_
        rcases hbad with hbad | hbad | hbad
        · exact absurd hbad hne
        · exact Or.inr (Or.inl hbad)
        · exact Or.inr (Or.inr fun hall => hbad (hall m hf).2)
        · obtain rfl := Option.some.inj (hf.symm.trans hx)
          exact ⟨hbeside, hall⟩

/-- `nameiparent` follows all components but the last, which it returns. -/
theorem wp_nameiparent {Q : Option (InodeRef × List UInt8) → State → Prop} {path : List UInt8}
    (ht : Tidy s N) (hcwd : s.refs cwd = some (d, k))
    (hnone : components path = [] ∨
        s.resolve (startOf d path) (components path).dropLast = none ∨
        ¬ s.RoomFor d path (components path).dropLast →
      ∀ t, Quiet s t → t.refs = s.refs → Q none t)
    (hQ : ∀ m r t name, (components path).getLast? = some name →
      s.resolve (startOf d path) (components path).dropLast = some m →
      s.RoomFor d path (components path).dropLast → Holding s r m t → Q (some (r, name)) t) :
    wp (nameiparent cwd path) E Q s := by
  unfold nameiparent
  split
  · rename_i hnil
    exact hnone (Or.inl (by rw [hnil]; rfl)) s ht.stable.quiet rfl
  · rw [wp_bind]
    refine wp_startRef ht hcwd
      (fun habs hno => hnone (Or.inr (Or.inr fun h => hno (h.1 habs))) s ht.stable.quiet rfl)
      fun r t hroot h => ?_
    refine wp_nameiparentLoop ht _ _ r path t (by omega)
      (ht.startOf_mem (ht.held _ _ _ hcwd) path) h (fun hbad => hnone ?_)
      fun m r' t' name hlast hm hall => hQ m r' t' name hlast hm ⟨hroot, hall⟩
    rcases hbad with hbad | hbad | hbad
    · exact Or.inl hbad
    · exact Or.inr (Or.inl hbad)
    · exact Or.inr (Or.inr fun hroom => hbad hroom.2)

end ToyOs.Fs
