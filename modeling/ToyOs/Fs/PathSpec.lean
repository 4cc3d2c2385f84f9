import ToyOs.Fs.Runs

/-!
What a path stands for, in terms of the entries that the directories hold: a
component leads from a directory to the inode of its only entry under the
stored form of the name, which is cut to 14 bytes. `namei` and `nameiparent`
compute exactly this in every reachable state.
-/
namespace ToyOs.Fs

open Bytes Prog DirTree Function Option

variable {s t : State} {N : Finset ℕ} {r cwd : InodeRef} {n m d k : ℕ} {name path : List UInt8}
  {names : List (List UInt8)}

namespace State

/-- The entries of a directory under a name. -/
def entriesNamed (s : State) (d : ℕ) (name : List UInt8) : List Dirent :=
  (dirents (s.file d).data).filter fun de => de.name = direntName name

/-- From `d` the components lead to `n`, each of them by the only entry of its name. -/
inductive Follows (s : State) : ℕ → List (List UInt8) → ℕ → Prop
  | done {d : ℕ} : Follows s d [] d
  | step {d n m : ℕ} {name : List UInt8} {names : List (List UInt8)}
      (dir : (s.file d).typ = tDir) (sole : s.entriesNamed d name = [⟨n, direntName name⟩])
      (rest : Follows s n names m) : Follows s d (name :: names) m

/-- On the way from `d` a component is missing or looked up in something that
is not a directory. -/
inductive Fails (s : State) : ℕ → List (List UInt8) → Prop
  | notDir {d : ℕ} {name : List UInt8} {names : List (List UInt8)}
      (typ : (s.file d).typ ≠ tDir) : Fails s d (name :: names)
  | missing {d : ℕ} {name : List UInt8} {names : List (List UInt8)}
      (none : s.entriesNamed d name = []) : Fails s d (name :: names)
  | later {d n : ℕ} {name : List UInt8} {names : List (List UInt8)}
      (dir : (s.file d).typ = tDir) (sole : s.entriesNamed d name = [⟨n, direntName name⟩])
      (rest : Fails s n names) : Fails s d (name :: names)

end State

namespace Tidy

/-- The entries of a name are what a lookup finds. -/
theorem entriesNamed_eq (ht : Tidy s N) (hd : d ∈ N) (hdir : (s.file d).typ = tDir)
    (name : List UInt8) :
    s.entriesNamed d name = (s.find d name).toList.map fun n => ⟨n, direntName name⟩ := by
  have hgraph : s.graph d = some (entries (s.file d).data) := by rw [ht.graph_eq hd, if_pos hdir]
  have hnodup : ((dirents (s.file d).data).map Dirent.name).Nodup := by
    have h := ht.tree.names d hd _ hgraph
    rwa [entries, List.map_map] at h
  have hfind : s.find d name =
      ((dirents (s.file d).data).find? fun de => de.name = direntName name).map Dirent.inum := by
    rw [State.find, DirTree.find, hgraph, bind_some, entries, List.find?_map, map_map]
    rfl
  rw [State.entriesNamed, filter_eq_find hnodup, hfind]
  cases hde : (dirents (s.file d).data).find? fun de => de.name = direntName name with
  | none => rfl
  | some de =>
    have hname : de.name = direntName name := by simpa using List.find?_some hde
    simp [← hname]

theorem find_dir (ht : Tidy s N) (hd : d ∈ N) (h : s.find d name = some n) :
    (s.file d).typ = tDir := by
  by_contra hne
  rw [ht.find_eq hd, if_neg hne] at h
  simp at h

theorem sole_iff (ht : Tidy s N) (hd : d ∈ N) : s.find d name = some n ↔
    (s.file d).typ = tDir ∧ s.entriesNamed d name = [⟨n, direntName name⟩] := by
  constructor
  · intro h
    have hdir := ht.find_dir hd h
    refine ⟨hdir, ?_⟩
    rw [ht.entriesNamed_eq hd hdir, h]
    rfl
  · rintro ⟨hdir, h⟩
    rw [ht.entriesNamed_eq hd hdir] at h
    cases hf : s.find d name with
    | none => simp [hf] at h
    | some m => simpa [hf] using h

theorem absent_iff (ht : Tidy s N) (hd : d ∈ N) : s.find d name = none ↔
    (s.file d).typ ≠ tDir ∨ s.entriesNamed d name = [] := by
  by_cases hdir : (s.file d).typ = tDir
  · rw [ht.entriesNamed_eq hd hdir]
    cases s.find d name <;> simp [hdir]
  · rw [ht.find_eq hd, if_neg hdir]
    simp [hdir]

/-- The components lead where resolution leads. -/
theorem follows_iff (ht : Tidy s N) (hd : d ∈ N) :
    s.Follows d names n ↔ s.resolve d names = some n := by
  induction names generalizing d with
  | nil =>
    rw [resolve_nil]
    constructor
    · rintro ⟨⟩
      rfl
    · intro h
      obtain rfl := Option.some.inj h
      exact .done
  | cons name names ih =>
    rw [resolve_cons, bind_eq_some_iff]
    constructor
    · rintro (_ | ⟨hdir, hsole, hrest⟩)
      have hfind := (ht.sole_iff hd).mpr ⟨hdir, hsole⟩
      exact ⟨_, hfind, (ih (ht.find_mem hd hfind)).mp hrest⟩
    · rintro ⟨m, hfind, hrest⟩
      obtain ⟨hdir, hsole⟩ := (ht.sole_iff hd).mp hfind
      exact .step hdir hsole ((ih (ht.find_mem hd hfind)).mpr hrest)

theorem fails_iff (ht : Tidy s N) (hd : d ∈ N) : s.Fails d names ↔ s.resolve d names = none := by
  induction names generalizing d with
  | nil =>
    rw [resolve_nil]
    constructor
    · rintro ⟨⟩
    · intro h
      cases h
  | cons name names ih =>
    rw [resolve_cons, bind_eq_none_iff]
    constructor
    · intro h m hfind
      cases h with
      | notDir typ => exact absurd (ht.find_dir hd hfind) typ
      | missing none =>
        rw [(ht.absent_iff hd).mpr (Or.inr none)] at hfind
        cases hfind
      | later dir sole rest =>
        have hsole := (ht.sole_iff hd).mpr ⟨dir, sole⟩
        obtain rfl := Option.some.inj (hsole.symm.trans hfind)
        exact (ih (ht.find_mem hd hsole)).mp rest
    · intro h
      cases hfind : s.find d name with
      | none =>
        rcases (ht.absent_iff hd).mp hfind with hdir | hnone
        · exact .notDir hdir
        · exact .missing hnone
      | some m =>
        obtain ⟨hdir, hsole⟩ := (ht.sole_iff hd).mp hfind
        exact .later hdir hsole ((ih (ht.find_mem hd hfind)).mpr (h m hfind))

end Tidy

/-- A reference names an inode. -/
def State.Names (s : State) (r : InodeRef) (n : ℕ) : Prop := ∃ k, s.refs r = some (n, k)

/-- What `namei` has to return, and what it may change. -/
structure NameiSpec (s : State) (d : ℕ) (path : List UInt8) (v : Option InodeRef) (t : State) :
    Prop where
  none_iff : v = none ↔ path = [] ∨ s.Fails (startOf d path) (components path)
  some_iff : ∀ n, (∃ r, v = some r ∧ t.Names r n) ↔
    path ≠ [] ∧ s.Follows (startOf d path) (components path) n
  none_refs : v = none → t.refs = s.refs
  some_refs : ∀ r n, v = some r → t.Names r n →
    RefFits s.refs r n ∧ t.refs = addRefAt s.refs r n
  file : ∀ m, m < ninodes → t.file m = s.file m

/-- What `nameiparent` has to return, and what it may change. -/
structure ParentSpec (s : State) (d : ℕ) (path : List UInt8)
    (v : Option (InodeRef × List UInt8)) (t : State) : Prop where
  none_iff : v = none ↔ components path = [] ∨
    s.Fails (startOf d path) (components path).dropLast
  some_iff : ∀ n name, (∃ r, v = some (r, name) ∧ t.Names r n) ↔
    (components path).getLast? = some name ∧
      s.Follows (startOf d path) (components path).dropLast n
  none_refs : v = none → t.refs = s.refs
  some_refs : ∀ r name n, v = some (r, name) → t.Names r n →
    RefFits s.refs r n ∧ t.refs = addRefAt s.refs r n
  file : ∀ m, m < ninodes → t.file m = s.file m

theorem Holding.names_iff (h : Holding s r n t) : t.Names r m ↔ m = n := by
  obtain ⟨k, hk⟩ := h.ref
  constructor
  · rintro ⟨j, hj⟩
    rw [hk] at hj
    exact (Prod.mk.inj (Option.some.inj hj)).1.symm
  · rintro rfl
    exact ⟨k, hk⟩

theorem namei_spec (ht : Tidy s N) (hcwd : s.refs cwd = some (d, k)) (path : List UInt8)
    (hroom : s.RoomFor d path (components path)) :
    ∃ v t, namei cwd path s = .ok (v, t) ∧ NameiSpec s d path v t := by
  have hstart := ht.startOf_mem (ht.held _ _ _ hcwd) path
  refine exists_ok (wp_namei ht hcwd (fun hwhy t hq hrefs => ?_) fun m r t hne hm h => ?_)
  · have hno : path = [] ∨ s.Fails (startOf d path) (components path) := by
      rcases hwhy with h | h | h
      · exact Or.inl h
      · exact Or.inr ((ht.fails_iff hstart).mpr h)
      · exact absurd hroom h
    refine ⟨by simpa using hno, fun n => ?_, fun _ => hrefs, fun r n h => by simp at h, hq.file⟩
    constructor
    · rintro ⟨r, h, -⟩
      simp at h
    · rintro ⟨hne, hf⟩
      rw [ht.follows_iff hstart] at hf
      rcases hno with h | h
      · exact absurd h hne
      · rw [ht.fails_iff hstart, hf] at h
        simp at h
  · refine ⟨?_, fun n => ?_, fun h => by simp at h, fun r' n hr' hn => ?_, h.quiet.file⟩
    · constructor
      · intro hv
        simp at hv
      · rintro (hnil | hf)
        · exact absurd hnil hne
        · rw [ht.fails_iff hstart, hm] at hf
          simp at hf
    · rw [ht.follows_iff hstart, hm]
      constructor
      · rintro ⟨r', hr', hn⟩
        obtain rfl := Option.some.inj hr'
        rw [h.names_iff.mp hn]
        exact ⟨hne, rfl⟩
      · rintro ⟨-, heq⟩
        exact ⟨r, rfl, h.names_iff.mpr (Option.some.inj heq).symm⟩
    · obtain rfl := Option.some.inj hr'
      rw [h.names_iff.mp hn]
      exact ⟨h.fits, h.refs⟩

theorem nameiparent_spec (ht : Tidy s N) (hcwd : s.refs cwd = some (d, k)) (path : List UInt8)
    (hroom : s.RoomFor d path (components path).dropLast) :
    ∃ v t, nameiparent cwd path s = .ok (v, t) ∧ ParentSpec s d path v t ∧ Quiet s t ∧
      Tidy t N := by
  have hstart := ht.startOf_mem (ht.held _ _ _ hcwd) path
  refine exists_ok (wp_nameiparent ht hcwd (fun hwhy t hq hrefs => ⟨?_, hq, ht.held_quiet hq hrefs⟩)
    fun m r t name hlast hm _ h => ⟨?_, h.quiet, h.tidy ht (ht.resolve_mem hstart hm)⟩)
  · have hno : components path = [] ∨ s.Fails (startOf d path) (components path).dropLast := by
      rcases hwhy with h | h | h
      · exact Or.inl h
      · exact Or.inr ((ht.fails_iff hstart).mpr h)
      · exact absurd hroom h
    refine ⟨by simpa using hno, fun n name => ?_, fun _ => hrefs, fun r name n h => by simp at h,
      hq.file⟩
    constructor
    · rintro ⟨r, h, -⟩
      simp at h
    · rintro ⟨hlast, hf⟩
      rw [ht.follows_iff hstart] at hf
      rcases hno with h | h
      · rw [h] at hlast
        simp at hlast
      · rw [ht.fails_iff hstart, hf] at h
        simp at h
  · refine ⟨?_, fun n name' => ?_, fun h => by simp at h, fun r' name' n hr' hn => ?_,
      h.quiet.file⟩
    · constructor
      · intro hv
        simp at hv
      · rintro (hnil | hf)
        · rw [hnil] at hlast
          simp at hlast
        · rw [ht.fails_iff hstart, hm] at hf
          simp at hf
    · rw [ht.follows_iff hstart, hm, hlast]
      constructor
      · rintro ⟨r', hr', hn⟩
        obtain ⟨rfl, rfl⟩ := Prod.mk.inj (Option.some.inj hr')
        rw [h.names_iff.mp hn]
        exact ⟨rfl, rfl⟩
      · rintro ⟨hname, heq⟩
        obtain rfl := Option.some.inj hname
        exact ⟨r, rfl, h.names_iff.mpr (Option.some.inj heq).symm⟩
    · obtain ⟨rfl, rfl⟩ := Prod.mk.inj (Option.some.inj hr')
      rw [h.names_iff.mp hn]
      exact ⟨h.fits, h.refs⟩

theorem roomAlong_dropLast (h : s.RoomAlong d names) : s.RoomAlong d names.dropLast := by
  induction names generalizing d with
  | nil => trivial
  | cons name names ih =>
    cases names with
    | nil => trivial
    | cons name' rest => exact fun m hm => ⟨(h m hm).1, ih (h m hm).2⟩

/-- The last component is looked up where the others lead. -/
theorem Tidy.follows_last (ht : Tidy s N) (hd : d ∈ N) (hlast : names.getLast? = some name) :
    s.Follows d names n ↔ ∃ m, s.Follows d names.dropLast m ∧ s.find m name = some n := by
  have hsplit : names = names.dropLast ++ [name] :=
    (List.dropLast_append_getLast? name hlast).symm
  rw [ht.follows_iff hd]
  nth_rewrite 1 [hsplit]
  rw [resolve_concat, bind_eq_some_iff]
  simp only [ht.follows_iff hd]

/-- Path resolution: `namei` follows the components, `nameiparent` all of them
but the last, and a lookup of the last one in its result finds what `namei`
finds. -/
theorem path_resolution (hs : Reachable s) (hcwd : s.refs cwd = some (d, k)) (path : List UInt8)
    (hroom : s.RoomFor d path (components path)) :
    ∃ v t w u, namei cwd path s = .ok (v, t) ∧ NameiSpec s d path v t ∧
      nameiparent cwd path s = .ok (w, u) ∧ ParentSpec s d path w u ∧
      (components path ≠ [] → ∀ x, (∃ r, v = some r ∧ t.Names r x) ↔
        ∃ r name u', w = some (r, name) ∧
          withInode r (peek fun ip => dirlookup ip name) u = .ok (some x, u')) := by
  obtain ⟨N, ht⟩ := hs.tidy
  have hstart := ht.startOf_mem (ht.held _ _ _ hcwd) path
  obtain ⟨v, t, hv, hvspec⟩ := namei_spec ht hcwd path hroom
  obtain ⟨w, u, hw, hwspec, hq, hu⟩ :=
    nameiparent_spec ht hcwd path ⟨hroom.1, roomAlong_dropLast hroom.2⟩
  refine ⟨v, t, w, u, hv, hvspec, hw, hwspec, fun hne x => ?_⟩
  have hpath : path ≠ [] := fun h => hne (by rw [h]; rfl)
  obtain ⟨name, hlast⟩ : ∃ name, (components path).getLast? = some name :=
    ⟨_, List.getLast?_eq_getLast_of_ne_nil hne⟩
  have hlookup : ∀ r m, u.Names r m →
      ∃ u', withInode r (peek fun ip => dirlookup ip name) u = .ok (s.find m name, u') := by
    rintro r m ⟨j, hj⟩
    have hwp : wp (withInode r (peek fun ip => dirlookup ip name)) (fun _ => False)
        (fun v _ => v = s.find m name) u := wp_lookup hu hj fun _ _ _ => hq.find m name
    obtain ⟨_, u', hrun, rfl⟩ := exists_ok hwp
    exact ⟨u', hrun⟩
  rw [hvspec.some_iff, ht.follows_last hstart hlast]
  constructor
  · rintro ⟨-, m, hm, hx⟩
    obtain ⟨r, hr, hnames⟩ := (hwspec.some_iff m name).mpr ⟨hlast, hm⟩
    obtain ⟨u', hu'⟩ := hlookup r m hnames
    exact ⟨r, name, u', hr, hx ▸ hu'⟩
  · rintro ⟨r, name', u', hr, hrun⟩
    have hfound : ¬ s.Fails (startOf d path) (components path).dropLast := fun hf => by
      have hnone := hwspec.none_iff.mpr (Or.inr hf)
      rw [hr] at hnone
      cases hnone
    rw [ht.fails_iff hstart] at hfound
    obtain ⟨m, hm⟩ := Option.ne_none_iff_exists'.mp hfound
    rw [← ht.follows_iff hstart] at hm
    obtain ⟨r', hr', hnames⟩ := (hwspec.some_iff m name).mpr ⟨hlast, hm⟩
    obtain ⟨rfl, rfl⟩ := Prod.mk.inj (Option.some.inj (hr.symm.trans hr'))
    obtain ⟨u'', hu''⟩ := hlookup r m hnames
    rw [hrun] at hu''
    obtain ⟨hx, -⟩ := Prod.mk.inj (Except.ok.inj hu'')
    exact ⟨hpath, m, hm, hx.symm⟩

/-- With one slot in use there is room to follow one component. -/
theorem roomFor_one (hrefs : s.refs = update (fun _ => none) r (some (rootino, 1)))
    (path name : List UInt8) : s.RoomFor rootino path [name] := by
  refine ⟨fun _ => ⟨r, Or.inr ⟨1, by rw [hrefs, update_self]⟩⟩, ?_⟩
  refine fun m _ => ⟨fun r' _ => ?_, trivial⟩
  obtain ⟨x, hx, hx'⟩ := exists_slot r r'
  refine room_of_free (r := x) ?_ m
  rw [addRefAt_of_ne hx', hrefs, update_of_ne hx]

def readmePath : List UInt8 := slash :: readmeName

theorem path_resolution_readme : ∃ s cwd v t w u, Reachable s ∧ s.refs cwd = some (rootino, 1) ∧
    s.RoomFor rootino readmePath (components readmePath) ∧ namei cwd readmePath s = .ok (v, t) ∧
    v ≠ none ∧ NameiSpec s rootino readmePath v t ∧ nameiparent cwd readmePath s = .ok (w, u) ∧
    ParentSpec s rootino readmePath w u := by
  obtain ⟨s, N, r, hs, hi⟩ := exists_rooted
  have hcwd : s.refs r = some (rootino, 1) := by rw [hi.booting.refs, update_self]
  have hcomp : components readmePath = [readmeName] := by decide
  have hroom : s.RoomFor rootino readmePath (components readmePath) := by
    rw [hcomp]
    exact roomFor_one hi.booting.refs readmePath readmeName
  obtain ⟨v, t, w, u, hv, hvspec, hw, hwspec, -⟩ := path_resolution hs hcwd readmePath hroom
  refine ⟨s, r, v, t, w, u, hs, hcwd, hroom, hv, fun hnone => ?_, hvspec, hw, hwspec⟩
  have ht := hi.booting.tidy
  obtain ⟨n, -, hfind, -⟩ := hi.readme
  have hmem := ht.tree.root_mem
  have hfollows : s.Follows rootino [readmeName] n := by
    rw [ht.follows_iff hmem, resolve_cons, hfind]
    rfl
  obtain ⟨r', hr', -⟩ := (hvspec.some_iff n).mpr ⟨by decide, by rw [hcomp]; exact hfollows⟩
  rw [hnone] at hr'
  cases hr'

end ToyOs.Fs
