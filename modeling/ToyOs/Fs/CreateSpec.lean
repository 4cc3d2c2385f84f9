import ToyOs.Fs.PathSpec

/-!
What `create` and `mkdir` do to the name space. A call that succeeds keeps
every path that resolves and makes its own path resolve; when the name is new
the node is new too, and all paths that are gained go through its entry.
-/
namespace ToyOs.Fs

open Bytes Prog DirTree Function Finset

variable {s t : State} {N : Finset ℕ} {r cwd : InodeRef} {n m d a k b : ℕ}
  {name path : List UInt8} {f : FileState}

/-- A path stands for an inode, seen from directory `d`. -/
def State.Resolves (s : State) (d : ℕ) (path : List UInt8) (n : ℕ) : Prop :=
  path ≠ [] ∧ s.Follows (startOf d path) (components path) n

/-- With a slot available at each step `namei` resolves a path to `n`. -/
def NameiTo (s : State) (cwd : InodeRef) (d : ℕ) (path : List UInt8) (n : ℕ) : Prop :=
  s.RoomFor d path (components path) →
    ∃ r t, namei cwd path s = .ok (some r, t) ∧ t.Names r n

/-- The path of the call leads to `n`, and no path has been lost. -/
structure KeepsPaths (s : State) (cwd : InodeRef) (d : ℕ) (path : List UInt8) (n : ℕ) (t : State) :
    Prop where
  result : t.Resolves d path n
  run : NameiTo t cwd d path n
  kept : ∀ a p m, s.Reaches a → s.Resolves a p m → t.Resolves a p m

/-- The node `n` is new, and so are only the paths through its entry `name` in
directory `dir`. -/
structure Enters (s : State) (d : ℕ) (path : List UInt8) (n dir : ℕ) (name : List UInt8)
    (t : State) : Prop where
  last : (components path).getLast? = some name
  parent : s.Follows (startOf d path) (components path).dropLast dir
  fresh : ¬ s.Reaches n
  gained : ∀ a p m, s.Reaches a → t.Resolves a p m → s.Resolves a p m ∨
    ∃ front name' back, components p = front ++ name' :: back ∧
      direntName name' = direntName name ∧ s.Follows (startOf a p) front dir ∧
      t.Follows n back m

theorem Tidy.resolves_iff (ht : Tidy s N) (hd : d ∈ N) : s.Resolves d path n ↔
    path ≠ [] ∧ s.resolve (startOf d path) (components path) = some n := by
  rw [State.Resolves, ht.follows_iff (ht.startOf_mem hd path)]

theorem Tidy.nameiTo (ht : Tidy s N) (hcwd : s.refs cwd = some (d, k)) (h : s.Resolves d path n) :
    NameiTo s cwd d path n := by
  intro hroom
  obtain ⟨v, t, hrun, hspec⟩ := namei_spec ht hcwd path hroom
  obtain ⟨r, rfl, hnames⟩ := (hspec.some_iff n).mpr h
  exact ⟨r, t, hrun, hnames⟩

theorem Target.resolve_eq {d₀ : ℕ} (h : Target s d₀ path d name) :
    s.resolve (startOf d₀ path) (components path) = s.find d name := by
  have hsplit : components path = (components path).dropLast ++ [name] :=
    (List.dropLast_append_getLast? name h.last).symm
  rw [hsplit, resolve_concat, h.dir]
  rfl

theorem Target.path_ne {d₀ : ℕ} (h : Target s d₀ path d name) : path ≠ [] := fun hnil => by
  have hlast := h.last
  rw [hnil] at hlast
  simp [components] at hlast

/-- A path that leads to a node of its own makes that node the result. -/
theorem Target.resolves_iff {d₀ : ℕ} (ht : Tidy s N) (hd : d₀ ∈ N) (h : Target s d₀ path d name) :
    s.Resolves d₀ path n ↔ s.find d name = some n := by
  rw [ht.resolves_iff hd, h.resolve_eq]
  exact and_iff_right h.path_ne

namespace Entered

variable {d₀ : ℕ} (h : Entered s N d n name t) (ht : Tidy s N)
include h ht

theorem resolve_old {names : List (List UInt8)} (ha : a ∈ N)
    (hr : s.resolve a names = some m) : t.resolve a names = some m := by
  obtain ⟨es, hadds⟩ := h.adds
  exact hadds.walk_old ht.tree ha hr

/-- The path of a node that was entered leads to it. -/
theorem target (htarget : Target s d₀ path d name) (hd : d₀ ∈ N) : t.Resolves d₀ path n := by
  have hstart := ht.startOf_mem hd path
  have htarget' : Target t d₀ path d name := ⟨htarget.last, h.resolve_old ht hstart htarget.dir⟩
  rw [htarget'.resolves_iff h.tidy (mem_insert_of_mem hd), h.find_eq h.parent,
    if_pos ⟨rfl, rfl⟩]

theorem keeps (hcwd : t.refs cwd = some (d₀, k)) (hd : d₀ ∈ N) (htarget : Target s d₀ path d name) :
    KeepsPaths s cwd d₀ path n t where
  result := h.target ht htarget hd
  run := h.tidy.nameiTo hcwd (h.target ht htarget hd)
  kept := by
    intro a p m ha hr
    have hmem := ht.reaches_iff.mp ha
    rw [ht.resolves_iff hmem] at hr
    rw [h.tidy.resolves_iff (mem_insert_of_mem hmem)]
    exact ⟨hr.1, h.resolve_old ht (ht.startOf_mem hmem p) hr.2⟩

theorem enters (hd : d₀ ∈ N) (htarget : Target s d₀ path d name) :
    Enters s d₀ path n d name t where
  last := htarget.last
  parent := (ht.follows_iff (ht.startOf_mem hd path)).mpr htarget.dir
  fresh := fun hr => h.fresh (ht.reaches_iff.mp hr)
  gained := by
    intro a p m ha hr
    have hmem := ht.reaches_iff.mp ha
    have hstart := ht.startOf_mem hmem p
    rw [h.tidy.resolves_iff (mem_insert_of_mem hmem)] at hr
    obtain ⟨es, hadds⟩ := h.adds
    rcases hadds.walk_new ht.tree hstart hr.2 with hold | ⟨front, back, hsplit, hfront, hback⟩
    · left
      rw [ht.resolves_iff hmem]
      exact ⟨hr.1, hold⟩
    · right
      obtain ⟨front', rest, hcomp, rfl, hrest⟩ := List.map_eq_append_iff.mp hsplit
      obtain ⟨name', back', rfl, hname, rfl⟩ := List.map_eq_cons_iff.mp hrest
      exact ⟨front', name', back', hcomp, hname, (ht.follows_iff hstart).mpr hfront,
        (h.tidy.follows_iff (mem_insert_self n N)).mpr hback⟩

end Entered

theorem Created.ref_cwd (hc : Created s N d n name f r b t) (hcwd : s.refs cwd = some (a, k)) :
    t.refs cwd = some (a, k) := by
  have hne : cwd ≠ r := fun h => by
    have hslot := hc.slot
    rw [← h, hcwd] at hslot
    cases hslot
  rw [hc.refs, update_of_ne hne, hcwd]

theorem Created.names (hc : Created s N d n name f r b t) : t.Names r n :=
  ⟨1, by rw [hc.refs, update_self]⟩

/-- A reference that was added changes no path. -/
theorem Holding.keeps (h : Holding s r n t) (ht : Tidy s N) (hcwd : s.refs cwd = some (d, k))
    (hr : s.Resolves d path n) : KeepsPaths s cwd d path n t := by
  have hd := ht.held _ _ _ hcwd
  have hn : n ∈ N := ht.resolve_mem (ht.startOf_mem hd path) ((ht.resolves_iff hd).mp hr).2
  have ht' := h.tidy ht hn
  have hkept : ∀ a p m, a ∈ N → s.Resolves a p m → t.Resolves a p m := by
    intro a p m ha hp
    rw [ht.resolves_iff ha] at hp
    rwa [ht'.resolves_iff ha, h.quiet.resolve]
  obtain ⟨j, hj⟩ := h.ref_cwd hcwd
  exact ⟨hkept d path n hd hr, ht'.nameiTo hj (hkept d path n hd hr),
    fun a p m ha => hkept a p m (ht.reaches_iff.mp ha)⟩

theorem dirents_emptyDir (hn : n < ninodes) (h0 : 0 < n) (hd : d < ninodes) :
    dirents (emptyDir n d) = [⟨n, direntName dotName⟩, ⟨d, direntName dotdotName⟩] := by
  have hinj : Function.Injective fun de : Dirent => (⟨de.name, de.inum⟩ : Entry ℕ (List UInt8)) := by
    rintro ⟨i, x⟩ ⟨j, y⟩ h
    simp only [Entry.mk.injEq] at h
    rw [h.1, h.2]
  apply List.map_injective_iff.mpr hinj
  have h := entries_emptyDir (n := n) (by rw [inum_mod hn]; exact h0.ne') d
  rwa [inum_mod hn, inum_mod hd] at h

/-- What `create` has done when it returns the reference `r`. -/
def CreateOk (s : State) (cwd : InodeRef) (d : ℕ) (path : List UInt8) (r : InodeRef) (t : State) :
    Prop :=
  ∃ n, t.Names r n ∧ KeepsPaths s cwd d path n t ∧
    ((∀ m, ¬ s.Resolves d path m) →
      (∃ dir name, Enters s d path n dir name t) ∧ t.file n = ⟨tFile, 1, []⟩) ∧
    ∀ m, s.Resolves d path m →
      m = n ∧ (s.file n).typ = tFile ∧ ∀ j, j < ninodes → t.file j = s.file j

/-- What `mkdir` has done when it returns the reference `r`. -/
def MkdirOk (s : State) (cwd : InodeRef) (d : ℕ) (path : List UInt8) (r : InodeRef) (t : State) :
    Prop :=
  ∃ n dir name, t.Names r n ∧ KeepsPaths s cwd d path n t ∧ (∀ m, ¬ s.Resolves d path m) ∧
    Enters s d path n dir name t ∧ (t.file n).typ = tDir ∧
    dirents (t.file n).data = [⟨n, direntName dotName⟩, ⟨dir, direntName dotdotName⟩]

/-- A call that succeeds extends the name space by one name at most. -/
theorem creation_extends (hs : Reachable s) (hcwd : s.refs cwd = some (d, k)) (path : List UInt8) :
    (∀ r t, create cwd path s = .ok (some r, t) → CreateOk s cwd d path r t) ∧
      ∀ r t, mkdir cwd path s = .ok (some r, t) → MkdirOk s cwd d path r t := by
  obtain ⟨N, ht⟩ := hs.tidy
  have hd := ht.held _ _ _ hcwd
  constructor
  · intro r t hrun
    have hwp : wp (create cwd path) (fun _ => True)
        (fun v t => ∀ r, v = some r → CreateOk s cwd d path r t) s := by
      refine wp_create ht hcwd (fun _ _ _ _ r hr => by cases hr) (fun _ _ _ _ _ _ _ _ _ r hr => by cases hr)
        (fun dir name m r t htarget hfind hfile h r' hr' => ?_)
        fun dir name n r t htarget hc r' hr' => ?_
      · obtain rfl := Option.some.inj hr'
        have hres := (htarget.resolves_iff ht hd).mpr hfind
        refine ⟨m, h.names_iff.mpr rfl, h.keeps ht hcwd hres, fun hno => absurd hres (hno m),
          fun j hj => ⟨?_, hfile, h.quiet.file⟩⟩
        rw [htarget.resolves_iff ht hd, hfind] at hj
        exact (Option.some.inj hj).symm
      · obtain rfl := Option.some.inj hr'
        refine ⟨n, hc.names, hc.entered.keeps ht (hc.ref_cwd hcwd) hd htarget,
          fun _ => ⟨⟨dir, name, hc.entered.enters ht hd htarget⟩, hc.new⟩, fun m hm => ?_⟩
        rw [htarget.resolves_iff ht hd, hc.entered.absent] at hm
        cases hm
    exact wp_ok hwp hrun r rfl
  · intro r t hrun
    have hwp : wp (mkdir cwd path) (fun _ => True)
        (fun v t => ∀ r, v = some r → MkdirOk s cwd d path r t) s := by
      refine wp_mkdir ht hcwd (fun _ _ _ _ r hr => by cases hr)
        (fun _ _ _ _ _ _ _ _ _ _ r hr => by cases hr)
        fun dir name n r t htarget hc r' hr' => ?_
      obtain rfl := Option.some.inj hr'
      refine ⟨n, dir, name, hc.names, hc.entered.keeps ht (hc.ref_cwd hcwd) hd htarget,
        fun m hm => ?_, hc.entered.enters ht hd htarget, by rw [hc.new], ?_⟩
      · rw [htarget.resolves_iff ht hd, hc.entered.absent] at hm
        cases hm
      · rw [hc.new]
        exact dirents_emptyDir hc.lt (hc.entered.tidy.pos (Finset.mem_insert_self n N))
          (ht.lt hc.entered.parent)
    exact wp_ok hwp hrun r rfl

/-- A path of one component stands for that name in the directory itself. -/
theorem Target.of_one (hone : components path = [name]) (hrel : path.head? ≠ some slash)
    {dir : ℕ} {name' : List UInt8} (h : Target s d path dir name') : dir = d ∧ name' = name := by
  have hlast := h.last
  have hdir := h.dir
  rw [hone] at hlast hdir
  rw [startOf, if_neg hrel] at hdir
  exact ⟨(Option.some.inj hdir).symm, (Option.some.inj hlast).symm⟩

/-- With an inode, a slot and blocks to spare a new name is created. -/
theorem wp_create_fresh {E : Panic → Prop} {Q : Option InodeRef → State → Prop} (ht : Tidy s N)
    (hcwd : s.refs cwd = some (d, k)) (hone : components path = [name])
    (hrel : path.head? ≠ some slash) (hdir : (s.file d).typ = tDir)
    (habsent : s.find d name = none)
    (hinode : ¬ ∀ n, 0 < n → n < ninodes → (s.file n).typ ≠ 0) (hslot : ∃ x, s.refs x = none)
    (hfree : 2 < s.vol.free)
    (hQ : ∀ n r t, Created s N d n name ⟨tFile, 1, []⟩ r 2 t → Q (some r) t) :
    wp (create cwd path) E Q s := by
  obtain ⟨x, hx⟩ := hslot
  refine wp_create ht hcwd (fun hwhy => ?_) (fun dir name' n t htarget _ _ hl hstuck => ?_)
    (fun dir name' m r t htarget hfind => ?_) fun dir name' n r t htarget hc => ?_
  · cases hwhy with
    | noParent h =>
      rw [hone, startOf, if_neg hrel] at h
      rcases h with h | h
      · cases h
      · cases h
    | noSlot h =>
      rw [hone] at h
      exact absurd ⟨fun hc => absurd hc hrel, trivial⟩ h
    | taken target found =>
      obtain ⟨rfl, rfl⟩ := target.of_one hone hrel
      rw [habsent] at found
      cases found
    | noInode _ _ all => exact absurd all hinode
  · obtain ⟨rfl, rfl⟩ := htarget.of_one hone hrel
    rcases hstuck with ⟨r, hfits, hfull⟩ | hnd | h0
    · refine absurd ?_ (hfull x)
      rcases hfits with ⟨-, hno⟩ | ⟨j, hj⟩
      · exact absurd hcwd (hno cwd k)
      · have hne : x ≠ r := fun h => by
          rw [h, hj] at hx
          cases hx
        rw [addRefAt_of_ne hne, hx]
    · exact absurd hdir hnd
    · have hbudget := hl.budget
      omega
  · obtain ⟨rfl, rfl⟩ := htarget.of_one hone hrel
    rw [habsent] at hfind
    cases hfind
  · obtain ⟨rfl, rfl⟩ := htarget.of_one hone hrel
    exact hQ n r t hc

theorem creation_extends_new : ∃ s cwd r t, Reachable s ∧ s.refs cwd = some (rootino, 1) ∧
    create cwd [0x61] s = .ok (some r, t) ∧ CreateOk s cwd rootino [0x61] r t := by
  obtain ⟨s, N, cwd, hs, hi⟩ := exists_rooted
  have hcwd : s.refs cwd = some (rootino, 1) := by rw [hi.booting.refs, update_self]
  have hfree := hi.booting.free emptyImage_empty
  have hblocks : fssize - datastart = 1984 := by decide
  obtain ⟨x, hx, -⟩ := exists_slot cwd cwd
  have hone : components [0x61] = [[0x61]] := by decide
  have hwp : wp (create cwd [0x61]) (fun _ => False) (fun v _ => v ≠ none) s :=
    wp_create_fresh hi.booting.tidy hcwd hone (by decide)
      hi.booting.tidy.root_typ (hi.absent _ (by decide)) (hi.booting.exists_free (by decide))
      ⟨x, by rw [hi.booting.refs, update_of_ne hx]⟩ (by omega) fun n r t _ h => by cases h
  obtain ⟨v, t, hrun, hv⟩ := exists_ok hwp
  obtain ⟨r, rfl⟩ := Option.ne_none_iff_exists'.mp hv
  exact ⟨s, cwd, r, t, hs, hcwd, hrun, (creation_extends hs hcwd [0x61]).1 r t hrun⟩

end ToyOs.Fs
