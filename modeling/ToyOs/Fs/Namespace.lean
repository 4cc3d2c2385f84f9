import ToyOs.Lib.DirWalk
import ToyOs.Fs.Directory
import ToyOs.Fs.Namei
import Mathlib.Data.List.TakeWhile
import Mathlib.Data.List.Find

/-!
The name space of a file system state. The directories are a graph whose
entries carry the 14 bytes that are stored; a path is its list of components.
A state is tidy when the inodes that can be reached form a directory tree,
their directories consist of whole entries, and references are only held to
inodes of the tree.
-/
namespace ToyOs.Fs

open Bytes Prog DirTree List

/-- The parts of a path between the slashes that are not empty. -/
def components (path : List UInt8) : List (List UInt8) :=
  (path.splitOn slash).filter fun part => part ≠ []

theorem components_slash (path : List UInt8) : components (slash :: path) = components path := by
  have hno : ∀ x ∈ ([] : List UInt8), (fun b => b == slash) x = false := by simp
  have h := splitOnP_append_cons_of_forall_mem hno slash (beq_self_eq_true slash) path
  rw [nil_append] at h
  rw [components, List.splitOn, h, filter_cons_of_neg (by simp)]
  rfl

theorem components_dropWhile (path : List UInt8) :
    components (path.dropWhile (· == slash)) = components path := by
  induction path with
  | nil => rfl
  | cons b path ih =>
    by_cases hb : b = slash
    · rw [dropWhile_cons_of_pos (by simpa using hb), ih, hb, components_slash]
    · rw [dropWhile_cons_of_neg (by simpa using hb)]

/-- Without a next component there is none left. -/
theorem skipelem_none {path : List UInt8} (h : skipelem path = none) : components path = [] := by
  rw [← components_dropWhile]
  unfold skipelem at h
  split at h
  · rename_i heq
    rw [heq]
    rfl
  · simp at h

theorem skipelem_some {path name next : List UInt8} (h : skipelem path = some (name, next)) :
    components path = name :: components next ∧ next.length < path.length := by
  rw [← components_dropWhile path]
  unfold skipelem at h
  split at h
  · simp at h
  · rename_i b bs heq
    obtain ⟨hname, hnext⟩ := Prod.mk.inj (Option.some.inj h)
    have hb : b ≠ slash := by
      have hhead := List.head?_dropWhile_not (p := (· == slash)) path
      rw [heq] at hhead
      simpa using hhead
    have hnil : name ≠ [] := by
      rw [← hname, takeWhile_cons_of_pos (by simpa using hb)]
      simp
    have hplain : ∀ x ∈ name, (x == slash) = false := by
      intro x hx
      rw [← hname] at hx
      simpa using mem_takeWhile_imp hx
    have hsplit : b :: bs = name ++ next := by
      rw [← hname, ← hnext]
      exact takeWhile_append_dropWhile.symm
    have hlen : (b :: bs).length ≤ path.length := by
      rw [← heq]
      exact (dropWhile_sublist _).length_le
    refine ⟨?_, ?_⟩
    · rw [heq, hsplit]
      cases next with
      | nil =>
        rw [append_nil, components, List.splitOn, splitOnP_eq_singleton hplain,
          filter_cons_of_pos (by simpa using hnil)]
        rfl
      | cons x rest =>
        have hx : x = slash := by
          have hhead := List.head?_dropWhile_not (p := (· != slash)) (b :: bs)
          rw [hnext] at hhead
          simpa using hhead
        subst hx
        rw [components_slash, components, List.splitOn,
          splitOnP_append_cons_of_forall_mem hplain _ (by simp),
          filter_cons_of_pos (by simpa using hnil)]
        rfl
    · have hpos := length_pos_iff.mpr hnil
      have hsum := congrArg List.length hsplit
      rw [length_append] at hsum
      omega

/-- The entries of a directory by the name that is stored. -/
def entries (data : List UInt8) : List (Entry ℕ (List UInt8)) :=
  (dirents data).map fun de => ⟨de.name, de.inum⟩

/-- Among whole entries in use `dirlookup` finds the one with the stored name. -/
theorem dirFind_eq {data : List UInt8} (h : Packed data) (name : List UInt8) :
    dirFind data name = ((entries data).find? fun e => e.name = direntName name).map Entry.node := by
  rw [dirFind, entries, List.find?_map, Option.map_map]
  have hcongr : (dirents data).find? (fun de => decide (de.inum ≠ 0 ∧ nameEq de.name name)) =
      (dirents data).find? ((fun e : Entry ℕ (List UInt8) => decide (e.name = direntName name)) ∘
        fun de => ⟨de.name, de.inum⟩) := by
    apply List.find?_congr
    intro de hde
    simp [nameEq, h.used de hde]
  rw [hcongr]
  rfl

namespace State

/-- The directories and their entries. -/
def graph (s : State) : DirTree.Graph ℕ (List UInt8) := fun n =>
  if n < ninodes ∧ (s.file n).typ = tDir then some (entries (s.file n).data) else none

/-- The inode that a name stands for in a directory. -/
def find (s : State) (d : ℕ) (name : List UInt8) : Option ℕ :=
  DirTree.find s.graph d (direntName name)

/-- The inode that a list of components leads to. -/
def resolve (s : State) (d : ℕ) (names : List (List UInt8)) : Option ℕ :=
  walk s.graph d (names.map direntName)

/-- The inodes that can be reached from the root. -/
def Reaches (s : State) (n : ℕ) : Prop := Reach s.graph rootino n

end State

/-- The tree of a state: `N` is the set of the inodes in it. -/
structure Tidy (s : State) (N : Finset ℕ) : Prop where
  stable : Stable s
  tree : DirTree.Tree s.graph rootino (direntName dotName) (direntName dotdotName) N
    fun n => (s.file n).nlink
  packed : ∀ n ∈ N, (s.file n).typ = tDir → Packed (s.file n).data
  kind : ∀ n ∈ N, n < ninodes ∧ ((s.file n).typ = tDir ∨ (s.file n).typ = tFile)
  held : ∀ r n k, s.refs r = some (n, k) → n ∈ N

variable {s s' : State} {N : Finset ℕ} {n d : ℕ} {name : List UInt8}

theorem resolve_nil (s : State) (d : ℕ) : s.resolve d [] = some d := rfl

theorem resolve_cons (s : State) (d : ℕ) (name : List UInt8) (names : List (List UInt8)) :
    s.resolve d (name :: names) = (s.find d name).bind fun n => s.resolve n names := rfl

theorem resolve_concat (s : State) (d : ℕ) (names : List (List UInt8)) (name : List UInt8) :
    s.resolve d (names ++ [name]) = (s.resolve d names).bind fun n => s.find n name := by
  rw [State.resolve, map_append, map_singleton, walk_concat]
  rfl

namespace Tidy

theorem lt (ht : Tidy s N) (hn : n ∈ N) : n < ninodes := (ht.kind n hn).1

theorem typ_ne (ht : Tidy s N) (hn : n ∈ N) : (s.file n).typ ≠ 0 := by
  rcases (ht.kind n hn).2 with h | h <;> rw [h] <;> decide

theorem graph_eq (ht : Tidy s N) (hn : n ∈ N) :
    s.graph n = if (s.file n).typ = tDir then some (entries (s.file n).data) else none := by
  simp only [State.graph, ht.lt hn, true_and]

theorem find_eq (ht : Tidy s N) (hn : n ∈ N) (name : List UInt8) :
    s.find n name = if (s.file n).typ = tDir then dirFind (s.file n).data name else none := by
  rw [State.find, DirTree.find, ht.graph_eq hn]
  split
  · rename_i hdir
    rw [dirFind_eq (ht.packed n hn hdir), Option.bind_some]
  · rfl

theorem find_mem (ht : Tidy s N) (hd : d ∈ N) (h : s.find d name = some n) : n ∈ N :=
  ht.tree.find_mem hd h

theorem resolve_mem (ht : Tidy s N) {names : List (List UInt8)} (hd : d ∈ N)
    (h : s.resolve d names = some n) : n ∈ N :=
  ht.tree.walk_mem hd h

theorem reaches_iff (ht : Tidy s N) : s.Reaches n ↔ n ∈ N :=
  ⟨ht.tree.mem_of_reach, ht.tree.reach n⟩

/-- The number of links of an inode of the tree is far from the limit. -/
theorem nlink_lt (ht : Tidy s N) (hn : n ∈ N) : (s.file n).nlink < 2 ^ 10 := by
  have hsub : N ⊆ Finset.range ninodes := fun m hm => Finset.mem_range.mpr (ht.lt hm)
  have hcard := Finset.card_le_card hsub
  rw [Finset.card_range] at hcard
  have hle := ht.tree.link_le hn
  unfold ninodes at hcard
  omega

end Tidy

/-- The current version of an inode has the type that the disk has. -/
theorem Stable.inode_typ (hs : Stable s) (hn : n < ninodes) :
    (s.vol.inode n).typ = (s.file n).typ := by
  have h := (hs.intact n hn).shadow.typ
  rwa [node_inum] at h

theorem graph_congr (h : ∀ n, n < ninodes → s'.file n = s.file n) : s'.graph = s.graph := by
  funext n
  unfold State.graph
  by_cases hn : n < ninodes
  · rw [h n hn]
  · rw [if_neg fun hc => hn hc.1, if_neg fun hc => hn hc.1]

/-- A lookup only sees the directory itself. -/
theorem find_congr (h : s'.file d = s.file d) (name : List UInt8) :
    s'.find d name = s.find d name := by
  simp only [State.find, DirTree.find, State.graph, h]

theorem Quiet.graph (hq : Quiet s s') : s'.graph = s.graph := graph_congr hq.file

theorem Quiet.find (hq : Quiet s s') (d : ℕ) (name : List UInt8) :
    s'.find d name = s.find d name := by
  rw [State.find, State.find, hq.graph]

theorem Quiet.resolve (hq : Quiet s s') (d : ℕ) (names : List (List UInt8)) :
    s'.resolve d names = s.resolve d names := by
  rw [State.resolve, State.resolve, hq.graph]

theorem Tidy.quiet (ht : Tidy s N) (hq : Quiet s s')
    (hheld : ∀ r n k, s'.refs r = some (n, k) → n ∈ N) : Tidy s' N where
  stable := hq.stable
  tree := ht.tree.congr (fun m _ => by rw [hq.graph]) fun m hm => by rw [hq.file m (ht.lt hm)]
  packed := fun m hm => by
    rw [hq.file m (ht.lt hm)]
    exact ht.packed m hm
  kind := fun m hm => by
    rw [hq.file m (ht.lt hm)]
    exact ht.kind m hm
  held := hheld

end ToyOs.Fs
