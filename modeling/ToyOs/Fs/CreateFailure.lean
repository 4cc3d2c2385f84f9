import ToyOs.Fs.CreateSpec

/-!
What a failed `create` or `mkdir` leaves behind. Before the inode is allocated
a failure changes nothing. Afterwards the inode stays allocated: the parent is
not a directory, a block or a slot is missing. Which of the two it is can be
told from the state before the call.
-/
namespace ToyOs.Fs

open Bytes Prog DirTree

variable {s t : State} {N : Finset ℕ} {cwd : InodeRef} {n d k b : ℕ} {typ : ℤ}
  {name path : List UInt8}

/-- The inodes on disk, the bitmap and the data blocks, every file and all
references are the same. -/
structure SameFs (s t : State) : Prop where
  vol : t.vol = s.vol
  file : ∀ n, n < ninodes → t.file n = s.file n
  refs : t.refs = s.refs

/-- The parent of the path resolves, the name is not in it, and an inode is
free: a call that fails does so after the inode has been allocated. -/
def Leaks (s : State) (d : ℕ) (path : List UInt8) : Prop :=
  s.RoomFor d path (components path).dropLast ∧ ∃ dir name, Target s d path dir name ∧
    s.find dir name = none ∧ ∃ n, 0 < n ∧ n < ninodes ∧ (s.file n).typ = 0

theorem NotMade.not_leaks (h : NotMade s d path) : ¬ Leaks s d path := by
  rintro ⟨hroom, dir, name, htarget, hfind, n, hpos, hlt, hfree⟩
  have hsame : ∀ {dir' name'}, Target s d path dir' name' → dir' = dir ∧ name' = name := fun h' =>
    ⟨Option.some.inj (h'.dir.symm.trans htarget.dir),
      Option.some.inj (h'.last.symm.trans htarget.last)⟩
  cases h with
  | noParent hno =>
    rcases hno with hnil | hnone
    · have hlast := htarget.last
      rw [hnil] at hlast
      cases hlast
    · have hdir := htarget.dir
      rw [hnone] at hdir
      cases hdir
  | noSlot hno => exact hno hroom
  | taken target found =>
    obtain ⟨rfl, rfl⟩ := hsame target
    rw [hfind] at found
    cases found
  | noInode _ _ all => exact all n hpos hlt hfree

theorem Leaked.not_same (h : Leaked s N typ n b t) (htyp : typ ≠ 0) : ¬ SameFs s t := fun hs => by
  have hnow := h.now
  rw [hs.file n h.lt, h.was] at hnow
  exact htyp hnow.symm

section Iff

variable (ht : Tidy s N) (hcwd : s.refs cwd = some (d, k))
include ht hcwd

theorem create_none_iff (h : create cwd path s = .ok (none, t)) :
    SameFs s t ↔ ¬ Leaks s d path := by
  have hwp : wp (create cwd path) (fun _ => True)
      (fun v t => v = none → (SameFs s t ↔ ¬ Leaks s d path)) s := by
    refine wp_create ht hcwd (fun hwhy t hq hrefs _ => ?_)
      (fun dir name n t htarget hroom hfind hl _ _ => ?_) (fun _ _ _ _ _ _ _ _ _ hv => by cases hv)
      fun _ _ _ _ _ _ _ hv => by cases hv
    · exact ⟨fun _ => hwhy.not_leaks, fun _ => ⟨hq.vol, hq.file, hrefs⟩⟩
    · exact ⟨fun hs => absurd hs (hl.not_same (by decide)),
        fun hno => absurd ⟨hroom, dir, name, htarget, hfind, n, hl.pos, hl.lt, hl.was⟩ hno⟩
  exact wp_ok hwp h rfl

theorem mkdir_none_iff (h : mkdir cwd path s = .ok (none, t)) :
    SameFs s t ↔ ¬ Leaks s d path := by
  have hwp : wp (mkdir cwd path) (fun _ => True)
      (fun v t => v = none → (SameFs s t ↔ ¬ Leaks s d path)) s := by
    refine wp_mkdir ht hcwd (fun hwhy t hq hrefs _ => ?_)
      (fun dir name n t htarget hroom hfind hl _ _ _ => ?_) fun _ _ _ _ _ _ _ hv => by cases hv
    · exact ⟨fun _ => hwhy.not_leaks, fun _ => ⟨hq.vol, hq.file, hrefs⟩⟩
    · exact ⟨fun hs => absurd hs (hl.not_same (by decide)),
        fun hno => absurd ⟨hroom, dir, name, htarget, hfind, n, hl.pos, hl.lt, hl.was⟩ hno⟩
  exact wp_ok hwp h rfl

end Iff

/-- A failed creation leaves the file system unchanged exactly when it fails
before an inode is allocated. -/
theorem failed_creation_same_iff (hs : Reachable s) (hcwd : s.refs cwd = some (d, k))
    (path : List UInt8) :
    (∀ t, create cwd path s = .ok (none, t) → (SameFs s t ↔ ¬ Leaks s d path)) ∧
      ∀ t, mkdir cwd path s = .ok (none, t) → (SameFs s t ↔ ¬ Leaks s d path) := by
  obtain ⟨N, ht⟩ := hs.tidy
  exact ⟨fun t => create_none_iff ht hcwd, fun t => mkdir_none_iff ht hcwd⟩

/-- The path of a file inside of a regular file. -/
def insideReadme : List UInt8 := readmeName ++ [slash, 0x78]

/-- In the initial state `create` under `README.md` fails. -/
theorem exists_insideReadme : ∃ s N cwd t, Reachable s ∧ Tidy s N ∧
    s.refs cwd = some (rootino, 1) ∧ create cwd insideReadme s = .ok (none, t) ∧
    Leaks s rootino insideReadme := by
  obtain ⟨s, N, cwd, hs, hi⟩ := exists_rooted
  have ht := hi.booting.tidy
  have hcwd : s.refs cwd = some (rootino, 1) := by rw [hi.booting.refs, Function.update_self]
  obtain ⟨n, hn, hfind, hfile⟩ := hi.readme
  have hstart : startOf rootino insideReadme = rootino := by decide
  have hfront : (components insideReadme).dropLast = [readmeName] := by decide
  have hlast : (components insideReadme).getLast? = some [0x78] := by decide
  have hdir : s.resolve (startOf rootino insideReadme) (components insideReadme).dropLast =
      some n := by
    rw [hstart, hfront, resolve_cons, hfind]
    rfl
  have hnotdir : (s.file n).typ ≠ tDir := by
    rw [hfile]
    decide
  have hnone : ∀ name, s.find n name = none := fun name => by
    rw [ht.find_eq hn, if_neg hnotdir]
  have hparent : ∀ {dir name}, Target s rootino insideReadme dir name → dir = n := fun h =>
    Option.some.inj (h.dir.symm.trans hdir)
  have hwp : wp (create cwd insideReadme) (fun _ => False) (fun v _ => v = none) s := by
    refine wp_create ht hcwd (fun _ _ _ _ => rfl) (fun _ _ _ _ _ _ _ _ _ => rfl)
      (fun dir name m r t htarget hf _ _ => ?_) fun dir name m r t htarget hc => ?_
    · rw [hparent htarget, hnone] at hf
      cases hf
    · exact absurd (hparent htarget ▸ hc.dir) hnotdir
  obtain ⟨_, t, hrun, rfl⟩ := exists_ok hwp
  refine ⟨s, N, cwd, t, hs, ht, hcwd, hrun, ?_, n, [0x78], ⟨hlast, hdir⟩, hnone _, ?_⟩
  · rw [hfront]
    exact roomFor_one hi.booting.refs insideReadme readmeName
  · have hfree := hi.booting.exists_free (by decide)
    push Not at hfree
    exact hfree

/-- A `create` that fails and leaves an inode allocated. -/
theorem failed_create_leaks : ∃ s cwd t, Reachable s ∧ s.refs cwd = some (rootino, 1) ∧
    create cwd insideReadme s = .ok (none, t) ∧ ¬ SameFs s t := by
  obtain ⟨s, N, cwd, t, hs, ht, hcwd, hrun, hleaks⟩ := exists_insideReadme
  exact ⟨s, cwd, t, hs, hcwd, hrun, fun hsame => (create_none_iff ht hcwd hrun).mp hsame hleaks⟩

theorem failed_creation_same_iff_inside : ∃ s cwd t, Reachable s ∧
    s.refs cwd = some (rootino, 1) ∧ create cwd insideReadme s = .ok (none, t) ∧
    (SameFs s t ↔ ¬ Leaks s rootino insideReadme) := by
  obtain ⟨s, N, cwd, t, hs, -, hcwd, hrun, -⟩ := exists_insideReadme
  exact ⟨s, cwd, t, hs, hcwd, hrun, (failed_creation_same_iff hs hcwd insideReadme).1 t hrun⟩

end ToyOs.Fs
