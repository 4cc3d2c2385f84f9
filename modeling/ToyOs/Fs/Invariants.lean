import ToyOs.Fs.Runs

/-!
The invariants of the file system over all runs, read off the tidy states:
blocks have one owner and files have no holes, and the directories that can be
reached form a tree whose link counts are right.
-/
namespace ToyOs.Fs

open Bytes Prog DirTree

variable {s : State}

/-- Block ownership. Every block number in use by an inode is a data block
with its bit set, no number occurs twice, and every logical block below the
size is mapped; so the panics of `bfree` and `_readi` cannot occur. -/
theorem block_ownership (hs : Reachable s) :
    (∀ n p, n < ninodes → s.vol.addr (s.node n) p ≠ 0 →
      IsData (s.vol.addr (s.node n) p) ∧ bitSet s.dev.disk (s.vol.addr (s.node n) p) = true) ∧
    (∀ n m p q, n < ninodes → m < ninodes → s.vol.addr (s.node n) p ≠ 0 →
      s.vol.addr (s.node n) p = s.vol.addr (s.node m) q → n = m ∧ p = q) ∧
    (∀ n p, n < ninodes → p < ((s.node n).size + bsize - 1) / bsize →
      s.vol.addr (s.node n) p ≠ 0) ∧
    ∀ op : Op, op.Allowed s → ∀ e, op.run s = .error e →
      e ≠ .bfreeInvalid ∧ e ≠ .freeingFree ∧ e ≠ .readiHole := by
  obtain ⟨N, ht⟩ := hs.tidy
  have hst := ht.stable
  refine ⟨fun n p hn hp => ?_, fun n m p q hn hm hp heq => ?_, fun n p hn hp => ?_,
    fun op ha e he => ?_⟩
  · have hused := (hst.intact n hn).owns.used p hp
    have hdata := hst.mounted.isData hused
    refine ⟨hdata, ?_⟩
    change (if IsData _ then bitSet s.dev.disk _ else false) = true at hused
    rwa [if_pos hdata] at hused
  · by_cases hnm : n = m
    · subst hnm
      exact ⟨rfl, (hst.intact n hn).owns.inj p q hp heq⟩
    · exact absurd heq (hst.apart n m hn hm hnm p q hp)
  · refine (hst.intact n hn).dense.mapped p ?_
    unfold bsize at *
    omega
  · obtain rfl := wp_error (wp_op ht ha) he
    decide

theorem block_ownership_rooted : ∃ s, Reachable s ∧
    ∀ n p, n < ninodes → p < ((s.node n).size + bsize - 1) / bsize →
      s.vol.addr (s.node n) p ≠ 0 := by
  obtain ⟨s, N, r, hs, -⟩ := exists_rooted
  exact ⟨s, hs, (block_ownership hs).2.2.1⟩

/-- The directory tree. Directories consist of whole entries with distinct
names, name themselves and their parent, every other inode is named once, and
the link counts are the numbers of entries. -/
theorem directory_tree (hs : Reachable s) :
    (∀ d, s.Reaches d → (s.file d).typ = tDir → (s.file d).data.length % direntSize = 0) ∧
      WellFormed s.graph rootino (direntName dotName) (direntName dotdotName)
        fun n => (s.file n).nlink := by
  obtain ⟨N, ht⟩ := hs.tidy
  exact ⟨fun d hd hdir => (ht.packed d (ht.reaches_iff.mp hd) hdir).whole, ht.tree.wellFormed⟩

theorem directory_tree_rooted : ∃ s, Reachable s ∧
    WellFormed s.graph rootino (direntName dotName) (direntName dotdotName)
      fun n => (s.file n).nlink := by
  obtain ⟨s, N, r, hs, -⟩ := exists_rooted
  exact ⟨s, hs, (directory_tree hs).2⟩

end ToyOs.Fs
