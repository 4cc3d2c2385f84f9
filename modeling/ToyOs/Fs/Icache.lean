import ToyOs.Fs.Writei
import ToyOs.Fs.Itrunc

/-!
The inode cache between two operations. The current version of an inode is
the cached one when a slot in use holds it, and the one on disk otherwise. A
state is stable when no lock is held, no inode has two slots in use, every
inode is intact and no two share a block. References come and go without
touching what the files contain; giving up the last one falls back to the
copy on disk, which has the same content.
-/
namespace ToyOs.Fs

open Bytes Prog

/-- What a file is to its users. -/
structure FileState where
  typ : ℤ
  nlink : ℤ
  data : List UInt8
  deriving DecidableEq

def Vol.file (V : Vol) (ip : Inode) : FileState := ⟨ip.typ, ip.nlink, V.content ip⟩

/-- The inode that a slot in use is for, and the number of references. -/
def Slot.refs (x : Slot) : Option (ℕ × ℕ) :=
  if 0 < x.refcnt then some (x.ip.inum, x.refcnt) else none

namespace State

def vol (s : State) : Vol := volume s.dev.disk

/-- A slot that holds the current version of an inode. -/
def Holds (s : State) (n : ℕ) (r : InodeRef) : Prop :=
  0 < (s.icache r).refcnt ∧ (s.icache r).valid = true ∧ (s.icache r).ip.inum = n

instance (s : State) (n : ℕ) (r : InodeRef) : Decidable (s.Holds n r) :=
  inferInstanceAs (Decidable (_ ∧ _))

/-- The current version of an inode. -/
def node (s : State) (n : ℕ) : Inode :=
  match (List.finRange ninode).find? fun r => s.Holds n r with
  | some r => (s.icache r).ip
  | none => Inode.ofDinode n (s.vol.inode n)

def file (s : State) (n : ℕ) : FileState := s.vol.file (s.node n)

/-- The references to a slot: its inode and their number. -/
def refs (s : State) (r : InodeRef) : Option (ℕ × ℕ) := (s.icache r).refs

end State

variable {s s' : State} {r r' : InodeRef} {n m k : ℕ} {V V' : Vol} {ip ip' : Inode} {c : Dev}
  {E : Panic → Prop}

theorem refs_some : s.refs r = some (n, k) ↔
    0 < k ∧ (s.icache r).refcnt = k ∧ (s.icache r).ip.inum = n := by
  unfold State.refs Slot.refs
  split
  · simp only [Option.some.injEq, Prod.mk.injEq]
    omega
  · simp only [reduceCtorEq, false_iff]
    omega

theorem refs_none : s.refs r = none ↔ (s.icache r).refcnt = 0 := by
  unfold State.refs Slot.refs
  split
  · simp only [reduceCtorEq, false_iff]
    omega
  · simp only [true_iff]
    omega

structure Stable (s : State) : Prop where
  lock : s.icacheLock = false
  unlocked : ∀ r, (s.icache r).locked = false
  mounted : Mounted s.dev [] s.vol
  uniq : ∀ r r' n k k', s.refs r = some (n, k) → s.refs r' = some (n, k') → r = r'
  live : ∀ r n k, s.refs r = some (n, k) → n < ninodes ∧ (s.vol.inode n).typ ≠ 0
  intact : ∀ n, n < ninodes → Intact s.vol (s.node n)
  apart : ∀ n m, n < ninodes → m < ninodes → n ≠ m → ∀ p q, s.vol.addr (s.node n) p ≠ 0 →
    s.vol.addr (s.node n) p ≠ s.vol.addr (s.node m) q

theorem Mounted.vol_eq (h : Mounted s.dev [] V) : s.vol = V := by
  obtain ⟨d, hc, rfl⟩ := h
  rw [State.vol, hc.disk]

/-- The slot that holds an inode is found, being the only one. -/
theorem node_of_holds (huniq : ∀ r', s.Holds n r' → r' = r) (h : s.Holds n r) :
    s.node n = (s.icache r).ip := by
  unfold State.node
  cases hfind : (List.finRange ninode).find? fun r => decide (s.Holds n r) with
  | none =>
    have hno := List.find?_eq_none.mp hfind r (List.mem_finRange r)
    exact absurd h (by simpa using hno)
  | some r' =>
    have hr' : s.Holds n r' := by simpa using List.find?_some hfind
    simp only [huniq r' hr']

theorem node_of_not_holds (h : ∀ r, ¬ s.Holds n r) :
    s.node n = Inode.ofDinode n (s.vol.inode n) := by
  unfold State.node
  cases hfind : (List.finRange ninode).find? fun r => decide (s.Holds n r) with
  | none => rfl
  | some r => exact absurd (by simpa using List.find?_some hfind) (h r)

theorem node_inum (s : State) (n : ℕ) : (s.node n).inum = n := by
  unfold State.node
  cases hfind : (List.finRange ninode).find? fun r => decide (s.Holds n r) with
  | none => rfl
  | some r =>
    have hr : s.Holds n r := by simpa using List.find?_some hfind
    exact hr.2.2

theorem State.Holds.refs (h : s.Holds n r) : s.refs r = some (n, (s.icache r).refcnt) :=
  refs_some.mpr ⟨h.1, rfl, h.2.2⟩

/-- The version of a referenced inode: in its slot when valid, on disk otherwise. -/
theorem Stable.node_eq (hs : Stable s) (hr : s.refs r = some (n, k)) :
    s.node n = if (s.icache r).valid then (s.icache r).ip
      else Inode.ofDinode n (s.vol.inode n) := by
  obtain ⟨hk, hcnt, hin⟩ := refs_some.mp hr
  have huniq : ∀ r', s.Holds n r' → r' = r := fun r' h => hs.uniq r' r n _ _ h.refs hr
  split
  · rename_i hv
    exact node_of_holds huniq ⟨by omega, hv, hin⟩
  · rename_i hv
    refine node_of_not_holds fun r' h => hv ?_
    rw [← huniq r' h]
    exact h.2.1

/-- States with the same disk and the same slots in use have the same nodes. -/
theorem node_congr (hvol : s'.vol.inode n = s.vol.inode n)
    (huniq : ∀ r r', s.Holds n r → s.Holds n r' → r = r')
    (hold : ∀ r, s'.Holds n r ↔ s.Holds n r)
    (hip : ∀ r, s.Holds n r → (s'.icache r).ip = (s.icache r).ip) : s'.node n = s.node n := by
  by_cases h : ∃ r, s.Holds n r
  · obtain ⟨r, hr⟩ := h
    rw [node_of_holds (fun r' hr' => huniq r' r hr' hr) hr,
      node_of_holds (fun r' hr' => huniq r' r ((hold r').mp hr') hr) ((hold r).mpr hr), hip r hr]
  · have hno : ∀ r, ¬ s.Holds n r := fun r hr => h ⟨r, hr⟩
    rw [node_of_not_holds hno, node_of_not_holds fun r hr => hno r ((hold r).mp hr), hvol]

theorem Stable.holds_uniq (hs : Stable s) (r r' : InodeRef) (h : s.Holds n r)
    (h' : s.Holds n r') : r = r' := hs.uniq r r' n _ _ h.refs h'.refs

/-- A change of the current version of one inode, seen from outside. -/
theorem Stable.change (hs : Stable s) (hn : n < ninodes) (hlock : s'.icacheLock = false)
    (hunl : ∀ r, (s'.icache r).locked = false) (hm : Mounted s'.dev [] V')
    (huniq : ∀ r r' n k k', s'.refs r = some (n, k) → s'.refs r' = some (n, k') → r = r')
    (hlive : ∀ r n k, s'.refs r = some (n, k) → n < ninodes ∧ (V'.inode n).typ ≠ 0)
    (hnode : ∀ m, m < ninodes → s'.node m = if m = n then ip' else s.node m)
    (hf : Frame s.vol (s.node n) V' ip') (hi : Intact V' ip') : Stable s' := by
  have hvol := hm.vol_eq
  have hother : ∀ m, m < ninodes → m ≠ n → ∀ p q, s.vol.addr (s.node m) p ≠ 0 →
      s.vol.addr (s.node m) p ≠ s.vol.addr (s.node n) q := fun m hm' hmn =>
    hs.apart m n hm' hn hmn
  have hinum : ∀ m, m ≠ n → (s.node m).inum ≠ (s.node n).inum := by
    intro m hmn
    rwa [node_inum, node_inum]
  refine ⟨hlock, hunl, by rwa [hvol], huniq, by rwa [hvol], fun m hmn => ?_,
    fun m m' hm' hm'' hne p q => ?_⟩
  · rw [hvol, hnode m hmn]
    split
    · exact hi
    · rename_i hne
      exact hf.intact_other (hs.intact m hmn) (hinum m hne) (hother m hmn hne)
  · rw [hvol, hnode m hm', hnode m' hm'']
    by_cases hmn : m = n
    · rw [if_pos hmn, if_neg fun h => hne (hmn.trans h.symm)]
      intro hp heq
      have hmn' : m' ≠ n := fun h => hne (hmn.trans h.symm)
      have := hf.apart (hs.intact m' hm'') (hother m' hm'' hmn') q p (by rw [← heq]; exact hp)
      exact this heq.symm
    · rw [if_neg hmn]
      by_cases hmn' : m' = n
      · rw [if_pos hmn']
        exact hf.apart (hs.intact m hm') (hother m hm' hmn) p q
      · rw [if_neg hmn', hf.addr_other (hs.intact m hm') (hother m hm' hmn),
          hf.addr_other (hs.intact m' hm'') (hother m' hm'' hmn')]
        exact hs.apart m m' hm' hm'' hne p q

theorem Stable.change_file (hs : Stable s) (hn : n < ninodes) (hm : Mounted s'.dev [] V')
    (hnode : ∀ m, m < ninodes → s'.node m = if m = n then ip' else s.node m)
    (hf : Frame s.vol (s.node n) V' ip') (m : ℕ) (hmn : m < ninodes) :
    s'.file m = if m = n then V'.file ip' else s.file m := by
  unfold State.file
  rw [hm.vol_eq, hnode m hmn]
  split
  · rfl
  · rename_i hne
    simp only [Vol.file]
    rw [hf.content_other (hs.intact m hmn) (hs.apart m n hmn hn hne)]

/-- Only references changed. -/
structure Quiet (s s' : State) : Prop where
  stable : Stable s'
  vol : s'.vol = s.vol
  file : ∀ n, n < ninodes → s'.file n = s.file n
  node : ∀ n, n < ninodes →
    s'.node n = s.node n ∨ s'.node n = Inode.ofDinode n (s.vol.inode n)

theorem Quiet.trans {s'' : State} (h : Quiet s s') (h' : Quiet s' s'') : Quiet s s'' where
  stable := h'.stable
  vol := h'.vol.trans h.vol
  file := fun n hn => (h'.file n hn).trans (h.file n hn)
  node := by
    intro n hn
    rcases h'.node n hn with heq | heq
    · rw [heq]
      exact h.node n hn
    · rw [heq, h.vol]
      exact Or.inr rfl

theorem Stable.quiet (h : Stable s) : Quiet s s :=
  ⟨h, rfl, fun _ _ => rfl, fun _ _ => Or.inl rfl⟩

/-- Every cached inode is on disk as it is in the cache. -/
def Coherent (s : State) : Prop := ∀ n, n < ninodes → s.vol.inode n = (s.node n).toDinode

theorem Quiet.coherent (h : Quiet s s') (hc : Coherent s) : Coherent s' := by
  intro n hn
  rw [h.vol]
  rcases h.node n hn with heq | heq
  · rw [heq]
    exact hc n hn
  · rw [heq]
    rfl

/-- Nothing is lost when every inode keeps its current version. -/
theorem Stable.same_nodes (hs : Stable s) (hlock : s'.icacheLock = false)
    (hunl : ∀ r, (s'.icache r).locked = false) (hm : Mounted s'.dev [] s.vol)
    (huniq : ∀ r r' n k k', s'.refs r = some (n, k) → s'.refs r' = some (n, k') → r = r')
    (hlive : ∀ r n k, s'.refs r = some (n, k) → n < ninodes ∧ (s.vol.inode n).typ ≠ 0)
    (hnode : ∀ n, s'.node n = s.node n) : Quiet s s' := by
  have hvol := hm.vol_eq
  have hnode' : s'.node = s.node := funext hnode
  refine ⟨⟨hlock, hunl, by rwa [hvol], huniq, by rwa [hvol], ?_, ?_⟩, hvol, fun n _ => ?_,
    fun n _ => Or.inl (hnode n)⟩
  · rw [hvol, hnode']
    exact hs.intact
  · rw [hvol, hnode']
    exact hs.apart
  · rw [State.file, State.file, hvol, hnode']

section Disk

variable (hi : Intact V ip)
include hi

/-- The copy on disk of an intact inode is intact. -/
theorem Intact.disk : Intact V (Inode.ofDinode ip.inum (V.inode ip.inum)) := by
  have hs := hi.shadow
  refine ⟨hi.inum, ⟨?_, ?_⟩, ⟨?_, hs.mapped⟩, ⟨rfl, rfl, rfl, rfl, rfl, fun _ _ => rfl, hs.mapped⟩⟩
  · intro p hp
    have heq := hs.sub.addr_ne hp
    rw [heq] at hp ⊢
    exact hi.owns.used p hp
  · intro p q hp heq
    have hp' := hs.sub.addr_ne hp
    have hq' := hs.sub.addr_ne (heq ▸ hp)
    exact hi.owns.inj p q (by rwa [← hp']) (by rw [← hp', heq, hq'])
  · change (V.inode ip.inum).size ≤ _
    rw [hs.size]
    exact hi.dense.size

theorem Frame.disk : Frame V ip V (Inode.ofDinode ip.inum (V.inode ip.inum)) where
  keep := fun _ hb _ => ⟨hb, rfl⟩
  own := fun p hp => Or.inl ⟨p, (hi.shadow.sub.addr_ne hp).symm⟩
  inode := fun _ _ => rfl
  inum := rfl

theorem file_disk : V.file (Inode.ofDinode ip.inum (V.inode ip.inum)) = V.file ip := by
  have hs := hi.shadow
  have hcontent : V.content (Inode.ofDinode ip.inum (V.inode ip.inum)) = V.content ip := by
    have hsize : (Inode.ofDinode ip.inum (V.inode ip.inum)).size = ip.size := hs.size
    unfold Vol.content
    rw [hsize]
    refine read_congr _ _ _ _ fun k _ hk => ?_
    have hdiv : k / bsize * bsize < (V.inode ip.inum).size := by
      rw [hs.size]
      exact lt_of_le_of_lt (Nat.div_mul_le_self k bsize) (by omega)
    have hne := hs.mapped _ hdiv
    unfold Vol.byte
    rw [hs.sub.addr_ne hne]
  simp only [Vol.file, hcontent, FileState.mk.injEq, and_true]
  exact ⟨hs.typ, hs.nlink⟩

end Disk

end ToyOs.Fs
