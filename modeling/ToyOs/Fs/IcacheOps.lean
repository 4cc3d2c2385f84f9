import ToyOs.Fs.Icache

/-!
The operations of the inode cache on a stable state: taking and giving up a
reference, the scope of the guard of an inode, and the allocation of a new
one.
-/
namespace ToyOs.Fs

open Bytes Prog Function

variable {s s' : State} {r r' : InodeRef} {n m k : ℕ} {V V' : Vol} {ip ip' : Inode} {c : Dev}
  {E : Panic → Prop} {Q : Option InodeRef → State → Prop}

@[simp] theorem setSlot_icache_same (s : State) (r : InodeRef) (x : Slot) :
    (s.setSlot r x).icache r = x := by
  simp [State.setSlot]

theorem setSlot_icache_ne (s : State) {r r' : InodeRef} (x : Slot) (h : r' ≠ r) :
    (s.setSlot r x).icache r' = s.icache r' := by
  simp [State.setSlot, h]

@[simp] theorem setSlot_setSlot (s : State) (r : InodeRef) (x y : Slot) :
    (s.setSlot r x).setSlot r y = s.setSlot r y := by
  simp [State.setSlot]

@[simp] theorem setSlot_self (s : State) (r : InodeRef) : s.setSlot r (s.icache r) = s := by
  simp [State.setSlot]

theorem Slot.unlock_eq {x : Slot} (h : x.locked = false) : { x with locked := false } = x := by
  rw [← h]

theorem setSlot_refs (s : State) (r : InodeRef) (x : Slot) :
    (s.setSlot r x).refs = update s.refs r x.refs := by
  funext r'
  by_cases h : r' = r
  · subst h
    simp [State.refs]
  · rw [update_of_ne h, State.refs, setSlot_icache_ne _ _ h, State.refs]

theorem wp_icacheAcquire {Q : Unit → State → Prop} (h : s.icacheLock = false)
    (hQ : Q () { s with icacheLock := true }) : wp icacheAcquire E Q s := by
  simp only [icacheAcquire, wp_bind, wp_get, wp_assert, wp_modify, h]
  exact ⟨fun _ => hQ, fun h => by simp at h⟩

theorem wp_icacheRelease {Q : Unit → State → Prop} (h : s.icacheLock = true)
    (hQ : Q () { s with icacheLock := false }) : wp icacheRelease E Q s := by
  simp only [icacheRelease, wp_bind, wp_get, wp_assert, wp_modify, h]
  exact ⟨fun _ => hQ, fun h => by simp at h⟩

theorem wp_lockSlot {Q : Slot → State → Prop} (h : (s.icache r).locked = false)
    (hQ : Q (s.icache r) (s.setSlot r { s.icache r with locked := true })) :
    wp (lockSlot r) E Q s := by
  simp only [lockSlot, wp_bind, wp_get, wp_assert, wp_modify, wp_pure, h]
  exact ⟨fun _ => hQ, fun h => by simp at h⟩

/-- The slot in which `iget` keeps a reference to `n`. -/
def Slot.claim (x : Slot) (n : ℕ) : Slot :=
  if 0 < x.refcnt then { x with refcnt := x.refcnt + 1 }
  else { x with refcnt := 1, valid := false, ip := { x.ip with inum := n } }

/-- The references to a slot with one more to `n`. -/
def addRef (n : ℕ) : Option (ℕ × ℕ) → Option (ℕ × ℕ)
  | none => some (n, 1)
  | some (m, k) => some (m, k + 1)

/-- The references to a slot with one less. -/
def dropRef : Option (ℕ × ℕ) → Option (ℕ × ℕ)
  | some (m, k + 2) => some (m, k + 1)
  | _ => none

theorem dropRef_eq_some {n k m j : ℕ} (h : dropRef (some (n, k)) = some (m, j)) :
    m = n ∧ k = j + 1 := by
  rcases k with _ | _ | i
  · cases h
  · cases h
  · cases h
    exact ⟨rfl, rfl⟩

theorem Slot.claim_refs (x : Slot) (n : ℕ) : (x.claim n).refs = addRef n x.refs := by
  unfold Slot.claim Slot.refs
  by_cases h : 0 < x.refcnt
  · simp [h, addRef]
  · simp [h, addRef]

theorem wp_igetCached (h : (s.icache r).locked = false)
    (hhit : (∃ k, s.refs r = some (n, k)) → Q (some r) (s.setSlot r ((s.icache r).claim n)))
    (hmiss : (∀ k, s.refs r ≠ some (n, k)) → Q none s) : wp (igetCached n r) E Q s := by
  simp only [igetCached, wp_bind]
  refine wp_lockSlot h ?_
  rw [wp_ite]
  refine ⟨fun hc => ?_, fun hc => ?_⟩
  · have hhit := hhit ⟨_, refs_some.mpr ⟨hc.1, rfl, hc.2⟩⟩
    rw [Slot.claim, if_pos hc.1] at hhit
    simpa [modifySlot, unlockSlot, Slot.unlock_eq, h] using hhit
  · have hmiss := hmiss fun k hk => hc (by
      obtain ⟨h0, hcnt, hin⟩ := refs_some.mp hk
      exact ⟨by omega, hin⟩)
    simpa [unlockSlot, Slot.unlock_eq h] using hmiss

theorem wp_igetFree (h : (s.icache r).locked = false)
    (hfree : s.refs r = none → Q (some r) (s.setSlot r ((s.icache r).claim n)))
    (hbusy : s.refs r ≠ none → Q none s) : wp (igetFree n r) E Q s := by
  simp only [igetFree, wp_bind]
  refine wp_lockSlot h ?_
  rw [wp_ite]
  refine ⟨fun hc => ?_, fun hc => ?_⟩
  · have hfree := hfree (refs_none.mpr hc)
    rw [Slot.claim, if_neg (by omega)] at hfree
    simpa [modifySlot, unlockSlot, Slot.unlock_eq, h] using hfree
  · have hbusy := hbusy fun h0 => hc (refs_none.mp h0)
    simpa [unlockSlot, Slot.unlock_eq h] using hbusy

/-- A slot whose reference count changes from a positive number to another. -/
theorem Stable.recount (hs : Stable s) (hr : s.refs r = some (n, k)) (hm : 0 < m) :
    Quiet s (s.setSlot r { s.icache r with refcnt := m }) ∧
      (s.setSlot r { s.icache r with refcnt := m }).refs =
        update s.refs r (some (n, m)) := by
  obtain ⟨hk, hcnt, hin⟩ := refs_some.mp hr
  have hrefs : (s.setSlot r { s.icache r with refcnt := m }).refs =
      update s.refs r (some (n, m)) := by
    rw [setSlot_refs]
    congr 1
    simp [Slot.refs, hm, hin]
  have hinum : ∀ r' n' k', (s.setSlot r { s.icache r with refcnt := m }).refs r' = some (n', k') →
      ∃ k'', s.refs r' = some (n', k'') := by
    intro r' n' k' h'
    rw [hrefs] at h'
    by_cases h : r' = r
    · subst h
      rw [update_self] at h'
      obtain ⟨rfl, -⟩ := Prod.mk.inj (Option.some.inj h')
      exact ⟨k, hr⟩
    · rw [update_of_ne h] at h'
      exact ⟨k', h'⟩
  refine ⟨hs.same_nodes hs.lock ?_ hs.mounted ?_ ?_ fun n' => ?_, hrefs⟩
  · intro r'
    by_cases h : r' = r
    · subst h
      simpa using hs.unlocked r'
    · rw [setSlot_icache_ne _ _ h]
      exact hs.unlocked r'
  · intro r1 r2 n' k1 k2 h1 h2
    obtain ⟨k1', h1⟩ := hinum _ _ _ h1
    obtain ⟨k2', h2⟩ := hinum _ _ _ h2
    exact hs.uniq r1 r2 n' _ _ h1 h2
  · intro r' n' k' h'
    obtain ⟨k'', h'⟩ := hinum _ _ _ h'
    exact hs.live r' n' k'' h'
  · refine node_congr rfl hs.holds_uniq (fun r' => ?_) fun r' _ => ?_
    · by_cases h : r' = r
      · subst h
        simp only [State.Holds, setSlot_icache_same, hin, hcnt]
        simp only [hm, hk]
      · simp only [State.Holds, setSlot_icache_ne _ _ h]
    · by_cases h : r' = r
      · subst h
        simp
      · rw [setSlot_icache_ne _ _ h]

/-- An unused slot taken for an inode that no other slot is for. -/
theorem Stable.occupy (hs : Stable s) (hr : s.refs r = none) (hn : n < ninodes)
    (htyp : (s.vol.inode n).typ ≠ 0) (hno : ∀ r' k, s.refs r' ≠ some (n, k)) :
    Quiet s (s.setSlot r ((s.icache r).claim n)) := by
  have h0 := refs_none.mp hr
  have hclaim : (s.icache r).claim n =
      { s.icache r with refcnt := 1, valid := false, ip := { (s.icache r).ip with inum := n } } :=
    if_neg (by omega)
  have hrefs : (s.setSlot r ((s.icache r).claim n)).refs =
      update s.refs r (some (n, 1)) := by
    rw [setSlot_refs, Slot.claim_refs, show (s.icache r).refs = none from hr, addRef]
  refine hs.same_nodes hs.lock ?_ hs.mounted ?_ ?_ fun n' => ?_
  · intro r'
    by_cases h : r' = r
    · subst h
      simpa [hclaim] using hs.unlocked r'
    · rw [setSlot_icache_ne _ _ h]
      exact hs.unlocked r'
  · intro r1 r2 n' k1 k2 h1 h2
    rw [hrefs] at h1 h2
    by_cases hr1 : r1 = r
    · by_cases hr2 : r2 = r
      · rw [hr1, hr2]
      · subst hr1
        rw [update_self] at h1
        rw [update_of_ne hr2] at h2
        obtain ⟨rfl, -⟩ := Prod.mk.inj (Option.some.inj h1)
        exact absurd h2 (hno r2 k2)
    · rw [update_of_ne hr1] at h1
      by_cases hr2 : r2 = r
      · subst hr2
        rw [update_self] at h2
        obtain ⟨rfl, -⟩ := Prod.mk.inj (Option.some.inj h2)
        exact absurd h1 (hno r1 k1)
      · rw [update_of_ne hr2] at h2
        exact hs.uniq r1 r2 n' k1 k2 h1 h2
  · intro r' n' k' h'
    rw [hrefs] at h'
    by_cases h : r' = r
    · subst h
      rw [update_self] at h'
      obtain ⟨rfl, -⟩ := Prod.mk.inj (Option.some.inj h')
      exact ⟨hn, htyp⟩
    · rw [update_of_ne h] at h'
      exact hs.live r' n' k' h'
  · -- the slot held nothing before, and it is not valid yet
    have hold : ¬ s.Holds n' r := fun h => by
      have := h.1
      omega
    refine node_congr rfl hs.holds_uniq (fun r' => ?_) fun r' h' => ?_
    · by_cases h : r' = r
      · subst h
        refine ⟨fun h => absurd h.2.1 (by simp [hclaim]), fun h => absurd h hold⟩
      · simp only [State.Holds, setSlot_icache_ne _ _ h]
    · have h : r' ≠ r := by
        rintro rfl
        exact hold h'
      rw [setSlot_icache_ne _ _ h]

/-- The last reference to a slot goes: the copy on disk takes over. -/
theorem Stable.vacate (hs : Stable s) (hr : s.refs r = some (n, k)) :
    Quiet s (s.setSlot r { s.icache r with refcnt := 0 }) ∧
      (s.setSlot r { s.icache r with refcnt := 0 }).refs = update s.refs r none := by
  have hrefs : (s.setSlot r { s.icache r with refcnt := 0 }).refs =
      update s.refs r none := by
    rw [setSlot_refs]
    congr 1
  have hsome : ∀ r' n' k', (s.setSlot r { s.icache r with refcnt := 0 }).refs r' = some (n', k') →
      r' ≠ r ∧ s.refs r' = some (n', k') := by
    intro r' n' k' h'
    rw [hrefs] at h'
    by_cases h : r' = r
    · subst h
      rw [update_self] at h'
      simp at h'
    · rw [update_of_ne h] at h'
      exact ⟨h, h'⟩
  have hn := (hs.live r n k hr).1
  have hi := hs.intact n hn
  have hin := node_inum s n
  have hother : ∀ n' r', n' ≠ n →
      ((s.setSlot r { s.icache r with refcnt := 0 }).Holds n' r' ↔ s.Holds n' r') := by
    intro n' r' hne
    by_cases h : r' = r
    · subst h
      obtain ⟨-, -, hinum⟩ := refs_some.mp hr
      simp [State.Holds, hinum, hne.symm]
    · simp only [State.Holds, setSlot_icache_ne _ _ h]
  have hnode : ∀ n', n' < ninodes → (s.setSlot r { s.icache r with refcnt := 0 }).node n' =
      if n' = n then Inode.ofDinode (s.node n).inum (s.vol.inode (s.node n).inum)
      else s.node n' := by
    intro n' _
    split
    · rename_i heq
      subst heq
      rw [hin]
      refine node_of_not_holds fun r' h' => ?_
      have hr' := hsome r' _ _ h'.refs
      exact hr'.1 (hs.uniq r' r _ _ _ hr'.2 hr)
    · rename_i hne
      refine node_congr rfl hs.holds_uniq (fun r' => hother n' r' hne) fun r' h' => ?_
      have h : r' ≠ r := by
        rintro rfl
        obtain ⟨-, -, hinum⟩ := refs_some.mp hr
        exact hne (h'.2.2.symm.trans hinum)
      rw [setSlot_icache_ne _ _ h]
  have hm : Mounted (s.setSlot r { s.icache r with refcnt := 0 }).dev [] s.vol := hs.mounted
  refine ⟨⟨hs.change hn hs.lock ?_ hm ?_ ?_ hnode (Frame.disk hi) hi.disk, rfl, fun n' hn' => ?_,
    fun n' hn' => ?_⟩, hrefs⟩
  · intro r'
    by_cases h : r' = r
    · subst h
      simpa using hs.unlocked r'
    · rw [setSlot_icache_ne _ _ h]
      exact hs.unlocked r'
  · intro r1 r2 n' k1 k2 h1 h2
    exact hs.uniq r1 r2 n' k1 k2 (hsome _ _ _ h1).2 (hsome _ _ _ h2).2
  · intro r' n' k' h'
    exact hs.live r' n' k' (hsome _ _ _ h').2
  · rw [hs.change_file hn hm hnode (Frame.disk hi) n' hn']
    split
    · rename_i heq
      rw [heq, file_disk hi]
      rfl
    · rfl
  · rw [hnode n' hn']
    split
    · rename_i heq
      rw [hin, heq]
      exact Or.inr rfl
    · exact Or.inl rfl

/-- `iget` claims the slot of the inode, or an unused one. -/
theorem wp_iget_slot (hs : Stable s)
    (hfull : (∀ r, s.refs r ≠ none) → (∀ r k, s.refs r ≠ some (n, k)) → Q none s)
    (hnew : ∀ r, s.refs r = none → (∀ r k, s.refs r ≠ some (n, k)) →
      Q (some r) (s.setSlot r ((s.icache r).claim n)))
    (hold : ∀ r k, s.refs r = some (n, k) → Q (some r) (s.setSlot r ((s.icache r).claim n))) :
    wp (iget n) E Q s := by
  have hself : { ({ s with icacheLock := true } : State) with icacheLock := false } = s := by
    rw [← hs.lock]
  have hset : ∀ r x, { ({ s with icacheLock := true } : State).setSlot r x with
      icacheLock := false } = s.setSlot r x := by
    intro r x
    simp only [State.setSlot, hs.lock]
  have hrefs : ({ s with icacheLock := true } : State).refs = s.refs := rfl
  simp only [iget, wp_bind]
  refine wp_icacheAcquire hs.lock ?_
  refine wp_firstSome (fun rest t => t = { s with icacheLock := true } ∧
      ∀ r, r ∉ rest → ∀ k, s.refs r ≠ some (n, k))
    ⟨rfl, fun r hr => absurd (List.mem_finRange r) hr⟩ ?_ ?_
  · rintro t ⟨rfl, hno⟩
    have hno : ∀ r k, s.refs r ≠ some (n, k) := fun r => hno r List.not_mem_nil
    simp only [wp_bind]
    refine wp_firstSome (fun rest t => t = { s with icacheLock := true } ∧
        ∀ r, r ∉ rest → s.refs r ≠ none)
      ⟨rfl, fun r hr => absurd (List.mem_finRange r) hr⟩ ?_ ?_
    · rintro t ⟨rfl, hbusy⟩
      refine wp_icacheRelease rfl ?_
      rw [wp_pure, hself]
      exact hfull (fun r => hbusy r List.not_mem_nil) hno
    · rintro r rest t - ⟨rfl, hbusy⟩
      refine wp_igetFree (hs.unlocked r) (fun h0 => ?_) fun h0 => ⟨rfl, fun r' hr' => ?_⟩
      · rw [hrefs] at h0
        refine wp_icacheRelease rfl ?_
        rw [wp_pure, hset]
        exact hnew r h0 hno
      · by_cases h : r' = r
        · exact h ▸ h0
        · exact hbusy r' (by simp [h, hr'])
  · rintro r rest t - ⟨rfl, hno⟩
    refine wp_igetCached (hs.unlocked r) (fun hhit => ?_) fun hmiss => ⟨rfl, fun r' hr' => ?_⟩
    · obtain ⟨k, hk⟩ := hhit
      simp only [wp_bind]
      refine wp_icacheRelease rfl ?_
      rw [wp_pure, hset]
      exact hold r k hk
    · by_cases h : r' = r
      · exact h ▸ hmiss
      · exact hno r' (by simp [h, hr'])

/-- Taking a reference to an inode of the table; it fails when no slot is left. -/
theorem wp_iget (hs : Stable s) (hn : n < ninodes) (htyp : (s.vol.inode n).typ ≠ 0)
    (hfull : (∀ r, s.refs r ≠ none) → (∀ r k, s.refs r ≠ some (n, k)) → Q none s)
    (hQ : ∀ r s', Quiet s s' → (s.refs r = none ∨ ∃ k, s.refs r = some (n, k)) →
      s'.refs = update s.refs r (addRef n (s.refs r)) → Q (some r) s') :
    wp (iget n) E Q s := by
  refine wp_iget_slot hs hfull (fun r h0 hno => ?_) fun r k hk => ?_
  · refine hQ r _ (hs.occupy h0 hn htyp hno) (Or.inl h0) ?_
    rw [setSlot_refs, Slot.claim_refs]
    rfl
  · obtain ⟨h0, hcnt, -⟩ := refs_some.mp hk
    have hclaim : (s.icache r).claim n = { s.icache r with refcnt := k + 1 } := by
      rw [Slot.claim, if_pos (by omega), hcnt]
    have hq := hs.recount hk (Nat.succ_pos k)
    rw [hclaim]
    refine hQ r _ hq.1 (Or.inr ⟨k, hk⟩) ?_
    rw [hq.2, hk, addRef]

end ToyOs.Fs
