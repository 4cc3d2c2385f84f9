import ToyOs.Tables

/-!
Bytes of user memory, over any page table in memory. `Grants` says of one
byte that the user may access it. The loops of `copyin`, `copyinstr` and
`copyout` move the bytes page by page; `userRound` is the part of a round they
share, and it goes on exactly when its first byte is granted.
-/
namespace ToyOs

open Bytes Prog

/-- The user may access this byte with the permission. -/
structure Grants (m : Store) (root perm x : ℕ) : Prop where
  low : x < maxVa
  leaf : isLeaf (pteAt m root (vpn x)) = true
  user : pteAt m root (vpn x) &&& pteU ≠ 0
  perm : pteAt m root (vpn x) &&& perm = perm

/-- The user may access `n` bytes from `va` on; no address wraps. -/
def Granted (m : Store) (root perm va n : ℕ) : Prop :=
  ∀ i, i < n → Grants m root perm (va + i)

/-- The physical address of a byte. -/
def physAt (m : Store) (root x : ℕ) : ℕ := ptePa (pteAt m root (vpn x)) + x % pgSize

/-- Memory by virtual addresses. -/
def viewAt (m : Store) (root : ℕ) : Store := fun x => m (physAt m root x)

theorem vpn_pageRoundDown (va : ℕ) : vpn (pageRoundDown va) = vpn va := by
  unfold vpn pageRoundDown pgSize
  omega

theorem vpn_add_of_lt {x i : ℕ} (hi : x % pgSize + i < pgSize) : vpn (x + i) = vpn x := by
  unfold vpn pgSize at *
  omega

section Bytewise

variable {m m' : Store} {root perm va x : ℕ}

theorem Granted.append {n k : ℕ} (h : Granted m root perm va n)
    (h' : Granted m root perm (va + n) k) : Granted m root perm va (n + k) := by
  intro i hi
  by_cases hin : i < n
  · exact h i hin
  · have := h' (i - n) (by omega)
    rwa [show va + n + (i - n) = va + i by omega] at this

theorem Granted.take {n k : ℕ} (h : Granted m root perm va n) (hk : k ≤ n) :
    Granted m root perm va k := fun i hi => h i (by omega)

/-- Access with some permission is access. -/
theorem Grants.any (h : Grants m root perm x) : Grants m root 0 x :=
  ⟨h.low, h.leaf, h.user, Nat.and_zero _⟩

theorem grants_congr (h : pteAt m' root (vpn x) = pteAt m root (vpn x)) :
    Grants m' root perm x ↔ Grants m root perm x := by
  constructor
  · rintro ⟨h1, h2, h3, h4⟩
    rw [h] at h2 h3 h4
    exact ⟨h1, h2, h3, h4⟩
  · rintro ⟨h1, h2, h3, h4⟩
    rw [← h] at h2 h3 h4
    exact ⟨h1, h2, h3, h4⟩

/-- Within a page the bytes share their entry and are consecutive. -/
theorem pteAt_add {i : ℕ} (hi : x % pgSize + i < pgSize) :
    pteAt m root (vpn (x + i)) = pteAt m root (vpn x) ∧
      physAt m root (x + i) = physAt m root x + i := by
  have hv := vpn_add_of_lt hi
  refine ⟨by rw [hv], ?_⟩
  unfold physAt
  rw [hv]
  unfold pgSize at *
  omega

theorem Grants.page {n : ℕ} (h : Grants m root perm x) (hn : x % pgSize + n ≤ pgSize) :
    Granted m root perm x n := by
  intro i hi
  have hpte : pteAt m root (vpn (x + i)) = pteAt m root (vpn x) := (pteAt_add (by omega)).1
  obtain ⟨h1, h2, h3, h4⟩ := h
  rw [← hpte] at h2 h3 h4
  refine ⟨?_, h2, h3, h4⟩
  unfold maxVa pgSize at *
  omega

/-- `walk_user_perm` on any table in memory. -/
theorem walkUserPerm_at (root va perm : ℕ) (s : Ram) :
    ∃ r, walkUserPerm root va perm s = .ok (r, s) ∧
      (Grants s.mem root perm va → r = some (pteAt s.mem root (vpn va))) ∧
      (¬ Grants s.mem root perm va → r = none) := by
  have hwp : (walkUserPerm root va perm).wp (fun _ => False) (fun r s' => s' = s ∧
      (Grants s.mem root perm va → r = some (pteAt s.mem root (vpn va))) ∧
      (¬ Grants s.mem root perm va → r = none)) s := by
    unfold walkUserPerm
    by_cases hmax : maxVa ≤ va
    · rw [if_pos hmax]
      exact ⟨rfl, fun h => absurd h.low (by omega), fun _ => rfl⟩
    rw [if_neg hmax, wp_bind]
    refine wp_of_ok (walk_at root va s) ?_
    cases hu : l0At s.mem root (vpn va / 512) with
    | none =>
      have hz : pteAt s.mem root (vpn va) = 0 := by
        unfold pteAt
        rw [hu]
      refine ⟨rfl, fun h => ?_, fun _ => rfl⟩
      have hleaf := h.leaf
      rw [hz] at hleaf
      exact absurd hleaf (by decide)
    | some u =>
      have hw : load 8 s.mem (u + 8 * (vpn va % 512)) = pteAt s.mem root (vpn va) := by
        unfold pteAt
        rw [hu]
      simp only [Option.map_some, loadPte, wp_bind, wp_get, wp_pure, hw,
        wp_ite, true_and]
      refine ⟨fun h => ⟨fun g => ?_, fun _ => trivial⟩, fun _ => ⟨fun h => ⟨fun g => absurd h g.user,
        fun _ => trivial⟩, fun hU => ⟨fun h => ⟨fun g => absurd g.perm h, fun _ => trivial⟩,
        fun hperm => ⟨fun h => ⟨fun g => ?_, fun _ => trivial⟩, fun hleaf =>
        ⟨fun _ => trivial, fun g => ?_⟩⟩⟩⟩⟩
      · simp [isValid_of_isLeaf g.leaf] at h
      · simp [g.leaf] at h
      · exact absurd ⟨by omega, by simpa using hleaf, hU, not_not.mp hperm⟩ g
  obtain ⟨r, s', hrun, rfl, hr⟩ := exists_ok hwp
  exact ⟨r, hrun, hr⟩

/-- What the rounds of the three copies have in common: the page of the byte
`done` is looked up, and the copy goes on with the place of the byte and the
number of bytes to move. -/
def userRound {α : Type} (root perm va done len : ℕ) (fail : RamM α) (next : ℕ → ℕ → RamM α) :
    RamM α :=
  match checkedAdd va done with
  | none => fail
  | some x =>
    if maxVa ≤ x then
      fail
    else do
      let page := pageRoundDown x
      let off := x - page
      let n := min (pgSize - off) (len - done)
      match ← walkUserPerm root page perm with
      | none => fail
      | some pte => next (ptePa pte + off) n

section Round

variable {α : Type} {fail : RamM α} {next : ℕ → ℕ → RamM α} {done len : ℕ} {s : Ram}

theorem userRound_refused (h : ¬ Grants s.mem root perm (va + done)) :
    userRound root perm va done len fail next s = fail s := by
  unfold userRound
  cases hadd : checkedAdd va done with
  | none => rfl
  | some x =>
    obtain rfl := checkedAdd_some hadd
    by_cases hmax : maxVa ≤ va + done
    · simp only [if_pos hmax]
    · have hpage : ¬ Grants s.mem root perm (pageRoundDown (va + done)) := by
        rintro ⟨-, h2, h3, h4⟩
        rw [vpn_pageRoundDown] at h2 h3 h4
        exact h ⟨by omega, h2, h3, h4⟩
      obtain ⟨r, hrun, -, hr⟩ := walkUserPerm_at root (pageRoundDown (va + done)) perm s
      obtain rfl := hr hpage
      simp only [if_neg hmax]
      rw [bind_ok hrun]

theorem userRound_granted (h : Grants s.mem root perm (va + done)) :
    userRound root perm va done len fail next s =
      next (physAt s.mem root (va + done))
        (min (pgSize - (va + done) % pgSize) (len - done)) s := by
  have hadd : checkedAdd va done = some (va + done) := if_pos (h.low.trans (by decide))
  have hmax : ¬ maxVa ≤ va + done := Nat.not_le.mpr h.low
  have hoff : va + done - pageRoundDown (va + done) = (va + done) % pgSize := by
    unfold pageRoundDown pgSize
    omega
  have hpage : Grants s.mem root perm (pageRoundDown (va + done)) := by
    obtain ⟨h1, h2, h3, h4⟩ := h
    rw [← vpn_pageRoundDown] at h2 h3 h4
    exact ⟨by unfold pageRoundDown pgSize; omega, h2, h3, h4⟩
  obtain ⟨r, hrun, hr, -⟩ := walkUserPerm_at root (pageRoundDown (va + done)) perm s
  obtain rfl := hr hpage
  unfold userRound
  simp only [hadd, if_neg hmax]
  rw [bind_ok hrun]
  simp only [hoff, vpn_pageRoundDown]
  rfl

end Round

theorem read_physAt {n : ℕ} (hn : x % pgSize + n ≤ pgSize) :
    read m (physAt m root x) n = read (viewAt m root) x n := by
  unfold Bytes.read viewAt
  refine List.map_congr_left fun i hi => ?_
  have hi := List.mem_range.mp hi
  show m _ = m _
  rw [(pteAt_add (by omega)).2]

end Bytewise

end ToyOs
