import ToyOs.UserBytes

/-!
What the copies between the kernel and user memory do, over any page table in
memory: `copyin` and `copyinstr` read the bytes of the range, and `copyout`
stores them up to the first one that is refused. For `copyout` the user pages
must not be pages of the table itself. Two addresses may share a page:
`putBytes` stores byte after byte, and the last one stays.
-/
namespace ToyOs

open Bytes Prog Function List Nat

/-- A page table none of whose user pages is one of its own pages. -/
structure UserTable (m : Store) (root : ℕ) : Prop where
  aligned : root % pgSize = 0
  apart : ∀ x, Grants m root 0 x → ptePa (pteAt m root (vpn x)) ∉ tablesAt m root

/-- Store the bytes one after the other at the places of consecutive addresses. -/
def putBytes (phys : ℕ → ℕ) (m : Store) (va : ℕ) : List UInt8 → Store
  | [] => m
  | b :: rest => putBytes phys (Function.update m (phys va) b) (va + 1) rest

/-- A string of `n` bytes that ends in NUL. -/
structure CStr (f : Store) (va n : ℕ) : Prop where
  body : ∀ i, i < n → f (va + i) ≠ 0
  nul : f (va + n) = 0

/-- The part of a block before its first zero. -/
theorem takeWhile_read {f : Store} {a n : ℕ} (h : 0 ∈ read f a n) :
    ∃ k, k < n ∧ CStr f a k ∧ (read f a n).takeWhile (· ≠ 0) = read f a k := by
  induction n generalizing a with
  | zero => simp [Bytes.read] at h
  | succ n ih =>
    have hcons : ∀ k, read f a (k + 1) = f a :: read f (a + 1) k := by
      intro k
      rw [add_comm k 1, read_add]
      rfl
    rw [hcons] at h ⊢
    by_cases h0 : f a = 0
    · refine ⟨0, by omega, ⟨fun i hi => absurd hi (not_lt_zero i), h0⟩, ?_⟩
      simp [h0, read_zero]
    · have hrest : 0 ∈ read f (a + 1) n := by
        rcases mem_cons.mp h with h | h
        · exact absurd h.symm h0
        · exact h
      obtain ⟨k, hk, hstr, heq⟩ := ih hrest
      refine ⟨k + 1, by omega, ⟨fun i hi => ?_, ?_⟩, ?_⟩
      · cases i with
        | zero => exact h0
        | succ i =>
          rw [show a + (i + 1) = a + 1 + i by omega]
          exact hstr.body i (by omega)
      · rw [show a + (k + 1) = a + 1 + k by omega]
        exact hstr.nul
      · rw [takeWhile_cons_of_pos (by simpa using h0), heq, hcons]

theorem CStr.shift {f : Store} {va n k : ℕ} (hbody : ∀ i, i < n → f (va + i) ≠ 0)
    (h : CStr f (va + n) k) : CStr f va (n + k) := by
  refine ⟨fun i hi => ?_, ?_⟩
  · by_cases hlt : i < n
    · exact hbody i hlt
    · have := h.body (i - n) (by omega)
      rwa [show va + n + (i - n) = va + i by omega] at this
  · rw [← add_assoc]
    exact h.nul

theorem CStr.unique {f : Store} {va n k : ℕ} (h : CStr f va n) (h' : CStr f va k) : n = k := by
  rcases lt_trichotomy n k with hlt | heq | hgt
  · exact absurd h.nul (h'.body n hlt)
  · exact heq
  · exact absurd h'.nul (h.body k hgt)

section Runs

variable {root va len : ℕ} {s : Ram}

theorem copyinLoop_succ (fuel : ℕ) (got : List UInt8) :
    copyinLoop root va len (fuel + 1) got =
      if got.length < len then
        userRound root pteR va got.length len (pure none) fun pa n => do
          let s ← Prog.get
          copyinLoop root va len fuel (got ++ read s.mem pa n)
      else
        pure (some got) := rfl

theorem copyinLoop_run {fuel done : ℕ} (hdone : done ≤ len) (hfuel : len ≤ done + fuel)
    (hg : Granted s.mem root pteR va done) :
    (Granted s.mem root pteR va len →
      copyinLoop root va len fuel (read (viewAt s.mem root) va done) s =
        .ok (some (read (viewAt s.mem root) va len), s)) ∧
    (¬ Granted s.mem root pteR va len →
      copyinLoop root va len fuel (read (viewAt s.mem root) va done) s = .ok (none, s)) := by
  induction fuel generalizing done with
  | zero =>
    obtain rfl : done = len := by omega
    exact ⟨fun _ => rfl, fun hnot => absurd hg hnot⟩
  | succ fuel ih =>
    rw [copyinLoop_succ, read_length]
    by_cases hlt : done < len
    · rw [if_pos hlt]
      by_cases hbyte : Grants s.mem root pteR (va + done)
      · rw [userRound_granted hbyte]
        generalize hn : min (pgSize - (va + done) % pgSize) (len - done) = n
        have hmod : (va + done) % pgSize < pgSize := mod_lt _ (by decide)
        have hchunk : read s.mem (physAt s.mem root (va + done)) n =
            read (viewAt s.mem root) (va + done) n := read_physAt (by omega)
        show (_ → copyinLoop root va len fuel (_ ++ _) s = _) ∧ (_ → copyinLoop root va len fuel _ s = _)
        rw [hchunk, ← read_add]
        exact ih (by omega) (by omega) (hg.append (hbyte.page (by omega)))
      · rw [userRound_refused hbyte]
        exact ⟨fun hall => absurd (hall done hlt) hbyte, fun _ => rfl⟩
    · obtain rfl : done = len := by omega
      rw [if_neg hlt]
      exact ⟨fun _ => rfl, fun hnot => absurd hg hnot⟩

/-- `copyin` reads the range when the user may read all of it. -/
theorem copyin_run :
    (Granted s.mem root pteR va len →
      copyin root va len s = .ok (some (read (viewAt s.mem root) va len), s)) ∧
    (¬ Granted s.mem root pteR va len → copyin root va len s = .ok (none, s)) :=
  copyinLoop_run (zero_le _) (by omega) fun i hi => absurd hi (not_lt_zero i)

theorem copyinstrLoop_succ (fuel : ℕ) (got : List UInt8) :
    copyinstrLoop root va len (fuel + 1) got =
      if got.length < len then
        userRound root pteR va got.length len (pure none) fun pa n => do
          let s ← Prog.get
          let chunk := read s.mem pa n
          if 0 ∈ chunk then
            pure (some (got ++ chunk.takeWhile (· ≠ 0)))
          else
            copyinstrLoop root va len fuel (got ++ chunk)
      else
        pure none := rfl

/-- What `copyinstr` looks for: a string shorter than the buffer that the
user may read, with its NUL. -/
structure UserStr (m : Store) (root va len n : ℕ) : Prop where
  fits : n < len
  str : CStr (viewAt m root) va n
  granted : Granted m root pteR va (n + 1)

/-- The loop of `copyinstr`: no NUL was met so far. -/
theorem copyinstrLoop_run {fuel done : ℕ} (hdone : done ≤ len) (hfuel : len < done + fuel)
    (hg : Granted s.mem root pteR va done)
    (hbody : ∀ i, i < done → viewAt s.mem root (va + i) ≠ 0) :
    (∀ n, UserStr s.mem root va len n →
      copyinstrLoop root va len fuel (read (viewAt s.mem root) va done) s =
        .ok (some (read (viewAt s.mem root) va n), s)) ∧
    ((∀ n, ¬ UserStr s.mem root va len n) →
      copyinstrLoop root va len fuel (read (viewAt s.mem root) va done) s = .ok (none, s)) := by
  induction fuel generalizing done with
  | zero => omega
  | succ fuel ih =>
    -- A string cannot end before the bytes that were read.
    have hlong : ∀ n, UserStr s.mem root va len n → done ≤ n := by
      intro n hn
      by_contra hlt
      exact hbody n (by omega) hn.str.nul
    rw [copyinstrLoop_succ, read_length]
    by_cases hlt : done < len
    · rw [if_pos hlt]
      by_cases hbyte : Grants s.mem root pteR (va + done)
      · rw [userRound_granted hbyte]
        generalize hk : min (pgSize - (va + done) % pgSize) (len - done) = k
        have hmod : (va + done) % pgSize < pgSize := mod_lt _ (by decide)
        have hchunk : read s.mem (physAt s.mem root (va + done)) k =
            read (viewAt s.mem root) (va + done) k := read_physAt (by omega)
        have hpage : ∀ j, j ≤ k → Granted s.mem root pteR va (done + j) := fun j hj =>
          hg.append (hbyte.page (by omega))
        simp only [bind_ok (show Prog.get s = .ok (s, s) from rfl), hchunk]
        by_cases hzero : 0 ∈ read (viewAt s.mem root) (va + done) k
        · obtain ⟨j, hj, hstr, htake⟩ := takeWhile_read hzero
          have hfound : UserStr s.mem root va len (done + j) :=
            ⟨by omega, hstr.shift hbody, hpage (j + 1) (by omega)⟩
          rw [if_pos hzero, htake, ← read_add]
          exact ⟨fun n hn => by rw [hn.str.unique hfound.str]; rfl, fun hnone => absurd hfound (hnone _)⟩
        · rw [if_neg hzero, ← read_add]
          refine ih (by omega) (by omega) (hpage k (le_refl _)) fun i hi heq => ?_
          by_cases hin : i < done
          · exact hbody i hin heq
          · refine hzero (mem_map.mpr ⟨i - done, mem_range.mpr (by omega), ?_⟩)
            rw [show va + done + (i - done) = va + i by omega]
            exact heq
      · rw [userRound_refused hbyte]
        refine ⟨fun n hn => ?_, fun _ => rfl⟩
        have := hlong n hn
        exact absurd (hn.granted done (by omega)) hbyte
    · rw [if_neg hlt]
      refine ⟨fun n hn => ?_, fun _ => rfl⟩
      have := hlong n hn
      have := hn.fits
      omega

/-- `copyinstr` returns the string at the address. -/
theorem copyinstr_run :
    (∀ n, UserStr s.mem root va len n →
      copyinstr root va len s = .ok (some (read (viewAt s.mem root) va n), s)) ∧
    ((∀ n, ¬ UserStr s.mem root va len n) → copyinstr root va len s = .ok (none, s)) :=
  copyinstrLoop_run (zero_le _) (by omega) (fun i hi => absurd hi (not_lt_zero i))
    fun i hi => absurd hi (not_lt_zero i)

end Runs

section Put

variable {f : ℕ → ℕ} {m : Store} {va : ℕ} {l : List UInt8}

theorem putBytes_append (l' : List UInt8) :
    putBytes f m va (l ++ l') = putBytes f (putBytes f m va l) (va + l.length) l' := by
  induction l generalizing m va with
  | nil => rfl
  | cons b rest ih =>
    rw [cons_append, putBytes, ih, putBytes, length_cons,
      show va + 1 + rest.length = va + (rest.length + 1) by omega]

theorem putBytes_frame {a : ℕ} (h : ∀ i, i < l.length → f (va + i) ≠ a) :
    putBytes f m va l a = m a := by
  induction l generalizing m va with
  | nil => rfl
  | cons b rest ih =>
    rw [putBytes, ih fun i hi => ?_, update_of_ne]
    · exact (h 0 (by simp)).symm
    · rw [show va + 1 + i = va + (i + 1) by omega]
      exact h (i + 1) (by simpa using hi)

/-- Bytes at consecutive places are written as a block. -/
theorem putBytes_consecutive {a : ℕ} (h : ∀ i, i < l.length → f (va + i) = a + i) :
    putBytes f m va l = write m a l := by
  induction l generalizing m va a with
  | nil => rw [putBytes, write_nil]
  | cons b rest ih =>
    have hfirst : update m (f va) b = write m a [b] := by
      rw [show f va = a from h 0 (by simp)]
      funext x
      unfold write
      by_cases hx : x = a
      · subst hx
        simp
      · rw [update_of_ne hx, if_neg (by simp only [length_singleton]; omega)]
    have hrest : ∀ i, i < rest.length → f (va + 1 + i) = a + 1 + i := by
      intro i hi
      rw [show va + 1 + i = va + (i + 1) by omega, h (i + 1) (by simpa using hi)]
      omega
    rw [putBytes, hfirst, ih hrest]
    exact write_append m a [b] rest

/-- At different places every byte stays. -/
theorem putBytes_get (hinj : ∀ i j, i < l.length → j < l.length → f (va + i) = f (va + j) → i = j)
    {i : ℕ} (hi : i < l.length) : putBytes f m va l (f (va + i)) = l.getD i 0 := by
  induction l generalizing m va i with
  | nil => exact absurd hi (not_lt_zero i)
  | cons b rest ih =>
    have hshift : ∀ j, va + 1 + j = va + (j + 1) := fun j => by omega
    rw [length_cons] at hi
    cases i with
    | zero =>
      rw [putBytes, putBytes_frame fun j hj heq => ?_]
      · exact update_self _ _ _
      · rw [hshift] at heq
        have := hinj (j + 1) 0 (by simpa using hj) (by simp) heq
        omega
    | succ i =>
      have hrest : ∀ j k, j < rest.length → k < rest.length →
          f (va + 1 + j) = f (va + 1 + k) → j = k := by
        intro j k hj hk heq
        rw [hshift, hshift] at heq
        have := hinj (j + 1) (k + 1) (by simpa using hj) (by simpa using hk) heq
        omega
      rw [putBytes, ← hshift i, ih hrest (by omega)]
      rfl

end Put

section CopyOut

variable {root va : ℕ} {m : Store}

/-- Bytes stored in user pages do not reach the tables. -/
theorem UserTable.pteAt_putBytes (h : UserTable m root) {perm : ℕ} {l : List UInt8}
    (hg : Granted m root perm va l.length) {k : ℕ} (hk : k < 2 ^ 27) :
    pteAt (putBytes (physAt m root) m va l) root k = pteAt m root k := by
  refine (sameWords_of_bytes fun p hp j hj => putBytes_frame fun i hi heq => ?_).pteAt hk
  have hapart := h.apart _ (hg i hi).any
  have hpage := ptePa_aligned (pteAt m root (vpn (va + i)))
  have htable := tablesAt_aligned h.aligned hp
  have hsame : ptePa (pteAt m root (vpn (va + i))) = p := by
    unfold physAt pgSize at *
    omega
  exact hapart (hsame ▸ hp)

theorem copyoutLoop_succ (src : List UInt8) (fuel done : ℕ) :
    copyoutLoop root va src (fuel + 1) done =
      if done < src.length then
        userRound root pteW va done src.length (pure none) fun pa n => do
          Prog.modify fun s => { s with mem := write s.mem pa ((src.drop done).take n) }
          copyoutLoop root va src fuel (done + n)
      else
        pure (some ()) := rfl

/-- The loop of `copyout`: it stops at the first byte that is refused. -/
theorem copyoutLoop_run (h : UserTable m root) {src : List UInt8} {hd fuel done : ℕ}
    (hdone : done ≤ src.length) (hfuel : src.length ≤ done + fuel) (hg : Granted m root pteW va done) :
    ∃ r k, copyoutLoop root va src fuel done
        { mem := putBytes (physAt m root) m va (src.take done), head := hd } =
          .ok (r, { mem := putBytes (physAt m root) m va (src.take k), head := hd }) ∧
      k ≤ src.length ∧ Granted m root pteW va k ∧ (r = some () → k = src.length) ∧
      (r = none → k < src.length ∧ ¬ Grants m root pteW (va + k)) := by
  induction fuel generalizing done with
  | zero => exact ⟨some (), done, rfl, hdone, hg, fun _ => by omega, by simp⟩
  | succ fuel ih =>
    rw [copyoutLoop_succ]
    by_cases hlt : done < src.length
    · rw [if_pos hlt]
      have hlen : (src.take done).length = done := by
        rw [length_take]
        omega
      -- The tables are still those of `m`.
      have hpte : ∀ x, pteAt (putBytes (physAt m root) m va (src.take done)) root (vpn x) =
          pteAt m root (vpn x) := fun x => h.pteAt_putBytes (by rw [hlen]; exact hg) (vpn_lt x)
      by_cases hbyte : Grants m root pteW (va + done)
      · rw [userRound_granted ((grants_congr (hpte _)).mpr hbyte)]
        generalize hn : min (pgSize - (va + done) % pgSize) (src.length - done) = n
        have hmod : (va + done) % pgSize < pgSize := mod_lt _ (by decide)
        have hchunk : ((src.drop done).take n).length = n := by
          rw [length_take, length_drop]
          omega
        have hphys : physAt (putBytes (physAt m root) m va (src.take done)) root (va + done) =
            physAt m root (va + done) :=
          congrArg (fun w => ptePa w + (va + done) % pgSize) (hpte (va + done))
        have hput : putBytes (physAt m root) m va (src.take (done + n)) =
            write (putBytes (physAt m root) m va (src.take done)) (physAt m root (va + done))
              ((src.drop done).take n) := by
          rw [take_add, putBytes_append, hlen]
          exact putBytes_consecutive fun i hi => (pteAt_add (by omega)).2
        obtain ⟨r, k, hrun, hrest⟩ := @ih (done + n) (by omega) (by omega)
          (hg.append (hbyte.page (by omega)))
        refine ⟨r, k, ?_, hrest⟩
        rw [hphys, ← hrun, hput]
        rfl
      · rw [userRound_refused fun hg' => hbyte ((grants_congr (hpte _)).mp hg')]
        exact ⟨none, done, rfl, hdone, hg, by simp, fun _ => ⟨hlt, hbyte⟩⟩
    · rw [if_neg hlt]
      exact ⟨some (), done, rfl, hdone, hg, fun _ => by omega, by simp⟩

/-- `copyout` stores the bytes up to the first one that is refused. -/
theorem copyout_run {s : Ram} (h : UserTable s.mem root) (va : ℕ) (src : List UInt8) :
    ∃ r k, copyout root va src s =
        .ok (r, { s with mem := putBytes (physAt s.mem root) s.mem va (src.take k) }) ∧
      k ≤ src.length ∧ Granted s.mem root pteW va k ∧ (r = some () → k = src.length) ∧
      (r = none → k < src.length ∧ ¬ Grants s.mem root pteW (va + k)) :=
  copyoutLoop_run h (zero_le _) (by omega) fun i hi => absurd hi (not_lt_zero i)

end CopyOut

end ToyOs
