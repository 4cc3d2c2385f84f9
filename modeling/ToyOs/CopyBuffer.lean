import ToyOs.UserCopy

/-!
`copyin` and `copyinstr` with their kernel buffer. The buffer is a value that
`InBuffer.copyin` and `InBuffer.copyinstr` fill and return, also when they
fail; `copyin` and `copyinstr` are what the rest of the kernel sees of them.
-/
namespace ToyOs

open Bytes Prog List Nat

namespace InBuffer

/-- The loop of `copyin`: `done` bytes of `dst` are in place. -/
def copyinLoop (pt srcVa : ℕ) : ℕ → List UInt8 → ℕ → RamM (Option Unit × List UInt8)
  | 0, dst, _ => pure (some (), dst)
  | fuel + 1, dst, done =>
    if done < dst.length then
      match checkedAdd srcVa done with
      | none => pure (none, dst)
      | some va =>
        if maxVa ≤ va then
          pure (none, dst)
        else do
          let page := pageRoundDown va
          let off := va - page
          let n := min (pgSize - off) (dst.length - done)
          match ← walkUserPerm pt page pteR with
          | none => pure (none, dst)
          | some pte =>
            let s ← Prog.get
            copyinLoop pt srcVa fuel (overwrite dst done (read s.mem (ptePa pte + off) n)) (done + n)
    else
      pure (some (), dst)

def copyin (pt : ℕ) (dst : List UInt8) (srcVa : ℕ) : RamM (Option Unit × List UInt8) :=
  copyinLoop pt srcVa dst.length dst 0

/-- The inner loop of `copyinstr`: `n` bytes from `src` on go to `dst[pos..]`
until one of them is NUL. -/
def putStr (m : Store) : ℕ → ℕ → List UInt8 → ℕ → Option ℕ × List UInt8
  | 0, _, dst, _ => (none, dst)
  | n + 1, src, dst, pos =>
    if m src = 0 then
      (some pos, dst.set pos (m src))
    else
      putStr m n (src + 1) (dst.set pos (m src)) (pos + 1)

/-- The loop of `copyinstr`: `done` bytes of `dst` are in place. -/
def copyinstrLoop (pt srcVa : ℕ) : ℕ → List UInt8 → ℕ → RamM (Option ℕ × List UInt8)
  | 0, dst, _ => pure (none, dst)
  | fuel + 1, dst, done =>
    if done < dst.length then
      match checkedAdd srcVa done with
      | none => pure (none, dst)
      | some va =>
        if maxVa ≤ va then
          pure (none, dst)
        else do
          let page := pageRoundDown va
          let off := va - page
          let n := min (pgSize - off) (dst.length - done)
          match ← walkUserPerm pt page pteR with
          | none => pure (none, dst)
          | some pte =>
            let s ← Prog.get
            match putStr s.mem n (ptePa pte + off) dst done with
            | (some len, dst) => pure (some len, dst)
            | (none, dst) => copyinstrLoop pt srcVa fuel dst (done + n)
    else
      pure (none, dst)

/-- The length of the string without its NUL, and the buffer. -/
def copyinstr (pt : ℕ) (dst : List UInt8) (srcVa : ℕ) : RamM (Option ℕ × List UInt8) :=
  copyinstrLoop pt srcVa dst.length dst 0

end InBuffer

/-- A buffer whose first bytes were replaced. -/
def filled (dst l : List UInt8) : List UInt8 := l ++ dst.drop l.length

section Filled

variable {dst l : List UInt8}

theorem filled_length (h : l.length ≤ dst.length) : (filled dst l).length = dst.length := by
  unfold filled
  rw [length_append, length_drop]
  omega

theorem filled_full (h : l.length = dst.length) : filled dst l = l := by
  unfold filled
  rw [h, drop_length, append_nil]

theorem filled_take : (filled dst l).take l.length = l := take_left

theorem filled_overwrite (h : l.length ≤ dst.length) (l' : List UInt8) :
    overwrite (filled dst l) l.length l' = filled dst (l ++ l') := by
  have hlen := filled_length h
  unfold overwrite
  rw [hlen, Nat.sub_eq_zero_of_le h, replicate_zero, append_nil]
  simp only [filled_take]
  unfold filled
  rw [drop_append, drop_eq_nil_of_le (by omega), nil_append, drop_drop,
    length_append]
  congr 2
  omega

theorem filled_set (h : l.length < dst.length) (b : UInt8) :
    (filled dst l).set l.length b = filled dst (l ++ [b]) := by
  unfold filled
  rw [set_append_right _ _ (Nat.le_refl _), Nat.sub_self, drop_eq_getElem_cons h,
    set_cons_zero, length_append, length_singleton, append_assoc]
  rfl

end Filled

section Runs

variable {root va : ℕ} {s : Ram} {dst : List UInt8}

theorem InBuffer.copyinLoop_succ (fuel done : ℕ) :
    InBuffer.copyinLoop root va (fuel + 1) dst done =
      if done < dst.length then
        userRound root pteR va done dst.length (pure (none, dst)) fun pa n => do
          let s ← Prog.get
          InBuffer.copyinLoop root va fuel (overwrite dst done (read s.mem pa n)) (done + n)
      else
        pure (some (), dst) := rfl

/-- The loop of `copyin` fills the buffer up to the first byte that is refused. -/
theorem InBuffer.copyinLoop_run {fuel done : ℕ} (hdone : done ≤ dst.length)
    (hfuel : dst.length ≤ done + fuel) (hg : Granted s.mem root pteR va done) :
    ∃ r k, InBuffer.copyinLoop root va fuel (filled dst (read (viewAt s.mem root) va done)) done s =
        .ok ((r, filled dst (read (viewAt s.mem root) va k)), s) ∧
      k ≤ dst.length ∧ Granted s.mem root pteR va k ∧ (r = some () → k = dst.length) ∧
      (r = none → k < dst.length ∧ ¬ Grants s.mem root pteR (va + k)) := by
  induction fuel generalizing done with
  | zero => exact ⟨some (), done, rfl, hdone, hg, fun _ => by omega, by simp⟩
  | succ fuel ih =>
    have hread : (read (viewAt s.mem root) va done).length = done := read_length _ _ _
    rw [InBuffer.copyinLoop_succ, filled_length (by omega)]
    by_cases hlt : done < dst.length
    · rw [if_pos hlt]
      by_cases hbyte : Grants s.mem root pteR (va + done)
      · rw [userRound_granted hbyte]
        generalize hn : min (pgSize - (va + done) % pgSize) (dst.length - done) = n
        have hmod : (va + done) % pgSize < pgSize := mod_lt _ (by decide)
        have hchunk : read s.mem (physAt s.mem root (va + done)) n =
            read (viewAt s.mem root) (va + done) n := read_physAt (by omega)
        have hput := @filled_overwrite dst (read (viewAt s.mem root) va done) (by omega)
          (read (viewAt s.mem root) (va + done) n)
        rw [hread, ← read_add] at hput
        obtain ⟨r, k, hrun, hrest⟩ := @ih (done + n) (by omega) (by omega)
          (hg.append (hbyte.page (by omega)))
        refine ⟨r, k, ?_, hrest⟩
        rw [← hrun, ← hput, ← hchunk]
        rfl
      · rw [userRound_refused hbyte]
        exact ⟨none, done, rfl, hdone, hg, by simp, fun _ => ⟨hlt, hbyte⟩⟩
    · rw [if_neg hlt]
      exact ⟨some (), done, rfl, hdone, hg, fun _ => by omega, by simp⟩

theorem InBuffer.copyin_run (root va : ℕ) (s : Ram) (dst : List UInt8) :
    ∃ r k, InBuffer.copyin root dst va s =
        .ok ((r, filled dst (read (viewAt s.mem root) va k)), s) ∧
      k ≤ dst.length ∧ Granted s.mem root pteR va k ∧ (r = some () → k = dst.length) ∧
      (r = none → k < dst.length ∧ ¬ Grants s.mem root pteR (va + k)) :=
  InBuffer.copyinLoop_run (zero_le _) (by omega) fun i hi => absurd hi (not_lt_zero i)

theorem read_succ (m : Store) (a n : ℕ) : read m a (n + 1) = m a :: read m (a + 1) n := by
  rw [add_comm n 1, read_add]
  rfl

/-- The inner loop stops behind the first NUL. -/
theorem InBuffer.putStr_run {m : Store} {n src : ℕ} {l : List UInt8}
    (h : l.length + n ≤ dst.length) :
    ((∀ i, i < n → m (src + i) ≠ 0) →
      InBuffer.putStr m n src (filled dst l) l.length = (none, filled dst (l ++ read m src n))) ∧
    (∀ j, j < n → CStr m src j →
      InBuffer.putStr m n src (filled dst l) l.length =
        (some (l.length + j), filled dst (l ++ read m src (j + 1)))) := by
  induction n generalizing src l with
  | zero => exact ⟨fun _ => by rw [read_zero, append_nil]; rfl, fun j hj => absurd hj (by omega)⟩
  | succ n ih =>
    unfold InBuffer.putStr
    rw [filled_set (by omega)]
    have hlen : (l ++ [m src]).length = l.length + 1 := by simp
    have hstep := @ih (src + 1) (l ++ [m src]) (by omega)
    rw [hlen] at hstep
    constructor
    · intro hbody
      rw [if_neg (show m src ≠ 0 from hbody 0 (by omega)), hstep.1 fun i hi => ?_, read_succ, append_assoc]
      · rfl
      · rw [show src + 1 + i = src + (i + 1) by omega]
        exact hbody (i + 1) (by omega)
    · intro j hj hstr
      cases j with
      | zero =>
        rw [if_pos (show m src = 0 from hstr.nul), read_succ, read_zero]
        rfl
      | succ j =>
        have htail : CStr m (src + 1) j := by
          refine ⟨fun i hi => ?_, ?_⟩
          · rw [show src + 1 + i = src + (i + 1) by omega]
            exact hstr.body (i + 1) (by omega)
          · rw [show src + 1 + j = src + (j + 1) by omega]
            exact hstr.nul
        rw [if_neg (show m src ≠ 0 from hstr.body 0 (by omega)), hstep.2 j (by omega) htail, read_succ _ _ (j + 1),
          append_assoc, show l.length + 1 + j = l.length + (j + 1) by omega]
        rfl

theorem InBuffer.copyinstrLoop_succ (fuel done : ℕ) :
    InBuffer.copyinstrLoop root va (fuel + 1) dst done =
      if done < dst.length then
        userRound root pteR va done dst.length (pure (none, dst)) fun pa n => do
          let s ← Prog.get
          match InBuffer.putStr s.mem n pa dst done with
          | (some len, dst) => pure (some len, dst)
          | (none, dst) => InBuffer.copyinstrLoop root va fuel dst (done + n)
      else
        pure (none, dst) := rfl

/-- The loop of `copyinstr` fills the buffer up to the first NUL or the first
byte that is refused. -/
theorem InBuffer.copyinstrLoop_run {fuel done : ℕ} (hdone : done ≤ dst.length)
    (hfuel : dst.length ≤ done + fuel) (hg : Granted s.mem root pteR va done)
    (hbody : ∀ i, i < done → viewAt s.mem root (va + i) ≠ 0) :
    ∃ r k, InBuffer.copyinstrLoop root va fuel (filled dst (read (viewAt s.mem root) va done)) done s =
        .ok ((r, filled dst (read (viewAt s.mem root) va k)), s) ∧ k ≤ dst.length ∧
      (∀ n, r = some n → k = n + 1 ∧ UserStr s.mem root va dst.length n) ∧
      (r = none → ∀ n, ¬ UserStr s.mem root va dst.length n) := by
  induction fuel generalizing done with
  | zero =>
    refine ⟨none, done, rfl, hdone, by simp, fun _ n hn => ?_⟩
    have := hn.fits
    exact hbody n (by omega) hn.str.nul
  | succ fuel ih =>
    have hread : (read (viewAt s.mem root) va done).length = done := read_length _ _ _
    -- A string cannot end before the bytes that were read.
    have hlong : ∀ n, UserStr s.mem root va dst.length n → done ≤ n := by
      intro n hn
      by_contra hlt
      exact hbody n (by omega) hn.str.nul
    rw [InBuffer.copyinstrLoop_succ, filled_length (by omega)]
    by_cases hlt : done < dst.length
    · rw [if_pos hlt]
      by_cases hbyte : Grants s.mem root pteR (va + done)
      · rw [userRound_granted hbyte]
        generalize hk : min (pgSize - (va + done) % pgSize) (dst.length - done) = k
        have hmod : (va + done) % pgSize < pgSize := mod_lt _ (by decide)
        have hphys : ∀ i, i < k → s.mem (physAt s.mem root (va + done) + i) =
            viewAt s.mem root (va + done + i) :=
          fun i hi => congrArg s.mem (pteAt_add (by omega)).2.symm
        have hchunk : ∀ j, j ≤ k → read s.mem (physAt s.mem root (va + done)) j =
            read (viewAt s.mem root) (va + done) j := fun j hj => read_physAt (by omega)
        obtain ⟨hnone, hsome⟩ := @InBuffer.putStr_run dst s.mem k (physAt s.mem root (va + done))
          (read (viewAt s.mem root) va done) (by omega)
        rw [hread] at hnone hsome
        by_cases hzero : 0 ∈ read (viewAt s.mem root) (va + done) k
        · obtain ⟨j, hj, hstr, -⟩ := takeWhile_read hzero
          have hmem : CStr s.mem (physAt s.mem root (va + done)) j := by
            refine ⟨fun i hi => ?_, ?_⟩
            · rw [hphys i (by omega)]
              exact hstr.body i hi
            · rw [hphys j hj]
              exact hstr.nul
          have hread' : Granted s.mem root pteR va (done + (j + 1)) :=
            hg.append (hbyte.page (by omega))
          have hfound : UserStr s.mem root va dst.length (done + j) :=
            ⟨by omega, hstr.shift hbody, hread'⟩
          refine ⟨some (done + j), done + (j + 1), ?_, by omega, ?_, by simp⟩
          · rw [bind_ok (show Prog.get s = .ok (s, s) from rfl), hsome j hj hmem,
              hchunk (j + 1) hj, ← read_add]
            rfl
          · intro n hn
            obtain rfl := Option.some.inj hn
            exact ⟨by omega, hfound⟩
        · have hclear : ∀ i, i < k → viewAt s.mem root (va + done + i) ≠ 0 := fun i hi heq =>
            hzero (mem_map.mpr ⟨i, mem_range.mpr hi, heq⟩)
          obtain ⟨r, k', hrun, hrest⟩ := @ih (done + k) (by omega) (by omega)
            (hg.append (hbyte.page (by omega))) fun i hi heq => by
              by_cases hin : i < done
              · exact hbody i hin heq
              · refine hclear (i - done) (by omega) ?_
                rwa [show va + done + (i - done) = va + i by omega]
          refine ⟨r, k', ?_, hrest⟩
          rw [bind_ok (show Prog.get s = .ok (s, s) from rfl),
            hnone fun i hi => by rw [hphys i hi]; exact hclear i hi, hchunk k (le_refl _),
            ← read_add]
          exact hrun
      · rw [userRound_refused hbyte]
        refine ⟨none, done, rfl, hdone, by simp, fun _ n hn => ?_⟩
        have := hlong n hn
        exact hbyte (hn.granted done (by omega))
    · rw [if_neg hlt]
      refine ⟨none, done, rfl, hdone, by simp, fun _ n hn => ?_⟩
      have := hlong n hn
      have := hn.fits
      omega

theorem InBuffer.copyinstr_run (root va : ℕ) (s : Ram) (dst : List UInt8) :
    ∃ r k, InBuffer.copyinstr root dst va s =
        .ok ((r, filled dst (read (viewAt s.mem root) va k)), s) ∧ k ≤ dst.length ∧
      (∀ n, r = some n → k = n + 1 ∧ UserStr s.mem root va dst.length n) ∧
      (r = none → ∀ n, ¬ UserStr s.mem root va dst.length n) :=
  InBuffer.copyinstrLoop_run (zero_le _) (by omega) (fun i hi => absurd hi (not_lt_zero i))
    fun i hi => absurd hi (not_lt_zero i)

end Runs

end ToyOs
