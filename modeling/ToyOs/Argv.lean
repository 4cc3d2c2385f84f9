import ToyOs.PushArgv
import ToyOs.Boot

/-!
Arguments on their way through `exec`. `Placed` is an argument vector in the
memory of a process: an array of addresses that ends with a null, each of
them the address of a string. `copy_argv` reads such a vector if it is
within the limits, `push_argv` makes one on the new stack, and the start-up
code of a user program reads it there.
-/
namespace ToyOs

open Bytes Prog Function List

/-- A string of the process. -/
structure PlacedString (T : Tree) (m : Store) (p : ℕ) (arg : List UInt8) : Prop where
  nonnull : p ≠ 0
  readable : T.Readable p (arg.length + 1)
  bytes : read (T.view m) p (arg.length + 1) = arg ++ [0]
  noNul : 0 ∉ arg

/-- Entry `i` of a pointer array. -/
@[irreducible] def argPtr (f : Store) (argvVa i : ℕ) : ℕ := load 8 f (argvVa + i * 8)

/-- An argument vector of the process. -/
structure Placed (T : Tree) (m : Store) (argvVa : ℕ) (args : List (List UInt8)) : Prop where
  nonnull : argvVa ≠ 0
  readable : T.Readable argvVa ((args.length + 1) * 8)
  arg : ∀ i, (h : i < args.length) → PlacedString T m (argPtr (T.view m) argvVa i) args[i]
  null : argPtr (T.view m) argvVa args.length = 0

/-- The limits of `copy_argv`. -/
def WithinLimits (args : List (List UInt8)) : Prop := (KernelArgs.mk args).Wf

section User

/-- `cstr_len`, with a bound for the rounds of its loop. -/
def cstrLen (m : Store) (p : ℕ) : ℕ → ℕ → Option ℕ
  | 0, _ => none
  | fuel + 1, len => if m (p + len) ≠ 0 then cstrLen m p fuel (len + 1) else some len

/-- The arguments as the start-up code hands them to a program. -/
structure Args where
  argc : ℕ
  argv : ℕ

def Args.new (argc argv : ℕ) : Args := ⟨argc, argv⟩

def Args.len (a : Args) : ℕ := a.argc

/-- `Args::get`; the outer `none` is a loop that was cut off. -/
def Args.get (a : Args) (m : Store) (fuel i : ℕ) : Option (Option (List UInt8)) :=
  if a.argc ≤ i then
    some none
  else
    let p := argPtr m a.argv i
    if p = 0 then
      some none
    else
      match cstrLen m p fuel 0 with
      | none => none
      | some len => some (some (read m p len))

end User

section Copy

variable {L : Layout} {R : Multiset ℕ} {s : Ram} {T : Tree} {F : List ℕ} {tf argvVa p : ℕ}
  {E : Panic → Prop} {args : List (List UInt8)} {arg : List UInt8} {m : Store}

theorem PlacedString.text (h : PlacedString T m p arg) : read (T.view m) p arg.length = arg := by
  have hb := h.bytes
  rw [read_add] at hb
  exact (append_inj hb (read_length _ _ _)).1

theorem PlacedString.cstr (h : PlacedString T m p arg) : CStr (T.view m) p arg.length := by
  have hb := h.bytes
  rw [read_add] at hb
  have hnul := (append_inj hb (read_length _ _ _)).2
  refine ⟨fun i hi hzero => h.noNul ?_, by simpa [Bytes.read] using hnul⟩
  rw [← h.text, Bytes.read, mem_map]
  exact ⟨i, mem_range.mpr hi, hzero⟩

theorem field_read (f : Store) (a : ℕ) : field (read f a 8) 0 8 = load 8 f a := by
  apply leNat_congr
  intro k hk
  have hlen : k < (read f a 8).length := by rwa [read_length]
  simp only [Nat.zero_add, getD_eq_getElem _ _ hlen, read_getElem]

theorem wp_copyArgvLoop (h : Space L s T F R) (hp : Placed T s.mem argvVa args) {i fuel : ℕ}
    (hi : i ≤ args.length) (hmax : i ≤ maxArg) (hfuel : i + fuel = maxArg + 1)
    (hshort : ∀ a ∈ args.take i, a.length < maxArgLen) {Q : Option KernelArgs → Ram → Prop}
    (hsome : WithinLimits args → Q (some ⟨args⟩) s) (hnone : ¬ WithinLimits args → Q none s) :
    (copyArgvLoop T.root argvVa fuel (args.take i)).wp E Q s := by
  induction fuel generalizing i with
  | zero => omega
  | succ fuel ih =>
    have hlow := (hp.readable (argvVa + i * 8) (by omega) (by omega)).1
    have hadd : checkedAdd argvVa (i * 8) = some (argvVa + i * 8) := by
      unfold checkedAdd
      rw [if_pos]
      exact lt_trans hlow (by decide)
    unfold copyArgvLoop
    rw [length_take, Nat.min_eq_left hi, hadd]
    simp only [wp_bind]
    refine wp_copyin h ?_ fun hnot => absurd ?_ hnot
    · intro _
      have hword : field (read (T.view s.mem) (argvVa + i * 8) 8) 0 8 =
          argPtr (T.view s.mem) argvVa i := by
        rw [field_read, argPtr]
      simp only [hword]
      rcases Nat.lt_or_ge i args.length with hlt | hge
      · have harg := hp.arg i hlt
        rw [if_neg harg.nonnull]
        by_cases hfull : maxArg ≤ i
        · rw [if_pos hfull]
          refine hnone fun hwf => ?_
          have hle : args.length ≤ maxArg := hwf.argc_le
          omega
        · rw [if_neg hfull, wp_bind]
          refine wp_copyinstr h ?_ ?_
          · intro k hk _ hstr
            obtain rfl := hstr.unique harg.cstr
            have htake : args.take i ++ [args[i]] = args.take (i + 1) :=
              take_append_getElem hlt
            simp only [harg.text, htake]
            refine ih (by omega) (by omega) (by omega) ?_
            intro a ha
            rw [← htake, mem_append, mem_singleton] at ha
            rcases ha with ha | rfl
            · exact hshort a ha
            · exact hk
          · intro hno
            refine hnone fun hwf => hno args[i].length ?_ harg.readable harg.cstr
            exact hwf.len_lt _ (getElem_mem hlt)
      · obtain rfl : i = args.length := by omega
        rw [if_pos hp.null]
        rw [take_length] at hshort ⊢
        by_cases hnil : args = []
        · rw [if_pos hnil]
          refine hnone fun hwf => ?_
          have hpos : 0 < args.length := hwf.argc_pos
          rw [hnil] at hpos
          exact absurd hpos (by simp)
        · rw [if_neg hnil]
          exact hsome ⟨length_pos_of_ne_nil hnil, hmax, hshort⟩
    · intro x h1 h2
      exact hp.readable x (by omega) (by omega)

/-- `copy_argv` returns a vector within the limits and rejects every other one. -/
theorem copyArgv_placed (h : Space L s T F R) (hp : Placed T s.mem argvVa args) :
    (WithinLimits args → copyArgv T.root argvVa s = .ok (some ⟨args⟩, s)) ∧
      (¬ WithinLimits args → copyArgv T.root argvVa s = .ok (none, s)) := by
  have hrun : (copyArgv T.root argvVa).wp (fun _ => False)
      (fun r s' => s' = s ∧ (WithinLimits args → r = some ⟨args⟩) ∧
        (¬ WithinLimits args → r = none)) s := by
    unfold copyArgv
    rw [if_neg hp.nonnull]
    refine wp_copyArgvLoop (i := 0) h hp (Nat.zero_le _) (Nat.zero_le _) (Nat.zero_add _)
      (fun a ha => absurd ha (by simp)) ?_ ?_
    · exact fun hwf => ⟨rfl, fun _ => rfl, fun hnot => absurd hwf hnot⟩
    · exact fun hnot => ⟨rfl, fun hwf => absurd hwf hnot, fun _ => rfl⟩
  obtain ⟨r, s', hok, rfl, hsome, hnone⟩ := exists_ok hrun
  rw [hok]
  exact ⟨fun hwf => by rw [hsome hwf], fun hnot => by rw [hnone hnot]⟩

/-- The user program finds the arguments of a placed vector. -/
theorem cstrLen_eq {f : Store} {n len fuel : ℕ} (h : CStr f p n) (hlen : len ≤ n)
    (hfuel : n < len + fuel) : cstrLen f p fuel len = some n := by
  induction fuel generalizing len with
  | zero => omega
  | succ fuel ih =>
    unfold cstrLen
    rcases Nat.lt_or_ge len n with hlt | hge
    · rw [if_pos (h.body len hlt)]
      exact ih (by omega) (by omega)
    · obtain rfl : len = n := by omega
      rw [if_neg (not_not.mpr h.nul)]

theorem Placed.get (h : Placed T m argvVa args) {fuel i : ℕ} (hi : i < args.length)
    (hfuel : args[i].length < fuel) :
    (Args.new args.length argvVa).get (T.view m) fuel i = some (some args[i]) := by
  have harg := h.arg i hi
  have hargc : ¬ (Args.new args.length argvVa).argc ≤ i := Nat.not_le.mpr hi
  have hargv : (Args.new args.length argvVa).argv = argvVa := rfl
  simp only [Args.get]
  rw [if_neg hargc, hargv, if_neg harg.nonnull,
    cstrLen_eq harg.cstr (Nat.zero_le _) (by omega)]
  simp only [harg.text]

end Copy

section Push

variable {L : Layout} {R : Multiset ℕ} {s s' : Ram} {T : Tree} {F : List ℕ} {tf top sp : ℕ}
  {args : List (List UInt8)}

/-- Where the parts of a vector lie: the array is aligned, the strings are
above it, below the top and apart from each other. -/
structure ArgvLayout (f : Store) (bottom top sp : ℕ) (args : List (List UInt8)) : Prop where
  aligned : sp % 16 = 0
  low : bottom ≤ sp
  above : ∀ i, (h : i < args.length) → sp + (args.length + 1) * 8 ≤ argPtr f sp i ∧
    argPtr f sp i + (args[i].length + 1) ≤ top
  apart : ∀ i j, (h : i < j) → (hj : j < args.length) →
    argPtr f sp i + (args[i].length + 1) ≤ argPtr f sp j

theorem flatMap_split {α β : Type*} (g : α → List β) (l : List α) {i : ℕ} (hi : i < l.length) :
    l.flatMap g = (l.take i).flatMap g ++ g l[i] ++ (l.drop (i + 1)).flatMap g := by
  conv_lhs => rw [← take_append_drop i l, drop_eq_getElem_cons hi]
  rw [flatMap_append, flatMap_cons, append_assoc]

theorem stringBytes_take_succ {i : ℕ} (hi : i < args.length) :
    stringBytes (args.take (i + 1)) = stringBytes (args.take i) + (args[i].length + 1) := by
  rw [← take_append_getElem hi]
  simp only [stringBytes, map_append, sum_append, map_cons, map_nil,
    sum_cons, sum_nil, Nat.add_zero]

theorem stringBytes_take_le {i j : ℕ} (h : i ≤ j) (hj : j ≤ args.length) :
    stringBytes (args.take i) ≤ stringBytes (args.take j) := by
  induction j, h using Nat.le_induction with
  | base => exact Nat.le_refl _
  | succ j hij ih =>
    have hstep : stringBytes (args.take (j + 1)) = _ := stringBytes_take_succ (by omega)
    have hprev := ih (by omega)
    omega

theorem pointers_getElem {base i : ℕ} (hi : i < args.length)
    (h : i < (pointers base args).length) :
    (pointers base args)[i] = base + stringBytes (args.take i) := by
  induction args generalizing base i with
  | nil => exact absurd hi (Nat.not_lt_zero i)
  | cons arg rest ih =>
    cases i with
    | zero => rfl
    | succ i =>
      have hi' : i < rest.length := Nat.lt_of_succ_lt_succ hi
      simp only [pointers, getElem_cons_succ, take_succ_cons]
      rw [ih hi' (by rwa [pointers_length])]
      simp only [stringBytes, map_cons, sum_cons]
      omega

/-- The entries of a pointer array that was written as a whole. -/
theorem argPtr_write (f : Store) (sp : ℕ) (ptrs : List ℕ) {i : ℕ} (hi : i < ptrs.length) :
    argPtr (write f sp (ptrs.flatMap usizeBytes)) sp i = ptrs[i] % 256 ^ 8 := by
  have hlen : ((ptrs.take i).flatMap usizeBytes).length = i * 8 := by
    rw [flatMap_usizeBytes_length, length_take, Nat.min_eq_left (by omega)]
  rw [flatMap_split usizeBytes ptrs hi, argPtr, ← hlen]
  exact load_write_append f sp 8 ptrs[i] _ _

/-- The strings of a vector that were written as a whole. -/
theorem read_packed (f : Store) (base : ℕ) {i : ℕ} (hi : i < args.length) :
    read (write f base (packed args)) (base + stringBytes (args.take i)) (args[i].length + 1) =
      args[i] ++ [0] := by
  have hlen : ((args.take i).flatMap (· ++ [0])).length = stringBytes (args.take i) :=
    packed_length _
  have hmid : (args[i] ++ [0]).length = args[i].length + 1 := by
    rw [length_append, length_singleton]
  rw [packed, flatMap_split (· ++ [0]) args hi, ← hlen, ← hmid]
  exact read_write_append f base _ _ _

/-- What `push_argv` leaves on a stack page is an argument vector. -/
theorem PushedArgs.placed (hp : PushedArgs L R T F top args s sp s') (hk : T.Fixed L tf)
    (hlow : pgSize < top) (hhigh : top ≤ maxVa) (hread : T.Readable (top - pgSize) pgSize)
    (hnul : ∀ arg ∈ args, 0 ∉ arg) :
    Placed T s'.mem sp args ∧ ArgvLayout (T.view s'.mem) (top - pgSize) top sp args := by
  obtain ⟨base, s1, hstr, hbase, hw, hput⟩ := hp.stored
  have hbottom := hp.low
  have htop := hstr.high
  have hptrs : (pointers base args ++ [0]).length = args.length + 1 := by
    rw [length_append, length_singleton, pointers_length]
  have hmine : ∀ x, top - pgSize ≤ x → x < top → T.Mine x := fun x h1 h2 =>
    hk.mine (hread x h1 (by omega)).2 (by omega)
  -- The array hides the strings nowhere, and the strings end below the top.
  have hview : ∀ x, top - pgSize ≤ x → x < top → T.view s'.mem x =
      write (T.view s1.mem) sp ((pointers base args ++ [0]).flatMap usizeBytes) x := by
    intro x h1 h2
    refine hput.view hp.moved.space ?_ (hmine x h1 h2)
    intro i hi
    rw [flatMap_usizeBytes_length, hptrs] at hi
    exact hmine _ (by omega) (by omega)
  have hview1 : ∀ x, base ≤ x → x < top →
      T.view s'.mem x = write (T.view s.mem) base (packed args) x := by
    intro x h1 h2
    rw [hview x (by omega) h2, write_outside]
    · refine hstr.put.view hp.moved.space ?_ (hmine x (by omega) h2)
      intro i hi
      rw [packed_length] at hi
      exact hmine _ (by omega) (by omega)
    · rw [flatMap_usizeBytes_length, hptrs]
      omega
  have hentry : ∀ i, (hi : i < (pointers base args ++ [0]).length) →
      argPtr (T.view s'.mem) sp i = (pointers base args ++ [0])[i] % 256 ^ 8 := by
    intro i hi
    rw [← argPtr_write (T.view s1.mem) sp _ hi, argPtr, argPtr]
    exact load_congr 8 _ _ _ fun x h1 h2 => hview x (by omega) (by omega)
  have hfit : ∀ i, (hi : i < args.length) →
      stringBytes (args.take i) + (args[i].length + 1) ≤ stringBytes args := by
    intro i hi
    have hle : stringBytes (args.take (i + 1)) ≤ _ := stringBytes_take_le hi (Nat.le_refl _)
    rwa [stringBytes_take_succ hi, take_length] at hle
  have hptr : ∀ i, (hi : i < args.length) →
      argPtr (T.view s'.mem) sp i = base + stringBytes (args.take i) := by
    intro i hi
    have hin : i < (pointers base args).length := by rwa [pointers_length]
    have hend := hfit i hi
    rw [hentry i (by omega), getElem_append_left hin, pointers_getElem hi hin,
      Nat.mod_eq_of_lt]
    exact lt_of_lt_of_le (b := maxVa) (by omega) (by decide)
  refine ⟨⟨by omega, fun x h1 h2 => hread x (by omega) (by omega), ?_, ?_⟩, hp.aligned, by omega,
    ?_, ?_⟩
  · intro i hi
    have hend := hfit i hi
    rw [hptr i hi]
    refine ⟨by omega, fun x h1 h2 => hread x (by omega) (by omega), ?_, hnul _ (getElem_mem hi)⟩
    rw [← read_packed (T.view s.mem) base hi]
    exact read_congr _ _ _ _ fun x h1 h2 => hview1 x (by omega) (by omega)
  · rw [hentry args.length (by omega), getElem_append_right (by rw [pointers_length])]
    simp [pointers_length]
  · intro i hi
    have hend := hfit i hi
    rw [hptr i hi]
    omega
  · intro i j hij hj
    have hle : stringBytes (args.take (i + 1)) ≤ stringBytes (args.take j) :=
      stringBytes_take_le hij (by omega)
    rw [stringBytes_take_succ (by omega)] at hle
    rw [hptr i (by omega), hptr j hj]
    omega

/-- Bytes outside of the stack page are left alone. -/
theorem PushedArgs.frame (hp : PushedArgs L R T F top args s sp s') (hlow : pgSize ≤ top) {a : ℕ}
    (ha : ∀ x, top - pgSize ≤ x → x < top → T.phys x ≠ a) : s'.mem a = s.mem a := by
  obtain ⟨base, s1, hstr, hbase, -, hput⟩ := hp.stored
  have hbottom := hp.low
  have htop := hstr.high
  rw [hput.frame a, hstr.put.frame a]
  · intro i hi
    rw [packed_length] at hi
    exact ha _ (by omega) (by omega)
  · intro i hi
    rw [flatMap_usizeBytes_length, length_append, length_singleton, pointers_length] at hi
    exact ha _ (by omega) (by omega)

theorem stringBytes_le (hshort : ∀ arg ∈ args, arg.length < maxArgLen) :
    stringBytes args ≤ args.length * maxArgLen := by
  induction args with
  | nil => exact Nat.le_refl _
  | cons arg rest ih =>
    have h1 := hshort arg mem_cons_self
    have h2 := ih fun a ha => hshort a (mem_cons_of_mem arg ha)
    have hbytes : stringBytes (arg :: rest) = arg.length + 1 + stringBytes rest := rfl
    rw [hbytes, length_cons, Nat.succ_mul]
    omega

/-- Arguments within the limits fit into the stack page. -/
theorem WithinLimits.fits (h : WithinLimits args) : (KernelArgs.mk args).bytes ≤ pgSize := by
  have hbytes : (KernelArgs.mk args).bytes = stringBytes args + (args.length + 1) * 8 := rfl
  have hle : args.length ≤ maxArg := h.argc_le
  have hstr : stringBytes args ≤ args.length * maxArgLen := stringBytes_le h.len_lt
  unfold maxArg maxArgLen pgSize at *
  omega

theorem exists_pushArgv (h : AddrSpace L s T F R) (hk : T.Fixed L tf) (hstack : T.Stack)
    (hwf : WithinLimits args) :
    ∃ sp s', pushArgv T.root (userStack + pgSize) ⟨args⟩ s = .ok (some (sp, sp), s') ∧
      PushedArgs L R T F (userStack + pgSize) args s sp s' := by
  have hrun : (pushArgv T.root (userStack + pgSize) ⟨args⟩).wp (fun _ => False)
      (fun r s' => ∃ sp, r = some (sp, sp) ∧
        PushedArgs L R T F (userStack + pgSize) args s sp s') s := by
    refine wp_pushArgv_put h hk (Nat.le_add_left _ _) (by decide) ?_ fun sp s' hp => ⟨sp, rfl, hp⟩
    intro s' _ hlong
    rw [Nat.add_sub_cancel] at hlong
    exact absurd (hlong hstack.writable) (Nat.not_lt.mpr hwf.fits)
  obtain ⟨_, s', hok, sp, rfl, hp⟩ := exists_ok hrun
  exact ⟨sp, s', hok, hp⟩

end Push

section RoundTrip

/-- A new stack with the arguments, as the user program finds them. -/
structure Delivered (T : Tree) (args : List (List UInt8)) (s : Ram) (sp : ℕ) (s' : Ram) : Prop where
  layout : ArgvLayout (T.view s'.mem) userStack (userStack + pgSize) sp args
  placed : Placed T s'.mem sp args
  frame : ∀ a, (∀ x, userStack ≤ x → x < userStack + pgSize → T.phys x ≠ a) → s'.mem a = s.mem a
  free : s'.head = s.head
  len : (Args.new args.length sp).len = args.length
  get : ∀ fuel i, maxArgLen ≤ fuel → (h : i < args.length) →
    (Args.new args.length sp).get (T.view s'.mem) fuel i = some (some args[i])

theorem PushedArgs.delivered {L : Layout} {R : Multiset ℕ} {s s' : Ram} {T : Tree} {F : List ℕ}
    {tf sp : ℕ} {args : List (List UInt8)}
    (hp : PushedArgs L R T F (userStack + pgSize) args s sp s') (h : AddrSpace L s T F R)
    (hk : T.Fixed L tf) (hstack : T.Stack) (hnul : ∀ arg ∈ args, 0 ∉ arg)
    (hshort : ∀ arg ∈ args, arg.length < maxArgLen) : Delivered T args s sp s' := by
  have hbottom : userStack + pgSize - pgSize = userStack := Nat.add_sub_cancel _ _
  obtain ⟨hplaced, hlayout⟩ := hp.placed hk (by decide) (by decide)
    (by rw [hbottom]; exact hstack.readable) hnul
  rw [hbottom] at hlayout
  refine ⟨hlayout, hplaced, ?_, hp.moved.space.free.head_unique h.free, rfl, ?_⟩
  · intro a ha
    refine hp.frame (by decide) ?_
    rw [hbottom]
    exact ha
  · intro fuel i hfuel hi
    exact hplaced.get hi (lt_of_lt_of_le (hshort _ (getElem_mem hi)) hfuel)

/-- Arguments make it through `exec`: `copy_argv` accepts exactly the vectors
within the limits, and `push_argv` then delivers what was passed. -/
theorem argv_round_trip {L : Layout} {R : Multiset ℕ} {s : Ram} {T : Tree} {F : List ℕ} {argvVa : ℕ}
    {args : List (List UInt8)} (h : Space L s T F R) (hp : Placed T s.mem argvVa args) :
    (WithinLimits args → copyArgv T.root argvVa s = .ok (some ⟨args⟩, s) ∧
      (KernelArgs.mk args).argc = args.length ∧
      ∀ (L' : Layout) (R' : Multiset ℕ) (t : Ram) (N : Tree) (F' : List ℕ) (tf : ℕ),
        AddrSpace L' t N F' R' → N.Fixed L' tf → N.Stack →
        ∃ sp t', pushArgv N.root (userStack + pgSize) ⟨args⟩ t = .ok (some (sp, sp), t') ∧
          Delivered N args t sp t') ∧
    (¬ WithinLimits args → copyArgv T.root argvVa s = .ok (none, s)) := by
  obtain ⟨hsome, hnone⟩ := copyArgv_placed h hp
  refine ⟨fun hwf => ⟨hsome hwf, rfl, ?_⟩, hnone⟩
  intro L' R' t N F' tf hspace hk hstack
  obtain ⟨sp, t', hok, hpushed⟩ := exists_pushArgv hspace hk hstack hwf
  refine ⟨sp, t', hok, hpushed.delivered hspace hk hstack ?_ hwf.len_lt⟩
  intro arg harg
  obtain ⟨i, hi, rfl⟩ := List.getElem_of_mem harg
  exact (hp.arg i hi).noNul

/-- An address space with nothing but a stack page, beside `n` free pages. -/
theorem exists_stack (L : Layout) {n : ℕ} (hn : n + 11 ≤ managedCount L) :
    ∃ s T F tf ks pa, AddrSpace L s T F ({ks} + {tf}) ∧ T.Fixed L tf ∧
      T.pte (2 ^ 26 - 3) = leafWord pa (pteU ||| pteR ||| pteW) ∧
      (∀ k ∈ userSlots, k ≠ 2 ^ 26 - 3 → T.pte k = 0) ∧ n ≤ F.length := by
  obtain ⟨s, T, F, tf, ks, hspace, hko, hlen⟩ := exists_space L (n := n + 4) (by omega)
  have hfresh : T.pte (2 ^ 26 - 3) = 0 := hko.rest _ (by decide) (by decide)
  have hrun : (kallocZeroed >>= fun pa => match pa with
      | none => pure none
      | some pa => mappages T.root userStack pgSize pa (pteU ||| pteR ||| pteW)).wp (fun _ => False)
      (fun _ s' => ∃ T' F' pa, AddrSpace L s' T' F' ({ks} + {tf}) ∧
        T'.pte = update T.pte (2 ^ 26 - 3) (leafWord pa (pteU ||| pteR ||| pteW)) ∧
        n ≤ F'.length) s := by
    rw [wp_bind]
    refine wp_kallocZeroed_taken hspace ?_ ?_
    · intro hnil
      rw [hnil] at hlen
      exact absurd hlen (by simp)
    · intro pa F1 s1 htaken _
      refine htaken.wp_map (by decide) (by decide) ?_ (fun hover => absurd hover (by decide)) ?_ ?_
      · exact fun _ => stack_user
      · rintro s2 T2 F2 - (hshort | hv) - -
        · have := T.need_le (vpn userStack)
          omega
        · rw [vpn_userStack, hfresh] at hv
          exact absurd hv (by decide)
      · intro s2 T2 F2 _ _ hpaid hpte hm _
        have := hpaid.le
        rw [vpn_userStack] at hpte
        exact ⟨T2, F2, pa, hm.space, hpte, by omega⟩
  obtain ⟨_, s', _, T', F', pa, hspace', hpte, hlen'⟩ := exists_ok hrun
  refine ⟨s', T', F', tf, ks, pa, hspace', ⟨?_, ?_⟩, ?_, ?_, hlen'⟩
  · rw [hpte, update_of_ne (by decide)]
    exact hko.trampoline
  · rw [hpte, update_of_ne (by decide)]
    exact hko.trapframe
  · rw [hpte, update_self]
  · intro k hk hne
    obtain ⟨-, h1, h2⟩ := mem_userSlots.mp hk
    rw [hpte, update_of_ne hne]
    exact hko.rest k h1 h2

/-- One argument, taken from one stack and put on it once more. -/
theorem argv_round_trip_one : ∃ s T argvVa,
    copyArgv T.root argvVa s = .ok (some ⟨[[97]]⟩, s) ∧
      ∃ sp t, pushArgv T.root (userStack + pgSize) ⟨[[97]]⟩ s = .ok (some (sp, sp), t) ∧
        Delivered T [[97]] s sp t := by
  obtain ⟨s, T, F, tf, ks, pa, hspace, hk, hword, -, -⟩ := exists_stack smallLayout (n := 0) (by decide)
  have hstack := Tree.stack_of_word _ hword
  have hwf : WithinLimits [[97]] := ⟨by decide, by decide, by decide⟩
  obtain ⟨sp, s', -, hpushed⟩ := exists_pushArgv hspace hk hstack hwf
  have hd := hpushed.delivered hspace hk hstack (by decide) hwf.len_lt
  obtain ⟨hcopy, -, hpush⟩ := (argv_round_trip hpushed.moved.space hd.placed).1 hwf
  exact ⟨s', T, sp, hcopy, hpush _ _ s' T F tf hpushed.moved.space hk hstack⟩

end RoundTrip

end ToyOs
