import ToyOs.CopyUser

/-!
The arguments of `exec` on the new stack. `push_argv` packs the strings below
the top of the stack page, first argument lowest, and puts the array of their
addresses below them. It fails when the arguments do not fit into the page,
and never otherwise.
-/
namespace ToyOs

open Bytes Prog List

/-- Bytes the strings of an argument vector take, with their terminators. -/
def stringBytes (args : List (List UInt8)) : ℕ := (args.map fun arg => arg.length + 1).sum

/-- The space of an argument vector with its pointers. -/
def KernelArgs.bytes (k : KernelArgs) : ℕ := stringBytes k.args + (k.argc + 1) * 8

/-- The strings one after the other. -/
def packed (args : List (List UInt8)) : List UInt8 := args.flatMap (· ++ [0])

/-- The addresses of packed strings. -/
def pointers : ℕ → List (List UInt8) → List ℕ
  | _, [] => []
  | base, arg :: rest => base :: pointers (base + (arg.length + 1)) rest

theorem packed_length (args : List (List UInt8)) : (packed args).length = stringBytes args := by
  simp [packed, stringBytes, length_flatMap]

theorem packed_cons (arg : List UInt8) (rest : List (List UInt8)) :
    packed (arg :: rest) = arg ++ [0] ++ packed rest := rfl

theorem pointers_length (base : ℕ) (args : List (List UInt8)) :
    (pointers base args).length = args.length := by
  induction args generalizing base with
  | nil => rfl
  | cons arg rest ih => rw [pointers, length_cons, ih, length_cons]

theorem checkedSub_none {a b : ℕ} (h : checkedSub a b = none) : a < b := by
  unfold checkedSub at h
  split_ifs at h
  omega

theorem checkedSub_some {a b c : ℕ} (h : checkedSub a b = some c) : c + b = a := by
  unfold checkedSub at h
  split_ifs at h
  have := Option.some.inj h
  omega

theorem usizeBytes_length (v : ℕ) : (usizeBytes v).length = 8 := by
  simp [usizeBytes]

theorem flatMap_usizeBytes_length (ptrs : List ℕ) :
    (ptrs.flatMap usizeBytes).length = ptrs.length * 8 := by
  induction ptrs with
  | nil => rfl
  | cons ptr rest ih =>
    rw [flatMap_cons, length_append, usizeBytes_length, ih, length_cons]
    omega

section Push

variable {L : Layout} {R : Multiset ℕ} {s : Ram} {T : Tree} {F : List ℕ} {tf bottom top : ℕ}
  {E : Panic → Prop} {Q : Option (ℕ × ℕ) → Ram → Prop}

/-- What the first loop of `push_argv` has done: the strings in `args` lie
packed from `sp` up to the top. -/
structure Strung (L : Layout) (R : Multiset ℕ) (T : Tree) (F : List ℕ) (bottom top : ℕ) (s0 s : Ram)
    (sp : ℕ) (args : List (List UInt8)) : Prop where
  moved : Moved L R s0 T F s T F
  low : bottom ≤ sp
  high : sp + stringBytes args = top
  writable : T.Writable sp (stringBytes args)
  put : T.Put s0.mem sp (packed args) s.mem

theorem Strung.cons {s0 s' : Ram} {sp sp' : ℕ} {arg : List UInt8} {args : List (List UInt8)}
    (h : Strung L R T F bottom top s0 s sp args) (hk : T.Fixed L tf)
    (heq : sp' + (arg.length + 1) = sp) (hlow : bottom ≤ sp') (hm : Moved L R s T F s' T F)
    (hw : T.Writable sp' (arg.length + 1)) (hput : T.Put s.mem sp' (arg ++ [0]) s'.mem) :
    Strung L R T F bottom top s0 s' sp' (arg :: args) := by
  have hbytes : stringBytes (arg :: args) = arg.length + 1 + stringBytes args := rfl
  have hlen : (arg ++ [0]).length = arg.length + 1 := by
    rw [length_append, length_singleton]
  have hw' : T.Writable sp' (arg.length + 1 + stringBytes args) := by
    refine hw.append ?_
    rw [heq]
    exact h.writable
  refine ⟨h.moved.trans hm, hlow, by have := h.high; omega, hbytes ▸ hw', ?_⟩
  rw [packed_cons]
  refine Tree.Put.prepend ?_ hput ?_
  · rw [hlen, heq]
    exact h.put
  · intro i j hi hj
    rw [hlen] at hi ⊢
    rw [packed_length] at hj
    rw [Nat.add_assoc]
    exact hw'.apart hm.space hk (by omega) (by omega) (by omega)

/-- The strings: each one is stored below the one before it. -/
theorem wp_pushStrings {s0 : Ram} {sp : ℕ} {args done : List (List UInt8)}
    (h : Strung L R T F bottom top s0 s sp done) (hk : T.Fixed L tf)
    {Q : Option (ℕ × List ℕ) → Ram → Prop}
    (hnone : ∀ s', Moved L R s0 T F s' T F →
      (T.Writable bottom (top - bottom) → sp < bottom + stringBytes args) → Q none s')
    (hsome : ∀ s' sp', Strung L R T F bottom top s0 s' sp' (args.reverse ++ done) →
      Q (some (sp', pointers sp' (args.reverse ++ done))) s') :
    (pushStrings T.root bottom args sp (pointers sp done)).wp E Q s := by
  induction args generalizing s sp done with
  | nil => exact hsome s sp h
  | cons arg rest ih =>
    have hbytes : stringBytes (arg :: rest) = arg.length + 1 + stringBytes rest := rfl
    have htop := h.high
    unfold pushStrings
    cases hsub : checkedSub sp (arg.length + 1) with
    | none =>
      have hlt := checkedSub_none hsub
      exact hnone s h.moved fun _ => by omega
    | some sp' =>
      have heq := checkedSub_some hsub
      by_cases hb : sp' < bottom
      · simp only [if_pos hb]
        exact hnone s h.moved fun _ => by omega
      · simp only [if_neg hb, wp_bind]
        refine wp_copyout_put h.moved.space hk ?_
        intro r n s' _ hm hw hput hall hfail
        cases r with
        | none =>
          refine hnone s' (h.moved.trans hm) fun hw => absurd (hw.sub (by omega) ?_) (hfail rfl)
          rw [length_append, length_singleton]
          omega
        | some _ =>
          obtain rfl := hall rfl
          rw [take_length] at hput
          rw [length_append, length_singleton] at hw
          have hcons := h.cons hk heq (by omega) hm hw hput
          have hptrs : pointers sp' (arg :: done) = sp' :: pointers sp done := by
            rw [pointers, heq]
          rw [← hptrs]
          refine ih hcons ?_ ?_
          · intro s'' hm' hwhy
            exact hnone s'' hm' fun hw => by have := hwhy hw; omega
          · intro s'' sp'' h''
            rw [← singleton_append, ← append_assoc, ← reverse_cons] at h'' ⊢
            exact hsome s'' sp'' h''

/-- The array of the addresses, from its first entry on. -/
theorem wp_pushPointers {s0 : Ram} {argvVa : ℕ} {ptrs : List ℕ} (done : List ℕ)
    (hm0 : Moved L R s0 T F s T F) (hk : T.Fixed L tf) (hw : T.Writable argvVa (done.length * 8))
    (hput : T.Put s0.mem argvVa (done.flatMap usizeBytes) s.mem) {Q : Option Unit → Ram → Prop}
    (hnone : ∀ s', Moved L R s0 T F s' T F →
      ¬ T.Writable (argvVa + done.length * 8) (ptrs.length * 8) → Q none s')
    (hsome : ∀ s', Moved L R s0 T F s' T F → T.Writable argvVa ((done ++ ptrs).length * 8) →
      T.Put s0.mem argvVa ((done ++ ptrs).flatMap usizeBytes) s'.mem → Q (some ()) s') :
    (pushPointers T.root argvVa ptrs done.length).wp E Q s := by
  induction ptrs generalizing s done with
  | nil =>
    rw [append_nil] at hsome
    exact hsome s hm0 hw hput
  | cons ptr rest ih =>
    simp only [pushPointers, wp_bind]
    refine wp_copyout_put hm0.space hk ?_
    intro r n s' _ hm hw1 hput1 hall hfail
    rw [usizeBytes_length] at hfail
    cases r with
    | none =>
      refine hnone s' (hm0.trans hm) fun hw => hfail rfl (hw.sub (le_refl _) ?_)
      rw [length_cons]
      omega
    | some _ =>
      obtain rfl := hall rfl
      rw [take_length] at hput1
      rw [usizeBytes_length] at hw1
      have hlen : (done ++ [ptr]).length = done.length + 1 := by
        rw [length_append, length_singleton]
      have hw' : T.Writable argvVa (done.length * 8 + 8) := hw.append hw1
      have hput' : T.Put s0.mem argvVa ((done ++ [ptr]).flatMap usizeBytes) s'.mem := by
        rw [flatMap_append, flatMap_singleton]
        apply hput.append
        · rw [flatMap_usizeBytes_length]
          exact hput1
        · intro i j hi hj
          rw [flatMap_usizeBytes_length] at hi ⊢
          rw [usizeBytes_length] at hj
          rw [Nat.add_assoc]
          exact hw'.apart hm.space hk (by omega) (by omega) (by omega)
      rw [← hlen]
      refine ih _ (hm0.trans hm) ?_ hput' ?_ ?_
      · rw [hlen, Nat.succ_mul]
        exact hw'
      · intro s'' hm' hnot
        refine hnone s'' hm' fun hw => hnot (hw.sub ?_ ?_)
        · omega
        · rw [hlen, length_cons]
          omega
      · intro s'' hm' hw'' hput''
        rw [append_assoc, singleton_append] at hw'' hput''
        exact hsome s'' hm' hw'' hput''

/-- The stack page after `push_argv`: the strings from `base` up to the top,
the array of their addresses at `sp`. -/
structure PushedArgs (L : Layout) (R : Multiset ℕ) (T : Tree) (F : List ℕ) (top : ℕ)
    (args : List (List UInt8)) (s : Ram) (sp : ℕ) (s' : Ram) : Prop where
  moved : Moved L R s T F s' T F
  aligned : sp % 16 = 0
  low : top ≤ sp + pgSize
  stored : ∃ base s1, Strung L R T F (top - pgSize) top s s1 base args ∧
    sp + (args.length + 1) * 8 ≤ base ∧ T.Writable sp ((args.length + 1) * 8) ∧
    T.Put s1.mem sp ((pointers base args ++ [0]).flatMap usizeBytes) s'.mem

/-- `push_argv` fails only when the arguments are too long for the stack page. -/
theorem wp_pushArgv_put {stackTop : ℕ} {kargs : KernelArgs} (h : AddrSpace L s T F R)
    (hk : T.Fixed L tf) (htop : pgSize ≤ stackTop) (hpg : stackTop % pgSize = 0)
    (hnone : ∀ s', Moved L R s T F s' T F →
      (T.Writable (stackTop - pgSize) pgSize → pgSize < kargs.bytes) → Q none s')
    (hsome : ∀ sp s', PushedArgs L R T F stackTop kargs.args s sp s' → Q (some (sp, sp)) s') :
    (pushArgv T.root stackTop kargs).wp E Q s := by
  have hbytes : kargs.bytes = stringBytes kargs.args + (kargs.argc + 1) * 8 := rfl
  have hrev : stringBytes kargs.args.reverse = stringBytes kargs.args := by
    unfold stringBytes
    rw [map_reverse, sum_reverse]
  have hpage : stackTop - (stackTop - pgSize) = pgSize := by omega
  have hstart : Strung L R T F (stackTop - pgSize) stackTop s s stackTop [] :=
    ⟨Moved.refl h, Nat.sub_le _ _, rfl, fun x h1 h2 => absurd h2 (by unfold stringBytes; simp; omega),
      Tree.Put.nil s.mem stackTop⟩
  simp only [pushArgv, wp_bind]
  refine wp_pushStrings hstart hk ?_ ?_
  · intro s' hm hwhy
    refine hnone s' hm fun hw => ?_
    have hlt := hwhy (by rw [hpage]; exact hw)
    omega
  · intro s' sp hstr
    rw [reverse_reverse, append_nil] at hstr ⊢
    have hsp := hstr.high
    cases hsub : checkedSub sp ((kargs.argc + 1) * 8) with
    | none =>
      have hlt := checkedSub_none hsub
      simp only [hsub]
      exact hnone s' hstr.moved fun _ => by omega
    | some sp' =>
      have heq := checkedSub_some hsub
      have halign : alignDown sp' 16 ≤ sp' ∧ sp' < alignDown sp' 16 + 16 ∧
          alignDown sp' 16 % 16 = 0 := by
        unfold alignDown
        omega
      by_cases hb : alignDown sp' 16 < stackTop - pgSize
      · simp only [hsub, if_pos hb]
        refine hnone s' hstr.moved fun _ => ?_
        -- the bottom of the page is aligned, so rounding down does not cross it
        unfold alignDown pgSize at *
        omega
      · simp only [hsub, if_neg hb, wp_bind]
        have hlen : (pointers sp kargs.args ++ [0]).length = kargs.argc + 1 := by
          rw [length_append, length_singleton, pointers_length, KernelArgs.argc]
        refine wp_pushPointers [] (Moved.refl hstr.moved.space) hk
          (fun x h1 h2 => absurd h2 (by simp; omega)) (Tree.Put.nil _ _) ?_ ?_
        · intro s'' hm' hfail
          refine hnone s'' (hstr.moved.trans hm') fun hw => absurd (hw.sub ?_ ?_) hfail
          · omega
          · rw [hlen, length_nil]
            omega
        · intro s'' hm' hw hput
          rw [nil_append, hlen] at hw
          rw [nil_append] at hput
          refine hsome _ s'' ⟨hstr.moved.trans hm', halign.2.2, by omega, sp, s', hstr, ?_, hw, hput⟩
          have hargc : kargs.argc = kargs.args.length := rfl
          omega

/-- The arguments are on the stack exactly if they fit into its page. -/
theorem wp_pushArgv {stackTop : ℕ} {kargs : KernelArgs} (h : AddrSpace L s T F R)
    (hk : T.Fixed L tf) (htop : pgSize ≤ stackTop) (hpg : stackTop % pgSize = 0)
    (hw : T.Writable (stackTop - pgSize) pgSize)
    (hQ : ∀ r s', Moved L R s T F s' T F → (r = none ↔ pgSize < kargs.bytes) → Q r s') :
    (pushArgv T.root stackTop kargs).wp E Q s := by
  refine wp_pushArgv_put h hk htop hpg ?_ ?_
  · exact fun s' hm hlong => hQ none s' hm ⟨fun _ => hlong hw, fun _ => rfl⟩
  · intro sp s' hp
    obtain ⟨base, s1, hstr, hbase, -, -⟩ := hp.stored
    have hlow := hp.low
    have htop := hstr.high
    have hbytes : kargs.bytes = stringBytes kargs.args + (kargs.args.length + 1) * 8 := rfl
    exact hQ _ s' hp.moved ⟨fun hnone => absurd hnone (by simp), fun hlong => by omega⟩

end Push

end ToyOs
