import ToyOs.Lib.Prog

/-!
Two programs side by side. `Sim` says that they end alike: with the same
panic, or with values and states that a relation connects; `SimIn` also says
which panics can occur. The rules follow the text of the programs, so a
simulation is built along the parts they share and only the primitives in
which they differ need an argument of their own. `Agree` is the case that
occurs most: equal values, and a relation of the states that is kept.
-/
namespace Prog

variable {ε σ τ α β γ δ ι : Type} {g : β → Prog ε τ δ} {l : List ι}

/-- Started in `s` and `t`, the programs panic alike or return what `S` relates. -/
def Sim (m : Prog ε σ α) (n : Prog ε τ β) (S : α → β → σ → τ → Prop) (s : σ) (t : τ) : Prop :=
  match m s, n t with
  | .ok (a, s'), .ok (b, t') => S a b s' t'
  | .error e, .error f => e = f
  | _, _ => False

/-- A simulation in which only panics of `E` occur. -/
def SimIn (E : ε → Prop) (m : Prog ε σ α) (n : Prog ε τ β) (S : α → β → σ → τ → Prop)
    (s : σ) (t : τ) : Prop :=
  match m s, n t with
  | .ok (a, s'), .ok (b, t') => S a b s' t'
  | .error e, .error f => e = f ∧ E e
  | _, _ => False

section Rules

variable {E : ε → Prop} {m : Prog ε σ α} {n : Prog ε τ β} {S S' : α → β → σ → τ → Prop}
  {s : σ} {t : τ}

/-- How two programs that simulate each other end. -/
theorem simIn_cases (h : SimIn E m n S s t) :
    (∃ a s' b t', m s = .ok (a, s') ∧ n t = .ok (b, t') ∧ S a b s' t') ∨
      ∃ e, m s = .error e ∧ n t = .error e ∧ E e := by
  unfold SimIn at h
  cases hm : m s with
  | ok r =>
    cases hn : n t with
    | ok r' =>
      rw [hm, hn] at h
      exact Or.inl ⟨r.1, r.2, r'.1, r'.2, rfl, rfl, h⟩
    | error f => simp only [hm, hn] at h
  | error e =>
    cases hn : n t with
    | ok r' => simp only [hm, hn] at h
    | error f =>
      rw [hm, hn] at h
      obtain ⟨rfl, he⟩ := h
      exact Or.inr ⟨e, rfl, rfl, he⟩

theorem simIn_of_ok {a : α} {b : β} {s' : σ} {t' : τ} (hm : m s = .ok (a, s'))
    (hn : n t = .ok (b, t')) (h : S a b s' t') : SimIn E m n S s t := by
  unfold SimIn
  rw [hm, hn]
  exact h

theorem simIn_of_error {e : ε} (hm : m s = .error e) (hn : n t = .error e) (he : E e) :
    SimIn E m n S s t := by
  unfold SimIn
  rw [hm, hn]
  exact ⟨rfl, he⟩

theorem simIn_pure {a : α} {b : β} (h : S a b s t) :
    SimIn E (pure a : Prog ε σ α) (pure b : Prog ε τ β) S s t := h

theorem simIn_panic {e : ε} (he : E e) : SimIn E (panic e) (panic e) S s t := ⟨rfl, he⟩

theorem simIn_bind {f : α → Prog ε σ γ} {R : γ → δ → σ → τ → Prop}
    (h : SimIn E m n (fun a b s' t' => SimIn E (f a) (g b) R s' t') s t) :
    SimIn E (m >>= f) (n >>= g) R s t := by
  rcases simIn_cases h with ⟨a, s', b, t', hm, hn, hfg⟩ | ⟨e, hm, hn, he⟩
  · unfold SimIn
    rw [bind_ok hm, bind_ok hn]
    exact hfg
  · refine simIn_of_error ?_ ?_ he
    · simp only [bind, hm]
    · simp only [bind, hn]

theorem simIn_mono {E' : ε → Prop} (h : SimIn E m n S s t) (hE : ∀ e, E e → E' e)
    (hS : ∀ a b s' t', S a b s' t' → S' a b s' t') : SimIn E' m n S' s t := by
  rcases simIn_cases h with ⟨a, s', b, t', hm, hn, hab⟩ | ⟨e, hm, hn, he⟩
  · exact simIn_of_ok hm hn (hS a b s' t' hab)
  · exact simIn_of_error hm hn (hE e he)

theorem simIn_post (h : SimIn E m n S s t) (hS : ∀ a b s' t', S a b s' t' → S' a b s' t') :
    SimIn E m n S' s t := simIn_mono h (fun _ he => he) hS

theorem simIn_ite {c : Prop} [Decidable c] {m' : Prog ε σ α} {n' : Prog ε τ β}
    (h : c → SimIn E m n S s t) (h' : ¬ c → SimIn E m' n' S s t) :
    SimIn E (if c then m else m') (if c then n else n') S s t := by
  by_cases hc : c
  · rw [if_pos hc, if_pos hc]
    exact h hc
  · rw [if_neg hc, if_neg hc]
    exact h' hc

/-- Both programs return, each by its own specification. -/
theorem simIn_wp {Q : α → σ → Prop} {P : β → τ → Prop} (hm : wp m (fun _ => False) Q s)
    (hn : wp n (fun _ => False) P t) (hS : ∀ a b s' t', Q a s' → P b t' → S a b s' t') :
    SimIn E m n S s t := by
  obtain ⟨a, s', hrun, hQ⟩ := exists_ok hm
  obtain ⟨b, t', hrun', hP⟩ := exists_ok hn
  exact simIn_of_ok hrun hrun' (hS a b s' t' hQ hP)

theorem simIn_self {m : Prog ε σ α} {S : α → α → σ → σ → Prop}
    (h : wp m E (fun a s' => S a a s' s') s) : SimIn E m m S s s := by
  unfold wp at h
  cases hm : m s with
  | ok r =>
    rw [hm] at h
    exact simIn_of_ok hm hm h
  | error e =>
    rw [hm] at h
    exact simIn_of_error hm hm h

/-- The left program begins with a part that the right one does not have. -/
theorem simIn_left {f : γ → Prog ε σ α} {m : Prog ε σ γ}
    (h : wp m (fun _ => False) (fun a s' => SimIn E (f a) n S s' t) s) :
    SimIn E (m >>= f) n S s t := by
  obtain ⟨a, s', hrun, hsim⟩ := exists_ok h
  unfold SimIn
  rw [bind_ok hrun]
  exact hsim

/-- The right program begins with a part that the left one does not have. -/
theorem simIn_right {f : γ → Prog ε τ β} {n : Prog ε τ γ}
    (h : wp n (fun _ => False) (fun b t' => SimIn E m (f b) S s t') t) :
    SimIn E m (n >>= f) S s t := by
  obtain ⟨b, t', hrun, hsim⟩ := exists_ok h
  unfold SimIn
  rw [bind_ok hrun]
  exact hsim

/-- Two programs that begin with the same part in the same state. -/
theorem simIn_step {m : Prog ε σ γ} {f : γ → Prog ε σ α} {g : γ → Prog ε σ β}
    {S : α → β → σ → σ → Prop} (h : wp m E (fun a s' => SimIn E (f a) (g a) S s' s') s) :
    SimIn E (m >>= f) (m >>= g) S s s :=
  simIn_bind (simIn_self h)

theorem simIn_zoom {σ' τ' : Type} {view : σ → σ'} {put : σ' → σ → σ} {view' : τ → τ'}
    {put' : τ' → τ → τ} {p : Prog ε σ' α} {q : Prog ε τ' β}
    (h : SimIn E p q (fun a b s' t' => S a b (put s' s) (put' t' t)) (view s) (view' t)) :
    SimIn E (zoom view put p) (zoom view' put' q) S s t := by
  rcases simIn_cases h with ⟨a, s', b, t', hp, hq, hab⟩ | ⟨e, hp, hq, he⟩
  · refine simIn_of_ok (a := a) (b := b) ?_ ?_ hab
    · simp only [zoom, hp]
    · simp only [zoom, hq]
  · refine simIn_of_error ?_ ?_ he
    · simp only [zoom, hp]
    · simp only [zoom, hq]

/-- Two searches that stop at the same element. -/
theorem simIn_firstSome {f : ι → Prog ε σ (Option α)} {g : ι → Prog ε τ (Option β)}
    {S : Option α → Option β → σ → τ → Prop} (I : List ι → σ → τ → Prop) (h0 : I l s t)
    (hnil : ∀ s t, I [] s t → S none none s t)
    (hstep : ∀ i rest s t, (i :: rest) <:+ l → I (i :: rest) s t →
      SimIn E (f i) (g i) (fun a b s' t' => match a, b with
        | some a, some b => S (some a) (some b) s' t'
        | none, none => I rest s' t'
        | _, _ => False) s t) :
    SimIn E (firstSome l f) (firstSome l g) S s t := by
  induction l generalizing s t with
  | nil => exact hnil s t h0
  | cons i rest ih =>
    refine simIn_bind (simIn_post (hstep i rest s t (List.suffix_refl _) h0) ?_)
    intro a b s' t' hab
    match a, b with
    | some a, some b => exact hab
    | none, none =>
      exact ih hab fun j rest' u v hsuf =>
        hstep j rest' u v (hsuf.trans (List.suffix_cons i rest))

/-- The panics of the left program. -/
theorem simIn_wp_left (h : SimIn E m n S s t) :
    wp m E (fun a s' => ∃ b t', n t = .ok (b, t') ∧ S a b s' t') s := by
  rcases simIn_cases h with ⟨a, s', b, t', hm, hn, hab⟩ | ⟨e, hm, -, he⟩
  · exact wp_of_ok hm ⟨b, t', hn, hab⟩
  · unfold wp
    rw [hm]
    exact he

/-- Without a restriction of the panics a simulation is one of either kind. -/
theorem sim_iff : Sim m n S s t ↔ SimIn (fun _ => True) m n S s t := by
  unfold Sim SimIn
  cases m s <;> cases n t <;> simp

end Rules

section Plain

variable {m : Prog ε σ α} {n : Prog ε τ β} {S S' : α → β → σ → τ → Prop} {s : σ} {t : τ}

theorem sim_pure {a : α} {b : β} (h : S a b s t) :
    Sim (pure a : Prog ε σ α) (pure b : Prog ε τ β) S s t := h

theorem sim_panic (e : ε) : Sim (panic e) (panic e) S s t := rfl

theorem sim_bind {f : α → Prog ε σ γ} {R : γ → δ → σ → τ → Prop}
    (h : Sim m n (fun a b s' t' => Sim (f a) (g b) R s' t') s t) :
    Sim (m >>= f) (n >>= g) R s t :=
  sim_iff.mpr (simIn_bind (simIn_post (sim_iff.mp h) fun _ _ _ _ hfg => sim_iff.mp hfg))

theorem sim_mono (h : Sim m n S s t) (hS : ∀ a b s' t', S a b s' t' → S' a b s' t') :
    Sim m n S' s t := sim_iff.mpr (simIn_post (sim_iff.mp h) hS)

theorem sim_ite {c : Prop} [Decidable c] {m' : Prog ε σ α} {n' : Prog ε τ β}
    (h : c → Sim m n S s t) (h' : ¬ c → Sim m' n' S s t) :
    Sim (if c then m else m') (if c then n else n') S s t :=
  sim_iff.mpr (simIn_ite (fun hc => sim_iff.mp (h hc)) fun hc => sim_iff.mp (h' hc))

/-- The left program begins with a part that the right one does not have. -/
theorem sim_left {f : γ → Prog ε σ α} {m : Prog ε σ γ}
    (h : wp m (fun _ => False) (fun a s' => Sim (f a) n S s' t) s) : Sim (m >>= f) n S s t :=
  sim_iff.mpr (simIn_left (wp_post h fun _ _ hsim => sim_iff.mp hsim))

/-- A program on a component and the same program on its own. -/
theorem sim_zoom {view : σ → τ} {put : τ → σ → σ} {p : Prog ε τ α} {R : α → α → σ → τ → Prop}
    (h : ∀ a t', R a a (put t' s) t') : Sim (zoom view put p) p R s (view s) := by
  unfold Sim zoom
  cases p (view s) with
  | ok r => exact h r.1 r.2
  | error e => rfl

/-- A run of the right program that returned has its counterpart on the left. -/
theorem sim_ok (h : Sim m n S s t) {b : β} {t' : τ} (hn : n t = .ok (b, t')) :
    ∃ a s', m s = .ok (a, s') ∧ S a b s' t' := by
  rcases simIn_cases (sim_iff.mp h) with ⟨a, s', b', t'', hm, hn', hab⟩ | ⟨e, -, hn', -⟩
  · rw [hn] at hn'
    obtain ⟨rfl, rfl⟩ := Prod.mk.inj (Except.ok.inj hn')
    exact ⟨a, s', hm, hab⟩
  · rw [hn] at hn'
    cases hn'

/-- A run of the left program that returned has its counterpart on the right. -/
theorem sim_ok_left (h : Sim m n S s t) {a : α} {s' : σ} (hm : m s = .ok (a, s')) :
    ∃ b t', n t = .ok (b, t') ∧ S a b s' t' :=
  wp_ok (simIn_wp_left (sim_iff.mp h)) hm

end Plain

/-- From related states the programs panic alike or return the same value, and
the states stay related. -/
def Agree (E : ε → Prop) (R : σ → τ → Prop) (m : Prog ε σ α) (n : Prog ε τ α) : Prop :=
  ∀ s t, R s t → SimIn E m n (fun a b s' t' => a = b ∧ R s' t') s t

section Agree

variable {E : ε → Prop} {R : σ → τ → Prop} {f : α → Prog ε σ β}

theorem agree_pure {a : α} : Agree E R (pure a) (pure a) := fun _ _ hR => simIn_pure ⟨rfl, hR⟩

theorem agree_panic {e : ε} (he : E e) : Agree E R (panic e : Prog ε σ α) (panic e) :=
  fun _ _ _ => simIn_panic he

theorem agree_bind {m : Prog ε σ α} {n : Prog ε τ α} {g : α → Prog ε τ β} (hm : Agree E R m n)
    (hf : ∀ a, Agree E R (f a) (g a)) : Agree E R (m >>= f) (n >>= g) := by
  intro s t hR
  refine simIn_bind (simIn_post (hm s t hR) ?_)
  rintro a b s' t' ⟨rfl, hR'⟩
  exact hf a s' t' hR'

/-- A first part that agrees, followed by any simulation. -/
theorem agree_seq {m : Prog ε σ α} {n : Prog ε τ α} {g : α → Prog ε τ γ} {S : β → γ → σ → τ → Prop}
    {s : σ} {t : τ} (hm : Agree E R m n) (hR : R s t)
    (h : ∀ a s' t', R s' t' → SimIn E (f a) (g a) S s' t') :
    SimIn E (m >>= f) (n >>= g) S s t := by
  refine simIn_bind (simIn_post (hm s t hR) ?_)
  rintro a b s' t' ⟨rfl, hR'⟩
  exact h a s' t' hR'

theorem agree_assert {e : ε} {b : Bool} (he : E e) : Agree E R (assert e b) (assert e b) := by
  cases b with
  | false => exact agree_panic he
  | true => exact agree_pure

theorem agree_expect {e : ε} {o : Option α} (he : E e) : Agree E R (expect e o) (expect e o) := by
  cases o with
  | none => exact agree_panic he
  | some a => exact agree_pure

theorem agree_ite {c : Prop} [Decidable c] {m m' : Prog ε σ α} {n n' : Prog ε τ α}
    (h : Agree E R m n) (h' : Agree E R m' n') :
    Agree E R (if c then m else m') (if c then n else n') :=
  fun s t hR => simIn_ite (fun _ => h s t hR) fun _ => h' s t hR

theorem agree_forEach {f : ι → Prog ε σ Unit} {g : ι → Prog ε τ Unit}
    (h : ∀ i, Agree E R (f i) (g i)) : Agree E R (forEach l f) (forEach l g) := by
  induction l with
  | nil => exact agree_pure
  | cons i rest ih => exact agree_bind (h i) fun _ => ih

theorem agree_firstSome {f : ι → Prog ε σ (Option α)} {g : ι → Prog ε τ (Option α)}
    (h : ∀ i, Agree E R (f i) (g i)) : Agree E R (firstSome l f) (firstSome l g) := by
  induction l with
  | nil => exact agree_pure
  | cons i rest ih =>
    refine agree_bind (h i) fun r => ?_
    cases r with
    | none => exact ih
    | some a => exact agree_pure

end Agree

end Prog
