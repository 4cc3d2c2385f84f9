import ToyOs.Kernel.FirstProcess
import ToyOs.Kernel.History
import ToyOs.Lib.Sums

/-!
The lives of processes. Seen from `fork`, `exit` and `wait`, the process table
is a family: each event changes it in one way, and the kernel's table is what
the events of the run have made of the first process. Every process but init
has a parent that lives, or init; each exit is reaped at most once, by the
parent, with its code.
-/
namespace ToyOs

open Bytes Finset Function

/-- What an event does to the family. -/
def Event.lives (init : ProcRef) (L : ProcRef → Life) : Event → ProcRef → Life
  | .forked i c pid => Function.update L c ⟨.alive, pid, some i, 0⟩
  | .exited i code => fun j =>
    if j = i then { (L j).adopt i (some init) with status := .zombie, xstate := code }
    else (L j).adopt i (some init)
  | .reaped _ c _ _ => Function.update L c Life.empty
  | _ => L

/-- The event can happen in the family. -/
def Event.Fits (L : ProcRef → Life) : Event → Prop
  | .forked i c _ => (L i).status = .alive ∧ (L c).status = .unused
  | .exited i _ => (L i).status = .alive
  | .reaped i c pid code => (L i).status = .alive ∧ L c = ⟨.zombie, pid, some i, code⟩
  | _ => True

/-- The family of the first process. -/
def firstLives (init : ProcRef) : ProcRef → Life :=
  Function.update (fun _ => Life.empty) init ⟨.alive, 1, none, 0⟩

def livesOf (init : ProcRef) (es : List Event) : ProcRef → Life :=
  es.foldl (Event.lives init) (firstLives init)

section Family

variable {init : ProcRef} {L : ProcRef → Life} {e : Event} {es : List Event}

/-- A free slot is empty, and every process but init has a parent that lives or
is init. -/
structure Kin (init : ProcRef) (L : ProcRef → Life) : Prop where
  vacant : ∀ j, (L j).status = .unused → L j = Life.empty
  made : ∀ j, (L j).status ≠ .used
  root : (L init).status ≠ .unused ∧ (L init).parent = none
  parent : ∀ j, j ≠ init → (L j).status ≠ .unused →
    ∃ p, (L j).parent = some p ∧ (p = init ∨ (L p).status = .alive)

theorem kin_first : Kin init (firstLives init) := by
  have hother : ∀ j, j ≠ init → firstLives init j = Life.empty := fun j hj => update_of_ne hj ..
  have hinit : firstLives init init = ⟨.alive, 1, none, 0⟩ := update_self ..
  refine ⟨fun j hj => ?_, fun j hj => ?_, ?_, fun j hj hused => ?_⟩
  · by_cases hji : j = init
    · rw [hji, hinit] at hj
      cases hj
    · exact hother j hji
  · by_cases hji : j = init
    · rw [hji, hinit] at hj
      cases hj
    · rw [hother j hji] at hj
      cases hj
  · rw [hinit]
    exact ⟨Status.noConfusion, rfl⟩
  · rw [hother j hj] at hused
    exact absurd rfl hused

theorem Life.adopt_none {i init : ProcRef} {l : Life} (h : l.parent = none) :
    l.adopt i (some init) = l := by
  rw [Life.adopt, if_neg]
  rintro ⟨-, -, hp⟩
  rw [h] at hp
  cases hp

theorem Life.adopt_pid {i : ProcRef} {init : Option ProcRef} {l : Life} :
    (l.adopt i init).pid = l.pid := by
  unfold Life.adopt
  split_ifs <;> rfl

/-- The parent once the children of `i` were handed to init. -/
theorem Life.adopt_parent {i : ProcRef} {l : Life} {p : ProcRef} (h : l.parent = some p) :
    (l.adopt i (some init)).parent = some (if p = i then init else p) := by
  unfold Life.adopt
  by_cases hp : p = i
  · subst hp
    rw [if_pos rfl]
    by_cases hinit : init = p
    · rw [if_neg fun hc => hc.2.1 (congrArg some hinit), h, hinit]
    · rw [if_pos ⟨Option.some_ne_none _, fun hc => hinit (Option.some.inj hc), h⟩]
  · rw [if_neg hp, if_neg, h]
    rintro ⟨-, -, hc⟩
    rw [h] at hc
    exact hp (Option.some.inj hc)

theorem Kin.fork (h : Kin init L) {i c : ProcRef} {pid : ℕ} (hi : (L i).status = .alive)
    (hc : (L c).status = .unused) : Kin init (Event.lives init L (.forked i c pid)) := by
  simp only [Event.lives]
  have hroot : init ≠ c := fun hic => h.root.1 (by rw [hic]; exact hc)
  have halive : ∀ p, (L p).status = .alive →
      (update L c ⟨.alive, pid, some i, 0⟩ p).status = .alive := by
    intro p hp
    by_cases hpc : p = c
    · rw [hpc, update_self]
    · rw [update_of_ne hpc]
      exact hp
  refine ⟨fun j hj => ?_, fun j hj => ?_, ?_, fun j hj hused => ?_⟩
  · by_cases hjc : j = c
    · rw [hjc, update_self] at hj
      cases hj
    · rw [update_of_ne hjc] at hj ⊢
      exact h.vacant j hj
  · by_cases hjc : j = c
    · rw [hjc, update_self] at hj
      cases hj
    · rw [update_of_ne hjc] at hj
      exact h.made j hj
  · rw [update_of_ne hroot]
    exact h.root
  · by_cases hjc : j = c
    · refine ⟨i, ?_, .inr (halive i hi)⟩
      rw [hjc, update_self]
    · rw [update_of_ne hjc] at hused ⊢
      obtain ⟨p, hp, hlives⟩ := h.parent j hj hused
      exact ⟨p, hp, hlives.imp_right (halive p)⟩

theorem lives_exit {i j : ProcRef} {code : ℤ} :
    (Event.lives init L (.exited i code) j).status = (if j = i then .zombie else (L j).status) ∧
    (Event.lives init L (.exited i code) j).pid = (L j).pid ∧
    (Event.lives init L (.exited i code) j).parent = ((L j).adopt i (some init)).parent := by
  simp only [Event.lives]
  split_ifs
  · exact ⟨rfl, Life.adopt_pid, rfl⟩
  · exact ⟨Life.adopt_status, Life.adopt_pid, rfl⟩

theorem Kin.exit (h : Kin init L) {i : ProcRef} {code : ℤ} (hi : (L i).status = .alive) :
    Kin init (Event.lives init L (.exited i code)) := by
  refine ⟨fun j hj => ?_, fun j hj => ?_, ⟨fun hj => ?_, ?_⟩, fun j hj hused => ?_⟩
  · rw [lives_exit.1] at hj
    split_ifs at hj with hji
    have hempty := h.vacant j hj
    simp only [Event.lives, if_neg hji, hempty]
    exact Life.adopt_none rfl
  · rw [lives_exit.1] at hj
    split_ifs at hj
    exact h.made j hj
  · rw [lives_exit.1] at hj
    split_ifs at hj
    exact h.root.1 hj
  · rw [lives_exit.2.2, Life.adopt_none h.root.2]
    exact h.root.2
  · have hused' : (L j).status ≠ .unused := by
      intro hu
      rw [lives_exit.1] at hused
      by_cases hji : j = i
      · rw [hji, hi] at hu
        cases hu
      · exact hused (by rw [if_neg hji, hu])
    obtain ⟨p, hp, hlives⟩ := h.parent j hj hused'
    refine ⟨if p = i then init else p, ?_, ?_⟩
    · rw [lives_exit.2.2, Life.adopt_parent hp]
    · by_cases hpi : p = i
      · exact .inl (if_pos hpi)
      · rw [if_neg hpi, lives_exit.1, if_neg hpi]
        exact hlives

/-- Nobody has a process that is reaped for a parent. -/
theorem Kin.reap (h : Kin init L) {i c : ProcRef} {pid : ℕ} {code : ℤ}
    (hc : L c = ⟨.zombie, pid, some i, code⟩) :
    Kin init (Event.lives init L (.reaped i c pid code)) := by
  simp only [Event.lives]
  have hroot : init ≠ c := by
    rintro rfl
    have hnone := h.root.2
    rw [hc] at hnone
    cases hnone
  refine ⟨fun j hj => ?_, fun j hj => ?_, ?_, fun j hj hused => ?_⟩
  · by_cases hjc : j = c
    · rw [hjc, update_self]
    · rw [update_of_ne hjc] at hj ⊢
      exact h.vacant j hj
  · by_cases hjc : j = c
    · rw [hjc, update_self] at hj
      cases hj
    · rw [update_of_ne hjc] at hj
      exact h.made j hj
  · rw [update_of_ne hroot]
    exact h.root
  · by_cases hjc : j = c
    · rw [hjc, update_self] at hused
      exact absurd rfl hused
    · rw [update_of_ne hjc] at hused ⊢
      obtain ⟨p, hp, hlives⟩ := h.parent j hj hused
      refine ⟨p, hp, hlives.imp_right fun halive => ?_⟩
      rw [update_of_ne, halive]
      rintro rfl
      rw [hc] at halive
      cases halive

theorem Kin.step (h : Kin init L) (he : e.Fits L) : Kin init (e.lives init L) := by
  cases e with
  | forked i c pid => exact h.fork he.1 he.2
  | exited i code => exact h.exit he
  | reaped i c pid code => exact h.reap he.2
  | _ => exact h

end Family

section Counts

variable {init : ProcRef} {L : ProcRef → Life} {e : Event} {es : List Event}

def Event.forks : Event → ℕ
  | .forked .. => 1
  | _ => 0

end Counts

section Pids

variable {init : ProcRef} {L : ProcRef → Life} {e : Event} {n : ℕ}

/-- The numbers of processes differ, and a parent has a smaller one. -/
structure Numbered (init : ProcRef) (n : ℕ) (L : ProcRef → Life) : Prop where
  below : ∀ j, (L j).status ≠ .unused → (L j).pid < n
  distinct : ∀ i j, (L i).status ≠ .unused → (L j).status ≠ .unused → (L i).pid = (L j).pid → i = j
  root : (L init).pid = 1
  later : ∀ j, j ≠ init → (L j).status ≠ .unused → 1 < (L j).pid
  older : ∀ j p, (L j).status ≠ .unused → (L j).parent = some p → (L p).pid < (L j).pid

theorem numbered_first : Numbered init 2 (firstLives init) := by
  have hother : ∀ j, (firstLives init j).status ≠ .unused → j = init := by
    intro j hj
    by_contra hne
    rw [firstLives, update_of_ne hne] at hj
    exact hj rfl
  have hinit : firstLives init init = ⟨.alive, 1, none, 0⟩ := update_self ..
  refine ⟨fun j hj => ?_, fun i j hi hj _ => ?_, ?_, fun j hj hused => ?_, fun j p hj hp => ?_⟩
  · rw [hother j hj, hinit]
    exact Nat.lt_succ_self 1
  · rw [hother i hi, hother j hj]
  · rw [hinit]
  · exact absurd (hother j hused) hj
  · rw [hother j hj, hinit] at hp
    cases hp

theorem Numbered.mono {m : ℕ} (h : Numbered init n L) (hnm : n ≤ m) : Numbered init m L :=
  ⟨fun j hj => (h.below j hj).trans_le hnm, h.distinct, h.root, h.later, h.older⟩

theorem Numbered.fork (h : Numbered init n L) (hk : Kin init L) {i c : ProcRef}
    (hi : (L i).status = .alive) (hc : (L c).status = .unused) :
    Numbered init (n + 1) (Event.lives init L (.forked i c n)) := by
  simp only [Event.lives]
  have hi' : (L i).status ≠ .unused := by
    rw [hi]
    exact Status.noConfusion
  have hcinit : init ≠ c := fun hic => hk.root.1 (by rw [hic]; exact hc)
  have hn : 1 < n := by
    have := h.below init hk.root.1
    rw [h.root] at this
    exact this
  refine ⟨fun j hj => ?_, fun a b ha hb hab => ?_, ?_, fun j hj hused => ?_, fun j p hj hp => ?_⟩
  · by_cases hjc : j = c
    · rw [hjc, update_self]
      exact Nat.lt_succ_self n
    · rw [update_of_ne hjc] at hj ⊢
      exact Nat.lt_succ_of_lt (h.below j hj)
  · by_cases hac : a = c
    · by_cases hbc : b = c
      · rw [hac, hbc]
      · rw [update_of_ne hbc] at hb hab
        rw [hac, update_self] at hab
        exact absurd hab (h.below b hb).ne'
    · by_cases hbc : b = c
      · rw [update_of_ne hac] at ha hab
        rw [hbc, update_self] at hab
        exact absurd hab (h.below a ha).ne
      · rw [update_of_ne hac] at ha hab
        rw [update_of_ne hbc] at hb hab
        exact h.distinct a b ha hb hab
  · rw [update_of_ne hcinit]
    exact h.root
  · by_cases hjc : j = c
    · rw [hjc, update_self]
      exact hn
    · rw [update_of_ne hjc] at hused ⊢
      exact h.later j hj hused
  · by_cases hjc : j = c
    · rw [hjc, update_self] at hp ⊢
      obtain rfl := Option.some.inj hp
      have hic : i ≠ c := fun hic => hi' (by rw [hic]; exact hc)
      rw [update_of_ne hic]
      exact h.below i hi'
    · rw [update_of_ne hjc] at hj hp ⊢
      have hpc : p ≠ c := by
        rintro rfl
        by_cases hjinit : j = init
        · rw [hjinit, hk.root.2] at hp
          cases hp
        · obtain ⟨q, hq, hlives⟩ := hk.parent j hjinit hj
          rw [hp] at hq
          obtain rfl := Option.some.inj hq
          rcases hlives with hq | hq
          · exact hcinit hq.symm
          · rw [hc] at hq
            cases hq
      rw [update_of_ne hpc]
      exact h.older j p hj hp

theorem Numbered.exit (h : Numbered init n L) (hk : Kin init L) {i : ProcRef} {code : ℤ}
    (hi : (L i).status = .alive) : Numbered init n (Event.lives init L (.exited i code)) := by
  have hused : ∀ j, (Event.lives init L (.exited i code) j).status ≠ .unused →
      (L j).status ≠ .unused := by
    intro j hj hu
    rw [lives_exit.1] at hj
    by_cases hji : j = i
    · rw [hji, hi] at hu
      cases hu
    · exact hj (by rw [if_neg hji, hu])
  refine ⟨fun j hj => ?_, fun a b ha hb hab => ?_, ?_, fun j hj hu => ?_, fun j p hj hp => ?_⟩
  · rw [lives_exit.2.1]
    exact h.below j (hused j hj)
  · rw [lives_exit.2.1, lives_exit.2.1] at hab
    exact h.distinct a b (hused a ha) (hused b hb) hab
  · rw [lives_exit.2.1]
    exact h.root
  · rw [lives_exit.2.1]
    exact h.later j hj (hused j hu)
  · have hj' := hused j hj
    rw [lives_exit.2.1, lives_exit.2.1]
    rw [lives_exit.2.2] at hp
    by_cases hjinit : j = init
    · rw [hjinit, Life.adopt_none hk.root.2, hk.root.2] at hp
      cases hp
    · obtain ⟨q, hq, -⟩ := hk.parent j hjinit hj'
      rw [Life.adopt_parent hq] at hp
      obtain rfl := Option.some.inj hp
      split_ifs with hqi
      · rw [h.root]
        exact h.later j hjinit hj'
      · exact h.older j q hj' hq

theorem Numbered.reap (h : Numbered init n L) (hk : Kin init L) {i c : ProcRef} {pid : ℕ} {code : ℤ}
    (hc : L c = ⟨.zombie, pid, some i, code⟩) :
    Numbered init n (Event.lives init L (.reaped i c pid code)) := by
  have hcinit : init ≠ c := by
    rintro rfl
    have hnone := hk.root.2
    rw [hc] at hnone
    cases hnone
  have hother : ∀ j, (update L c Life.empty j).status ≠ .unused → j ≠ c := by
    rintro j hj rfl
    rw [update_self] at hj
    exact hj rfl
  simp only [Event.lives]
  refine ⟨fun j hj => ?_, fun a b ha hb hab => ?_, ?_, fun j hj hu => ?_, fun j p hj hp => ?_⟩
  · have hjc := hother j hj
    rw [update_of_ne hjc] at hj ⊢
    exact h.below j hj
  · have hac := hother a ha
    have hbc := hother b hb
    rw [update_of_ne hac] at ha hab
    rw [update_of_ne hbc] at hb hab
    exact h.distinct a b ha hb hab
  · rw [update_of_ne hcinit]
    exact h.root
  · have hjc := hother j hu
    rw [update_of_ne hjc] at hu ⊢
    exact h.later j hj hu
  · have hjc := hother j hj
    rw [update_of_ne hjc] at hj hp ⊢
    by_cases hpc : p = c
    · rw [hpc, update_self]
      exact Nat.zero_lt_of_lt (h.older j p hj hp)
    · rw [update_of_ne hpc]
      exact h.older j p hj hp

/-- The next event, when a fork takes the next number. -/
theorem Numbered.step (h : Numbered init n L) (hk : Kin init L) (he : e.Fits L)
    (hfork : ∀ i c pid, e = .forked i c pid → pid = n) : Numbered init (n + e.forks) (e.lives init L) := by
  cases e with
  | forked i c pid =>
    obtain rfl := hfork i c pid rfl
    exact h.fork hk he.1 he.2
  | exited i code => exact h.exit hk he
  | reaped i c pid code => exact h.reap hk he.2
  | _ => exact h

/-- Every process descends from init. -/
theorem Numbered.descends (h : Numbered init n L) (hk : Kin init L) (j : ProcRef)
    (hj : (L j).status ≠ .unused) :
    Relation.ReflTransGen (fun a b => (L a).parent = some b) j init := by
  generalize hpid : (L j).pid = m
  induction m using Nat.strong_induction_on generalizing j with
  | _ m ih =>
    by_cases hjinit : j = init
    · rw [hjinit]
    · obtain ⟨p, hp, hlives⟩ := hk.parent j hjinit hj
      have hlt := h.older j p hj hp
      refine .head hp (ih (L p).pid (hpid ▸ hlt) p ?_ rfl)
      rcases hlives with hp' | hp'
      · rw [hp']
        exact hk.root.1
      · rw [hp']
        exact Status.noConfusion

end Pids

end ToyOs
