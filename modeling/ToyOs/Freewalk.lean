import ToyOs.ProcPagetable

/-!
`freewalk` on any memory. A mapped page that grants no access looks like a
table to `freewalk`, so the bytes of the page decide what is freed. Whatever
they are, a walk that returns has freed a list of pages, one for the root and
one for each link in a page of the list. If the free list is still one
afterwards, no page was freed twice, and then the page held no link.
-/
namespace ToyOs

open Bytes Prog List

variable {Q : Unit → Ram → Prop}

section Depth

variable {σ α β : Type} {L : Layout}

/-- The two programs do the same, except where the first runs out of stack. -/
def UpTo (m m' : Prog Panic σ α) : Prop := ∀ s, m s = .error .stackOverflow ∨ m' s = m s

theorem UpTo.refl (m : Prog Panic σ α) : UpTo m m := fun _ => Or.inr rfl

theorem UpTo.bind {m m' : Prog Panic σ α} {f f' : α → Prog Panic σ β} (h : UpTo m m')
    (hf : ∀ a, UpTo (f a) (f' a)) : UpTo (m >>= f) (m' >>= f') := by
  intro s
  rcases h s with hs | hs
  · left
    simp [Bind.bind, hs]
  · cases hm : m s with
    | error e =>
      right
      simp [Bind.bind, hs, hm]
    | ok r =>
      rw [hm] at hs
      rw [bind_ok hm, bind_ok hs]
      exact hf r.1 r.2

theorem UpTo.forEach {ι : Type} {body body' : ι → Prog Panic σ Unit} (l : List ι)
    (h : ∀ i, UpTo (body i) (body' i)) : UpTo (Prog.forEach l body) (Prog.forEach l body') := by
  induction l with
  | nil => exact UpTo.refl _
  | cons i rest ih =>
    rw [forEach_cons, forEach_cons]
    exact (h i).bind fun _ => ih

theorem freewalk_upTo (n t : ℕ) : UpTo (freewalk L n t) (freewalk L (n + 1) t) := by
  induction n generalizing t with
  | zero => exact fun _ => Or.inl rfl
  | succ n ih =>
    rw [freewalk, freewalk]
    refine UpTo.bind (UpTo.forEach _ fun i => ?_) fun _ => UpTo.refl _
    refine (UpTo.refl _).bind fun pte => ?_
    split_ifs
    · exact (ih _).bind fun _ => UpTo.refl _
    · exact UpTo.refl _
    · exact UpTo.refl _

/-- A walk that does not run out of stack does not depend on the depth there is. -/
theorem freewalk_depth {m n t : ℕ} {s : Ram} (hle : m ≤ n)
    (h : freewalk L m t s ≠ .error .stackOverflow) : freewalk L n t s = freewalk L m t s := by
  induction n, hle using Nat.le_induction with
  | base => rfl
  | succ n _ ih =>
    rw [← ih]
    exact (freewalk_upTo n t s).resolve_left (by rw [ih]; exact h)

end Depth

/-- The pages that the words of `t` link to. -/
def linksAt (m : Store) (t : ℕ) : Multiset ℕ :=
  (tableIndices.map fun i => pageOf (childOf (load 8 m (t + 8 * i)))).sum

/-- The free list never ends: it stays within `S`. -/
structure Endless (L : Layout) (s : Ram) (S : Finset ℕ) : Prop where
  head : s.head ∈ S
  next : ∀ p ∈ S, Managed L p ∧ load 8 s.mem p ∈ S

/-- The walk over page `x` is at word `i`, which links to `c`. -/
structure OpenAt (m : Store) (x i c : ℕ) : Prop where
  lt : i < 512
  before : ∀ j, j < i → isValid (load 8 m (x + 8 * j)) = false
  link : childOf (load 8 m (x + 8 * i)) = some c

/-- The walks over the pages `O` are under way, and the innermost one has come to `t`. -/
def Opens (m : Store) (O : Finset ℕ) (t : ℕ) : Prop := ∀ x ∈ O, ∃ i c, OpenAt m x i c ∧ c ∈ insert t O

section Lists

variable {L : Layout} {s : Ram} {S : Finset ℕ} {F : List ℕ} {p t i w c : ℕ}

theorem childOf_eq_some : childOf w = some c ↔ isValid w = true ∧ isLeaf w = false ∧ ptePa w = c := by
  unfold childOf
  split_ifs with h
  · obtain ⟨hv, hl⟩ := h
    simp [hv, hl]
  · simp only [false_iff]
    exact fun hc => h ⟨hc.1, hc.2.1⟩

theorem Managed.not_valid (h : Managed L p) : isValid p = false := by
  have halign := h.aligned
  have heven : p % 2 = 0 := by
    unfold pgSize at halign
    omega
  simp [isValid, pteV, Nat.and_one_is_mod, heven]

theorem Endless.not_freeList (h : Endless L s S) : ¬ FreeList s.mem s.head F := by
  have hout : ∀ {hd : ℕ} {F : List ℕ}, FreeList s.mem hd F → hd ∉ S := by
    intro hd F hF
    induction hF with
    | nil => exact fun hmem => (h.next 0 hmem).1.pos rfl
    | cons _ _ ih => exact fun hmem => ih (h.next _ hmem).2
  exact fun hF => hout hF h.head

theorem load_freePage (s : Ram) (p : ℕ) (hh : s.head < 2 ^ 64) :
    load 8 (s.freePage p).mem p = s.head := by
  unfold Ram.freePage
  rw [load_store_same, Nat.mod_eq_of_lt (by simpa using hh)]

theorem load_freePage_of_ne {q : ℕ} (hp : Managed L p) (hq : Managed L q) (hne : q ≠ p) (s : Ram) :
    load 8 (s.freePage p).mem q = load 8 s.mem q := by
  refine (agreeOff_freePage s p).load hq ?_ (by simpa using hne) (le_refl q) (by unfold pgSize; omega)
  intro r hr
  rw [Multiset.mem_singleton.mp hr]
  exact hp

/-- Freeing a page does not end an endless list. -/
theorem Endless.freePage (h : Endless L s S) (hp : Managed L p) :
    Endless L (s.freePage p) (insert p S) where
  head := Finset.mem_insert_self p S
  next := by
    intro q hq
    have hhead := (h.next _ h.head).1.lt
    by_cases hqp : q = p
    · subst hqp
      rw [load_freePage s q (by omega)]
      exact ⟨hp, Finset.mem_insert_of_mem h.head⟩
    · obtain ⟨hman, hnext⟩ := h.next q ((Finset.mem_insert.mp hq).resolve_left hqp)
      rw [load_freePage_of_ne hp hman hqp]
      exact ⟨hman, Finset.mem_insert_of_mem hnext⟩

/-- The part of a free list up to a page. -/
theorem FreeList.upTo {m : Store} {hd : ℕ} (h : FreeList m hd F) (hF : ∀ q ∈ F, Managed L q)
    (hp : p ∈ F) : ∃ S : Finset ℕ, hd ∈ S ∧ p ∈ S ∧ (∀ q ∈ S, q ∈ F) ∧
      ∀ q ∈ S, q = p ∨ load 8 m q ∈ S := by
  induction h with
  | nil => exact absurd hp (by simp)
  | @cons q rest _ _ ih =>
    by_cases hqp : q = p
    · subst hqp
      exact ⟨{q}, by simp, by simp, by simp, by simp⟩
    · obtain ⟨S, hhd, hpS, hsub, hnext⟩ := ih (fun r hr => hF r (mem_cons_of_mem _ hr))
        ((mem_cons.mp hp).resolve_left (Ne.symm hqp))
      refine ⟨insert q S, by simp, by simp [hpS], ?_, ?_⟩
      · intro r hr
        rcases Finset.mem_insert.mp hr with rfl | hr
        · exact mem_cons_self
        · exact mem_cons_of_mem _ (hsub r hr)
      · intro r hr
        rcases Finset.mem_insert.mp hr with rfl | hr
        · exact Or.inr (Finset.mem_insert_of_mem hhd)
        · exact (hnext r hr).imp_right Finset.mem_insert_of_mem

/-- A page that is freed twice makes the list endless. -/
theorem FreeList.endless_freePage (h : FreeList s.mem s.head F) (hF : ∀ q ∈ F, Managed L q)
    (hp : p ∈ F) : ∃ S, Endless L (s.freePage p) S ∧ ∀ q ∈ S, q ∈ F := by
  obtain ⟨S, hhd, hpS, hsub, hnext⟩ := h.upTo hF hp
  refine ⟨S, ⟨hpS, fun q hq => ⟨hF q (hsub q hq), ?_⟩⟩, hsub⟩
  by_cases hqp : q = p
  · subst hqp
    rw [load_freePage s q (h.head_lt hF)]
    exact hhd
  · rw [load_freePage_of_ne (hF p (hsub p hpS)) (hF q (hsub q hq)) hqp]
    exact (hnext q hq).resolve_left hqp

/-- The first word of a free page is no link. -/
theorem FreeList.not_valid {m : Store} {hd : ℕ} (h : FreeList m hd F) (hF : ∀ q ∈ F, Managed L q)
    (hp : p ∈ F) : isValid (load 8 m p) = false := by
  induction h with
  | nil => exact absurd hp (by simp)
  | @cons q rest _ hrest ih =>
    by_cases hpq : p = q
    · subst hpq
      generalize load 8 m p = hd at hrest
      cases hrest with
      | nil => rfl
      | cons => exact (hF _ (by simp)).not_valid
    · exact ih (fun r hr => hF r (mem_cons_of_mem _ hr)) ((mem_cons.mp hp).resolve_left hpq)

theorem load_setWord (ht : Managed L t) (hp : Managed L p) (hi : i < 512) (hsafe : i = 0 → p ≠ t)
    (s : Ram) : load 8 (s.setWord (t + 8 * i) 0).mem p = load 8 s.mem p := by
  by_cases hpt : p = t
  · subst hpt
    refine load_store_of_disjoint _ _ _ _ _ _ ?_
    have : i ≠ 0 := fun h => hsafe h rfl
    omega
  · refine (agreeOff_setWord s 0 hi).load hp ?_ (by simpa using hpt) (le_refl p)
      (by unfold pgSize; omega)
    intro r hr
    rw [Multiset.mem_singleton.mp hr]
    exact ht

theorem Endless.setWord (h : Endless L s S) (ht : Managed L t) (hi : i < 512)
    (hsafe : i = 0 → t ∉ S) : Endless L (s.setWord (t + 8 * i) 0) S where
  head := h.head
  next := by
    intro p hp
    obtain ⟨hman, hnext⟩ := h.next p hp
    rw [load_setWord ht hman hi (fun h0 heq => hsafe h0 (heq ▸ hp))]
    exact ⟨hman, hnext⟩

theorem FreeList.setWord (h : FreeList s.mem s.head F) (hF : ∀ q ∈ F, Managed L q)
    (ht : Managed L t) (hi : i < 512) (hsafe : i = 0 → t ∉ F) :
    FreeList (s.setWord (t + 8 * i) 0).mem (s.setWord (t + 8 * i) 0).head F :=
  h.congr_load fun p hp => load_setWord ht (hF p hp) hi (fun h0 heq => hsafe h0 (heq ▸ hp)) s

end Lists

section Walk

variable {L : Layout} {E : Panic → Prop} {s s' : Ram} {O : Finset ℕ} {d t i : ℕ}

theorem wp_freewalkWord (hskip : isValid (load 8 s.mem (t + 8 * i)) = false → Q () s)
    (hlink : ∀ c, childOf (load 8 s.mem (t + 8 * i)) = some c →
      (freewalk L d c).wp E (fun _ s' => Q () (s'.setWord (t + 8 * i) 0)) s)
    (hleaf : isLeaf (load 8 s.mem (t + 8 * i)) = true → E .freewalkLeaf) :
    (do let pte ← loadPte (t + 8 * i)
        if isValid pte && !isLeaf pte then
          freewalk L d (ptePa pte)
          storePte (t + 8 * i) 0
        else if isLeaf pte then
          Prog.panic .freewalkLeaf
        else
          pure () : RamM Unit).wp E Q s := by
  simp only [loadPte, wp_bind, wp_get, wp_pure]
  cases hv : isValid (load 8 s.mem (t + 8 * i)) with
  | false =>
    have hl : isLeaf (load 8 s.mem (t + 8 * i)) = false := by simp [isLeaf, hv]
    simp only [hl, Bool.false_and, Bool.false_eq_true, if_false, wp_pure]
    exact hskip hv
  | true =>
    cases hl : isLeaf (load 8 s.mem (t + 8 * i)) with
    | true =>
      simp only [Bool.not_true, Bool.and_false, Bool.false_eq_true, if_false, if_true, wp_panic]
      exact hleaf hl
    | false =>
      simp only [Bool.not_false, Bool.and_true, if_true, wp_bind, storePte, wp_modify]
      exact hlink _ (childOf_eq_some.mpr ⟨hv, hl, rfl⟩)

theorem tableIndices_lt {rest : List ℕ} (hsuf : (i :: rest) <:+ tableIndices) {j : ℕ}
    (hj : j ∈ rest) : i < j := by
  have hsorted : tableIndices.Pairwise (· < ·) := by
    unfold tableIndices
    exact pairwise_lt_range
  exact rel_of_pairwise_cons (hsorted.sublist hsuf.sublist) hj

/-- A walk that comes back to a page that is still open never returns. -/
theorem freewalk_stuck (hopen : Opens s.mem O t) (ht : t ∈ O) :
    (freewalk L d t).wp (fun _ => True) (fun _ _ => False) s := by
  induction d generalizing t with
  | zero => exact trivial
  | succ d ih =>
    rw [Opens, Finset.insert_eq_of_mem ht] at hopen
    obtain ⟨i, c, hat, hc⟩ := hopen t ht
    simp only [freewalk, wp_bind]
    -- the words before the open one are skipped, and the open one leads back into `O`
    refine wp_post (wp_forEach (fun rest s' => s' = s ∧ i ∈ rest)
      ⟨rfl, mem_tableIndices.mpr hat.lt⟩ ?_) ?_
    · rintro j rest s' hsuf ⟨rfl, hi⟩
      refine wp_freewalkWord (fun _ => ⟨rfl, ?_⟩) (fun c' hc' => ?_) fun _ => trivial
      · rcases mem_cons.mp hi with rfl | hi
        · have hv := (childOf_eq_some.mp hat.link).1
          simp_all
        · exact hi
      · have hji : j = i := by
          rcases mem_cons.mp hi with rfl | hi
          · rfl
          · have hv := (childOf_eq_some.mp hc').1
            rw [hat.before j (tableIndices_lt hsuf hi)] at hv
            exact Bool.noConfusion hv
        subst hji
        obtain rfl := Option.some.inj (hat.link.symm.trans hc')
        refine wp_post (ih ?_ hc) fun _ _ hf => hf.elim
        rw [Opens, Finset.insert_eq_of_mem hc]
        exact hopen
    · rintro _ s' ⟨-, hmem⟩
      exact absurd hmem (by simp)

/-- The pages `l` were freed by a walk over `t` that has returned, the last one first. -/
structure Walked (L : Layout) (O : Finset ℕ) (t : ℕ) (s : Ram) (l : List ℕ) (s' : Ram) : Prop where
  managed : ∀ p ∈ l, Managed L p
  avoids : ∀ p ∈ l, p ∉ O
  agree : AgreeOff ↑l s.mem s'.mem
  endless : ∀ S, Endless L s S → Endless L s' (S ∪ l.toFinset)
  chain : ∀ F, FreeList s.mem s.head F → (∀ p ∈ F, Managed L p) → F.Nodup →
    (l ++ F).Nodup ∧ FreeList s'.mem s'.head (l ++ F) ∨
      ∃ S, Endless L s' S ∧ ∀ p ∈ S, p ∈ l ++ F
  links : l.Nodup → (↑l : Multiset ℕ) = {t} + (l.map (linksAt s.mem)).sum
  leafless : l.Nodup → ∀ x ∈ l, ∀ i, i < 512 → isLeaf (load 8 s.mem (x + 8 * i)) = false

/-- The walk over `t` has the words `rest` before it and has freed the pages `l`. -/
structure Walking (L : Layout) (O : Finset ℕ) (t : ℕ) (s : Ram) (rest l : List ℕ) (s' : Ram) :
    Prop where
  managed : ∀ p ∈ l, Managed L p
  avoids : ∀ p ∈ l, p ∉ insert t O
  agree : AgreeOff ({t} + ↑l) s.mem s'.mem
  endless : ∀ S, Endless L s S → Endless L s' (S ∪ l.toFinset)
  chain : ∀ F, FreeList s.mem s.head F → (∀ p ∈ F, Managed L p) → F.Nodup →
    (l ++ F).Nodup ∧ FreeList s'.mem s'.head (l ++ F) ∨
      ∃ S, Endless L s' S ∧ ∀ p ∈ S, p ∈ l ++ F
  todo : ∀ i ∈ rest, load 8 s'.mem (t + 8 * i) = load 8 s.mem (t + 8 * i)
  done : ∀ i, i < 512 → i ∉ rest → isValid (load 8 s'.mem (t + 8 * i)) = false ∧
    isLeaf (load 8 s.mem (t + 8 * i)) = false
  links : l.Nodup → (↑l : Multiset ℕ) +
      (rest.map fun i => pageOf (childOf (load 8 s.mem (t + 8 * i)))).sum =
    linksAt s.mem t + (l.map (linksAt s.mem)).sum
  leafless : l.Nodup → ∀ x ∈ l, ∀ i, i < 512 → isLeaf (load 8 s.mem (x + 8 * i)) = false

theorem Walking.init (L : Layout) (O : Finset ℕ) (t : ℕ) (s : Ram) :
    Walking L O t s tableIndices [] s where
  managed := by simp
  avoids := by simp
  agree := AgreeOff.refl
  endless := by simp
  chain := fun F hF _ hn => Or.inl ⟨hn, hF⟩
  todo := fun _ _ => rfl
  done := fun i hi hn => absurd (mem_tableIndices.mpr hi) hn
  links := by simp [linksAt]
  leafless := by simp

variable {rest l l' : List ℕ}

theorem Walking.skip (h : Walking L O t s (i :: rest) l s')
    (hv : isValid (load 8 s'.mem (t + 8 * i)) = false) : Walking L O t s rest l s' := by
  have hword := h.todo i mem_cons_self
  refine ⟨h.managed, h.avoids, h.agree, h.endless, h.chain,
    fun j hj => h.todo j (mem_cons_of_mem i hj), fun j hj hn => ?_, fun hnodup => ?_, h.leafless⟩
  · by_cases hji : j = i
    · subst hji
      rw [← hword]
      exact ⟨hv, by simp [isLeaf, hv]⟩
    · exact h.done j hj fun hmem => (mem_cons.mp hmem).elim hji hn
  · have hnone : childOf (load 8 s.mem (t + 8 * i)) = none := by
      rw [← hword]
      simp [childOf, hv]
    have hlinks := h.links hnodup
    rwa [map_cons, sum_cons, hnone, pageOf_none, zero_add] at hlinks

/-- While `t` is walked over, its own pages and those under way are unchanged. -/
theorem Walking.load_eq (h : Walking L O t s rest l s') (ht : Managed L t) {x : ℕ}
    (hx : Managed L x) (hxt : x ≠ t) (hxl : x ∉ l) (hi : i < 512) :
    load 8 s'.mem (x + 8 * i) = load 8 s.mem (x + 8 * i) := by
  refine h.agree.load hx ?_ ?_ (by omega) (by unfold pgSize; omega)
  · intro p hp
    rcases Multiset.mem_add.mp hp with hp | hp
    · rw [Multiset.mem_singleton.mp hp]
      exact ht
    · exact h.managed p hp
  · rw [Multiset.mem_add, Multiset.mem_singleton, Multiset.mem_coe]
    exact fun hmem => hmem.elim hxt hxl

theorem Walking.opens (h : Walking L O t s (i :: rest) l s') (hsuf : (i :: rest) <:+ tableIndices)
    (ht : Managed L t) (htO : t ∉ O) (hO : ∀ x ∈ O, Managed L x) (hopen : Opens s.mem O t) {c : ℕ}
    (hc : childOf (load 8 s'.mem (t + 8 * i)) = some c) : Opens s'.mem (insert t O) c := by
  intro x hx
  rcases Finset.mem_insert.mp hx with rfl | hx
  · have hi := mem_tableIndices.mp (hsuf.subset mem_cons_self)
    refine ⟨i, c, ⟨hi, fun j hj => ?_, hc⟩, Finset.mem_insert_self c _⟩
    refine (h.done j (by omega) fun hmem => ?_).1
    rcases mem_cons.mp hmem with rfl | hmem
    · omega
    · have := tableIndices_lt hsuf hmem
      omega
  · obtain ⟨j, c', hat, hc'⟩ := hopen x hx
    have hxt : x ≠ t := fun heq => htO (heq ▸ hx)
    have hxl : x ∉ l := fun hmem => h.avoids x hmem (Finset.mem_insert_of_mem hx)
    have hword : ∀ {n : ℕ}, n < 512 → load 8 s'.mem (x + 8 * n) = load 8 s.mem (x + 8 * n) :=
      fun hn => h.load_eq ht (hO x hx) hxt hxl hn
    refine ⟨j, c', ⟨hat.lt, fun n hn => ?_, ?_⟩, Finset.mem_insert_of_mem hc'⟩
    · rw [hword (by have := hat.lt; omega)]
      exact hat.before n hn
    · rw [hword hat.lt]
      exact hat.link

theorem Walking.step (h : Walking L O t s (i :: rest) l s') (hsuf : (i :: rest) <:+ tableIndices)
    (ht : Managed L t) {c : ℕ} (hc : childOf (load 8 s'.mem (t + 8 * i)) = some c) {s'' : Ram}
    (hw : Walked L (insert t O) c s' l' s'') :
    Walking L O t s rest (l' ++ l) (s''.setWord (t + 8 * i) 0) := by
  have hi := mem_tableIndices.mp (hsuf.subset mem_cons_self)
  have hword := h.todo i mem_cons_self
  have htl : t ∉ l := fun hmem => h.avoids t hmem (Finset.mem_insert_self t O)
  have htl' : t ∉ l' := fun hmem => hw.avoids t hmem (Finset.mem_insert_self t O)
  -- a page whose first word is a link is not on the free list
  have hfirst : i = 0 → isValid (load 8 s.mem t) = true := by
    rintro rfl
    rw [hword] at hc
    exact (childOf_eq_some.mp hc).1
  have hkept : ∀ {j : ℕ}, j < 512 → j ≠ i →
      load 8 (s''.setWord (t + 8 * i) 0).mem (t + 8 * j) = load 8 s'.mem (t + 8 * j) := by
    intro j hj hji
    have hstore : load 8 (s''.setWord (t + 8 * i) 0).mem (t + 8 * j) = load 8 s''.mem (t + 8 * j) :=
      load_store_of_disjoint _ _ _ _ _ _ (by omega)
    rw [hstore]
    exact hw.agree.load ht hw.managed htl' (by omega) (by unfold pgSize; omega)
  have hnone : i ∉ rest := fun hmem => absurd (tableIndices_lt hsuf hmem) (by omega)
  refine ⟨?_, ?_, ?_, ?_, ?_, ?_, ?_, ?_, ?_⟩
  · exact fun p hp => (mem_append.mp hp).elim (hw.managed p) (h.managed p)
  · exact fun p hp => (mem_append.mp hp).elim (hw.avoids p) (h.avoids p)
  · refine (h.agree.mono ?_).trans ((hw.agree.mono ?_).trans ((agreeOff_setWord s'' 0 hi).mono ?_))
    · intro p hp
      rcases Multiset.mem_add.mp hp with hp | hp
      · exact Multiset.mem_add.mpr (Or.inl hp)
      · exact Multiset.mem_add.mpr (Or.inr (mem_append_right _ hp))
    · exact fun p hp => Multiset.mem_add.mpr (Or.inr (mem_append_left _ hp))
    · exact fun p hp => Multiset.mem_add.mpr (Or.inl hp)
  · intro S hS
    have hend := (hw.endless _ (h.endless S hS)).setWord ht hi fun h0 hmem => ?_
    · rwa [Finset.union_assoc, ← toFinset_append, toFinset_append, Finset.union_comm
        l.toFinset, ← toFinset_append] at hend
    · rcases Finset.mem_union.mp hmem with hmem | hmem
      · rcases Finset.mem_union.mp hmem with hmem | hmem
        · have hv := hfirst h0
          rw [(hS.next _ (hS.next t hmem).2).1.not_valid] at hv
          exact Bool.noConfusion hv
        · exact htl (mem_toFinset.mp hmem)
      · exact htl' (mem_toFinset.mp hmem)
  · intro F hF hman hnodup
    have hout : i = 0 → ∀ p ∈ l' ++ (l ++ F), p ≠ t := by
      rintro h0 p hp rfl
      rcases mem_append.mp hp with hp | hp
      · exact htl' hp
      · rcases mem_append.mp hp with hp | hp
        · exact htl hp
        · have hv := hfirst h0
          rw [hF.not_valid hman hp] at hv
          exact Bool.noConfusion hv
    have hman' : ∀ p ∈ l ++ F, Managed L p :=
      fun p hp => (mem_append.mp hp).elim (h.managed p) (hman p)
    rw [append_assoc]
    rcases h.chain F hF hman hnodup with ⟨hn, hlist⟩ | ⟨S, hend, hsub⟩
    · rcases hw.chain (l ++ F) hlist hman' hn with ⟨hn', hlist'⟩ | ⟨S, hend, hsub⟩
      · refine Or.inl ⟨hn', hlist'.setWord (fun p hp => ?_) ht hi fun h0 hmem => hout h0 t hmem rfl⟩
        exact (mem_append.mp hp).elim (hw.managed p) (hman' p)
      · exact Or.inr ⟨S, hend.setWord ht hi fun h0 hmem => hout h0 t (hsub t hmem) rfl, hsub⟩
    · have hsub' : ∀ p ∈ S ∪ l'.toFinset, p ∈ l' ++ (l ++ F) := by
        intro p hp
        rcases Finset.mem_union.mp hp with hp | hp
        · exact mem_append_right _ (hsub p hp)
        · exact mem_append_left _ (mem_toFinset.mp hp)
      exact Or.inr ⟨_, (hw.endless S hend).setWord ht hi
        fun h0 hmem => hout h0 t (hsub' t hmem) rfl, hsub'⟩
  · intro j hj
    have hji : j ≠ i := fun heq => hnone (heq ▸ hj)
    rw [hkept (mem_tableIndices.mp (hsuf.subset (mem_cons_of_mem i hj))) hji]
    exact h.todo j (mem_cons_of_mem i hj)
  · intro j hj hn
    by_cases hji : j = i
    · subst hji
      have hzero : load 8 (s''.setWord (t + 8 * j) 0).mem (t + 8 * j) = 0 := by
        rw [Ram.setWord, load_store_same]
        rfl
      rw [hzero, ← hword]
      exact ⟨rfl, (childOf_eq_some.mp hc).2.1⟩
    · rw [hkept hj hji]
      exact h.done j hj fun hmem => (mem_cons.mp hmem).elim hji hn
  · intro hnodup
    obtain ⟨hn', hn, hdis⟩ := nodup_append.mp hnodup
    have hsame : l'.map (linksAt s'.mem) = l'.map (linksAt s.mem) := by
      refine map_congr_left fun x hx => ?_
      have hxt : x ≠ t := fun heq => hw.avoids x hx (heq ▸ Finset.mem_insert_self x O)
      have hxl : x ∉ l := fun hmem => hdis x hx x hmem rfl
      unfold linksAt
      refine congrArg List.sum (map_congr_left fun j hj => ?_)
      rw [h.load_eq ht (hw.managed x hx) hxt hxl (mem_tableIndices.mp hj)]
    have hlinks' := hw.links hn'
    have hlinks := h.links hn
    rw [hword] at hc
    rw [map_cons, sum_cons, hc, pageOf_some] at hlinks
    rw [hsame] at hlinks'
    rw [← Multiset.coe_add, hlinks', map_append, sum_append]
    calc {c} + (l'.map (linksAt s.mem)).sum + ↑l +
          (rest.map fun i => pageOf (childOf (load 8 s.mem (t + 8 * i)))).sum
        = (l'.map (linksAt s.mem)).sum + (↑l + ({c} +
          (rest.map fun i => pageOf (childOf (load 8 s.mem (t + 8 * i)))).sum)) := by abel
      _ = linksAt s.mem t + ((l'.map (linksAt s.mem)).sum + (l.map (linksAt s.mem)).sum) := by
        rw [hlinks]
        abel
  · intro hnodup x hx j hj
    obtain ⟨hn', hn, hdis⟩ := nodup_append.mp hnodup
    rcases mem_append.mp hx with hx | hx
    · have hxt : x ≠ t := fun heq => hw.avoids x hx (heq ▸ Finset.mem_insert_self x O)
      have hxl : x ∉ l := fun hmem => hdis x hx x hmem rfl
      rw [← h.load_eq ht (hw.managed x hx) hxt hxl hj]
      exact hw.leafless hn' x hx j hj
    · exact h.leafless hn x hx j hj

theorem Walking.free (h : Walking L O t s [] l s') (ht : Managed L t) (htO : t ∉ O) :
    Walked L O t s (t :: l) (s'.freePage t) := by
  have htl : t ∉ l := fun hmem => h.avoids t hmem (Finset.mem_insert_self t O)
  refine ⟨?_, ?_, ?_, ?_, ?_, ?_, ?_⟩
  · exact fun p hp => (mem_cons.mp hp).elim (fun heq => heq ▸ ht) (h.managed p)
  · exact fun p hp => (mem_cons.mp hp).elim (fun heq => heq ▸ htO)
      fun hp hpO => h.avoids p hp (Finset.mem_insert_of_mem hpO)
  · rw [← Multiset.cons_coe, ← Multiset.singleton_add]
    exact h.agree.trans ((agreeOff_freePage s' t).mono fun p hp => Multiset.mem_add.mpr (Or.inl hp))
  · intro S hS
    have hend := (h.endless S hS).freePage ht
    rwa [← Finset.union_insert, ← toFinset_cons] at hend
  · intro F hF hman hnodup
    have hman' : ∀ p ∈ l ++ F, Managed L p :=
      fun p hp => (mem_append.mp hp).elim (h.managed p) (hman p)
    rcases h.chain F hF hman hnodup with ⟨hn, hlist⟩ | ⟨S, hend, hsub⟩
    · by_cases hmem : t ∈ l ++ F
      · obtain ⟨S, hend, hsub⟩ := hlist.endless_freePage hman' hmem
        exact Or.inr ⟨S, hend, fun p hp => mem_cons_of_mem _ (hsub p hp)⟩
      · exact Or.inl ⟨nodup_cons.mpr ⟨hmem, hn⟩, hlist.freePage ht hman' hmem⟩
    · refine Or.inr ⟨_, hend.freePage ht, fun p hp => ?_⟩
      rcases Finset.mem_insert.mp hp with rfl | hp
      · exact mem_cons_self
      · exact mem_cons_of_mem _ (hsub p hp)
  · intro hnodup
    have hlinks := h.links (nodup_cons.mp hnodup).2
    rw [map_nil, sum_nil, add_zero] at hlinks
    rw [map_cons, sum_cons, ← hlinks, ← Multiset.cons_coe, ← Multiset.singleton_add]
  · intro hnodup x hx j hj
    rcases mem_cons.mp hx with rfl | hx
    · exact (h.done j hj (by simp)).2
    · exact h.leafless (nodup_cons.mp hnodup).2 x hx j hj

/-- What a walk that returns has done, on any memory. -/
theorem wp_freewalk_any (hO : ∀ x ∈ O, Managed L x) (hopen : Opens s.mem O t) :
    (freewalk L d t).wp (fun _ => True) (fun _ s' => ∃ l, Walked L O t s l s') s := by
  induction d generalizing O t s with
  | zero => exact trivial
  | succ d ih =>
    by_cases htO : t ∈ O
    · exact wp_post (freewalk_stuck hopen htO) fun _ _ hf => hf.elim
    by_cases ht : Managed L t
    · simp only [freewalk, wp_bind]
      refine wp_post (wp_forEach (fun rest s' => ∃ l, Walking L O t s rest l s')
        ⟨[], Walking.init L O t s⟩ ?_) ?_
      · rintro i rest s' hsuf ⟨l, h⟩
        refine wp_freewalkWord (fun hv => ⟨l, h.skip hv⟩) (fun c hc => ?_) fun _ => trivial
        have hO' : ∀ x ∈ insert t O, Managed L x := by
          intro x hx
          rcases Finset.mem_insert.mp hx with rfl | hx
          · exact ht
          · exact hO x hx
        refine wp_post (ih hO' (h.opens hsuf ht htO hO hopen hc)) ?_
        rintro _ s'' ⟨l', hw⟩
        exact ⟨l' ++ l, h.step hsuf ht hc hw⟩
      · rintro _ s' ⟨l, h⟩
        exact wp_of_ok (kfree_apply ht s') ⟨t :: l, h.free ht htO⟩
    · -- `kfree` panics at the end
      simp only [freewalk, wp_bind]
      refine wp_trivial (fun _ => trivial) fun _ s' => ?_
      simp only [kfree, wp_bind, wp_assert, wp_modify]
      refine ⟨fun h1 => ⟨fun h2 => ⟨fun h3 => ?_, fun _ => trivial⟩, fun _ => trivial⟩, fun _ => trivial⟩
      exact absurd ⟨by simpa using h1, by simpa using h2, by simpa using h3⟩ ht

end Walk

/-- The words of a page, read as a table, are invalid. -/
def BlankAt (m : Store) (p : ℕ) : Prop := ∀ i, i < 512 → isValid (load 8 m (p + 8 * i)) = false

/-- What `freewalk` can free: no entry is a leaf, and pages that look like
tables are blank ones. -/
structure Tree.Swept (T : Tree) (m : Store) : Prop where
  leaf : ∀ k, k < 2 ^ 27 → isLeaf (T.pte k) = false
  blank : ∀ k ∈ userSlots, isValid (T.pte k) = true → BlankAt m (ptePa (T.pte k))

section Spaces

variable {L : Layout} {R : Multiset ℕ} {s s' : Ram} {T : Tree} {F F' l : List ℕ} {E : Panic → Prop}
  {f : ℕ → Multiset ℕ}

/-- A page that two different pages link to is counted twice. -/
theorem two_le_count_sum {x y c : ℕ} (hx : x ∈ l) (hy : y ∈ l) (hne : x ≠ y) (hcx : c ∈ f x)
    (hcy : c ∈ f y) : 2 ≤ (l.map f).sum.count c := by
  have hone : ∀ {z : ℕ} {l : List ℕ}, z ∈ l → c ∈ f z → 1 ≤ (l.map f).sum.count c :=
    fun hz hc => le_trans (Multiset.one_le_count_iff_mem.mpr hc) (Multiset.count_le_of_le c (le_sum_map hz))
  induction l with
  | nil => exact absurd hx (by simp)
  | cons a l ih =>
    rw [map_cons, sum_cons, Multiset.count_add]
    rcases mem_cons.mp hx with rfl | hx'
    · have h1 := Multiset.one_le_count_iff_mem.mpr hcx
      have h2 := hone ((mem_cons.mp hy).resolve_left hne.symm) hcy
      omega
    · rcases mem_cons.mp hy with rfl | hy'
      · have h1 := Multiset.one_le_count_iff_mem.mpr hcy
        have h2 := hone hx' hcx
        omega
      · have := ih hx' hy'
        omega

theorem mem_linksAt {m : Store} {t c : ℕ} : c ∈ linksAt m t ↔
    ∃ i, i < 512 ∧ childOf (load 8 m (t + 8 * i)) = some c := by
  unfold linksAt
  rw [sum_tableIndices]
  simp only [Multiset.mem_sum, mem_rootSlots, mem_pageOf]

/-- Every page of an address space but the root has a link in one of the tables. -/
theorem AddrSpace.linked (h : AddrSpace L s T F R) (hleaf : ∀ k, k < 2 ^ 27 → isLeaf (T.pte k) = false)
    {c : ℕ} (hc : c ∈ T.owned) : c = T.root ∨ ∃ x ∈ T.tables, c ∈ linksAt s.mem x := by
  have hman : ∀ {o : Option ℕ} {t : ℕ}, o = some t → t ∈ T.tables → childOf (linkWord o) = some t := by
    rintro o t rfl ht
    refine childOf_linkWord (L := L) fun t' ht' => ?_
    obtain rfl := Option.some.inj ht'
    exact h.table_managed ht
  rcases Multiset.mem_add.mp hc with hc | hc
  · rcases Tree.mem_tables.mp hc with rfl | ⟨i, hi, hl1⟩ | ⟨q, hq, hl0⟩
    · exact Or.inl rfl
    · refine Or.inr ⟨T.root, T.root_mem, mem_linksAt.mpr ⟨i, hi, ?_⟩⟩
      rw [h.rep.root_entry i hi]
      exact hman hl1 hc
    · cases ht : T.l1 (q / 512) with
      | none => simp [h.rep.l0_none q hq ht] at hl0
      | some t =>
        refine Or.inr ⟨t, Tree.l1_mem (by omega) ht, mem_linksAt.mpr ⟨q % 512, by omega, ?_⟩⟩
        rw [h.rep.l1_entry q hq t ht]
        exact hman hl0 hc
  · obtain ⟨k, hk, hv, rfl⟩ := Tree.mem_mapped.mp hc
    have hk' := (mem_userSlots.mp hk).1
    cases hu : T.l0 (k / 512) with
    | none =>
      rw [h.rep.pte_none k hk' hu] at hv
      exact absurd hv (by decide)
    | some u =>
      refine Or.inr ⟨u, Tree.l0_mem (by omega) hu, mem_linksAt.mpr ⟨k % 512, by omega, ?_⟩⟩
      rw [h.rep.l0_entry k hk' u hu]
      exact childOf_eq_some.mpr ⟨hv, hleaf k hk', rfl⟩

/-- When a walk has put exactly the pages of the address space on the free
list, there was nothing in them but the tables. -/
theorem AddrSpace.swept (h : AddrSpace L s T F R) (hw : Walked L ∅ T.root s l s')
    (hfree : FreeList s'.mem s'.head F') (hpool : (↑F' : Multiset ℕ) = T.owned + ↑F) :
    T.Swept s.mem := by
  obtain ⟨hnodup, hl⟩ : l.Nodup ∧ (↑l : Multiset ℕ) = T.owned := by
    rcases hw.chain F h.free (fun p hp => h.free_managed hp) h.free_nodup with
      ⟨hn, hlist⟩ | ⟨S, hend, -⟩
    · rw [hfree.unique hlist, ← Multiset.coe_add] at hpool
      exact ⟨(nodup_append.mp hn).1, Multiset.add_left_inj.mp hpool⟩
    · exact absurd hfree hend.not_freeList
  have hmem : ∀ {x : ℕ}, x ∈ T.owned → x ∈ l := fun hx => by rwa [← hl, Multiset.mem_coe] at hx
  have hleaf : ∀ k, k < 2 ^ 27 → isLeaf (T.pte k) = false := by
    intro k hk
    cases hu : T.l0 (k / 512) with
    | none =>
      rw [h.rep.pte_none k hk hu]
      rfl
    | some u =>
      rw [← h.rep.l0_entry k hk u hu]
      refine hw.leafless hnodup u (hmem ?_) _ (by omega)
      exact Multiset.mem_add.mpr (Or.inl (Tree.l0_mem (by omega) hu))
  refine ⟨hleaf, fun k hk hv i hi => ?_⟩
  have hmapped : ptePa (T.pte k) ∈ T.mapped := Tree.mem_mapped.mpr ⟨k, hk, hv, rfl⟩
  have hpage := hmem (Multiset.mem_add.mpr (Or.inr hmapped))
  by_contra hvalid
  -- the page links to some page of the address space, which its own table links to as well
  obtain ⟨c, hc⟩ : ∃ c, childOf (load 8 s.mem (ptePa (T.pte k) + 8 * i)) = some c :=
    ⟨_, childOf_eq_some.mpr ⟨by simpa using hvalid, hw.leafless hnodup _ hpage i hi, rfl⟩⟩
  have hlink : c ∈ linksAt s.mem (ptePa (T.pte k)) := mem_linksAt.mpr ⟨i, hi, hc⟩
  have hsum := hw.links hnodup
  have hcount : Multiset.count c ({T.root} + (l.map (linksAt s.mem)).sum) ≤ 1 := by
    rw [← hsum]
    exact Multiset.nodup_iff_count_le_one.mp (Multiset.coe_nodup.mpr hnodup) c
  rw [Multiset.count_add] at hcount
  have hown : c ∈ T.owned := by
    rw [← hl, hsum]
    exact Multiset.mem_add.mpr (Or.inr (Multiset.mem_of_le (le_sum_map hpage) hlink))
  rcases AddrSpace.linked h hleaf hown with rfl | ⟨x, hx, hcx⟩
  · have h1 : 1 ≤ (l.map (linksAt s.mem)).sum.count T.root :=
      Multiset.one_le_count_iff_mem.mpr (Multiset.mem_of_le (le_sum_map hpage) hlink)
    rw [Multiset.count_singleton_self] at hcount
    omega
  · have hne : x ≠ ptePa (T.pte k) := by
      rintro rfl
      exact h.table_not_frame hx (Multiset.mem_add.mpr (Or.inl hmapped))
    have h2 := two_le_count_sum (hmem (Multiset.mem_add.mpr (Or.inl hx))) hpage hne hcx hlink
    omega

/-- The entries of all level-0 tables, of which the process has all but two. -/
theorem sum_userSlots (hf : ∀ k, k < 2 ^ 27 → k ∉ userSlots → f k = 0) :
    ∑ q ∈ l1Slots, ∑ j ∈ rootSlots, f (512 * q + j) = ∑ k ∈ userSlots, f k := by
  rw [← Finset.sum_product']
  refine Finset.sum_bij_ne_zero (fun p _ _ => 512 * p.1 + p.2) ?_ ?_ ?_ fun _ _ _ => rfl
  · rintro ⟨q, j⟩ hp hne
    obtain ⟨hq, hj⟩ := Finset.mem_product.mp hp
    have hq' := mem_l1Slots.mp hq
    have hj' := mem_rootSlots.mp hj
    by_contra hout
    exact hne (hf _ (by simp only; omega) hout)
  · rintro ⟨q, j⟩ hp - ⟨q', j'⟩ hp' - heq
    have hj := mem_rootSlots.mp (Finset.mem_product.mp hp).2
    have hj' := mem_rootSlots.mp (Finset.mem_product.mp hp').2
    simp only [Prod.mk.injEq] at heq ⊢
    omega
  · intro k hk hne
    have hk' := (mem_userSlots.mp hk).1
    refine ⟨(k / 512, k % 512), Finset.mem_product.mpr ⟨mem_l1Slots.mpr ?_, mem_rootSlots.mpr ?_⟩, ?_,
      Nat.div_add_mod k 512⟩
    · simp only
      omega
    · simp only
      omega
    · rwa [Nat.div_add_mod]

/-- `freewalk` frees blank pages with the tables. -/
theorem wp_freewalk_swept (h : AddrSpace L s T F R) (hsw : T.Swept s.mem)
    (hkernel : ∀ k, k < 2 ^ 27 → k ∉ userSlots → isValid (T.pte k) = false)
    (hQ : ∀ s' F', Reclaimed s T.owned F s' F' → Q () s') :
    (freewalk L freewalkDepth T.root).wp E Q s := by
  have hman : ∀ p ∈ T.tables, Managed L p := fun p hp => h.table_managed hp
  have hpte : ∀ k, k < 2 ^ 27 → pteAt s.mem T.root k = T.pte k := fun k hk => h.rep.pteAt hman hk
  have hzero : ∀ k, k < 2 ^ 27 → k ∉ userSlots → entryPage (T.pte k) = 0 :=
    fun k hk hu => entryPage_invalid (hkernel k hk hu)
  have hentry : ∀ k, k < 2 ^ 27 →
      Entry (Sub False s.mem 1) False (pteAt s.mem T.root k) (entryPage (T.pte k)) := by
    intro k hk
    rw [hpte k hk]
    by_cases hv : isValid (T.pte k) = true
    · have hu : k ∈ userSlots := by
        by_contra hout
        rw [hkernel k hk hout] at hv
        exact Bool.noConfusion hv
      refine Or.inr (Or.inr ⟨hv, hsw.leaf k hk, fun _ => 0, ?_, fun i hi => Or.inl ⟨?_, rfl⟩⟩)
      · rw [entryPage_valid hv, sum_tableIndices, Finset.sum_const_zero, add_zero]
      · exact hsw.blank k hu hv i (mem_tableIndices.mp hi)
    · exact Or.inl ⟨by simpa using hv, entryPage_invalid (by simpa using hv)⟩
  have hsub := sub_tablesAt (P := fun k => entryPage (T.pte k)) h.tableAt.links hentry
  rw [h.rep.tablesAt hman, sum_userSlots hzero] at hsub
  have hpool : T.owned + (↑F : Multiset ℕ) + R = T.tables + ↑F + (T.mapped + R) := by
    unfold Tree.owned
    abel
  have hle : T.owned + (↑F : Multiset ℕ) ≤ T.tables + ↑F + (T.mapped + R) :=
    hpool ▸ Multiset.le_add_right _ _
  refine wp_freewalk (fun hf => hf.elim) (by decide) hsub h.free (Multiset.nodup_of_le hle h.nodup)
    (fun p hp => h.managed p (Multiset.mem_of_le hle hp)) ?_
  intro s' F' hfree hF' hagree _
  exact hQ s' F' ⟨hfree, hF', hagree.mono fun p hp => Multiset.mem_add.mpr (Or.inl hp)⟩

/-- `freewalk` gives back exactly the pages of an address space when there is
nothing left in it but tables and blank pages. Otherwise it loses pages or
panics, and on a tree without other pages than leaves it panics. -/
theorem wp_freewalk_iff (h : AddrSpace L s T F R)
    (hkernel : ∀ k, k < 2 ^ 27 → k ∉ userSlots → isValid (T.pte k) = false)
    (hE : T.Swept s.mem ∨ ∀ e, E e)
    (hQ : ∀ s', (T.Swept s.mem → ∃ F', Reclaimed s T.owned F s' F') →
      ((∃ F', FreeList s'.mem s'.head F' ∧ (↑F' : Multiset ℕ) = T.owned + ↑F) ∨ T.Flat →
        T.Swept s.mem) → Q () s') : (freewalk L freewalkDepth T.root).wp E Q s := by
  by_cases hsw : T.Swept s.mem
  · exact wp_freewalk_swept h hsw hkernel fun s' F' hr => hQ s' (fun _ => ⟨F', hr⟩) fun _ => hsw
  have hall := hE.resolve_left hsw
  by_cases hflat : T.Flat
  · refine wp_freewalk_owned h hflat (Or.inr hall) fun s' F' _ hinv => absurd ⟨?_, ?_⟩ hsw
    · intro k hk
      simp [isLeaf, hinv k hk]
    · intro k hk hv
      rw [hinv k (mem_userSlots.mp hk).1] at hv
      exact absurd hv (by decide)
  · have hany := wp_freewalk_any (L := L) (d := freewalkDepth) (O := ∅) (t := T.root) (s := s)
      (by simp) fun x hx => absurd hx (by simp)
    refine wp_mono hany (fun e _ => hall e) ?_
    rintro _ s' ⟨l, hw⟩
    refine hQ s' (fun hs => absurd hs hsw) ?_
    rintro (⟨F', hfree, hpool⟩ | hf)
    · exact AddrSpace.swept h hw hfree hpool
    · exact absurd hf hflat

end Spaces

end ToyOs
