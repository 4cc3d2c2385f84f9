import Mathlib.Algebra.BigOperators.Group.Finset.Basic
import Mathlib.Algebra.BigOperators.Group.Finset.Piecewise
import Mathlib.Algebra.BigOperators.Group.Finset.Sigma
import Mathlib.Data.Finset.Prod
import Mathlib.Data.Set.Card

/-!
Directory trees with link counts. A directory is a list of named entries
that starts with an entry for itself and one for its parent; what follows
are its children. The invariant ranges over a finite set of nodes that is
exactly what can be reached from the root, and says that every other node
is the child of one directory. Adding a node under a fresh name is the only
step that changes the set.
-/
namespace DirTree

open Finset

structure Entry (ι ν : Type) where
  name : ν
  node : ι

/-- The entries of the directories; other nodes have none. -/
abbrev Graph (ι ν : Type) := ι → Option (List (Entry ι ν))

variable {ι ν : Type} (G : Graph ι ν) (root : ι) (dot dotdot : ν)

inductive Reach : ι → Prop
  | root : Reach root
  | entry {d : ι} {es : List (Entry ι ν)} {e : Entry ι ν} :
      Reach d → G d = some es → e ∈ es → Reach e.node

/-- The nodes that the entries of a directory name. -/
def named (d : ι) : List ι := ((G d).getD []).map Entry.node

/-- The same without the first two. -/
def kids (d : ι) : List ι := (((G d).getD []).drop 2).map Entry.node

/-- Entry `k` of directory `d`, which can be reached. -/
def EntryAt (d : ι) (k : ℕ) (e : Entry ι ν) : Prop :=
  Reach G root d ∧ ∃ es, G d = some es ∧ es[k]? = some e

/-- Reachable directories form a tree and the link counts are right. -/
structure WellFormed (link : ι → ℤ) : Prop where
  names : ∀ d es, Reach G root d → G d = some es → (es.map Entry.name).Nodup
  self : ∀ d es, Reach G root d → G d = some es → ⟨dot, d⟩ ∈ es
  parent : ∀ d es, Reach G root d → G d = some es → ∃ p, ⟨dotdot, p⟩ ∈ es ∧
    (d = root → p = root) ∧
    (d ≠ root → ∃ k e, EntryAt G root p k e ∧ e.name ≠ dot ∧ e.name ≠ dotdot ∧ e.node = d)
  once : ∀ n, Reach G root n → n ≠ root → ∃! pos : ι × ℕ, ∃ e, EntryAt G root pos.1 pos.2 e ∧
    e.name ≠ dot ∧ e.name ≠ dotdot ∧ e.node = n
  root_free : ∀ d k e, EntryAt G root d k e → e.name ≠ dot → e.name ≠ dotdot → e.node ≠ root
  links : ∀ n, Reach G root n →
    link n = ({pos : ι × ℕ | ∃ e, EntryAt G root pos.1 pos.2 e ∧ e.node = n}.ncard : ℤ)

variable {G} in
theorem mem_named {d : ι} {es : List (Entry ι ν)} {e : Entry ι ν} (h : G d = some es)
    (he : e ∈ es) : e.node ∈ named G d := by
  simp only [named, h, Option.getD_some]
  exact List.mem_map_of_mem he

variable [DecidableEq ι]

/-- The invariant, over the finite set of the nodes in the tree. -/
structure Tree (N : Finset ι) (link : ι → ℤ) : Prop where
  root_mem : root ∈ N
  root_dir : G root ≠ none
  reach : ∀ n ∈ N, Reach G root n
  closed : ∀ d ∈ N, ∀ n ∈ named G d, n ∈ N
  names : ∀ d ∈ N, ∀ es, G d = some es → (es.map Entry.name).Nodup
  head : ∀ d ∈ N, ∀ es, G d = some es → ∃ p rest, es = ⟨dot, d⟩ :: ⟨dotdot, p⟩ :: rest ∧
    (d = root → p = root) ∧ (d ≠ root → p ∈ N ∧ d ∈ kids G p)
  once : ∀ n ∈ N, ∑ d ∈ N, (kids G d).count n = if n = root then 0 else 1
  links : ∀ n ∈ N, link n = ((∑ d ∈ N, (named G d).count n : ℕ) : ℤ)

variable {G} {root} {dot} {dotdot} {N : Finset ι} {link link' : ι → ℤ} {G' : Graph ι ν}

namespace Tree

/-- The nodes of the tree are those that can be reached. -/
theorem mem_of_reach (h : Tree G root dot dotdot N link) {n : ι} (hn : Reach G root n) : n ∈ N := by
  induction hn with
  | root => exact h.root_mem
  | entry _ hG he ih => exact h.closed _ ih _ (mem_named hG he)

theorem congr (h : Tree G root dot dotdot N link) (hG : ∀ m ∈ N, G' m = G m)
    (hlink : ∀ m ∈ N, link' m = link m) : Tree G' root dot dotdot N link' := by
  have hnamed : ∀ m ∈ N, named G' m = named G m := fun m hm => by simp only [named, hG m hm]
  have hkids : ∀ m ∈ N, kids G' m = kids G m := fun m hm => by simp only [kids, hG m hm]
  have hreach : ∀ n, Reach G root n → Reach G' root n := by
    intro n hn
    induction hn with
    | root => exact Reach.root
    | entry hd hGd he ih => exact Reach.entry ih ((hG _ (h.mem_of_reach hd)).trans hGd) he
  refine ⟨h.root_mem, by rw [hG _ h.root_mem]; exact h.root_dir, fun n hn => hreach n (h.reach n hn),
    fun d hd => ?_, fun d hd => ?_, fun d hd es hes => ?_, fun n hn => ?_, fun n hn => ?_⟩
  · rw [hnamed d hd]
    exact h.closed d hd
  · rw [hG d hd]
    exact h.names d hd
  · rw [hG d hd] at hes
    obtain ⟨p, rest, heq, hroot, hother⟩ := h.head d hd es hes
    refine ⟨p, rest, heq, hroot, fun hne => ?_⟩
    obtain ⟨hp, hkid⟩ := hother hne
    exact ⟨hp, by rwa [hkids p hp]⟩
  · rw [← h.once n hn]
    exact sum_congr rfl fun d hd => by rw [hkids d hd]
  · rw [hlink n hn, h.links n hn]
    congr 1
    exact sum_congr rfl fun d hd => by rw [hnamed d hd]

end Tree

/-- The tree of a root without children. -/
theorem Tree.root_only (hdots : dot ≠ dotdot)
    (hG : G root = some [⟨dot, root⟩, ⟨dotdot, root⟩]) (hlink : link root = 2) :
    Tree G root dot dotdot {root} link where
  root_mem := mem_singleton_self root
  root_dir := by simp [hG]
  reach := by
    intro n hn
    rw [mem_singleton.mp hn]
    exact Reach.root
  closed := by
    intro d hd n hn
    rw [mem_singleton.mp hd] at hn
    simpa [named, hG] using hn
  names := by
    intro d hd es hes
    rw [mem_singleton.mp hd, hG] at hes
    obtain rfl := Option.some.inj hes
    simpa using hdots
  head := by
    intro d hd es hes
    rw [mem_singleton.mp hd] at hes ⊢
    rw [hG] at hes
    obtain rfl := Option.some.inj hes
    exact ⟨root, [], rfl, fun _ => rfl, fun h => absurd rfl h⟩
  once := by
    intro n hn
    rw [mem_singleton.mp hn]
    simp [kids, hG]
  links := by
    intro n hn
    rw [mem_singleton.mp hn, hlink]
    simp [named, hG]

/-- A new node `n` in directory `d`, which is a leaf or a directory with no children. -/
structure Adds (G : Graph ι ν) (dot dotdot : ν) (N : Finset ι) (link : ι → ℤ) (d n : ι)
    (es : List (Entry ι ν)) (name : ν) (G' : Graph ι ν) (link' : ι → ℤ) : Prop where
  dir_mem : d ∈ N
  dir : G d = some es
  fresh : n ∉ N
  name_fresh : name ∉ es.map Entry.name
  dir' : G' d = some (es ++ [⟨name, n⟩])
  other : ∀ m ∈ N, m ≠ d → G' m = G m
  new : G' n = none ∨ G' n = some [⟨dot, n⟩, ⟨dotdot, d⟩]
  link_new : link' n = 1 + ((named G' n).count n : ℤ)
  link_old : ∀ m ∈ N, link' m = link m + ((named G' n).count m : ℤ)

namespace Tree

variable {d n : ι} {es : List (Entry ι ν)} {name : ν}

/-- Counts over the new set: the old ones, the new entry and the new node's own entries. -/
theorem sum_count_insert {X X' : ι → List ι} (hd : d ∈ N) (hn : n ∉ N)
    (hX : X' d = X d ++ [n]) (hother : ∀ m ∈ N, m ≠ d → X' m = X m) (m : ι) :
    ∑ a ∈ insert n N, (X' a).count m =
      (X' n).count m + ((∑ a ∈ N, (X a).count m) + if m = n then 1 else 0) := by
  rw [sum_insert hn, ← add_sum_erase N (fun a => (X' a).count m) hd,
    ← add_sum_erase N (fun a => (X a).count m) hd, hX, List.count_append]
  have hrest : ∑ a ∈ N.erase d, (X' a).count m = ∑ a ∈ N.erase d, (X a).count m := by
    refine sum_congr rfl fun a ha => ?_
    rw [hother a (mem_of_mem_erase ha) (ne_of_mem_erase ha)]
  have hone : [n].count m = if m = n then 1 else 0 := by
    rw [List.count_singleton]
    by_cases h : m = n
    · simp [h]
    · simp [h, Ne.symm h]
  rw [hrest, hone]
  omega

/-- A node added under a fresh name keeps the invariant. -/
theorem add (h : Tree G root dot dotdot N link) (hdots : dot ≠ dotdot)
    (ha : Adds G dot dotdot N link d n es name G' link') :
    Tree G' root dot dotdot (insert n N) link' := by
  obtain ⟨hd, hes, hn, hname, hd', hother, hnew, hln, hlo⟩ := ha
  have hne : ∀ m ∈ N, m ≠ n := fun m hm heq => hn (heq ▸ hm)
  obtain ⟨p₀, rest₀, heq₀, -, -⟩ := h.head d hd es hes
  have hnamed_d : named G' d = named G d ++ [n] := by simp [named, hes, hd']
  have hkids_d : kids G' d = kids G d ++ [n] := by simp [kids, hes, hd', heq₀]
  have hnamed : ∀ m ∈ N, m ≠ d → named G' m = named G m := fun m hm hmd => by
    simp only [named, hother m hm hmd]
  have hkids : ∀ m ∈ N, m ≠ d → kids G' m = kids G m := fun m hm hmd => by
    simp only [kids, hother m hm hmd]
  have hkids_n : kids G' n = [] := by
    rcases hnew with hnew | hnew <;> simp [kids, hnew]
  have hnamed_n : ∀ m ∈ named G' n, m = n ∨ m = d := by
    intro m hm
    rcases hnew with hnew | hnew
    · simp [named, hnew] at hm
    · simpa [named, hnew] using hm
  have hkid_mono : ∀ p m, p ∈ N → m ∈ kids G p → m ∈ kids G' p := by
    intro p m hp hm
    by_cases hpd : p = d
    · subst hpd
      rw [hkids_d]
      exact List.mem_append_left _ hm
    · rwa [hkids p hp hpd]
  have hreach : ∀ m, Reach G root m → Reach G' root m := by
    intro m hm
    induction hm with
    | root => exact Reach.root
    | @entry a es' e hra hGa he ih =>
      by_cases had : a = d
      · subst had
        obtain rfl := Option.some.inj (hes.symm.trans hGa)
        exact Reach.entry ih hd' (List.mem_append_left _ he)
      · exact Reach.entry ih ((hother a (h.mem_of_reach hra) had).trans hGa) he
  have hreach_n : Reach G' root n :=
    Reach.entry (hreach d (h.reach d hd)) hd' (List.mem_append_right es (List.mem_singleton.mpr rfl))
  refine ⟨mem_insert_of_mem h.root_mem, ?_, fun m hm => ?_, fun a ha m hm => ?_,
    fun a ha es' hes' => ?_, fun a ha es' hes' => ?_, fun m hm => ?_, fun m hm => ?_⟩
  · by_cases hrd : root = d
    · rw [hrd, hd']
      simp
    · rw [hother root h.root_mem hrd]
      exact h.root_dir
  · rcases mem_insert.mp hm with rfl | hm
    · exact hreach_n
    · exact hreach m (h.reach m hm)
  · rcases mem_insert.mp ha with rfl | ha
    · rcases hnamed_n m hm with rfl | rfl
      · exact mem_insert_self _ _
      · exact mem_insert_of_mem hd
    · by_cases had : a = d
      · subst had
        rw [hnamed_d, List.mem_append, List.mem_singleton] at hm
        rcases hm with hm | rfl
        · exact mem_insert_of_mem (h.closed a ha m hm)
        · exact mem_insert_self _ _
      · rw [hnamed a ha had] at hm
        exact mem_insert_of_mem (h.closed a ha m hm)
  · rcases mem_insert.mp ha with rfl | ha
    · rcases hnew with hnew | hnew
      · rw [hnew] at hes'
        simp at hes'
      · obtain rfl := Option.some.inj (hnew.symm.trans hes')
        simp [hdots]
    · by_cases had : a = d
      · subst had
        obtain rfl := Option.some.inj (hd'.symm.trans hes')
        rw [List.map_append, List.nodup_append]
        refine ⟨h.names a ha es hes, by simp, fun x hx y hy => ?_⟩
        simp only [List.map_cons, List.map_nil, List.mem_singleton] at hy
        rintro rfl
        exact hname (hy ▸ hx)
      · exact h.names a ha es' ((hother a ha had).symm.trans hes')
  · rcases mem_insert.mp ha with rfl | ha
    · rcases hnew with hnew | hnew
      · rw [hnew] at hes'
        simp at hes'
      · obtain rfl := Option.some.inj (hnew.symm.trans hes')
        refine ⟨d, [], rfl, fun heq => absurd (heq ▸ h.root_mem) hn, fun _ =>
          ⟨mem_insert_of_mem hd, ?_⟩⟩
        rw [hkids_d]
        simp
    · by_cases had : a = d
      · subst had
        obtain rfl := Option.some.inj (hd'.symm.trans hes')
        obtain ⟨p, rest, heq, hroot, hkid⟩ := h.head a ha es hes
        refine ⟨p, rest ++ [⟨name, n⟩], by rw [heq]; rfl, hroot, fun hne' => ?_⟩
        obtain ⟨hp, hk⟩ := hkid hne'
        exact ⟨mem_insert_of_mem hp, hkid_mono p a hp hk⟩
      · obtain ⟨p, rest, heq, hroot, hkid⟩ :=
          h.head a ha es' ((hother a ha had).symm.trans hes')
        refine ⟨p, rest, heq, hroot, fun hne' => ?_⟩
        obtain ⟨hp, hk⟩ := hkid hne'
        exact ⟨mem_insert_of_mem hp, hkid_mono p a hp hk⟩
  · rw [sum_count_insert hd hn hkids_d hkids, hkids_n, List.count_nil, Nat.zero_add]
    rcases mem_insert.mp hm with rfl | hm
    · have hzero : ∑ a ∈ N, (kids G a).count m = 0 := by
        refine sum_eq_zero fun a ha => List.count_eq_zero.mpr fun hmem => hn (h.closed a ha m ?_)
        obtain ⟨e, he, rfl⟩ := List.mem_map.mp hmem
        exact List.mem_map_of_mem (List.mem_of_mem_drop he)
      have hnr : m ≠ root := fun heq => hn (heq ▸ h.root_mem)
      rw [hzero, if_pos rfl, if_neg hnr]
    · rw [h.once m hm, if_neg (hne m hm), Nat.add_zero]
  · rw [sum_count_insert hd hn hnamed_d hnamed]
    rcases mem_insert.mp hm with rfl | hm
    · have hzero : ∑ a ∈ N, (named G a).count m = 0 :=
        sum_eq_zero fun a ha => List.count_eq_zero.mpr fun hmem => hn (h.closed a ha m hmem)
      rw [hln, hzero, if_pos rfl]
      push_cast
      omega
    · rw [hlo m hm, h.links m hm, if_neg (hne m hm)]
      push_cast
      omega

end Tree

section Positions

/-- The positions of a value in a list are as many as its count. -/
theorem card_positions (l : List ι) (n : ι) :
    ((range l.length).filter fun k => l[k]? = some n).card = l.count n := by
  induction l using List.reverseRecOn with
  | nil => rfl
  | append_singleton l a ih =>
    have hold : (range l.length).filter (fun k => (l ++ [a])[k]? = some n) =
        (range l.length).filter fun k => l[k]? = some n := by
      refine filter_congr fun k hk => ?_
      rw [List.getElem?_append_left (mem_range.mp hk)]
    rw [List.length_append, List.length_singleton, range_add_one, filter_insert, hold,
      List.count_append, ← ih, List.count_singleton]
    by_cases ha : a = n
    · simp [ha]
    · simp [ha]

/-- All positions of a value in a family of lists. -/
theorem ncard_positions (N : Finset ι) (X : ι → List ι) (n : ι) :
    {pos : ι × ℕ | pos.1 ∈ N ∧ (X pos.1)[pos.2]? = some n}.ncard = ∑ d ∈ N, (X d).count n := by
  have hset : {pos : ι × ℕ | pos.1 ∈ N ∧ (X pos.1)[pos.2]? = some n} =
      ↑(N.biUnion fun d => {d} ×ˢ (range (X d).length).filter fun k => (X d)[k]? = some n) := by
    ext ⟨d, k⟩
    rw [mem_coe, mem_biUnion]
    constructor
    · rintro ⟨hd, hk⟩
      refine ⟨d, hd, mem_product.mpr ⟨mem_singleton_self d, mem_filter.mpr ⟨?_, hk⟩⟩⟩
      exact mem_range.mpr (List.getElem?_eq_some_iff.mp hk).1
    · rintro ⟨d', hd', hmem⟩
      obtain ⟨h1, h2⟩ := mem_product.mp hmem
      obtain rfl := mem_singleton.mp h1
      exact ⟨hd', (mem_filter.mp h2).2⟩
  rw [hset, Set.ncard_coe_finset, card_biUnion]
  · refine sum_congr rfl fun d _ => ?_
    rw [card_product, card_singleton, card_positions, Nat.one_mul]
  · intro d _ d' _ hne
    refine disjoint_left.mpr fun pos hpos hpos' => hne ?_
    rw [← mem_singleton.mp (mem_product.mp hpos).1, ← mem_singleton.mp (mem_product.mp hpos').1]

end Positions

namespace Tree

/-- Past the first two, and only there, entries have other names. -/
theorem proper_iff (h : Tree G root dot dotdot N link) {d : ι} (hd : d ∈ N)
    {es : List (Entry ι ν)} (hes : G d = some es) {k : ℕ} {e : Entry ι ν} (hk : es[k]? = some e) :
    (e.name ≠ dot ∧ e.name ≠ dotdot) ↔ 2 ≤ k := by
  obtain ⟨p, rest, rfl, -, -⟩ := h.head d hd es hes
  have hnodup := h.names d hd _ hes
  simp only [List.map_cons, List.nodup_cons, List.mem_cons, not_or] at hnodup
  match k with
  | 0 =>
    obtain rfl : (⟨dot, d⟩ : Entry ι ν) = e := by simpa using hk
    simp
  | 1 =>
    obtain rfl : (⟨dotdot, p⟩ : Entry ι ν) = e := by simpa using hk
    simp
  | k + 2 =>
    have hmem : e ∈ rest := List.mem_of_getElem? (by simpa using hk)
    have hname := List.mem_map_of_mem (f := Entry.name) hmem
    refine ⟨fun _ => by omega, fun _ => ⟨?_, ?_⟩⟩
    · rintro rfl
      exact hnodup.1.2 hname
    · rintro rfl
      exact hnodup.2.1 hname

theorem entryAt_iff (h : Tree G root dot dotdot N link) {n : ι} {pos : ι × ℕ} :
    (∃ e, EntryAt G root pos.1 pos.2 e ∧ e.node = n) ↔
      pos.1 ∈ N ∧ (named G pos.1)[pos.2]? = some n := by
  constructor
  · rintro ⟨e, ⟨hr, es, hes, hk⟩, rfl⟩
    refine ⟨h.mem_of_reach hr, ?_⟩
    simp [named, hes, hk]
  · rintro ⟨hd, hk⟩
    cases hes : G pos.1 with
    | none => simp [named, hes] at hk
    | some es =>
      simp only [named, hes, Option.getD_some, List.getElem?_map, Option.map_eq_some_iff] at hk
      obtain ⟨e, he, hn⟩ := hk
      exact ⟨e, ⟨h.reach _ hd, es, hes, he⟩, hn⟩

/-- The entries for a node other than the first two of a directory. -/
theorem proper_entryAt_iff (h : Tree G root dot dotdot N link) {n : ι} (pos : ι × ℕ) :
    (∃ e, EntryAt G root pos.1 pos.2 e ∧ e.name ≠ dot ∧ e.name ≠ dotdot ∧ e.node = n) ↔
      2 ≤ pos.2 ∧ pos.1 ∈ N ∧ (kids G pos.1)[pos.2 - 2]? = some n := by
  have hkids : ∀ d k, 2 ≤ k → (kids G d)[k - 2]? = (named G d)[k]? := by
    intro d k hk
    simp only [kids, named, List.getElem?_map, List.getElem?_drop]
    rw [show 2 + (k - 2) = k by omega]
  constructor
  · rintro ⟨e, ⟨hr, es, hes, hk⟩, hdot, hdotdot, rfl⟩
    have hd := h.mem_of_reach hr
    have h2 := (h.proper_iff hd hes hk).mp ⟨hdot, hdotdot⟩
    refine ⟨h2, hd, ?_⟩
    rw [hkids _ _ h2]
    exact (h.entryAt_iff.mp ⟨e, ⟨hr, es, hes, hk⟩, rfl⟩).2
  · rintro ⟨h2, hd, hk⟩
    rw [hkids _ _ h2] at hk
    obtain ⟨e, ⟨hr, es, hes, hk⟩, hn⟩ := h.entryAt_iff.mpr ⟨hd, hk⟩
    obtain ⟨h1, h1'⟩ := (h.proper_iff hd hes hk).mpr h2
    exact ⟨e, ⟨hr, es, hes, hk⟩, h1, h1', hn⟩

theorem ncard_proper (h : Tree G root dot dotdot N link) (n : ι) :
    {pos : ι × ℕ | ∃ e, EntryAt G root pos.1 pos.2 e ∧ e.name ≠ dot ∧ e.name ≠ dotdot ∧
      e.node = n}.ncard = ∑ d ∈ N, (kids G d).count n := by
  rw [← ncard_positions N (kids G) n]
  have himage : {pos : ι × ℕ | ∃ e, EntryAt G root pos.1 pos.2 e ∧ e.name ≠ dot ∧
      e.name ≠ dotdot ∧ e.node = n} = (fun pos : ι × ℕ => (pos.1, pos.2 + 2)) ''
        {pos : ι × ℕ | pos.1 ∈ N ∧ (kids G pos.1)[pos.2]? = some n} := by
    ext ⟨d, k⟩
    rw [Set.mem_image]
    change (∃ e, EntryAt G root d k e ∧ e.name ≠ dot ∧ e.name ≠ dotdot ∧ e.node = n) ↔ _
    rw [h.proper_entryAt_iff (d, k)]
    constructor
    · rintro ⟨h2, hd, hk⟩
      exact ⟨(d, k - 2), ⟨hd, hk⟩, Prod.ext rfl (Nat.sub_add_cancel h2)⟩
    · rintro ⟨⟨d', k'⟩, ⟨hd, hk⟩, heq⟩
      obtain ⟨rfl, rfl⟩ := Prod.mk.inj heq
      exact ⟨by simp, hd, by simpa using hk⟩
  rw [himage]
  refine Set.ncard_image_of_injective _ fun a b hab => ?_
  obtain ⟨h1, h2⟩ := Prod.mk.inj hab
  exact Prod.ext h1 (by simpa using h2)

/-- The invariant is what a directory tree is. -/
theorem wellFormed (h : Tree G root dot dotdot N link) : WellFormed G root dot dotdot link where
  names := fun d es hd hes => h.names d (h.mem_of_reach hd) es hes
  self := fun d es hd hes => by
    obtain ⟨p, rest, rfl, -, -⟩ := h.head d (h.mem_of_reach hd) es hes
    exact List.mem_cons_self
  parent := fun d es hd hes => by
    obtain ⟨p, rest, rfl, hroot, hkid⟩ := h.head d (h.mem_of_reach hd) es hes
    refine ⟨p, List.mem_cons_of_mem _ List.mem_cons_self, hroot, fun hne => ?_⟩
    obtain ⟨hp, hmem⟩ := hkid hne
    obtain ⟨k, hk⟩ := List.getElem?_of_mem hmem
    obtain ⟨e, he⟩ := (h.proper_entryAt_iff (p, k + 2)).mpr ⟨by simp, hp, by simpa using hk⟩
    exact ⟨k + 2, e, he⟩
  once := fun n hn hne => by
    have hone := h.ncard_proper n
    rw [h.once n (h.mem_of_reach hn), if_neg hne] at hone
    obtain ⟨pos, hpos⟩ := Set.ncard_eq_one.mp hone
    refine ⟨pos, ?_, fun pos' hpos' => ?_⟩
    · exact (Set.ext_iff.mp hpos pos).mpr rfl
    · exact (Set.ext_iff.mp hpos pos').mp hpos'
  root_free := fun d k e he h1 h2 heq => by
    have hcount := h.once root h.root_mem
    rw [if_pos rfl, sum_eq_zero_iff] at hcount
    obtain ⟨-, hd, hk⟩ := (h.proper_entryAt_iff (d, k)).mp ⟨e, he, h1, h2, heq⟩
    exact List.count_eq_zero.mp (hcount d hd) (List.mem_of_getElem? hk)
  links := fun n hn => by
    rw [h.links n (h.mem_of_reach hn), ← ncard_positions N (named G) n]
    congr 2
    ext pos
    exact h.entryAt_iff.symm

end Tree

end DirTree
