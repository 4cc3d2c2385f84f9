import ToyOs.Memlayout
import Mathlib.Data.Multiset.AddSub
import Mathlib.Data.Multiset.Basic
import Mathlib.Data.Multiset.ZeroCons

/-!
The physical page allocator of `kalloc.rs`. Free pages are threaded into a
list by a pointer stored in their first word; the allocator holds only the
head. `FreeList` reads the threaded list off memory, and the laws of the
three operations say how it changes and which bytes they touch.
-/
namespace ToyOs

open Bytes Prog List

variable {P : Multiset ℕ} {m m' : Store} {l : List ℕ}

/-- Physical memory and the head of the allocator's list (`KMEM.head`, 0 is null). -/
structure Ram where
  mem : Store
  head : ℕ

abbrev RamM := Prog Panic Ram

/-- A page is filled with junk and put in front of the list. -/
def Ram.freePage (s : Ram) (pa : ℕ) : Ram :=
  { mem := store 8 (fill s.mem pa pgSize 5) pa s.head, head := pa }

/-- A word is written. -/
def Ram.setWord (s : Ram) (a w : ℕ) : Ram := { s with mem := store 8 s.mem a w }

variable (L : Layout)

def kfree (pa : ℕ) : RamM Unit := do
  Prog.assert .kfreeUnaligned (pa % pgSize == 0)
  Prog.assert .kfreeBelowKernelEnd (L.kernelEnd ≤ pa)
  Prog.assert .kfreeBeyondPhystop (pa < physTop)
  Prog.modify fun s => s.freePage pa

/-- `freerange`: `p + PGSIZE <= end` is the loop condition. -/
def freerange (start stop : ℕ) : RamM Unit :=
  Prog.forEach (List.range ((stop - start) / pgSize)) fun i => kfree L (start + i * pgSize)

def kallocInit : RamM Unit := freerange L L.kernelEnd physTop

def kalloc : RamM (Option ℕ) := do
  let s ← Prog.get
  if s.head = 0 then
    pure none
  else
    Prog.modify fun s => { s with head := load 8 s.mem s.head }
    pure (some s.head)

def kallocZeroed : RamM (Option ℕ) := do
  match ← kalloc with
  | none => pure none
  | some pa =>
    Prog.modify fun s => { s with mem := fill s.mem pa pgSize 0 }
    pure (some pa)

/-- The pages threaded from a head pointer. -/
inductive FreeList (m : Store) : ℕ → List ℕ → Prop
  | nil : FreeList m 0 []
  | cons {p : ℕ} {rest : List ℕ} (hp : p ≠ 0) (hrest : FreeList m (load 8 m p) rest) :
      FreeList m p (p :: rest)

/-- Two memories agree outside a collection of pages. -/
def AgreeOff (P : Multiset ℕ) (m m' : Store) : Prop :=
  ∀ x, (∀ p ∈ P, x < p ∨ p + pgSize ≤ x) → m' x = m x

variable {L}

theorem AgreeOff.refl {m : Store} : AgreeOff P m m := fun _ _ => rfl

theorem AgreeOff.trans {m m' m'' : Store} (h : AgreeOff P m m') (h' : AgreeOff P m' m'') :
    AgreeOff P m m'' := by
  intro x hx
  exact (h' x hx).trans (h x hx)

theorem AgreeOff.mono {P Q : Multiset ℕ} (h : AgreeOff P m m') (hPQ : ∀ p ∈ P, p ∈ Q) :
    AgreeOff Q m m' :=
  fun x hx => h x fun p hp => hx p (hPQ p hp)

theorem FreeList.head_unique {hd hd' : ℕ} {F : List ℕ} (h : FreeList m hd F)
    (h' : FreeList m' hd' F) : hd = hd' := by
  cases h <;> cases h' <;> rfl

/-- Different pages do not overlap. -/
theorem Managed.disjoint {p q : ℕ} (hp : Managed L p) (hq : Managed L q) (h : p ≠ q) :
    p + pgSize ≤ q ∨ q + pgSize ≤ p := by
  have h1 := hp.aligned
  have h2 := hq.aligned
  unfold pgSize at *
  omega

theorem Managed.pos {p : ℕ} (hp : Managed L p) : p ≠ 0 := by
  have h1 := hp.above
  have h2 := L.kernelEnd_above
  unfold kernBase at h2
  omega

theorem Managed.lt {p : ℕ} (hp : Managed L p) : p + pgSize < 2 ^ 56 := by
  have h := hp.below
  unfold physTop at h
  unfold pgSize
  omega

/-- A page outside the changed ones keeps its bytes. -/
theorem AgreeOff.page (h : AgreeOff P m m') {q : ℕ} (hq : Managed L q) (hP : ∀ p ∈ P, Managed L p)
    (hn : q ∉ P) {x : ℕ} (hx : q ≤ x) (hx' : x < q + pgSize) : m' x = m x := by
  apply h
  intro p hp
  have hne : p ≠ q := by
    intro heq
    exact hn (heq ▸ hp)
  rcases (hP p hp).disjoint hq hne with h1 | h1 <;> omega

theorem AgreeOff.load (h : AgreeOff P m m') {q : ℕ} (hq : Managed L q) (hP : ∀ p ∈ P, Managed L p)
    (hn : q ∉ P) {n a : ℕ} (ha : q ≤ a) (ha' : a + n ≤ q + pgSize) : load n m' a = load n m a := by
  apply load_congr
  intro x hx hx'
  exact h.page hq hP hn (by omega) (by omega)

theorem agreeOff_fill (m : Store) (p : ℕ) (b : UInt8) :
    AgreeOff {p} m (fill m p pgSize b) :=
  fun _ hx => fill_outside (hx p (Multiset.mem_singleton_self p))

theorem agreeOff_store (m : Store) (p a v : ℕ) (h : p ≤ a) (h' : a + 8 ≤ p + pgSize) :
    AgreeOff {p} m (store 8 m a v) := by
  intro x hx
  have hp := hx p (Multiset.mem_singleton_self p)
  exact store_outside (by omega)

namespace FreeList

theorem unique {m : Store} {h : ℕ} {l l' : List ℕ}
    (hl : FreeList m h l) (hl' : FreeList m h l') : l = l' := by
  induction hl generalizing l' with
  | nil =>
    cases hl' with
    | nil => rfl
    | cons hp _ => exact absurd rfl hp
  | cons hp _ ih =>
    cases hl' with
    | nil => exact absurd rfl hp
    | cons _ hrest => rw [ih hrest]

/-- The list does not depend on memory outside its pages. -/
theorem congr {h : ℕ} (hl : FreeList m h l) (hm : AgreeOff P m m') (hP : ∀ p ∈ P, Managed L p)
    (hmanaged : ∀ p ∈ l, Managed L p) (hdisj : ∀ p ∈ l, p ∉ P) : FreeList m' h l := by
  induction hl with
  | nil => exact .nil
  | @cons p rest hp _ ih =>
    have hpm : Managed L p := hmanaged p mem_cons_self
    refine .cons hp ?_
    have hload : Bytes.load 8 m' p = Bytes.load 8 m p :=
      hm.load hpm hP (hdisj p mem_cons_self) (le_refl p)
        (by unfold pgSize; omega)
    rw [hload]
    exact ih (fun q hq => hmanaged q (mem_cons_of_mem _ hq))
      (fun q hq => hdisj q (mem_cons_of_mem _ hq))

end FreeList

section Specs

variable {E : Panic → Prop} {s : Ram} {Q : Option ℕ → Ram → Prop}

/-- `kalloc` takes the first free page and leaves memory alone. -/
theorem wp_kalloc (hl : FreeList s.mem s.head l) (hnone : l = [] → Q none s)
    (hsome : ∀ p rest h, l = p :: rest → FreeList s.mem h rest →
      Q (some p) { s with head := h }) :
    kalloc.wp E Q s := by
  simp only [kalloc, wp_bind, wp_get, wp_ite, wp_pure, wp_modify]
  generalize hh : s.head = hd at hl
  cases hl with
  | nil => exact ⟨fun _ => hnone rfl, fun h => absurd rfl h⟩
  | cons hp hrest => exact ⟨fun h => absurd h hp, fun _ => hsome _ _ _ rfl hrest⟩

/-- `kalloc_zeroed` also clears the page; the rest of the list survives. -/
theorem wp_kallocZeroed (hl : FreeList s.mem s.head l) (hnodup : l.Nodup)
    (hmanaged : ∀ p ∈ l, Managed L p) (hnone : l = [] → Q none s)
    (hsome : ∀ p rest h, l = p :: rest → FreeList (fill s.mem p pgSize 0) h rest →
      Q (some p) { mem := fill s.mem p pgSize 0, head := h }) :
    kallocZeroed.wp E Q s := by
  simp only [kallocZeroed, wp_bind]
  refine wp_kalloc hl ?_ ?_
  · intro h
    exact hnone h
  · intro p rest h heq hrest
    simp only [wp_bind, wp_modify, wp_pure]
    subst heq
    refine hsome p rest h rfl ?_
    refine hrest.congr (L := L) (agreeOff_fill s.mem p 0) ?_ ?_ ?_
    · intro q hq
      rw [Multiset.mem_singleton.mp hq]
      exact hmanaged p mem_cons_self
    · exact fun q hq => hmanaged q (mem_cons_of_mem _ hq)
    · intro q hq hqp
      rw [Multiset.mem_singleton.mp hqp] at hq
      exact (nodup_cons.mp hnodup).1 hq

theorem kfree_apply {pa : ℕ} (hpa : Managed L pa) (s : Ram) :
    kfree L pa s = .ok ((), s.freePage pa) := by
  have h1 := hpa.aligned
  have h2 := hpa.above
  have h3 := hpa.below
  simp [kfree, h1, h2, h3, Prog.assert, bind, pure, Prog.modify]

theorem agreeOff_freePage (s : Ram) (pa : ℕ) : AgreeOff {pa} s.mem (s.freePage pa).mem := by
  refine (agreeOff_fill s.mem pa 5).trans ?_
  exact agreeOff_store _ pa pa s.head (le_refl pa) (by unfold pgSize; omega)

theorem agreeOff_setWord (s : Ram) {p i : ℕ} (w : ℕ) (hi : i < 512) :
    AgreeOff {p} s.mem (s.setWord (p + 8 * i) w).mem :=
  agreeOff_store _ p _ w (by omega) (by unfold pgSize; omega)

theorem FreeList.head_lt {m : Store} {h : ℕ} (hl : FreeList m h l) (hmanaged : ∀ p ∈ l, Managed L p)
    : h < 2 ^ 64 := by
  cases hl with
  | nil => norm_num
  | cons hp hrest =>
    have := (hmanaged _ mem_cons_self).lt
    omega

/-- Freeing a page that is not free puts it in front of the list. -/
theorem FreeList.freePage {pa : ℕ} (hl : FreeList s.mem s.head l) (hpa : Managed L pa)
    (hmanaged : ∀ p ∈ l, Managed L p) (hn : pa ∉ l) :
    FreeList (s.freePage pa).mem (s.freePage pa).head (pa :: l) := by
  have hh := hl.head_lt hmanaged
  refine .cons hpa.pos ?_
  have hhead : load 8 (s.freePage pa).mem (s.freePage pa).head = s.head := by
    unfold Ram.freePage
    rw [load_store_same, Nat.mod_eq_of_lt (by simpa using hh)]
  rw [hhead]
  refine hl.congr (agreeOff_freePage s pa) ?_ hmanaged ?_
  · intro q hq
    rw [Multiset.mem_singleton.mp hq]
    exact hpa
  · intro q hq hqp
    rw [Multiset.mem_singleton.mp hqp] at hq
    exact hn hq

end Specs

end ToyOs
