import ToyOs.AddressSpace

/-!
The contents of pages that are mapped one after the other, as `uvmalloc` and
`uvmcopy` do. A page gets its bytes before it is mapped, and mapping further
pages only writes to tables and free pages.
-/
namespace ToyOs

open Bytes Function Multiset

/-- Pages `0` to `n - 1` of a range are mapped at the entries `slot j` and hold the bytes `want j`. -/
structure Filled (s0 : Ram) (T0 : Tree) (F0 : List ℕ) (s : Ram) (T : Tree) (F : List ℕ)
    (slot : ℕ → ℕ) (want : ℕ → ℕ → UInt8) (n : ℕ) : Prop where
  kept : Kept s0 T0 F0 s T F
  bytes : ∀ j, j < n → ∀ off, off < pgSize → s.mem (ptePa (T.pte (slot j)) + off) = want j off

section Filling

variable {L : Layout} {R : Multiset ℕ} {s0 s s' s'' : Ram} {T0 T T' T'' : Tree}
  {F0 F F' F'' : List ℕ} {pa n : ℕ} {slot : ℕ → ℕ} {want : ℕ → ℕ → UInt8}

theorem Filled.init (s : Ram) (T : Tree) (F : List ℕ) (slot : ℕ → ℕ) (want : ℕ → ℕ → UInt8) :
    Filled s T F s T F slot want 0 :=
  ⟨Kept.refl s T F, fun j hj => absurd hj (Nat.not_lt_zero j)⟩

/-- A page outside of the tables and the free list keeps its bytes. -/
theorem Kept.page (h : Kept s T F s' T' F') (hspace : Space L s T F R) {p : ℕ} (hp : p ∈ R) {off : ℕ}
    (hoff : off < pgSize) : s'.mem (p + off) = s.mem (p + off) := by
  have hmanaged : ∀ q ∈ T.tables + (↑F : Multiset ℕ), Managed L q := fun q hq =>
    hspace.managed q (mem_add.mpr (Or.inl hq))
  refine h.agree.page (hspace.frame_managed hp) hmanaged ?_ (Nat.le_add_right _ _) (by omega)
  intro hq
  exact disjoint_left.mp (nodup_add.mp hspace.nodup).2.2 hq hp

/-- A user page keeps its bytes. -/
theorem Kept.user_page (h : Kept s T F s' T' F') (hspace : AddrSpace L s T F R) {k : ℕ}
    (hk : k ∈ userSlots) (hv : isValid (T.pte k) = true) {off : ℕ} (hoff : off < pgSize) :
    s'.mem (ptePa (T.pte k) + off) = s.mem (ptePa (T.pte k) + off) :=
  h.page hspace (mem_add.mpr (Or.inl (Tree.mem_mapped.mpr ⟨k, hk, hv, rfl⟩))) hoff

/-- One more page: it was filled while it was held, and then mapped. -/
theorem Filled.step {flags : ℕ} (h : Filled s0 T0 F0 s T F slot want n)
    (hspace : AddrSpace L s T F R) (htaken : Taken L R s T F s' pa F')
    (hkept : Kept s' T F' s'' T'' F'')
    (hpte : T''.pte = update T.pte (slot n) (leafWord pa flags)) (hf : flags < 1024)
    (hslot : ∀ j, j < n → slot j ≠ slot n ∧ slot j ∈ userSlots ∧ isValid (T.pte (slot j)) = true)
    (hpage : ∀ off, off < pgSize → s'.mem (pa + off) = want n off) :
    Filled s0 T0 F0 s'' T'' F'' slot want (n + 1) where
  kept := h.kept.trans (htaken.kept.trans hkept)
  bytes := by
    have hpa := htaken.managed
    intro j hj off hoff
    by_cases hjn : j = n
    · subst hjn
      rw [hpte, update_self,
        ptePa_leafWord hpa.aligned (by have := hpa.lt; omega) hf, ← hpage off hoff]
      exact hkept.page htaken.space
        (mem_add.mpr (Or.inr (mem_add.mpr
          (Or.inl (mem_singleton_self pa))))) hoff
    · obtain ⟨hne, hk, hv⟩ := hslot j (by omega)
      rw [hpte, update_of_ne hne, hkept.user_page htaken.space hk hv hoff,
        htaken.kept.user_page hspace hk hv hoff]
      exact h.bytes j (by omega) off hoff

end Filling

end ToyOs
