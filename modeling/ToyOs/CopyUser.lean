import ToyOs.LoadSegment
import ToyOs.UserCopy

/-!
Copies between the kernel and user memory. A page table turns memory into a
store indexed by virtual addresses; on it `copyout` is a write of a block and
`copyin` and `copyinstr` are reads. None of them panics, and a failed
`copyout` has written a prefix.
-/
namespace ToyOs

open Bytes Prog List Multiset

/-- The range lies in pages the user may write to. -/
def Tree.Writable (T : Tree) (va n : ℕ) : Prop :=
  ∀ x, va ≤ x → x < va + n → x < maxVa ∧ T.userPte (pageRoundDown x) pteW ≠ none

/-- The range lies in pages the user may read. -/
def Tree.Readable (T : Tree) (va n : ℕ) : Prop :=
  ∀ x, va ≤ x → x < va + n → x < maxVa ∧ T.userPte (pageRoundDown x) pteR ≠ none

/-- The physical address of a virtual one. -/
def Tree.phys (T : Tree) (va : ℕ) : ℕ := ptePa (T.pte (vpn va)) + va % pgSize

/-- Memory by virtual addresses. -/
def Tree.view (T : Tree) (m : Store) : Store := fun va => m (T.phys va)

/-- The address lies in a page of the process. -/
structure Tree.Mine (T : Tree) (va : ℕ) : Prop where
  low : va < maxVa
  valid : isValid (T.pte (vpn va)) = true
  user : vpn va ∈ userSlots

/-- The bytes were stored at a virtual address, and nothing else changed. -/
structure Tree.Put (T : Tree) (m : Store) (va : ℕ) (bytes : List UInt8) (m' : Store) : Prop where
  byte : ∀ i, i < bytes.length → m' (T.phys (va + i)) = bytes.getD i 0
  frame : ∀ a, (∀ i, i < bytes.length → T.phys (va + i) ≠ a) → m' a = m a

/-- A mapped stack page. -/
structure Tree.Stack (T : Tree) : Prop where
  readable : T.Readable userStack pgSize
  writable : T.Writable userStack pgSize

section Copy

variable {L : Layout} {s : Ram} {T : Tree} {F : List ℕ} {R : Multiset ℕ} {E : Panic → Prop}
  {tf va : ℕ} {Q : Option (List UInt8) → Ram → Prop} {front back : List UInt8}

/-- Entries for the user are entries of the process. -/
theorem Tree.Fixed.user_of_pteU (h : T.Fixed L tf) {k : ℕ} (hk : k < 2 ^ 27)
    (hU : T.pte k &&& pteU ≠ 0) : k ∈ userSlots := by
  rw [mem_userSlots]
  refine ⟨hk, ?_, ?_⟩
  · rintro rfl
    rw [h.trampoline, leafWord_and (by decide)] at hU
    exact hU (by decide)
  · rintro rfl
    rw [h.trapframe, leafWord_and (by decide)] at hU
    exact hU (by decide)

theorem Tree.userPte_some {va perm w : ℕ} (h : T.userPte va perm = some w) :
    va < maxVa ∧ T.pte (vpn va) = w ∧ isLeaf w = true ∧ w &&& pteU ≠ 0 ∧ w &&& perm = perm := by
  unfold Tree.userPte at h
  by_cases hmax : maxVa ≤ va
  · simp [hmax] at h
  · rw [if_neg hmax] at h
    split_ifs at h with hc
    obtain rfl := Option.some.inj h
    exact ⟨by omega, rfl, hc.1, hc.2.1, hc.2.2⟩

theorem Tree.Fixed.mine (h : T.Fixed L tf) {x perm : ℕ}
    (hx : T.userPte (pageRoundDown x) perm ≠ none) (hlow : x < maxVa) : T.Mine x := by
  obtain ⟨w, hw⟩ := Option.ne_none_iff_exists'.mp hx
  obtain ⟨-, rfl, hleaf, hU, -⟩ := Tree.userPte_some hw
  rw [vpn_pageRoundDown] at *
  exact ⟨hlow, isValid_of_isLeaf hleaf, h.user_of_pteU (vpn_lt _) hU⟩

/-- Different entries of the process map different pages. -/
theorem AddrSpace.ptePa_inj (h : AddrSpace L s T F R) {k k' : ℕ} (hk : k ∈ userSlots)
    (hk' : k' ∈ userSlots) (hv : isValid (T.pte k) = true) (hv' : isValid (T.pte k') = true)
    (heq : ptePa (T.pte k) = ptePa (T.pte k')) : k = k' := by
  have hmapped : (∑ k ∈ userSlots, entryPage (T.pte k)).Nodup :=
    (Multiset.nodup_add.mp (Multiset.nodup_add.mp h.nodup).2.1).1
  refine Sums.eq_of_mem_of_nodup_sum hmapped hk hk' (a := ptePa (T.pte k)) ?_ ?_
  · rw [entryPage_valid hv]
    exact Multiset.mem_singleton_self _
  · rw [entryPage_valid hv', heq]
    exact Multiset.mem_singleton_self _

/-- Different addresses of the process are different places. -/
theorem AddrSpace.phys_inj (h : AddrSpace L s T F R) {x y : ℕ} (hx : T.Mine x) (hy : T.Mine y)
    (heq : T.phys x = T.phys y) : x = y := by
  have hax := (h.entry_managed hx.user hx.valid).aligned
  have hay := (h.entry_managed hy.user hy.valid).aligned
  have hpage : ptePa (T.pte (vpn x)) = ptePa (T.pte (vpn y)) := by
    unfold Tree.phys pgSize at *
    omega
  have hslot := h.ptePa_inj hx.user hy.user hx.valid hy.valid hpage
  have h1 := hx.low
  have h2 := hy.low
  unfold Tree.phys at heq
  unfold vpn pgSize maxVa at *
  omega

theorem Tree.Put.nil (m : Store) (va : ℕ) : T.Put m va [] m :=
  ⟨fun i hi => absurd hi (Nat.not_lt_zero i), fun _ _ => rfl⟩

theorem Tree.Put.append {m m' m'' : Store} (h : T.Put m va front m')
    (h' : T.Put m' (va + front.length) back m'')
    (hinj : ∀ i j, i < front.length → j < back.length →
      T.phys (va + front.length + j) ≠ T.phys (va + i)) :
    T.Put m va (front ++ back) m'' where
  byte := by
    intro i hi
    rw [length_append] at hi
    by_cases hlt : i < front.length
    · rw [h'.frame _ fun j hj => hinj i j hlt hj, h.byte i hlt, getD_append _ _ _ _ hlt]
    · have hb := h'.byte (i - front.length) (by omega)
      rw [show va + front.length + (i - front.length) = va + i by omega] at hb
      rw [hb, getD_append_right _ _ _ _ (by omega)]
  frame := by
    intro a ha
    rw [length_append] at ha
    rw [h'.frame a fun j hj => ?_, h.frame a fun i hi => ha i (by omega)]
    rw [Nat.add_assoc]
    exact ha (front.length + j) (by omega)

theorem Tree.Put.prepend {m m' m'' : Store} (h : T.Put m (va + front.length) back m')
    (h' : T.Put m' va front m'')
    (hinj : ∀ i j, i < front.length → j < back.length →
      T.phys (va + front.length + j) ≠ T.phys (va + i)) :
    T.Put m va (front ++ back) m'' where
  byte := by
    intro i hi
    rw [length_append] at hi
    by_cases hlt : i < front.length
    · rw [h'.byte i hlt, getD_append _ _ _ _ hlt]
    · have hb := h.byte (i - front.length) (by omega)
      have hsame := h'.frame (T.phys (va + front.length + (i - front.length))) fun j hj =>
        (hinj j _ hj (by omega)).symm
      rw [← hsame, show va + front.length + (i - front.length) = va + i by omega] at hb
      rw [hb, getD_append_right _ _ _ _ (by omega)]
  frame := by
    intro a ha
    rw [length_append] at ha
    rw [h'.frame a fun i hi => ha i (by omega), h.frame a fun j hj => ?_]
    rw [Nat.add_assoc]
    exact ha (front.length + j) (by omega)

/-- What was stored is what the process sees. -/
theorem Tree.Put.view {m m' : Store} {va x : ℕ} {bytes : List UInt8} (hput : T.Put m va bytes m')
    (h : AddrSpace L s T F R) (hmine : ∀ i, i < bytes.length → T.Mine (va + i)) (hx : T.Mine x) :
    T.view m' x = write (T.view m) va bytes x := by
  unfold Tree.view write
  split_ifs with hin
  · have hb := hput.byte (x - va) (by omega)
    rwa [show va + (x - va) = x by omega] at hb
  · refine hput.frame _ fun i hi heq => hin ?_
    have := h.phys_inj (hmine i hi) hx heq
    omega

theorem Tree.Writable.sub {va n va' n' : ℕ} (h : T.Writable va n) (hlo : va ≤ va')
    (hhi : va' + n' ≤ va + n) : T.Writable va' n' :=
  fun x h1 h2 => h x (by omega) (by omega)

theorem Tree.Writable.append {va n k : ℕ} (h : T.Writable va n) (h' : T.Writable (va + n) k) :
    T.Writable va (n + k) := by
  intro x h1 h2
  by_cases hx : x < va + n
  · exact h x h1 hx
  · exact h' x (by omega) (by omega)

/-- In a writable range different addresses are different places. -/
theorem Tree.Writable.apart {va n : ℕ} (hw : T.Writable va n) (h : AddrSpace L s T F R)
    (hk : T.Fixed L tf) {i j : ℕ} (hi : i < n) (hj : j < n) (hne : i ≠ j) :
    T.phys (va + i) ≠ T.phys (va + j) := by
  intro heq
  have hmine : ∀ z, z < n → T.Mine (va + z) := fun z hz =>
    hk.mine (hw _ (by omega) (by omega)).2 (hw _ (by omega) (by omega)).1
  have := h.phys_inj (hmine i hi) (hmine j hj) heq
  omega

theorem Tree.Writable.page (hva : va < maxVa) (hpte : T.userPte (pageRoundDown va) pteW ≠ none)
    {n : ℕ} (hn : va % pgSize + n ≤ pgSize) :
    T.Writable va n := by
  intro x h1 h2
  have hpage : pageRoundDown x = pageRoundDown va := by
    unfold pageRoundDown pgSize at *
    omega
  rw [hpage]
  refine ⟨?_, hpte⟩
  unfold maxVa pgSize at *
  omega

/-- The bytes a process may access, by its tree. -/
theorem Space.grants_iff (h : Space L s T F R) {perm x : ℕ} :
    Grants s.mem T.root perm x ↔ x < maxVa ∧ T.userPte (pageRoundDown x) perm ≠ none := by
  have hpte : pteAt s.mem T.root (vpn x) = T.pte (vpn x) :=
    h.rep.pteAt (fun _ hp => h.table_managed hp) (vpn_lt x)
  have hround : pageRoundDown x ≤ x := Nat.div_mul_le_self _ _
  unfold Tree.userPte
  rw [vpn_pageRoundDown]
  constructor
  · rintro ⟨h1, h2, h3, h4⟩
    rw [hpte] at h2 h3 h4
    exact ⟨h1, by rw [if_neg (by omega), if_pos ⟨h2, h3, h4⟩]; exact Option.some_ne_none _⟩
  · rintro ⟨h1, h2⟩
    rw [if_neg (by omega)] at h2
    split_ifs at h2 with hc
    · rw [← hpte] at hc
      exact ⟨h1, hc.1, hc.2.1, hc.2.2⟩
    · exact absurd rfl h2

theorem Space.granted_iff (h : Space L s T F R) {perm va n : ℕ} :
    Granted s.mem T.root perm va n ↔
      ∀ x, va ≤ x → x < va + n → x < maxVa ∧ T.userPte (pageRoundDown x) perm ≠ none := by
  constructor
  · intro hg x h1 h2
    have := h.grants_iff.mp (hg (x - va) (by omega))
    rwa [show va + (x - va) = x by omega] at this
  · exact fun hr i hi => h.grants_iff.mpr (hr _ (by omega) (by omega))

theorem Space.readable_iff (h : Space L s T F R) {va n : ℕ} :
    Granted s.mem T.root pteR va n ↔ T.Readable va n := h.granted_iff

theorem Space.writable_iff (h : Space L s T F R) {va n : ℕ} :
    Granted s.mem T.root pteW va n ↔ T.Writable va n := h.granted_iff

theorem Space.physAt_eq (h : Space L s T F R) : physAt s.mem T.root = T.phys := by
  funext x
  unfold physAt Tree.phys
  rw [h.rep.pteAt (fun _ hp => h.table_managed hp) (vpn_lt x)]

theorem Space.viewAt_eq (h : Space L s T F R) : viewAt s.mem T.root = T.view s.mem := by
  unfold viewAt Tree.view
  rw [h.physAt_eq]

theorem Grants.mine (h : AddrSpace L s T F R) (hk : T.Fixed L tf) {perm x : ℕ}
    (hg : Grants s.mem T.root perm x) : T.Mine x :=
  hk.mine (h.grants_iff.mp hg).2 hg.low

/-- The pages of a process are not pages of its table. -/
theorem AddrSpace.userTable (h : AddrSpace L s T F R) (hk : T.Fixed L tf) :
    UserTable s.mem T.root where
  aligned := (h.table_managed T.root_mem).aligned
  apart := by
    intro x hg hmem
    have hmine := hg.mine h hk
    rw [h.rep.tablesAt fun _ hp => h.table_managed hp] at hmem
    rw [h.rep.pteAt (fun _ hp => h.table_managed hp) (vpn_lt x)] at hmem
    refine h.table_not_frame hmem (mem_add.mpr (Or.inl ?_))
    exact Tree.mem_mapped.mpr ⟨vpn x, hmine.user, hmine.valid, rfl⟩

/-- Bytes stored in user pages leave the address space as it is. -/
theorem AddrSpace.moved_putBytes (h : AddrSpace L s T F R) {l : List UInt8}
    (hmine : ∀ i, i < l.length → T.Mine (va + i)) :
    Moved L R s T F { s with mem := putBytes T.phys s.mem va l } T F := by
  have hagree : AgreeOff T.mapped s.mem (putBytes T.phys s.mem va l) := by
    intro a ha
    refine putBytes_frame fun i hi heq => ?_
    have hi := hmine i hi
    have hp := ha _ (Tree.mem_mapped.mpr ⟨_, hi.user, hi.valid, rfl⟩)
    have hmod : (va + i) % pgSize < pgSize := Nat.mod_lt _ (by decide)
    unfold Tree.phys at heq
    omega
  refine ⟨rfl, rfl, ?_, hagree.mono fun p hp => ?_⟩
  · exact Space.write_frame h (fun p hp => mem_add.mpr (Or.inl hp)) hagree
  · exact mem_add.mpr (Or.inl (mem_add.mpr (Or.inr hp)))

/-- `copyout` stores a prefix: all of it when the range is writable. -/
theorem wp_copyout_put {dstVa : ℕ} {src : List UInt8} (h : AddrSpace L s T F R)
    (hk : T.Fixed L tf) {Q : Option Unit → Ram → Prop}
    (hQ : ∀ r n s', n ≤ src.length → Moved L R s T F s' T F → T.Writable dstVa n →
      T.Put s.mem dstVa (src.take n) s'.mem → (r = some () → n = src.length) →
      (r = none → ¬ T.Writable dstVa src.length) → Q r s') :
    (copyout T.root dstVa src).wp E Q s := by
  obtain ⟨r, n, hrun, hn, hg, hsome, hnone⟩ := copyout_run (h.userTable hk) dstVa src
  have hlen : (src.take n).length = n := by
    rw [length_take]
    omega
  have hw := h.writable_iff.mp hg
  rw [h.physAt_eq] at hrun
  refine wp_of_ok hrun (hQ r n _ hn ?_ hw ⟨fun i hi => ?_, fun a ha => ?_⟩ hsome ?_)
  · exact h.moved_putBytes fun i hi => (hg i (by omega)).mine h hk
  · refine putBytes_get (fun i j hi hj heq => ?_) hi
    by_contra hne
    exact hw.apart h hk (by omega) (by omega) hne heq
  · exact putBytes_frame ha
  · intro hr hall
    obtain ⟨hlt, hbyte⟩ := hnone hr
    exact hbyte (h.writable_iff.mpr hall n hlt)

theorem Tree.Readable.page (hva : va < maxVa) (hpte : T.userPte (pageRoundDown va) pteR ≠ none)
    {n : ℕ} (hn : va % pgSize + n ≤ pgSize) :
    T.Readable va n := by
  intro x h1 h2
  have hpage : pageRoundDown x = pageRoundDown va := by
    unfold pageRoundDown pgSize at *
    omega
  rw [hpage]
  refine ⟨?_, hpte⟩
  unfold maxVa pgSize at *
  omega

/-- `copyin` reads the range when all of it is readable. -/
theorem wp_copyin {srcVa len : ℕ} (h : Space L s T F R)
    (hsome : T.Readable srcVa len → Q (some (read (T.view s.mem) srcVa len)) s)
    (hnone : ¬ T.Readable srcVa len → Q none s) :
    (copyin T.root srcVa len).wp E Q s := by
  have hrun := @copyin_run T.root srcVa len s
  rw [h.readable_iff, h.viewAt_eq] at hrun
  by_cases hr : T.Readable srcVa len
  · exact wp_of_ok (hrun.1 hr) (hsome hr)
  · exact wp_of_ok (hrun.2 hr) (hnone hr)

/-- `copyinstr` returns the string at the address, if it is readable up to its
NUL and shorter than the buffer. -/
theorem wp_copyinstr {srcVa len : ℕ} (h : Space L s T F R)
    (hsome : ∀ k, k < len → T.Readable srcVa (k + 1) → CStr (T.view s.mem) srcVa k →
      Q (some (read (T.view s.mem) srcVa k)) s)
    (hnone : (∀ k, k < len → T.Readable srcVa (k + 1) → ¬ CStr (T.view s.mem) srcVa k) →
      Q none s) :
    (copyinstr T.root srcVa len).wp E Q s := by
  obtain ⟨hfound, hmissing⟩ := @copyinstr_run T.root srcVa len s
  by_cases hstr : ∃ n, UserStr s.mem T.root srcVa len n
  · obtain ⟨n, hn⟩ := hstr
    refine wp_of_ok (hfound n hn) ?_
    obtain ⟨hfits, hstr, hg⟩ := hn
    rw [h.viewAt_eq] at hstr ⊢
    exact hsome n hfits (h.readable_iff.mp hg) hstr
  · refine wp_of_ok (hmissing fun n hn => hstr ⟨n, hn⟩) (hnone fun k hk hr hs => hstr ⟨k, hk, ?_, ?_⟩)
    · rw [h.viewAt_eq]
      exact hs
    · exact h.readable_iff.mpr hr

/-- The entry that the loader and `fork` make for the stack. -/
theorem Tree.stack_of_word (pa : ℕ) (h : T.pte (2 ^ 26 - 3) = leafWord pa (pteU ||| pteR ||| pteW)) :
    T.Stack := by
  have hpte : ∀ perm, perm = pteR ∨ perm = pteW → T.userPte userStack perm ≠ none := by
    intro perm hperm
    unfold Tree.userPte
    rw [if_neg userStack_lt, vpn_userStack, h, isLeaf_leafWord, leafWord_and (by decide),
      leafWord_and (by rcases hperm with rfl | rfl <;> decide), if_pos]
    · exact Option.some_ne_none _
    · rcases hperm with rfl | rfl <;> decide
  have hround : pageRoundDown userStack = userStack := by decide
  have hmod : userStack % pgSize + pgSize ≤ pgSize := by decide
  exact ⟨Tree.Readable.page (by decide) (hround ▸ hpte pteR (Or.inl rfl)) hmod,
    Tree.Writable.page (by decide) (hround ▸ hpte pteW (Or.inr rfl)) hmod⟩

end Copy

end ToyOs
