import ToyOs.ExecFailure
import ToyOs.Grow
import ToyOs.Tables
import ToyOs.Argv
import ToyOs.Kernel.Syscall

/-!
`sys_sbrk` grows the image or leaves the process as it is, except when memory
runs out between two pages of the request: `uvmalloc` then returns without
taking back the pages it has mapped.
-/
namespace ToyOs

open Bytes Prog Function Nat

/-- Below the stack the page table maps exactly the pages of the image. -/
structure MapsExactly (m : Store) (root sz : ℕ) : Prop where
  low : sz ≤ userStack
  iff : ∀ j, j < vpn userStack → (isValid (pteAt m root j) = true ↔ j < pages sz)

/-- The image has grown: the new pages are zero and for the user to read and
write, and all other entries and bytes of the process are as before. -/
structure SbrkGrew (k k' : Kernel) (i : ProcRef) (newsz : ℕ) : Prop where
  rest : k' = { k with
    ram := k'.ram, procs := Function.update k.procs i { k.procs i with sz := newsz } }
  maps : MapsExactly k'.ram.mem (k.procs i).pagetable newsz
  old : ∀ j, j < 2 ^ 27 → j < pages (k.procs i).sz ∨ pages newsz ≤ j →
    pteAt k'.ram.mem (k.procs i).pagetable j = pteAt k.ram.mem (k.procs i).pagetable j
  added : ∀ j, pages (k.procs i).sz ≤ j → j < pages newsz →
    (∃ pa, pteAt k'.ram.mem (k.procs i).pagetable j = leafWord pa (pteU ||| pteR ||| pteW)) ∧
      ∀ off, off < pgSize →
        k'.ram.mem (ptePa (pteAt k'.ram.mem (k.procs i).pagetable j) + off) = 0
  bytes : ∀ j ∈ userSlots, isValid (pteAt k.ram.mem (k.procs i).pagetable j) = true →
    ∀ off, off < pgSize → k'.ram.mem (ptePa (pteAt k.ram.mem (k.procs i).pagetable j) + off) =
      k.ram.mem (ptePa (pteAt k.ram.mem (k.procs i).pagetable j) + off)

/-- The size and the mapped pages are as before. -/
structure SbrkRefused (k k' : Kernel) (i : ProcRef) : Prop where
  rest : k' = { k with ram := k'.ram }
  maps : ∀ j, j < 2 ^ 27 →
    isValid (pteAt k'.ram.mem (k.procs i).pagetable j) =
      isValid (pteAt k.ram.mem (k.procs i).pagetable j) ∧
    (isValid (pteAt k.ram.mem (k.procs i).pagetable j) = true →
      pteAt k'.ram.mem (k.procs i).pagetable j = pteAt k.ram.mem (k.procs i).pagetable j)

/-- The increment that the process asks for. -/
def sbrkArg (k : Kernel) (i : ProcRef) : ℤ :=
  toIsize (load 8 k.ram.mem ((k.procs i).trapframe + tfA0))

/-- `sys_sbrk` returns, and it has done all or nothing. -/
def SbrkAllOrNothing (L : Layout) (k : Kernel) (i : ProcRef) : Prop :=
  ∃ r k', sysSbrk L (k.procs i).trapframe k = .ok (r, k') ∧
    ((0 ≤ sbrkArg k i ∧ r = Result.ret (k.procs i).sz ∧
        SbrkGrew k k' i ((k.procs i).sz + (sbrkArg k i).toNat)) ∨
      r = Result.ret (-1) ∧ SbrkRefused k k' i)

section Sizes

theorem sbrkSize_some {oldsz newsz : ℕ} {n : ℤ} (h : sbrkSize oldsz n = some newsz) :
    0 ≤ n ∧ newsz = oldsz + n.toNat ∧ newsz ≤ userStack := by
  unfold sbrkSize at h
  by_cases hn : n < 0
  · rw [if_pos hn] at h
    exact absurd h (by simp)
  rw [if_neg hn] at h
  cases h1 : checkedAdd oldsz n.toNat with
  | none => simp [h1] at h
  | some new =>
    have hnew := checkedAdd_some h1
    simp only [h1] at h
    cases h2 : checkedAdd new (pgSize - 1) with
    | none => simp [h2] at h
    | some v =>
      have hv := checkedAdd_some h2
      simp only [h2] at h
      by_cases hbig : userStack < v / pgSize * pgSize
      · rw [if_pos hbig] at h
        exact absurd h (by simp)
      · rw [if_neg hbig] at h
        obtain rfl := Option.some.inj h
        refine ⟨by omega, hnew.symm, ?_⟩
        unfold pgSize at *
        omega

end Sizes

section Outcomes

variable {L : Layout} {R : Multiset ℕ} {k : Kernel} {i : ProcRef} {T T' : Tree} {F F' : List ℕ}
  {s' : Ram} {oldsz newsz n : ℕ}

theorem Space.pteAt (h : Space L s' T F R) {j : ℕ} (hj : j < 2 ^ 27) :
    pteAt s'.mem T.root j = T.pte j :=
  h.rep.pteAt (fun _ hp => h.table_managed hp) hj

theorem Resident.pteAt (h : Resident L k.ram (k.procs i) T F R) {j : ℕ} (hj : j < 2 ^ 27) :
    ToyOs.pteAt k.ram.mem (k.procs i).pagetable j = T.pte j := by
  rw [h.root]
  exact h.space.pteAt hj

/-- The entries of the process after a change of its tree. -/
theorem Moved.pteAt (hm : Moved L R k.ram T F s' T' F') (h : Resident L k.ram (k.procs i) T F R)
    {j : ℕ} (hj : j < 2 ^ 27) : ToyOs.pteAt s'.mem (k.procs i).pagetable j = T'.pte j := by
  rw [h.root, ← hm.root]
  exact hm.space.pteAt hj

theorem Moved.sbrkRefused (hm : Moved L R k.ram T F s' T' F')
    (h : Resident L k.ram (k.procs i) T F R) (hsame : T.SameEntries T') :
    SbrkRefused k { k with ram := s' } i := by
  refine ⟨rfl, fun j hj => ?_⟩
  simp only [hm.pteAt h hj, h.pteAt hj]
  exact ⟨hsame.isValid_eq hj, hsame.valid hj⟩

theorem SegInv.sbrkGrew (hseg : SegInv L R (growth (pages oldsz * pgSize) (pages newsz - pages oldsz))
      [] k.ram T F s' T' F' (pages newsz - pages oldsz))
    (hdata : GrowData (pages oldsz * pgSize) (pages newsz - pages oldsz) k.ram T F s' T' F'
      (pages newsz - pages oldsz))
    (h : Resident L k.ram (k.procs i) T F R) (hold : (k.procs i).sz = oldsz)
    (hmaps : MapsExactly k.ram.mem (k.procs i).pagetable oldsz) (hle : oldsz ≤ newsz)
    (hnew : newsz ≤ userStack) :
    SbrkGrew k ({ k with ram := s' }.setProc i { k.procs i with sz := newsz }) i newsz := by
  have hmono : pages oldsz ≤ pages newsz := Nat.div_le_div_right (by omega)
  have htop := pages_le_stack hnew
  have hslot : ∀ {j}, j < pages newsz - pages oldsz →
      (growth (pages oldsz * pgSize) (pages newsz - pages oldsz)).slot j = pages oldsz + j := by
    intro j hj
    rw [growth_slot, Nat.mul_div_cancel _ (by decide)]
    rw [Nat.mul_div_cancel _ (by decide)]
    omega
  have hother : ∀ j, j < pages oldsz ∨ pages newsz ≤ j → T'.pte j = T.pte j := by
    intro j hj
    refine hseg.other j fun n hn => ?_
    rw [hslot hn]
    omega
  have hadded : ∀ j, pages oldsz ≤ j → j < pages newsz →
      (∃ pa, T'.pte j = leafWord pa (pteU ||| pteR ||| pteW)) ∧
        ∀ off, off < pgSize → s'.mem (ptePa (T'.pte j) + off) = 0 := by
    intro j h1 h2
    obtain ⟨pa, hpa⟩ := hseg.word (j - pages oldsz) (by omega)
    have hzero := hdata.bytes (j - pages oldsz) (by omega)
    rw [hslot (by omega), show pages oldsz + (j - pages oldsz) = j by omega] at hpa hzero
    rw [growth_perm] at hpa
    exact ⟨⟨pa, hpa⟩, hzero⟩
  have hpte : ∀ {j}, j < 2 ^ 27 → ToyOs.pteAt s'.mem (k.procs i).pagetable j = T'.pte j :=
    fun hj => hseg.moved.pteAt h hj
  subst hold
  refine ⟨rfl, ⟨hnew, ?_⟩, ?_, ?_, ?_⟩
  · intro j hj
    rw [vpn_userStack] at hj
    have hbefore := hmaps.iff j (by rw [vpn_userStack]; exact hj)
    rw [h.pteAt (by omega)] at hbefore
    simp only [Kernel.setProc]
    rw [hpte (by omega)]
    by_cases hin : pages (k.procs i).sz ≤ j ∧ j < pages newsz
    · obtain ⟨⟨pa, hpa⟩, -⟩ := hadded j hin.1 hin.2
      simp only [hpa, isValid_leafWord, hin.2]
    · rw [hother j (by omega), hbefore]
      omega
  · intro j hj hout
    simp only [Kernel.setProc]
    rw [hpte hj, h.pteAt hj]
    exact hother j hout
  · intro j h1 h2
    simp only [Kernel.setProc]
    rw [hpte (by omega)]
    exact hadded j h1 h2
  · intro j hj hv off hoff
    have hj27 := (mem_userSlots.mp hj).1
    rw [h.pteAt hj27] at hv ⊢
    exact hdata.kept.user_page h.space hj hv hoff

theorem wp_sysSbrk {E : Panic → Prop} (hcur : k.cpu.proc = some i) {Q : Result → Kernel → Prop}
    (hrefuse : sbrkSize (k.procs i).sz (sbrkArg k i) = none → Q Result.err k)
    (hgrow : ∀ newsz, sbrkSize (k.procs i).sz (sbrkArg k i) = some newsz →
      (uvmalloc L (k.procs i).pagetable (k.procs i).sz newsz).wp E (fun r s' => match r with
        | none => Q Result.err { k with ram := s' }
        | some _ => Q (Result.ret (k.procs i).sz)
            ({ k with ram := s' }.setProc i { k.procs i with sz := newsz })) k.ram) :
    (sysSbrk L (k.procs i).trapframe).wp E Q k := by
  simp only [sysSbrk, myproc, getProc, onRam, getReg, wp_bind, wp_get, wp_expect,
    wp_zoom, wp_pure, hcur]
  refine ⟨fun a ha => ?_, by simp⟩
  obtain rfl := Option.some.inj ha
  cases hsize : sbrkSize (k.procs i).sz (sbrkArg k i) with
  | none =>
    unfold sbrkArg at hsize
    rw [hsize]
    exact hrefuse (by unfold sbrkArg; exact hsize)
  | some newsz =>
    have hrun := hgrow newsz hsize
    unfold sbrkArg at hsize
    simp only [hsize, wp_bind, wp_zoom]
    refine wp_post hrun ?_
    intro r s' hq
    cases r with
    | none => exact hq
    | some _ => exact hq

/-- No page of a request is mapped already. -/
theorem MapsExactly.not_taken (hmaps : MapsExactly k.ram.mem (k.procs i).pagetable oldsz)
    (h : Resident L k.ram (k.procs i) T F R) (hnew : newsz ≤ userStack) :
    ¬ ∃ j, pages oldsz ≤ j ∧ j < pages newsz ∧ isValid (T.pte j) = true := by
  rintro ⟨j, hge, hlt, hv⟩
  have htop := pages_le_stack hnew
  have hiff := hmaps.iff j (by rw [vpn_userStack]; omega)
  rw [h.pteAt (by omega), hv] at hiff
  have := hiff.mp rfl
  omega

/-- A page is left behind above the size when memory runs dry. -/
theorem RunsDry.not_allOrNothing (hcur : k.cpu.proc = some i)
    (h : Resident L k.ram (k.procs i) T F R)
    (hmaps : MapsExactly k.ram.mem (k.procs i).pagetable (k.procs i).sz)
    (hsize : sbrkSize (k.procs i).sz (sbrkArg k i) = some newsz)
    (hdry : RunsDry T F.length (k.procs i).sz newsz) : ¬ SbrkAllOrNothing L k i := by
  rintro ⟨r, k', hrun, hres⟩
  obtain ⟨hn, hnew, hlow⟩ := sbrkSize_some hsize
  have htop := pages_le_stack hmaps.low
  have hspec : (sysSbrk L (k.procs i).trapframe).wp (fun _ => False) (fun r k' => r = Result.err ∧
      isValid (pteAt k'.ram.mem (k.procs i).pagetable (pages (k.procs i).sz)) = true ∧
      isValid (T.pte (pages (k.procs i).sz)) = false) k := by
    refine wp_sysSbrk hcur (fun hnone => by simp [hsize] at hnone) ?_
    intro newsz' hsize'
    obtain rfl := Option.some.inj (hsize.symm.trans hsize')
    rw [h.root]
    refine wp_uvmalloc h.space h.kernel (by omega) hlow ?_ ?_ ?_
    · rintro s' T' F' (⟨hnot, -⟩ | htaken)
      · exact absurd hdry hnot
      · exact absurd htaken (hmaps.not_taken h hlow)
    · intro s' T' j hj hseg _
      have hv := hseg.valid 0 hj
      have hf := hseg.fresh 0 hj
      have hdiv : pages (k.procs i).sz * pgSize / pgSize = pages (k.procs i).sz :=
        Nat.mul_div_cancel _ (by decide)
      rw [growth_slot (by omega), hdiv, Nat.add_zero] at hv hf
      refine ⟨rfl, ?_, hf⟩
      rw [← h.root, hseg.moved.pteAt h (by omega)]
      exact hv
    · exact fun s' T' F' hnot => absurd hdry hnot
  obtain ⟨rfl, hvalid, hinv⟩ := wp_ok hspec hrun
  rcases hres with ⟨-, hret, -⟩ | ⟨-, href⟩
  · have hsz : (syserr : ℤ) = ((k.procs i).sz : ℤ) := by
      simpa [Result.err, Result.ret] using hret
    unfold syserr at hsz
    omega
  · have heq := (href.maps (pages (k.procs i).sz) (by omega)).1
    rw [h.pteAt (by omega), hinv, hvalid] at heq
    exact absurd heq (by decide)

/-- Otherwise the call grows the image, or leaves it alone for want of memory. -/
theorem sbrk_not_dry (hcur : k.cpu.proc = some i) (h : Resident L k.ram (k.procs i) T F R)
    (hmaps : MapsExactly k.ram.mem (k.procs i).pagetable (k.procs i).sz)
    (hdry : ∀ newsz, sbrkSize (k.procs i).sz (sbrkArg k i) = some newsz →
      ¬ RunsDry T F.length (k.procs i).sz newsz) :
    ∃ r k', sysSbrk L (k.procs i).trapframe k = .ok (r, k') ∧
      ((0 ≤ sbrkArg k i ∧ r = Result.ret (k.procs i).sz ∧
          SbrkGrew k k' i ((k.procs i).sz + (sbrkArg k i).toNat)) ∨
        (r = Result.ret (-1) ∧ SbrkRefused k k' i) ∧
          ∀ newsz, sbrkSize (k.procs i).sz (sbrkArg k i) = some newsz →
            F.length < T.need (Finset.Ico (pages (k.procs i).sz) (pages newsz))) := by
  refine exists_ok (m := sysSbrk L (k.procs i).trapframe) ?_
  refine wp_sysSbrk hcur ?_ ?_
  · intro hnone
    refine Or.inr ⟨⟨rfl, rfl, fun j _ => ⟨rfl, fun _ => rfl⟩⟩, fun newsz hsize => ?_⟩
    rw [hnone] at hsize
    exact absurd hsize (by simp)
  · intro newsz hsize
    obtain ⟨hn, hnew, hlow⟩ := sbrkSize_some hsize
    rw [h.root]
    refine wp_uvmalloc h.space h.kernel (by omega) hlow ?_ ?_ ?_
    · rintro s' T' F' (⟨-, hshort⟩ | htaken) hm hsame
      · refine Or.inr ⟨⟨rfl, hm.sbrkRefused h hsame⟩, fun newsz' hsize' => ?_⟩
        obtain rfl := Option.some.inj (hsize.symm.trans hsize')
        exact hshort
      · exact absurd htaken (hmaps.not_taken h hlow)
    · exact fun s' T' j _ _ hruns => absurd hruns (hdry newsz hsize)
    · intro s' T' F' _ hseg hdata
      refine Or.inl ⟨hn, rfl, ?_⟩
      rw [← hnew]
      exact hseg.sbrkGrew hdata h rfl hmaps (by omega) hlow

/-- `sys_sbrk` does all or nothing exactly when memory does not run dry between
two pages of the request, counting the pages and the tables that are missing. -/
theorem sbrk_all_or_nothing_iff (hcur : k.cpu.proc = some i)
    (h : Resident L k.ram (k.procs i) T F R)
    (hmaps : MapsExactly k.ram.mem (k.procs i).pagetable (k.procs i).sz) :
    SbrkAllOrNothing L k i ↔ ∀ newsz, sbrkSize (k.procs i).sz (sbrkArg k i) = some newsz →
      ¬ RunsDry T F.length (k.procs i).sz newsz := by
  constructor
  · exact fun hall newsz hsize hdry => hdry.not_allOrNothing hcur h hmaps hsize hall
  · intro hdry
    obtain ⟨r, k', hrun, hres⟩ := sbrk_not_dry hcur h hmaps hdry
    exact ⟨r, k', hrun, hres.imp_right And.left⟩

end Outcomes

section Sample

variable {L : Layout} {R : Multiset ℕ} {s : Ram} {T : Tree} {F : List ℕ}

/-- A free page goes to some other owner. -/
theorem Space.drop_free {p : ℕ} (h : Space L s T (p :: F) R) :
    ∃ hd, Space L { s with head := hd } T F ({p} + R) := by
  have hfree := h.free
  generalize s.head = hd0 at hfree
  cases hfree with
  | cons _ hrest =>
    refine ⟨load 8 s.mem p, Space.of_pool_eq h ?_ h.rep hrest⟩
    rw [← pool_cons]
    abel

/-- Memory can get as tight as one likes. -/
theorem exists_tight (h : AddrSpace L s T F R) {n : ℕ} (hn : n ≤ F.length) :
    ∃ hd F' R', AddrSpace L { s with head := hd } T F' (R' + R) ∧ F'.length = n := by
  induction F generalizing s R with
  | nil =>
    refine ⟨s.head, [], 0, ?_, (le_zero.mp hn).symm⟩
    rw [zero_add]
    exact h
  | cons p F ih =>
    by_cases heq : n = F.length + 1
    · refine ⟨s.head, p :: F, 0, ?_, by rw [heq, List.length_cons]⟩
      rw [zero_add]
      exact h
    · rw [List.length_cons] at hn
      obtain ⟨hd, hspace⟩ := Space.drop_free h
      rw [add_left_comm] at hspace
      obtain ⟨hd', F', R', hspace', hlen⟩ := ih hspace (by omega)
      refine ⟨hd', F', R' + {p}, ?_, hlen⟩
      rw [add_assoc]
      exact hspace'

/-- A process with one page, `n` free pages and an argument for `sbrk`. -/
theorem exists_one_page (n arg : ℕ) (hn : n ≤ 20) (harg : arg < 2 ^ 63) :
    ∃ (k : Kernel) (T : Tree) (F : List ℕ) (R : Multiset ℕ), k.cpu.proc = some slot0 ∧
      Resident smallLayout k.ram (k.procs slot0) T F R ∧ (k.procs slot0).sz = pgSize ∧
      MapsExactly k.ram.mem (k.procs slot0).pagetable (k.procs slot0).sz ∧ F.length = n ∧
      T.lack {1} = 0 ∧ sbrkArg k slot0 = arg := by
  obtain ⟨s, T, F, tf, ks, pa, hspace, hk, hword, hrest, hlen⟩ :=
    exists_stack smallLayout (n := 23) (by decide)
  have hrun : (uvmallocLoop smallLayout T.root 0 1 (0 + 0 * pgSize)).wp (fun _ => False)
      (fun _ s' => ∃ T' F', SegInv smallLayout ({ks} + {tf}) (growth 0 1) [] s T F s' T' F' 1 ∧
        20 ≤ F'.length ∧ T'.lack {1} = 0) s := by
    have hneed : ∀ m, m ≤ 1 → T.need (Finset.Ico 0 (0 + m)) ≤ 3 := by
      intro m hm
      have := T.need_card_le (Finset.Ico 0 (0 + m))
      rw [card_Ico] at this
      omega
    refine wp_uvmallocLoop (p := 0)
      (SegInv.init hspace : SegInv smallLayout _ (growth 0 1) [] s T F s T F 0)
      (Filled.init s T F _ _) (by simpa using Paid.refl T F) hk rfl (by decide) ?_ ?_ ?_ ?_
    · intro j hj
      obtain rfl : j = 0 := by omega
      decide
    · rintro s' T' F' j hj (⟨-, hlt⟩ | hv) - -
      · have := hneed (j + 1) (by omega)
        omega
      · obtain rfl : j = 0 := by omega
        rw [hrest _ (mem_userSlots.mpr (by decide)) (by decide)] at hv
        exact absurd hv (by decide)
    · intro s' T' j hj hall
      have := hneed j (by omega)
      omega
    · intro s' T' F' hpaid hseg _
      have hcount := hpaid.count
      have := hneed (0 + 1) (by omega)
      refine ⟨T', F', hseg, by omega, ?_⟩
      rw [Tree.lack_singleton, if_neg, if_neg]
      · rw [hpaid.tabled.l0]
        exact fun hnone => hnone.2 (by decide)
      · rw [hpaid.tabled.l1]
        exact fun hnone => hnone.2 (by decide)
  obtain ⟨_, s1, -, T1, F1, hseg, hlen1, hlack⟩ := exists_ok hrun
  obtain ⟨hd, F2, R2, hspace2, hlen2⟩ := exists_tight hseg.moved.space (n := n) (by omega)
  have hslot : (growth 0 1).slot 0 = 0 := by decide
  have hzero : isValid (T1.pte 0) = true := hslot ▸ hseg.valid 0 zero_lt_one
  have hother : ∀ j, j ≠ 0 → T1.pte j = T.pte j := by
    intro j hj
    refine hseg.other j fun m hm => ?_
    obtain rfl : m = 0 := by omega
    rw [hslot]
    exact hj.symm
  have htf : tf ∈ T1.mapped + (R2 + ({ks} + {tf})) := by simp
  -- The argument goes to the trap frame, a page of the frame.
  obtain ⟨ram, hspace3, hload⟩ : ∃ ram, AddrSpace smallLayout ram T1 F2 (R2 + ({ks} + {tf})) ∧
      load 8 ram.mem (tf + tfA0) = arg := by
    refine ⟨Ram.setWord ⟨s1.mem, hd⟩ (tf + tfA0) arg, ?_, ?_⟩
    · refine Space.write_frame hspace2 (P := {tf}) ?_
        (agreeOff_store _ tf _ arg (le_add_right _ _) (by unfold tfA0 pgSize; omega))
      intro p hp
      rw [Multiset.mem_singleton.mp hp]
      exact htf
    · rw [Ram.setWord, load_store_same, mod_eq_of_lt]
      exact lt_trans harg (by decide)
  refine ⟨soloKernel ram { bareProcess T1.root tf ks with sz := pgSize }, T1, F2, _,
    rfl, ⟨hspace3, rfl, hseg.kernel hk, by simp [soloKernel, bareProcess]⟩, rfl,
    ⟨(by decide : pgSize ≤ userStack), ?_⟩, hlen2, hlack, ?_⟩
  · intro j hj
    rw [vpn_userStack] at hj
    have hpages : pages pgSize = 1 := by decide
    simp only [soloKernel, bareProcess, update_self]
    rw [hspace3.pteAt (by omega), hpages]
    by_cases hj0 : j = 0
    · simp [hj0, hzero]
    · rw [hother j hj0, hrest j (mem_userSlots.mpr (by omega)) (by omega)]
      exact ⟨fun hv => absurd hv (by decide), fun hlt => absurd hlt (by omega)⟩
  · simp only [sbrkArg, soloKernel, bareProcess, update_self, toIsize]
    rw [hload, if_pos harg]

/-- Two pages are asked for and one is free: the call fails and leaves a page behind. -/
theorem sbrk_strands : ∃ (k : Kernel) (T : Tree) (F : List ℕ) (R : Multiset ℕ),
    k.cpu.proc = some slot0 ∧ Resident smallLayout k.ram (k.procs slot0) T F R ∧
      MapsExactly k.ram.mem (k.procs slot0).pagetable (k.procs slot0).sz ∧
      ¬ SbrkAllOrNothing smallLayout k slot0 := by
  obtain ⟨k, T, F, R, hcur, h, hsz, hmaps, hlen, hlack, harg⟩ :=
    exists_one_page 1 (2 * pgSize) (by decide) (by decide)
  have hsize : sbrkSize (k.procs slot0).sz (sbrkArg k slot0) = some (3 * pgSize) := by
    rw [hsz, harg]
    decide
  have hpages : pages pgSize = 1 := by decide
  refine ⟨k, T, F, R, hcur, h, hmaps, RunsDry.not_allOrNothing hcur h hmaps hsize ?_⟩
  rw [hsz, hlen]
  refine ⟨1, Nat.zero_lt_one, by decide, ?_⟩
  rw [hpages, Nat.Ico_succ_singleton, Tree.need_singleton, hlack]

/-- Two pages are asked for and there is memory for them. -/
theorem sbrk_all_or_nothing_two : ∃ k k', SbrkAllOrNothing smallLayout k slot0 ∧
    sysSbrk smallLayout (k.procs slot0).trapframe k = .ok (Result.ret pgSize, k') ∧
    SbrkGrew k k' slot0 (3 * pgSize) := by
  obtain ⟨k, T, F, R, hcur, h, hsz, hmaps, hlen, -, harg⟩ :=
    exists_one_page 20 (2 * pgSize) (by decide) (by decide)
  have hsize : sbrkSize (k.procs slot0).sz (sbrkArg k slot0) = some (3 * pgSize) := by
    rw [hsz, harg]
    decide
  have hneed : ∀ a b, a ≤ b → b ≤ a + 2 → T.need (Finset.Ico a b) ≤ 6 := by
    intro a b _ _
    have := T.need_card_le (Finset.Ico a b)
    rw [Nat.card_Ico] at this
    omega
  have hdry : ∀ newsz, sbrkSize (k.procs slot0).sz (sbrkArg k slot0) = some newsz →
      ¬ RunsDry T F.length (k.procs slot0).sz newsz := by
    rintro newsz hsize' ⟨j, -, hlt, heq⟩
    obtain rfl := Option.some.inj (hsize.symm.trans hsize')
    have htwo : pages (3 * pgSize) - pages pgSize = 2 := by decide
    rw [hsz, htwo] at hlt
    have := hneed (pages (k.procs slot0).sz) (pages (k.procs slot0).sz + j) (by omega) (by omega)
    omega
  obtain ⟨r, k', hrun, hres⟩ := sbrk_not_dry hcur h hmaps hdry
  refine ⟨k, k', (sbrk_all_or_nothing_iff hcur h hmaps).mpr hdry, ?_⟩
  rcases hres with ⟨-, rfl, hgrew⟩ | ⟨-, hshort⟩
  · rw [hsz, harg] at hgrew
    rw [hsz] at hrun
    exact ⟨hrun, hgrew⟩
  · have hlt := hshort _ hsize
    rw [hsz] at hlt
    have := hneed (pages pgSize) (pages (3 * pgSize)) (by decide) (by decide)
    omega

end Sample

end ToyOs
