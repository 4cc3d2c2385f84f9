import ToyOs.CopyBuffer
import ToyOs.Argv

/-!
The copies between kernel buffers and user memory, byte by byte. The page
table is any table in memory whose user pages are not pages of the table
itself; the addresses and lengths are arbitrary.
-/
namespace ToyOs

open Bytes

section Copies

variable {root : ℕ} {s : Ram}

/-- No two pages of the range are mapped to one page. -/
def MappedInjectively (m : Store) (root va n : ℕ) : Prop :=
  ∀ i j, i < n → j < n → ptePa (pteAt m root (vpn (va + i))) = ptePa (pteAt m root (vpn (va + j))) →
    vpn (va + i) = vpn (va + j)

/-- Different bytes of an injectively mapped range are at different places. -/
theorem MappedInjectively.physAt_inj {m : Store} {perm va n : ℕ} (h : MappedInjectively m root va n)
    (hg : Granted m root perm va n) {i j : ℕ} (hi : i < n) (hj : j < n)
    (heq : physAt m root (va + i) = physAt m root (va + j)) : i = j := by
  have hpi := ptePa_aligned (pteAt m root (vpn (va + i)))
  have hpj := ptePa_aligned (pteAt m root (vpn (va + j)))
  have hli := (hg i hi).low
  have hlj := (hg j hj).low
  have hpage : ptePa (pteAt m root (vpn (va + i))) = ptePa (pteAt m root (vpn (va + j))) := by
    unfold physAt pgSize at *
    omega
  have hslot := h i j hi hj hpage
  unfold physAt at heq
  unfold vpn pgSize maxVa at *
  omega

theorem UserTable.read_putBytes (h : UserTable s.mem root) {va : ℕ} {src : List UInt8}
    (hw : Granted s.mem root pteW va src.length)
    (hinj : MappedInjectively s.mem root va src.length) :
    read (viewAt (putBytes (physAt s.mem root) s.mem va src) root) va src.length = src := by
  refine List.ext_getElem (read_length _ _ _) fun i h1 h2 => ?_
  rw [read_getElem]
  have hphys : physAt (putBytes (physAt s.mem root) s.mem va src) root (va + i) =
      physAt s.mem root (va + i) :=
    congrArg (fun w => ptePa w + (va + i) % pgSize) (h.pteAt_putBytes hw (vpn_lt _))
  unfold viewAt
  rw [hphys, putBytes_get (fun i j hi hj => hinj.physAt_inj hw hi hj) h2,
    List.getD_eq_getElem _ _ h2]

/-- The copies between kernel and user memory are what they are byte by byte. -/
theorem copies_bytewise (h : UserTable s.mem root) (va : ℕ) :
    (∀ dst, ∃ r dst', InBuffer.copyin root dst va s = .ok ((r, dst'), s) ∧
      (r = some () ↔ Granted s.mem root pteR va dst.length) ∧
      (r = some () → dst' = read (viewAt s.mem root) va dst.length)) ∧
    (∀ src, ∃ r s', copyout root va src s = .ok (r, s') ∧ s'.head = s.head ∧
      (r = some () ↔ Granted s.mem root pteW va src.length) ∧
      (r = some () → s'.mem = putBytes (physAt s.mem root) s.mem va src) ∧
      (∀ a, (∀ i, i < src.length → Grants s.mem root pteW (va + i) →
        physAt s.mem root (va + i) ≠ a) → s'.mem a = s.mem a) ∧
      (r = some () → Granted s.mem root pteR va src.length →
        MappedInjectively s.mem root va src.length → ∀ dst : List UInt8, dst.length = src.length →
          InBuffer.copyin root dst va s' = .ok ((some (), src), s'))) ∧
    (∀ dst, ∃ r dst', InBuffer.copyinstr root dst va s = .ok ((r, dst'), s) ∧
      (∀ n, r = some n ↔ n < dst.length ∧ CStr (viewAt s.mem root) va n ∧
        Granted s.mem root pteR va (n + 1)) ∧
      (∀ n, r = some n → dst'.take (n + 1) = read (viewAt s.mem root) va (n + 1))) := by
  refine ⟨fun dst => ?_, fun src => ?_, fun dst => ?_⟩
  · obtain ⟨r, k, hrun, hk, hg, hsome, hnone⟩ := InBuffer.copyin_run root va s dst
    refine ⟨r, _, hrun, ⟨fun hr => hsome hr ▸ hg, fun hall => ?_⟩, fun hr => ?_⟩
    · cases r with
      | none => exact absurd (hall k (hnone rfl).1) (hnone rfl).2
      | some _ => rfl
    · rw [hsome hr]
      exact filled_full (read_length _ _ _)
  · obtain ⟨r, k, hrun, hk, hg, hsome, hnone⟩ := copyout_run h va src
    have hlen : (src.take k).length = k := by
      rw [List.length_take]
      omega
    refine ⟨r, _, hrun, rfl, ⟨fun hr => hsome hr ▸ hg, fun hall => ?_⟩, fun hr => ?_, ?_, ?_⟩
    · cases r with
      | none => exact absurd (hall k (hnone rfl).1) (hnone rfl).2
      | some _ => rfl
    · rw [hsome hr, List.take_length]
    · exact fun a ha => putBytes_frame fun i hi => ha i (by omega) (hg i (by omega))
    · intro hr hread hinj dst hdst
      obtain rfl := hsome hr
      rw [List.take_length]
      obtain ⟨r', k', hrun', -, -, hsome', hnone'⟩ := InBuffer.copyin_run root va
        { s with mem := putBytes (physAt s.mem root) s.mem va src } dst
      have hback := h.read_putBytes hg hinj
      cases r' with
      | none =>
        obtain ⟨hlt, hbyte⟩ := hnone' rfl
        refine absurd ((grants_congr ?_).mpr (hread k' (by omega))) hbyte
        exact h.pteAt_putBytes hg (vpn_lt _)
      | some _ =>
        obtain rfl := hsome' rfl
        rw [hrun', filled_full (read_length _ _ _), hdst, hback]
  · obtain ⟨r, k, hrun, hk, hsome, hnone⟩ := InBuffer.copyinstr_run root va s dst
    refine ⟨r, _, hrun, fun n => ⟨fun hr => ?_, fun hstr => ?_⟩, fun n hr => ?_⟩
    · obtain ⟨-, hn⟩ := hsome n hr
      exact ⟨hn.fits, hn.str, hn.granted⟩
    · cases r with
      | none => exact absurd ⟨hstr.1, hstr.2.1, hstr.2.2⟩ (hnone rfl n)
      | some n' => rw [(hsome n' rfl).2.str.unique hstr.2.1]
    · obtain ⟨rfl, -⟩ := hsome n hr
      have hlen : (read (viewAt s.mem root) va (n + 1)).length = n + 1 := read_length _ _ _
      exact List.take_left' hlen

/-- Two bytes go to a stack page and come back. -/
theorem copies_bytewise_stack : ∃ (s : Ram) (root : ℕ) (s' : Ram), UserTable s.mem root ∧
    copyout root userStack [97, 0] s = .ok (some (), s') ∧
    InBuffer.copyin root [0, 0] userStack s' = .ok ((some (), [97, 0]), s') := by
  obtain ⟨s, T, F, tf, ks, pa, hspace, hk, hword, -, -⟩ := exists_stack smallLayout (n := 0) (by decide)
  have hstack := Tree.stack_of_word _ hword
  have htable := hspace.userTable hk
  have hread : Granted s.mem T.root pteR userStack 2 :=
    (hspace.readable_iff.mpr hstack.readable).take (by decide)
  have hwrite : Granted s.mem T.root pteW userStack 2 :=
    (hspace.writable_iff.mpr hstack.writable).take (by decide)
  have hinj : MappedInjectively s.mem T.root userStack 2 := by
    intro i j hi hj _
    rw [vpn_add_of_lt (by unfold userStack maxVa pgSize; omega),
      vpn_add_of_lt (by unfold userStack maxVa pgSize; omega)]
  obtain ⟨-, hout, -⟩ := copies_bytewise htable userStack
  obtain ⟨r, s', hrun, -, hiff, -, -, hback⟩ := hout [97, 0]
  obtain rfl := hiff.mpr hwrite
  exact ⟨s, T.root, s', htable, hrun, hback rfl hread hinj [0, 0] rfl⟩

end Copies

end ToyOs
