import ToyOs.Fs.IcacheOps

/-!
References that are copied and given up, the body of a program that runs
under the guard of an inode, and the allocation of an inode. A body sees the
current version of the inode; what it leaves in the volume and in the inode
is the new current version.
-/
namespace ToyOs.Fs

open Bytes Prog Function

variable {s s' : State} {r r' : InodeRef} {n m k : ℕ} {V V' : Vol} {ip ip' : Inode} {c : Dev}
  {E : Panic → Prop} {α : Type} {Q : α → State → Prop} {typ : ℤ}

theorem wp_idup {Q : InodeRef → State → Prop} (hs : Stable s) (hr : s.refs r = some (n, k))
    (hQ : ∀ s', Quiet s s' → s'.refs = update s.refs r (some (n, k + 1)) → Q r s') :
    wp (idup r) E Q s := by
  obtain ⟨hk, hcnt, hin⟩ := refs_some.mp hr
  have hq := hs.recount hr (Nat.succ_pos k)
  have hunl := hs.unlocked r
  simp only [idup, wp_bind]
  refine wp_icacheAcquire hs.lock (wp_lockSlot hunl ?_)
  rw [wp_assert]
  refine ⟨fun _ => ?_, fun h => absurd h (by simp [hcnt]; omega)⟩
  simp only [modifySlot, unlockSlot, wp_modify, setSlot_icache_same, setSlot_setSlot]
  refine wp_icacheRelease rfl ?_
  simpa [State.setSlot, hcnt, hunl, hs.lock, Slot.unlock_eq] using hQ _ hq.1 hq.2

theorem wp_iput_slot {Q : Unit → State → Prop} (hlock : s.icacheLock = false)
    (hunl : (s.icache r).locked = false) (hcnt : 1 ≤ (s.icache r).refcnt)
    (hQ : Q () (s.setSlot r { s.icache r with refcnt := (s.icache r).refcnt - 1 })) :
    wp (iput r) E Q s := by
  simp only [iput, wp_bind]
  refine wp_icacheAcquire hlock (wp_lockSlot hunl ?_)
  rw [wp_assert]
  refine ⟨fun _ => ?_, fun h => absurd hcnt (by simpa using h)⟩
  simp only [modifySlot, unlockSlot, wp_modify, setSlot_icache_same, setSlot_setSlot]
  refine wp_icacheRelease rfl ?_
  simpa [State.setSlot, hunl, hlock, Slot.unlock_eq] using hQ

theorem wp_iput {Q : Unit → State → Prop} (hs : Stable s) (hr : s.refs r = some (n, k))
    (hQ : ∀ s', Quiet s s' → s'.refs = update s.refs r (dropRef (s.refs r)) → Q () s') :
    wp (iput r) E Q s := by
  obtain ⟨hk, hcnt, -⟩ := refs_some.mp hr
  have hq : Quiet s (s.setSlot r { s.icache r with refcnt := k - 1 }) ∧
      (s.setSlot r { s.icache r with refcnt := k - 1 }).refs =
        update s.refs r (dropRef (s.refs r)) := by
    rw [hr]
    match k, hk with
    | 1, _ => exact hs.vacate hr
    | j + 2, _ => exact hs.recount hr (Nat.succ_pos j)
  refine wp_iput_slot hs.lock (hs.unlocked r) (by omega) ?_
  rw [hcnt]
  exact hQ _ hq.1 hq.2

/-- The state when the guard of a slot is dropped. -/
def State.store (s : State) (r : InodeRef) (c : Dev) (ip : Inode) : State :=
  { s with
    dev := c
    icache := Function.update s.icache r
      { refcnt := (s.icache r).refcnt, valid := true, ip := ip, locked := false } }

/-- The body runs on the current version of the inode. -/
theorem wp_withInode {body : Inode → DevM (α × Inode)} (hs : Stable s) (hr : s.refs r = some (n, k))
    (hbody : ∀ c, Mounted c [] s.vol →
      wp (body (s.node n)) E (fun a c' => Q a.1 (s.store r c' a.2)) c) :
    wp (withInode r body) E Q s := by
  obtain ⟨hk, hcnt, hin⟩ := refs_some.mp hr
  have hn := (hs.live r n k hr).1
  have hnode := hs.node_eq hr
  simp only [withInode, ilock, wp_bind]
  refine wp_lockSlot (hs.unlocked r) ?_
  cases hv : (s.icache r).valid with
  | true =>
    rw [hv, if_pos rfl] at hnode
    rw [hnode] at hbody
    simp only [Bool.not_true, Bool.false_eq_true, if_false, onDev, wp_zoom, wp_pure]
    refine wp_post (hbody _ hs.mounted) fun a c' ha => ?_
    simpa [modifySlot, unlockSlot, State.setSlot, State.store, hv] using ha
  | false =>
    rw [hv, if_neg (by decide)] at hnode
    rw [hnode] at hbody
    simp only [Bool.not_false, if_true, onDev, wp_zoom, wp_bind, hin]
    refine hs.mounted.readDinode hn (by decide) fun c1 h1 => ?_
    simp only [modifySlot, wp_modify, wp_pure]
    refine wp_post (hbody _ h1) fun a c' ha => ?_
    simpa [unlockSlot, State.setSlot, State.store] using ha

section Store

variable (hs : Stable s) (hr : s.refs r = some (n, k)) (hm : Mounted c [] V')
  (hf : Frame s.vol (s.node n) V' ip')
include hr hf

theorem store_refs : (s.store r c ip').refs = s.refs := by
  obtain ⟨hk, hcnt, hin⟩ := refs_some.mp hr
  funext r'
  by_cases h : r' = r
  · subst h
    rw [hr]
    refine refs_some.mpr ⟨hk, ?_, ?_⟩
    · simp [State.store, hcnt]
    · have hinum := hf.inum
      rw [node_inum] at hinum
      simp [State.store, hinum]
  · simp [State.refs, State.store, h]

include hs hm

theorem store_node (m : ℕ) : (s.store r c ip').node m = if m = n then ip' else s.node m := by
  obtain ⟨hk, hcnt, hin⟩ := refs_some.mp hr
  have hinum : ip'.inum = n := hf.inum.trans (node_inum s n)
  have hrefs := store_refs hr (c := c) hf
  have hvol : (s.store r c ip').vol = V' := Mounted.vol_eq (s := s.store r c ip') hm
  have huniq : ∀ r', (s.store r c ip').Holds n r' → r' = r := by
    intro r' h'
    have h' := h'.refs
    rw [hrefs] at h'
    exact hs.uniq r' r n _ _ h' hr
  split
  · rename_i heq
    subst heq
    have hself : (s.store r c ip').icache r =
        { refcnt := (s.icache r).refcnt, valid := true, ip := ip', locked := false } := by
      simp [State.store]
    rw [node_of_holds huniq ⟨?_, ?_, ?_⟩, hself]
    · rw [hself]
      simp only [hcnt, hk]
    · rw [hself]
    · rw [hself]
      exact hinum
  · rename_i hne
    have hslot : ∀ r', r' ≠ r → (s.store r c ip').icache r' = s.icache r' := by
      intro r' h
      simp [State.store, h]
    refine node_congr ?_ hs.holds_uniq (fun r' => ?_) fun r' h' => ?_
    · rw [hvol, hf.inode m (by rwa [node_inum])]
    · by_cases h : r' = r
      · subst h
        simp [State.Holds, State.store, hinum, hin, Ne.symm hne]
      · simp only [State.Holds, hslot r' h]
    · have h : r' ≠ r := by
        rintro rfl
        exact hne (h'.2.2.symm.trans hin)
      rw [hslot r' h]

/-- A body that changes its inode within the frame leaves a stable state. -/
theorem Stable.store (hi : Intact V' ip') (htyp : ip'.typ ≠ 0) :
    Stable (s.store r c ip') ∧ (s.store r c ip').vol = V' ∧
      ∀ m, m < ninodes → (s.store r c ip').file m = if m = n then V'.file ip' else s.file m := by
  have hn := (hs.live r n k hr).1
  have hinum : ip'.inum = n := hf.inum.trans (node_inum s n)
  have hm' : Mounted (s.store r c ip').dev [] V' := hm
  have hnode := fun m (_ : m < ninodes) => store_node hs hr hm hf m
  have hrefs := store_refs hr (c := c) hf
  refine ⟨hs.change hn hs.lock ?_ hm' ?_ ?_ hnode hf hi, hm'.vol_eq,
    hs.change_file hn hm' hnode hf⟩
  · intro r'
    by_cases h : r' = r
    · subst h
      simp [State.store]
    · have := hs.unlocked r'
      simpa [State.store, h] using this
  · rw [hrefs]
    exact hs.uniq
  · intro r' n' k' h'
    rw [hrefs] at h'
    obtain ⟨hn', ht⟩ := hs.live r' n' k' h'
    refine ⟨hn', ?_⟩
    by_cases h : n' = n
    · have hshadow := hi.shadow.typ
      rw [hinum] at hshadow
      rw [h, hshadow]
      exact htyp
    · rw [hf.inode n' (by rwa [node_inum])]
      exact ht

end Store

theorem Stable.typ_ne (hs : Stable s) (hr : s.refs r = some (n, k)) : (s.node n).typ ≠ 0 := by
  obtain ⟨hn, ht⟩ := hs.live r n k hr
  have hshadow := (hs.intact n hn).shadow.typ
  rw [node_inum] at hshadow
  rwa [← hshadow]

theorem wp_peek {f : Inode → DevM α} (hs : Stable s) (hr : s.refs r = some (n, k))
    (hbody : ∀ c, Mounted c [] s.vol → wp (f (s.node n)) E
      (fun a c' => Mounted c' [] s.vol ∧ ∀ s', Quiet s s' → s'.refs = s.refs → Q a s') c) :
    wp (withInode r (peek f)) E Q s := by
  have hn := (hs.live r n k hr).1
  refine wp_withInode hs hr fun c hc => ?_
  simp only [peek, wp_bind, wp_pure]
  refine wp_post (hbody c hc) fun a c' hc' => ?_
  obtain ⟨hm, hQ⟩ := hc'
  have hf := Frame.refl s.vol (s.node n)
  obtain ⟨hst, hvol, hfile⟩ := Stable.store hs hr hm hf (hs.intact n hn) (hs.typ_ne hr)
  refine hQ _ ⟨hst, hvol, fun m hmn => ?_, fun m _ => Or.inl ?_⟩ (store_refs hr hf)
  · rw [hfile m hmn]
    split
    · rename_i heq
      rw [heq]
      rfl
    · rfl
  · rw [store_node hs hr hm hf]
    split
    · rename_i heq
      rw [heq]
    · rfl

/-- A free inode `n` has become an empty one of a type. -/
structure Allocated (s : State) (typ : ℤ) (n : ℕ) (s' : State) : Prop where
  stable : Stable s'
  pos : 1 ≤ n
  lt : n < ninodes
  free : (s.vol.inode n).typ = 0
  vol : s'.vol = s.vol.setInode n (Dinode.fresh typ)
  file : ∀ m, m < ninodes → s'.file m = if m = n then ⟨typ, 0, []⟩ else s.file m
  node : ∀ m, m < ninodes →
    s'.node m = s.node m ∨ s'.node m = Inode.ofDinode m (s'.vol.inode m)
  fresh : s'.node n = Inode.ofDinode n (Dinode.fresh typ)

theorem Allocated.quiet {s'' : State} (h : Allocated s typ n s') (hq : Quiet s' s'') :
    Allocated s typ n s'' :=
  { h with
    stable := hq.stable
    vol := hq.vol.trans h.vol
    file := fun m hm => (hq.file m hm).trans (h.file m hm)
    node := by
      intro m hm
      rw [hq.vol]
      rcases hq.node m hm with heq | heq
      · rw [heq]
        exact h.node m hm
      · exact Or.inr heq
    fresh := by
      rcases hq.node n h.lt with heq | heq
      · rw [heq, h.fresh]
      · rw [heq, h.vol, Vol.setInode]
        simp }

theorem Allocated.coherent (h : Allocated s typ n s') (hc : Coherent s) :
    Coherent s' := by
  intro m hm
  rcases h.node m hm with heq | heq
  · by_cases hmn : m = n
    · subst hmn
      rw [h.fresh, h.vol]
      exact update_self _ _ _
    · rw [heq, h.vol, ← hc m hm]
      exact update_of_ne hmn _ _
  · rw [heq]
    rfl

/-- A fresh `Dinode` owns nothing. -/
theorem addr_fresh (V : Vol) (n : ℕ) (typ : ℤ) (p : ℕ) :
    V.addr (Inode.ofDinode n (Dinode.fresh typ)) p = 0 := addr_slot_zero rfl

theorem intact_fresh (V : Vol) (hn : n < ninodes) (typ : ℤ) :
    Intact (V.setInode n (Dinode.fresh typ)) (Inode.ofDinode n (Dinode.fresh typ)) :=
  Intact.commit (Inode.ofDinode n (Dinode.fresh typ)) hn
    ⟨fun p hp => absurd (addr_fresh V n typ p) hp, fun p _ hp => absurd (addr_fresh V n typ p) hp⟩
    ⟨Nat.zero_le _, fun _ hp => absurd hp (Nat.not_lt_zero _)⟩

theorem Stable.allocate (hs : Stable s) (hpos : 1 ≤ n) (hn : n < ninodes)
    (hfree : (s.vol.inode n).typ = 0) (hm : Mounted c [] (s.vol.setInode n (Dinode.fresh typ))) :
    Allocated s typ n { s with dev := c } := by
  have hno : ∀ r k, s.refs r ≠ some (n, k) := fun r k hr => (hs.live r n k hr).2 hfree
  have hm' : Mounted ({ s with dev := c } : State).dev [] (s.vol.setInode n (Dinode.fresh typ)) := hm
  have hnode : ∀ m, m < ninodes → ({ s with dev := c } : State).node m =
      if m = n then Inode.ofDinode n (Dinode.fresh typ) else s.node m := by
    intro m _
    split
    · rename_i heq
      subst heq
      have hheld : ∀ r, ¬ ({ s with dev := c } : State).Holds m r := fun r h =>
        hno r _ (State.Holds.refs (s := s) h)
      rw [node_of_not_holds hheld, hm'.vol_eq]
      simp [Vol.setInode]
    · rename_i hne
      refine node_congr ?_ hs.holds_uniq (fun _ => Iff.rfl) fun _ _ => rfl
      rw [hm'.vol_eq]
      exact update_of_ne hne _ _
  have hf : Frame s.vol (s.node n) (s.vol.setInode n (Dinode.fresh typ))
      (Inode.ofDinode n (Dinode.fresh typ)) := by
    refine ⟨fun b hb _ => ⟨hb, rfl⟩, fun p hp => absurd (addr_fresh _ n typ p) hp, fun m hmn => ?_,
      (node_inum s n).symm⟩
    rw [node_inum] at hmn
    exact update_of_ne hmn _ _
  refine ⟨hs.change hn hs.lock hs.unlocked hm' hs.uniq ?_ hnode hf (intact_fresh _ hn typ), hpos,
    hn, hfree, hm'.vol_eq, fun m hmn => ?_, fun m hmn => ?_, by rw [hnode n hn, if_pos rfl]⟩
  · intro r' n' k' h'
    obtain ⟨hn', ht⟩ := hs.live r' n' k' h'
    have hne : n' ≠ n := by
      rintro rfl
      exact hno r' k' h'
    refine ⟨hn', ?_⟩
    simpa [Vol.setInode, hne] using ht
  · rw [hs.change_file hn hm' hnode hf m hmn]
    rfl
  · rw [hnode m hmn, hm'.vol_eq]
    split
    · rename_i heq
      subst heq
      right
      simp [Vol.setInode]
    · exact Or.inl rfl

theorem mem_inums : n ∈ inums ↔ 1 ≤ n ∧ n < ninodes := by
  unfold inums ninodes
  simp only [List.mem_range'_1]

/-- `ialloc` commits the first free inode to disk and then asks for a slot. -/
theorem wp_ialloc {Q : Option InodeRef → State → Prop} (hs : Stable s)
    (hfit : -2 ^ 15 ≤ typ ∧ typ < 2 ^ 15) (htyp : typ ≠ 0)
    (hnone : (∀ n, 1 ≤ n → n < ninodes → (s.vol.inode n).typ ≠ 0) →
      ∀ s', Quiet s s' → s'.refs = s.refs → Q none s')
    (hfull : ∀ n s', Allocated s typ n s' → s'.refs = s.refs → (∀ r, s.refs r ≠ none) → Q none s')
    (hQ : ∀ n r s', Allocated s typ n s' → s.refs r = none →
      s'.refs = update s.refs r (some (n, 1)) → Q (some r) s') :
    wp (ialloc typ) E Q s := by
  have hx : (Dinode.fresh typ).Fits := by
    refine ⟨hfit, ?_, ?_, ?_, ?_, fun _ => ?_⟩ <;> simp [Dinode.fresh]
  simp only [ialloc, wp_bind, onDev, wp_zoom]
  refine wp_firstSome (fun rest t => Mounted t [] s.vol ∧
      ∀ n, 1 ≤ n → n < ninodes → n ∉ rest → (s.vol.inode n).typ ≠ 0)
    ⟨hs.mounted, fun n h1 h2 hmem => absurd (mem_inums.mpr ⟨h1, h2⟩) hmem⟩ ?_ ?_
  · rintro t ⟨ht, hall⟩
    have hq : Quiet s { s with dev := t } := hs.same_nodes hs.lock hs.unlocked ht hs.uniq hs.live
      fun n => node_congr (by rw [Mounted.vol_eq (s := { s with dev := t }) ht]) hs.holds_uniq
        (fun _ => Iff.rfl) fun _ _ => rfl
    exact hnone (fun n h1 h2 => hall n h1 h2 List.not_mem_nil) _ hq rfl
  · rintro n rest t hsuf ⟨ht, hall⟩
    obtain ⟨hpos, hn⟩ := mem_inums.mp (hsuf.subset List.mem_cons_self)
    simp only [iallocTry, wp_bind]
    refine ht.readDinode hn (by decide) fun t1 h1 => ?_
    rw [wp_ite]
    refine ⟨fun hfree => ?_, fun hused => ?_⟩
    · simp only [wp_bind]
      refine h1.writeDinode hn hx (by decide) fun t2 h2 => ?_
      have hall := hs.allocate (c := t2) hpos hn hfree h2
      have htyp' : (({ s with dev := t2 } : State).vol.inode n).typ ≠ 0 := by
        rw [hall.vol]
        simpa [Vol.setInode, Dinode.fresh] using htyp
      have hno : ∀ r k, s.refs r ≠ some (n, k) := fun r k hr => (hs.live r n k hr).2 hfree
      refine wp_iget hall.stable hn htyp' (fun hbusy _ => ?_) fun r s' hq hslot hrefs => ?_
      · exact hfull n _ hall rfl hbusy
      · have hslot : s.refs r = none := hslot.resolve_right fun hk => hno r hk.choose hk.choose_spec
        refine hQ n r s' (hall.quiet hq) hslot ?_
        rw [hrefs]
        change update s.refs r (addRef n (s.refs r)) = _
        rw [hslot, addRef]
    · refine ⟨h1, fun m hm1 hm2 hmem => ?_⟩
      by_cases hmn : m = n
      · exact hmn ▸ hused
      · exact hall m hm1 hm2 (by simp [hmn, hmem])

end ToyOs.Fs
