import ToyOs.Fs.Access
import ToyOs.Lib.Sim

/-!
The file system beside the same code over another access to the blocks. A
relation of the two devices that the operations on buffers keep is kept by
every function. The relation carries the buffers that are held on both sides;
at most two are held at a time, the indirect block of an inode and one more.
-/
namespace ToyOs.Fs

open Bytes Prog List Nat

/-- A relation between the device of the file system and that of another
access, with the pairs of buffers that are held. -/
structure Related (E : Panic → Prop) (A : Access) where
  R : List (Fin nbuf × A.β) → Dev → Dev → Prop
  quiet : ∀ e, e.Benign → E e
  bread : ∀ {H} n {s t}, H.length < 2 → R H s t →
    SimIn E (bread n) (A.bread n) (fun a b s' t' => (a = none ∧ b = none ∧ R H s' t') ∨
      ∃ x y, a = some x ∧ b = some y ∧ R ((x, y) :: H) s' t') s t
  readBuf : ∀ {H x y}, (x, y) ∈ H → Agree E (R H) (readBuf x) (A.readBuf y)
  writeBuf : ∀ {H x y} f, (x, y) ∈ H → Agree E (R H) (writeBuf x f) (A.writeBuf y f)
  bitmapTake : ∀ {H x y} n, (x, y) ∈ H → Agree E (R H) (bitmapTake x n) (A.bitmapTake y n)
  bitmapDrop : ∀ {H x y} n, (x, y) ∈ H → Agree E (R H) (bitmapDrop x n) (A.bitmapDrop y n)
  brelse : ∀ {H x y s t}, R ((x, y) :: H) s t →
    SimIn E (brelse x) (A.brelse y) (fun _ _ s' t' => R H s' t') s t

namespace Related

variable {E : Panic → Prop} {A : Access} (X : Related E A) {H : List (Fin nbuf × A.β)}

/-- Read a block and go on with the buffer; it is given back before the end. -/
theorem held {α : Type} {n : ℕ} {f : Fin nbuf → DevM α} {g : A.β → DevM α} (hH : H.length < 2)
    (hfg : ∀ x y s t, X.R ((x, y) :: H) s t →
      SimIn E (f x) (g y) (fun a b s' t' => a = b ∧ X.R H s' t') s t) :
    Agree E (X.R H) (do f (← Prog.expect .bread (← Fs.bread n)))
      (do g (← Prog.expect .bread (← A.bread n))) := by
  intro s t hR
  refine simIn_bind (simIn_post (X.bread n hH hR) ?_)
  rintro a b s' t' (⟨rfl, rfl, -⟩ | ⟨x, y, rfl, rfl, hR'⟩)
  · exact simIn_panic (X.quiet _ trivial)
  · exact hfg x y s' t' hR'

theorem release {α β : Type} {x : Fin nbuf} {y : A.β} {s t : Dev} {m : DevM α} {n : DevM β}
    {S : α → β → Dev → Dev → Prop} (h : X.R ((x, y) :: H) s t)
    (hmn : ∀ s' t', X.R H s' t' → SimIn E m n S s' t') :
    SimIn E (do Fs.brelse x; m) (do A.brelse y; n) S s t :=
  simIn_bind (simIn_post (X.brelse h) fun _ _ s' t' hR => hmn s' t' hR)

theorem readBlock {α : Type} {n : ℕ} {f g : Block → DevM α} (hH : H.length < 2)
    (hfg : ∀ data, Agree E (X.R H) (f data) (g data)) :
    Agree E (X.R H)
      (do
        let bp ← Prog.expect .bread (← Fs.bread n)
        let data ← Fs.readBuf bp
        Fs.brelse bp
        f data)
      (do
        let bp ← Prog.expect .bread (← A.bread n)
        let data ← A.readBuf bp
        A.brelse bp
        g data) := by
  refine X.held hH fun x y s t hR => ?_
  refine agree_seq (X.readBuf mem_cons_self) hR fun data s' t' hR' => ?_
  exact X.release hR' fun s'' t'' hR'' => hfg data s'' t'' hR''

theorem updateBlock {α : Type} {n : ℕ} {f : Block → Block} {m m' : DevM α} (hH : H.length < 2)
    (hm : Agree E (X.R H) m m') :
    Agree E (X.R H)
      (do
        let bp ← Prog.expect .bread (← Fs.bread n)
        Fs.writeBuf bp f
        Fs.brelse bp
        m)
      (do
        let bp ← Prog.expect .bread (← A.bread n)
        A.writeBuf bp f
        A.brelse bp
        m') := by
  refine X.held hH fun x y s t hR => ?_
  refine agree_seq (X.writeBuf f mem_cons_self) hR fun _ s' t' hR' => ?_
  exact X.release hR' fun s'' t'' hR'' => hm s'' t'' hR''

theorem replaceBlock {n : ℕ} {f : Block → Block} (hH : H.length < 2) :
    Agree E (X.R H)
      (do
        let bp ← Prog.expect .bread (← Fs.bread n)
        Fs.writeBuf bp f
        Fs.brelse bp)
      (do
        let bp ← Prog.expect .bread (← A.bread n)
        A.writeBuf bp f
        A.brelse bp) := by
  refine X.held hH fun x y s t hR => ?_
  refine agree_seq (X.writeBuf f mem_cons_self) hR fun _ s' t' hR' => ?_
  exact simIn_post (X.brelse hR') fun _ _ s'' t'' hR'' => ⟨rfl, hR''⟩

theorem readDinode (n : ℕ) : Agree E (X.R []) (@Fs.readDinode cached n) (@Fs.readDinode A n) :=
  X.readBlock zero_lt_two fun _ => agree_pure

theorem writeDinode (n : ℕ) (x : Dinode) :
    Agree E (X.R []) (@Fs.writeDinode cached n x) (@Fs.writeDinode A n x) := X.replaceBlock zero_lt_two

theorem ballocTry (hH : H.length < 2) (n : ℕ) :
    Agree E (X.R H) (@Fs.ballocTry cached n) (@Fs.ballocTry A n) := by
  refine X.held hH fun x y s t hR => ?_
  refine agree_seq (X.bitmapTake n mem_cons_self) hR fun found s' t' hR' => ?_
  refine X.release hR' fun s'' t'' hR'' => ?_
  cases found with
  | false => exact agree_pure s'' t'' hR''
  | true => exact X.updateBlock hH agree_pure s'' t'' hR''

theorem balloc (hH : H.length < 2) : Agree E (X.R H) (@Fs.balloc cached) (@Fs.balloc A) :=
  agree_firstSome fun n => X.ballocTry hH n

theorem bfree (hH : H.length < 2) (n : ℕ) : Agree E (X.R H) (@Fs.bfree cached n) (@Fs.bfree A n) := by
  refine agree_bind (agree_assert (X.quiet _ trivial)) fun _ => ?_
  refine X.held hH fun x y s t hR => ?_
  refine agree_seq (X.bitmapDrop n mem_cons_self) hR fun _ s' t' hR' => ?_
  exact simIn_post (X.brelse hR') fun _ _ s'' t'' hR'' => ⟨rfl, hR''⟩

theorem bmapLookup (ip : Inode) (bn : ℕ) :
    Agree E (X.R []) (@Fs.bmapLookup cached ip bn) (@Fs.bmapLookup A ip bn) := by
  unfold Fs.bmapLookup
  split
  · exact agree_pure
  · refine agree_ite (agree_ite agree_pure ?_) agree_pure
    exact X.readBlock zero_lt_two fun _ => agree_pure

theorem indirectAlloc (n bn : ℕ) :
    Agree E (X.R []) (@Fs.indirectAlloc cached n bn) (@Fs.indirectAlloc A n bn) := by
  refine X.held zero_lt_two fun x y s t hR => ?_
  refine agree_seq (X.readBuf mem_cons_self) hR fun data s' t' hR' => ?_
  refine simIn_ite (fun _ => ?_) fun _ => ?_
  · refine agree_seq (X.balloc (by simp)) hR' fun o u v hR'' => ?_
    cases o with
    | none => exact X.release hR'' fun u' v' h => agree_pure u' v' h
    | some addr =>
      refine agree_seq (X.writeBuf _ mem_cons_self) hR'' fun _ u' v' h => ?_
      exact X.release h fun u'' v'' h' => agree_pure u'' v'' h'
  · exact X.release hR' fun u v h => agree_pure u v h

theorem bmapAlloc (ip : Inode) (bn : ℕ) :
    Agree E (X.R []) (@Fs.bmapAlloc cached ip bn) (@Fs.bmapAlloc A ip bn) := by
  unfold Fs.bmapAlloc
  split
  · refine agree_ite (agree_bind (X.balloc zero_lt_two) fun o => ?_) agree_pure
    cases o with
    | none => exact agree_pure
    | some b => exact agree_pure
  · refine agree_ite (agree_ite (agree_bind (X.balloc zero_lt_two) fun o => ?_) ?_) agree_pure
    · cases o with
      | none => exact agree_pure
      | some b => exact agree_bind (X.indirectAlloc _ _) fun _ => agree_pure
    · exact agree_bind (X.indirectAlloc _ _) fun _ => agree_pure

theorem iupdate (ip : Inode) : Agree E (X.R []) (@Fs.iupdate cached ip) (@Fs.iupdate A ip) :=
  X.writeDinode ip.inum ip.toDinode

theorem itruncDirect (l : List (Fin (ndirect + 1))) (ip : Inode) :
    Agree E (X.R []) (@Fs.itruncDirect cached l ip) (@Fs.itruncDirect A l ip) := by
  induction l generalizing ip with
  | nil => exact agree_pure
  | cons k rest ih => exact agree_ite (agree_bind (X.bfree (by simp) _) fun _ => ih _) (ih ip)

theorem itruncIndirect (n : ℕ) :
    Agree E (X.R []) (@Fs.itruncIndirect cached n) (@Fs.itruncIndirect A n) := by
  refine X.held zero_lt_two fun x y s t hR => ?_
  have hround : ∀ i, Agree E (X.R [(x, y)])
      (do
        let data ← Fs.readBuf x
        if load 4 data (i * 4) ≠ 0 then @Fs.bfree cached (load 4 data (i * 4)))
      (do
        let data ← A.readBuf y
        if load 4 data (i * 4) ≠ 0 then @Fs.bfree A (load 4 data (i * 4))) := fun i =>
    agree_bind (X.readBuf mem_cons_self) fun data =>
      agree_ite (X.bfree (by simp) _) agree_pure
  refine agree_seq (agree_forEach hround) hR fun _ s' t' hR' => ?_
  exact X.release hR' fun u v h => X.bfree (by simp) n u v h

theorem itrunc (ip : Inode) : Agree E (X.R []) (@Fs.itrunc cached ip) (@Fs.itrunc A ip) := by
  refine agree_bind (X.itruncDirect _ _) fun ip' => agree_ite ?_ ?_
  · refine agree_bind (X.itruncIndirect _) fun _ => ?_
    exact agree_bind (X.iupdate _) fun _ => agree_pure
  · exact agree_bind (X.iupdate _) fun _ => agree_pure

theorem readiLoop (ip : Inode) (off n fuel : ℕ) (got : List UInt8) :
    Agree E (X.R []) (@Fs.readiLoop cached ip off n fuel got) (@Fs.readiLoop A ip off n fuel got) := by
  induction fuel generalizing got with
  | zero => exact agree_pure
  | succ fuel ih =>
    refine agree_ite (agree_bind (X.bmapLookup _ _) fun o => ?_) agree_pure
    refine agree_bind (agree_expect (X.quiet _ trivial)) fun blockno => ?_
    exact X.readBlock zero_lt_two fun _ => ih _

theorem readiInner (ip : Inode) (off len : ℕ) :
    Agree E (X.R []) (@Fs.readiInner cached ip off len) (@Fs.readiInner A ip off len) :=
  agree_ite agree_pure (X.readiLoop _ _ _ _ _)

theorem putChunk (ip : Inode) (cur : ℕ) (bytes : List UInt8) :
    Agree E (X.R []) (@Fs.putChunk cached ip cur bytes) (@Fs.putChunk A ip cur bytes) := by
  refine agree_bind (X.bmapAlloc _ _) fun o => ?_
  obtain ⟨o, ip'⟩ := o
  cases o with
  | none => exact agree_pure
  | some blockno => exact X.updateBlock zero_lt_two agree_pure

theorem zeroFillLoop (start len fuel total : ℕ) (ip : Inode) :
    Agree E (X.R []) (@Fs.zeroFillLoop cached start len fuel total ip)
      (@Fs.zeroFillLoop A start len fuel total ip) := by
  induction fuel generalizing total ip with
  | zero => exact agree_pure
  | succ fuel ih =>
    refine agree_ite (agree_bind (X.putChunk _ _ _) fun o => ?_) agree_pure
    obtain ⟨ok, ip'⟩ := o
    cases ok with
    | false => exact agree_pure
    | true => exact ih _ ip'

theorem zeroFill (ip : Inode) (start stop : ℕ) :
    Agree E (X.R []) (@Fs.zeroFill cached ip start stop) (@Fs.zeroFill A ip start stop) :=
  agree_ite agree_pure (X.zeroFillLoop _ _ _ _ _)

theorem writeiLoop (off : ℕ) (src : List UInt8) (fuel total : ℕ) (ip : Inode) :
    Agree E (X.R []) (@Fs.writeiLoop cached off src fuel total ip) (@Fs.writeiLoop A off src fuel total ip) := by
  induction fuel generalizing total ip with
  | zero => exact agree_pure
  | succ fuel ih =>
    refine agree_ite (agree_bind (X.putChunk _ _ _) fun o => ?_) agree_pure
    obtain ⟨ok, ip'⟩ := o
    cases ok with
    | false => exact agree_pure
    | true => exact ih _ ip'

theorem writeiFinish (off total : ℕ) (changed : Bool) (ip : Inode) :
    Agree E (X.R []) (@Fs.writeiFinish cached off total changed ip)
      (@Fs.writeiFinish A off total changed ip) := by
  unfold Fs.writeiFinish
  exact agree_ite (agree_bind (X.iupdate _) fun _ => agree_pure) agree_pure

theorem writeiInner (ip : Inode) (off : ℕ) (src : List UInt8) :
    Agree E (X.R []) (@Fs.writeiInner cached ip off src) (@Fs.writeiInner A ip off src) := by
  unfold Fs.writeiInner
  refine agree_ite agree_pure ?_
  cases checkedAdd off src.length with
  | none => exact agree_pure
  | some stop =>
    refine agree_ite agree_pure (agree_ite (agree_bind (X.zeroFill _ _ _) fun o => ?_) ?_)
    · obtain ⟨ok, ip'⟩ := o
      cases ok with
      | false => exact agree_pure
      | true => exact agree_bind (X.writeiLoop _ _ _ _ _) fun _ => X.writeiFinish _ _ _ _
    · exact agree_bind (X.writeiLoop _ _ _ _ _) fun _ => X.writeiFinish _ _ _ _

theorem readDirent (dp : Inode) (off : ℕ) :
    Agree E (X.R []) (@Fs.readDirent cached dp off) (@Fs.readDirent A dp off) :=
  agree_bind (X.readiInner _ _ _) fun _ => agree_ite agree_pure agree_pure

theorem writeDirent (dp : Inode) (off : ℕ) (de : Dirent) :
    Agree E (X.R []) (@Fs.writeDirent cached dp off de) (@Fs.writeDirent A dp off de) :=
  agree_bind (X.writeiInner _ _ _) fun _ => agree_pure

theorem nextDirent (off : ℕ) : Agree E (X.R []) (Fs.nextDirent off) (Fs.nextDirent off) :=
  agree_ite agree_pure (agree_panic (X.quiet _ trivial))

theorem dirlookupLoop (dp : Inode) (name : List UInt8) (n off : ℕ) :
    Agree E (X.R []) (@Fs.dirlookupLoop cached dp name n off) (@Fs.dirlookupLoop A dp name n off) := by
  induction n generalizing off with
  | zero => exact agree_pure
  | succ n ih =>
    refine agree_bind (X.readDirent _ _) fun o => ?_
    cases o with
    | none => exact agree_pure
    | some de => exact agree_ite agree_pure (agree_bind (X.nextDirent _) fun off => ih off)

theorem dirlookup (dp : Inode) (name : List UInt8) :
    Agree E (X.R []) (@Fs.dirlookup cached dp name) (@Fs.dirlookup A dp name) :=
  agree_ite agree_pure (X.dirlookupLoop _ _ _ _)

theorem freeDirentLoop (dp : Inode) (n off : ℕ) :
    Agree E (X.R []) (@Fs.freeDirentLoop cached dp n off) (@Fs.freeDirentLoop A dp n off) := by
  induction n generalizing off with
  | zero => exact agree_pure
  | succ n ih =>
    refine agree_bind (X.readDirent _ _) fun o => ?_
    cases o with
    | none => exact agree_pure
    | some de => exact agree_ite agree_pure (agree_bind (X.nextDirent _) fun off => ih off)

theorem dirlink (dp : Inode) (name : List UInt8) (inum : ℕ) :
    Agree E (X.R []) (@Fs.dirlink cached dp name inum) (@Fs.dirlink A dp name inum) := by
  refine agree_ite agree_pure (agree_bind (X.dirlookup _ _) fun o => agree_ite agree_pure ?_)
  refine agree_bind (X.freeDirentLoop _ _ _) fun free => ?_
  cases free with
  | none => exact agree_pure
  | some off => exact X.writeDirent _ _ _

theorem mkdirInit (parentInum : ℕ) (ip : Inode) :
    Agree E (X.R []) (@Fs.mkdirInit cached parentInum ip) (@Fs.mkdirInit A parentInum ip) := by
  refine agree_bind (X.dirlink _ _ _) fun o => ?_
  obtain ⟨ok, ip1⟩ := o
  cases ok with
  | false => exact agree_pure
  | true =>
    refine agree_bind (X.dirlink _ _ _) fun o => ?_
    obtain ⟨ok, ip2⟩ := o
    cases ok with
    | false => exact agree_pure
    | true => exact agree_bind (X.iupdate _) fun _ => agree_pure

theorem iallocTry (typ : ℤ) (inum : ℕ) :
    Agree E (X.R []) (@Fs.iallocTry cached typ inum) (@Fs.iallocTry A typ inum) :=
  agree_bind (X.readDinode _) fun _ =>
    agree_ite (agree_bind (X.writeDinode _ _) fun _ => agree_pure) agree_pure

theorem writeSuperblock : Agree E (X.R []) (@Fs.writeSuperblock cached) (@Fs.writeSuperblock A) :=
  X.replaceBlock zero_lt_two

theorem rootLinks (ip : Inode) : Agree E (X.R []) (@Fs.rootLinks cached ip) (@Fs.rootLinks A ip) := by
  refine agree_bind (X.dirlink _ _ _) fun o => ?_
  refine agree_bind (X.dirlink _ _ _) fun o' => ?_
  exact agree_bind (X.iupdate _) fun _ => agree_pure

end Related

end ToyOs.Fs
