import ToyOs.Fs.AccessSim

/-!
The calls of the file system beside the same calls over another access to the
blocks. `FsRelated` adds the inode cache to the relation of the devices; whole
sessions from `init` on then return the same replies and stop at the same
panics.
-/
namespace ToyOs.Fs

open Bytes Prog

/-- A relation between the states of the file system and of its code over
another access. -/
structure FsRelated (E : Panic → Prop) (A : Access) extends Related E A where
  J : State → State → Prop
  blank : J blank blank
  iget : ∀ n, Agree E J (iget n) (iget n)
  idup : ∀ r, Agree E J (idup r) (idup r)
  iput : ∀ r, Agree E J (iput r) (iput r)
  onDev : ∀ {α : Type} {m n : DevM α}, Agree E (R []) m n → Agree E J (onDev m) (onDev n)
  withInode : ∀ {α : Type} (r : InodeRef) {f g : Inode → DevM (α × Inode)},
    (∀ ip, Agree E (R []) (f ip) (g ip)) → Agree E J (@Fs.withInode cached _ r f) (@Fs.withInode A _ r g)

namespace FsRelated

variable {E : Panic → Prop} {A : Access} (X : FsRelated E A)

theorem peek {α : Type} (r : InodeRef) {f g : Inode → DevM α}
    (h : ∀ ip, Agree E (X.R []) (f ip) (g ip)) :
    Agree E X.J (@Fs.withInode cached _ r (Fs.peek f)) (@Fs.withInode A _ r (Fs.peek g)) :=
  X.withInode r fun ip => agree_bind (h ip) fun _ => agree_pure

theorem drop {α : Type} (r : InodeRef) (a : α) :
    Agree E X.J (do Fs.iput r; pure a) (do Fs.iput r; pure a) :=
  agree_bind (X.iput r) fun _ => agree_pure

theorem ialloc (typ : ℤ) : Agree E X.J (@Fs.ialloc cached typ) (@Fs.ialloc A typ) := by
  refine agree_bind (X.onDev (agree_firstSome fun n => X.iallocTry typ n)) fun o => ?_
  cases o with
  | none => exact agree_pure
  | some inum => exact X.iget inum

theorem incNlink (r : InodeRef) : Agree E X.J (@Fs.incNlink cached r) (@Fs.incNlink A r) :=
  X.withInode r fun _ => agree_bind (agree_assert (X.quiet .incNlinkOverflow trivial)) fun _ =>
    agree_bind (X.iupdate _) fun _ => agree_pure

theorem linkChild (dp : InodeRef) (name : List UInt8) (inum : ℕ) :
    Agree E X.J (@Fs.linkChild cached dp name inum) (@Fs.linkChild A dp name inum) :=
  X.withInode dp fun ip => X.dirlink ip name inum

theorem mkdirChild (parent : InodeRef) (name : List UInt8) :
    Agree E X.J (@Fs.mkdirChild cached parent name) (@Fs.mkdirChild A parent name) := by
  refine agree_bind (X.peek parent fun _ => agree_pure) fun parentInum => ?_
  refine agree_bind (X.ialloc tDir) fun o => ?_
  cases o with
  | none => exact agree_pure
  | some r =>
    refine agree_bind (X.withInode r fun ip =>
      agree_bind (X.mkdirInit parentInum ip) fun _ => agree_pure) fun res => ?_
    refine agree_ite (X.drop r none) (agree_bind (X.linkChild _ _ _) fun ok => ?_)
    refine agree_ite (X.drop r none) (agree_bind (X.incNlink r) fun _ => ?_)
    exact agree_bind (X.incNlink parent) fun _ => agree_pure

theorem createFile (parent : InodeRef) (name data : List UInt8) :
    Agree E X.J (@Fs.createFile cached parent name data) (@Fs.createFile A parent name data) := by
  refine agree_bind (X.ialloc tFile) fun o => ?_
  cases o with
  | none => exact agree_pure
  | some r =>
    refine agree_bind (X.withInode r fun ip =>
      agree_bind (X.writeiInner ip 0 data) fun _ => agree_pure) fun res => ?_
    refine agree_ite (X.drop r none) (agree_bind (X.linkChild _ _ _) fun ok => ?_)
    exact agree_ite (X.drop r none) (agree_bind (X.incNlink r) fun _ => agree_pure)

theorem createEmptyFile (parent : InodeRef) (name : List UInt8) :
    Agree E X.J (@Fs.createEmptyFile cached parent name) (@Fs.createEmptyFile A parent name) := by
  refine agree_bind (X.ialloc tFile) fun o => ?_
  cases o with
  | none => exact agree_pure
  | some r =>
    refine agree_bind (X.peek r fun _ => agree_pure) fun inum => ?_
    refine agree_bind (X.linkChild _ _ _) fun ok => ?_
    exact agree_ite (X.drop r none) (agree_bind (X.incNlink r) fun _ => agree_pure)

theorem startRef (cwd : InodeRef) (path : List UInt8) :
    Agree E X.J (Fs.startRef cwd path) (Fs.startRef cwd path) :=
  agree_ite (X.iget rootino) (agree_bind (X.idup cwd) fun _ => agree_pure)

theorem step (r : InodeRef) (name : List UInt8) :
    Agree E X.J (@Fs.step cached r name) (@Fs.step A r name) := by
  refine agree_bind (X.peek r fun ip => agree_ite agree_pure (X.dirlookup ip name)) fun o => ?_
  cases o with
  | none => exact X.drop r none
  | some inum =>
    refine agree_bind (X.iget inum) fun next => ?_
    cases next with
    | none => exact X.drop r none
    | some next => exact X.drop r (some next)

theorem nameiLoop (fuel : ℕ) (r : InodeRef) (rest : List UInt8) :
    Agree E X.J (@Fs.nameiLoop cached fuel r rest) (@Fs.nameiLoop A fuel r rest) := by
  induction fuel generalizing r rest with
  | zero => exact agree_pure
  | succ fuel ih =>
    unfold Fs.nameiLoop
    cases skipelem rest with
    | none => exact agree_pure
    | some p =>
      refine agree_bind (X.step r p.1) fun o => ?_
      cases o with
      | none => exact agree_pure
      | some r' => exact ih r' p.2

theorem namei (cwd : InodeRef) (path : List UInt8) :
    Agree E X.J (@Fs.namei cached cwd path) (@Fs.namei A cwd path) := by
  refine agree_ite agree_pure (agree_bind (X.startRef cwd path) fun o => ?_)
  cases o with
  | none => exact agree_pure
  | some r => exact X.nameiLoop _ r path

theorem nameiparentLoop (fuel : ℕ) (r : InodeRef) (rest : List UInt8) :
    Agree E X.J (@Fs.nameiparentLoop cached fuel r rest) (@Fs.nameiparentLoop A fuel r rest) := by
  induction fuel generalizing r rest with
  | zero => exact X.drop r none
  | succ fuel ih =>
    unfold Fs.nameiparentLoop
    cases skipelem rest with
    | none => exact X.drop r none
    | some p =>
      refine agree_ite agree_pure (agree_bind (X.step r p.1) fun o => ?_)
      cases o with
      | none => exact agree_pure
      | some r' => exact ih r' p.2

theorem nameiparent (cwd : InodeRef) (path : List UInt8) :
    Agree E X.J (@Fs.nameiparent cached cwd path) (@Fs.nameiparent A cwd path) := by
  refine agree_ite agree_pure (agree_bind (X.startRef cwd path) fun o => ?_)
  cases o with
  | none => exact agree_pure
  | some r => exact X.nameiparentLoop _ r path

theorem inodeType (r : InodeRef) : Agree E X.J (@Fs.inodeType cached r) (@Fs.inodeType A r) :=
  X.peek r fun _ => agree_ite agree_pure
    (agree_ite agree_pure (agree_ite agree_pure agree_pure))

theorem create (cwd : InodeRef) (path : List UInt8) :
    Agree E X.J (@Fs.create cached cwd path) (@Fs.create A cwd path) := by
  refine agree_bind (X.nameiparent cwd path) fun o => ?_
  cases o with
  | none => exact agree_pure
  | some p =>
    refine agree_bind (X.peek p.1 fun dp => X.dirlookup dp p.2) fun found => ?_
    cases found with
    | none =>
      refine agree_bind (X.createEmptyFile p.1 p.2) fun r => ?_
      exact X.drop p.1 r
    | some inum =>
      refine agree_bind (X.iput p.1) fun _ => agree_bind (X.iget inum) fun o => ?_
      cases o with
      | none => exact agree_pure
      | some r =>
        exact agree_bind (X.inodeType r) fun _ => agree_ite agree_pure (X.drop r none)

theorem mkdir (cwd : InodeRef) (path : List UInt8) :
    Agree E X.J (@Fs.mkdir cached cwd path) (@Fs.mkdir A cwd path) := by
  refine agree_bind (X.nameiparent cwd path) fun o => ?_
  cases o with
  | none => exact agree_pure
  | some p =>
    refine agree_bind (X.peek p.1 fun dp => X.dirlookup dp p.2) fun found => ?_
    refine agree_ite (X.drop p.1 none) (agree_bind (X.mkdirChild p.1 p.2) fun r => ?_)
    exact X.drop p.1 r

theorem root : Agree E X.J Fs.root Fs.root :=
  agree_bind (X.iget rootino) fun _ => agree_expect (X.quiet _ trivial)

theorem stati (r : InodeRef) : Agree E X.J (@Fs.stati cached r) (@Fs.stati A r) :=
  X.peek r fun _ => agree_pure

theorem readi (r : InodeRef) (off len : ℕ) : Agree E X.J (@Fs.readi cached r off len) (@Fs.readi A r off len) :=
  agree_ite (agree_bind (X.peek r fun ip => X.readiInner ip off len) fun _ => agree_pure) agree_pure

theorem writei (r : InodeRef) (off : ℕ) (src : List UInt8) :
    Agree E X.J (@Fs.writei cached r off src) (@Fs.writei A r off src) :=
  agree_ite (agree_bind (X.withInode r fun ip => X.writeiInner ip off src) fun _ => agree_pure)
    agree_pure

theorem appendi (r : InodeRef) (src : List UInt8) :
    Agree E X.J (@Fs.appendi cached r src) (@Fs.appendi A r src) :=
  X.withInode r fun ip => agree_bind (X.writeiInner ip ip.size src) fun _ => agree_pure

theorem trunc (r : InodeRef) : Agree E X.J (@Fs.trunc cached r) (@Fs.trunc A r) :=
  X.withInode r fun ip => agree_bind (X.itrunc ip) fun _ => agree_pure

theorem initRoot : Agree E X.J (@Fs.initRoot cached) (@Fs.initRoot A) :=
  agree_bind (X.onDev (X.writeDinode _ _)) fun _ => X.iget rootino

theorem installFile (dir : InodeRef) (name data : List UInt8) :
    Agree E X.J (@Fs.installFile cached dir name data) (@Fs.installFile A dir name data) :=
  agree_bind (X.createFile dir name data) fun _ =>
    agree_bind (agree_expect (X.quiet _ trivial)) fun r => X.iput r

theorem populateRoot (e : Embedded) : Agree E X.J (@Fs.populateRoot cached e) (@Fs.populateRoot A e) := by
  refine agree_bind (X.onDev X.writeSuperblock) fun _ => agree_bind X.initRoot fun o => ?_
  refine agree_bind (agree_expect (X.quiet _ trivial)) fun root => ?_
  refine agree_bind (X.withInode root fun ip => X.rootLinks ip) fun _ => ?_
  refine agree_bind (X.mkdirChild root binName) fun o => ?_
  refine agree_bind (agree_expect (X.quiet _ trivial)) fun bin => ?_
  refine agree_bind (agree_forEach fun name => X.installFile bin name _) fun _ => ?_
  refine agree_bind (X.installFile root _ _) fun _ => agree_bind (X.iput bin) fun _ => ?_
  exact X.iput root

theorem run (op : Op) : Agree E X.J (@Fs.Op.run cached op) (@Fs.Op.run A op) := by
  cases op with
  | namei cwd path => exact agree_bind (X.namei cwd path) fun _ => agree_pure
  | create cwd path => exact agree_bind (X.create cwd path) fun _ => agree_pure
  | mkdir cwd path => exact agree_bind (X.mkdir cwd path) fun _ => agree_pure
  | root => exact agree_bind X.root fun _ => agree_pure
  | idup r => exact agree_bind (X.idup r) fun _ => agree_pure
  | iput r => exact agree_bind (X.iput r) fun _ => agree_pure
  | inodeType r => exact agree_bind (X.inodeType r) fun _ => agree_pure
  | stati r => exact agree_bind (X.stati r) fun _ => agree_pure
  | readi r off len => exact agree_bind (X.readi r off len) fun _ => agree_pure
  | writei r off src => exact agree_bind (X.writei r off src) fun _ => agree_pure
  | appendi r src => exact agree_bind (X.appendi r src) fun _ => agree_pure
  | trunc r => exact agree_bind (X.trunc r) fun _ => agree_pure

theorem calls (ops : List Op) : Agree E X.J (@Fs.calls cached ops) (@Fs.calls A ops) := by
  induction ops with
  | nil => exact agree_pure
  | cons op rest ih => exact agree_bind (X.run op) fun _ => agree_bind ih fun _ => agree_pure

/-- `init` starts both sides afresh, whatever there was before. -/
theorem init (e : Embedded) (s t : State) :
    SimIn E (@Fs.init cached e) (@Fs.init A e) (fun _ _ s' t' => X.J s' t') s t :=
  simIn_post (X.populateRoot e Fs.blank Fs.blank X.blank) fun _ _ _ _ h => h.2

theorem session (e : Embedded) (ops : List Op) (s t : State) :
    SimIn E (@Fs.session cached e ops) (@Fs.session A e ops) (fun a b s' t' => a = b ∧ X.J s' t') s t :=
  simIn_bind (simIn_post (X.init e s t) fun _ _ s' t' hJ => X.calls ops s' t' hJ)

end FsRelated

end ToyOs.Fs
