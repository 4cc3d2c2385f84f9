import ToyOs.Fs.Dir

/-!
The inode cache and the operations of the file system on it. A reference to
an inode is the index of its slot. `withInode` is the scope of the guard that
`ilock` returns: the slot is locked, filled from disk when needed, handed to
the body, and stored back and unlocked when the guard is dropped.
-/
namespace ToyOs.Fs

open Bytes

abbrev InodeRef := Fin ninode

/-- A slot of the inode cache. -/
structure Slot where
  refcnt : ℕ
  valid : Bool
  ip : Inode
  locked : Bool

def Inode.empty : Inode where
  inum := 0
  typ := 0
  major := 0
  minor := 0
  nlink := 0
  size := 0
  addrs := fun _ => 0

def Slot.empty : Slot where
  refcnt := 0
  valid := false
  ip := Inode.empty
  locked := false

structure State where
  dev : Dev
  icache : InodeRef → Slot
  icacheLock : Bool

abbrev FsM := Prog Panic State

/-- Run a program of the block layer. -/
def onDev {α : Type} (m : DevM α) : FsM α := Prog.zoom State.dev (fun d s => { s with dev := d }) m

def State.setSlot (s : State) (r : InodeRef) (x : Slot) : State :=
  { s with icache := Function.update s.icache r x }

def icacheAcquire : FsM Unit := do
  let s ← Prog.get
  Prog.assert .acquireHolding (!s.icacheLock)
  Prog.modify fun s => { s with icacheLock := true }

def icacheRelease : FsM Unit := do
  let s ← Prog.get
  Prog.assert .releaseNotHolding s.icacheLock
  Prog.modify fun s => { s with icacheLock := false }

def lockSlot (r : InodeRef) : FsM Slot := do
  let s ← Prog.get
  Prog.assert .deadlock (!(s.icache r).locked)
  Prog.modify fun s => s.setSlot r { s.icache r with locked := true }
  pure (s.icache r)

def unlockSlot (r : InodeRef) : FsM Unit :=
  Prog.modify fun s => s.setSlot r { s.icache r with locked := false }

def modifySlot (r : InodeRef) (f : Slot → Slot) : FsM Unit :=
  Prog.modify fun s => s.setSlot r (f (s.icache r))

def igetCached (inum : ℕ) (r : InodeRef) : FsM (Option InodeRef) := do
  let x ← lockSlot r
  if 0 < x.refcnt ∧ x.ip.inum = inum then
    modifySlot r fun x => { x with refcnt := x.refcnt + 1 }
    unlockSlot r
    pure (some r)
  else
    unlockSlot r
    pure none

def igetFree (inum : ℕ) (r : InodeRef) : FsM (Option InodeRef) := do
  let x ← lockSlot r
  if x.refcnt = 0 then
    modifySlot r fun x => { x with refcnt := 1, valid := false, ip := { x.ip with inum := inum } }
    unlockSlot r
    pure (some r)
  else
    unlockSlot r
    pure none

def iget (inum : ℕ) : FsM (Option InodeRef) := do
  icacheAcquire
  match ← Prog.firstSome (List.finRange ninode) (igetCached inum) with
  | some r =>
    icacheRelease
    pure (some r)
  | none =>
    let r ← Prog.firstSome (List.finRange ninode) (igetFree inum)
    icacheRelease
    pure r

/-- The inode of a slot with the fields of its `Dinode`. -/
def Inode.ofDinode (inum : ℕ) (d : Dinode) : Inode where
  inum := inum
  typ := d.typ
  major := d.major
  minor := d.minor
  nlink := d.nlink
  size := d.size
  addrs := d.addrs

/-- `ilock`: lock the slot and fill it from disk when it is not valid. -/
def ilock [Access] (r : InodeRef) : FsM Inode := do
  let x ← lockSlot r
  if !x.valid then
    let d ← onDev (readDinode x.ip.inum)
    modifySlot r fun x => { x with ip := Inode.ofDinode x.ip.inum d, valid := true }
    pure (Inode.ofDinode x.ip.inum d)
  else
    pure x.ip

/-- The scope of the guard of `ilock`. -/
def withInode [Access] {α : Type} (r : InodeRef) (body : Inode → DevM (α × Inode)) : FsM α := do
  let ip ← ilock r
  let (a, ip) ← onDev (body ip)
  modifySlot r fun x => { x with ip := ip }
  unlockSlot r
  pure a

/-- A body that does not change the inode. -/
def peek {α : Type} (body : Inode → DevM α) : Inode → DevM (α × Inode) := fun ip => do
  let a ← body ip
  pure (a, ip)

def idup (r : InodeRef) : FsM InodeRef := do
  icacheAcquire
  let x ← lockSlot r
  Prog.assert .idupNoRef (1 ≤ x.refcnt)
  modifySlot r fun x => { x with refcnt := x.refcnt + 1 }
  unlockSlot r
  icacheRelease
  pure r

def iput (r : InodeRef) : FsM Unit := do
  icacheAcquire
  let x ← lockSlot r
  Prog.assert .iputNoRef (1 ≤ x.refcnt)
  modifySlot r fun x => { x with refcnt := x.refcnt - 1 }
  unlockSlot r
  icacheRelease

/-- A fresh `Dinode` of a type. -/
def Dinode.fresh (typ : ℤ) : Dinode where
  typ := typ
  major := 0
  minor := 0
  nlink := 0
  size := 0
  addrs := fun _ => 0

/-- Inode numbers that `ialloc` searches. -/
@[irreducible] def inums : List ℕ := List.range' 1 (ninodes - 1)

/-- The search of `ialloc`: the first free inode is written to disk at once. -/
def iallocTry [Access] (typ : ℤ) (inum : ℕ) : DevM (Option ℕ) := do
  let d ← readDinode inum
  if d.typ = 0 then
    writeDinode inum (Dinode.fresh typ)
    pure (some inum)
  else
    pure none

def ialloc [Access] (typ : ℤ) : FsM (Option InodeRef) := do
  match ← onDev (Prog.firstSome inums (iallocTry typ)) with
  | none => pure none
  | some inum => iget inum

def incNlink [Access] (r : InodeRef) : FsM Unit :=
  withInode r fun ip => do
    Prog.assert .incNlinkOverflow (ip.nlink + 1 < 2 ^ 15)
    let ip := { ip with nlink := ip.nlink + 1 }
    iupdate ip
    pure ((), ip)

def linkChild [Access] (dp : InodeRef) (name : List UInt8) (childInum : ℕ) : FsM Bool :=
  withInode dp fun ip => dirlink ip name childInum

def dotName : List UInt8 := [0x2e]

def dotdotName : List UInt8 := [0x2e, 0x2e]

/-- The entries of a new directory; its link count is 1 when both are in. -/
def mkdirInit [Access] (parentInum : ℕ) (ip : Inode) : DevM (Bool × Inode) := do
  match ← dirlink ip dotName ip.inum with
  | (false, ip) => pure (false, ip)
  | (true, ip) =>
    match ← dirlink ip dotdotName parentInum with
    | (false, ip) => pure (false, ip)
    | (true, ip) =>
      let ip := { ip with nlink := 1 }
      iupdate ip
      pure (true, ip)

def mkdirChild [Access] (parent : InodeRef) (name : List UInt8) : FsM (Option InodeRef) := do
  let parentInum ← withInode parent (peek fun dp => pure dp.inum)
  match ← ialloc tDir with
  | none => pure none
  | some r =>
    let (inum, ok) ← withInode r fun ip => do
      let (ok, ip') ← mkdirInit parentInum ip
      pure ((ip.inum, ok), ip')
    if !ok then
      iput r
      pure none
    else if !(← linkChild parent name inum) then
      iput r
      pure none
    else
      incNlink r
      incNlink parent
      pure (some r)

def createFile [Access] (parent : InodeRef) (name data : List UInt8) : FsM (Option InodeRef) := do
  match ← ialloc tFile with
  | none => pure none
  | some r =>
    let (inum, ok) ← withInode r fun ip => do
      let (n, ip') ← writeiInner ip 0 data
      pure ((ip.inum, n == data.length), ip')
    if !ok then
      iput r
      pure none
    else if !(← linkChild parent name inum) then
      iput r
      pure none
    else
      incNlink r
      pure (some r)

def createEmptyFile [Access] (parent : InodeRef) (name : List UInt8) : FsM (Option InodeRef) := do
  match ← ialloc tFile with
  | none => pure none
  | some r =>
    let inum ← withInode r (peek fun ip => pure ip.inum)
    if !(← linkChild parent name inum) then
      iput r
      pure none
    else
      incNlink r
      pure (some r)

end ToyOs.Fs
