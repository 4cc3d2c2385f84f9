import ToyOs.Fs.State

/-!
Path resolution, creation of files and directories, and the functions that
the rest of the kernel calls. The files that `populate_root` embeds into the
image are parameters: they are built outside the kernel.
-/
namespace ToyOs.Fs

open Bytes

def slash : UInt8 := 0x2f

/-- The first component of a path and what follows it. -/
def skipelem (path : List UInt8) : Option (List UInt8 × List UInt8) :=
  match path.dropWhile (· == slash) with
  | [] => none
  | b :: bs => some ((b :: bs).takeWhile (· != slash), (b :: bs).dropWhile (· != slash))

/-- Where resolution starts: the root for an absolute path, else `cwd`. -/
def startRef (cwd : InodeRef) (path : List UInt8) : FsM (Option InodeRef) :=
  if path.head? = some slash then
    iget rootino
  else do
    let r ← idup cwd
    pure (some r)

/-- One component: look the name up and move the reference on. -/
def step [Access] (r : InodeRef) (name : List UInt8) : FsM (Option InodeRef) := do
  let inum ← withInode r (peek fun ip => if ip.typ ≠ tDir then pure none else dirlookup ip name)
  match inum with
  | none =>
    iput r
    pure none
  | some inum =>
    match ← iget inum with
    | none =>
      iput r
      pure none
    | some next =>
      iput r
      pure (some next)

/-- The loop of `namei`; every round consumes a component. -/
def nameiLoop [Access] : ℕ → InodeRef → List UInt8 → FsM (Option InodeRef)
  | 0, r, _ => pure (some r)
  | fuel + 1, r, rest =>
    match skipelem rest with
    | none => pure (some r)
    | some (name, next) => do
      match ← step r name with
      | none => pure none
      | some r => nameiLoop fuel r next

def namei [Access] (cwd : InodeRef) (path : List UInt8) : FsM (Option InodeRef) :=
  if path = [] then
    pure none
  else do
    match ← startRef cwd path with
    | none => pure none
    | some r => nameiLoop (path.length + 1) r path

/-- The loop of `nameiparent`: it stops before the last component. -/
def nameiparentLoop [Access] : ℕ → InodeRef → List UInt8 → FsM (Option (InodeRef × List UInt8))
  | 0, r, _ => do
    iput r
    pure none
  | fuel + 1, r, rest =>
    match skipelem rest with
    | none => do
      iput r
      pure none
    | some (name, next) =>
      if (skipelem next).isNone then
        pure (some (r, name))
      else do
        match ← step r name with
        | none => pure none
        | some r => nameiparentLoop fuel r next

def nameiparent [Access] (cwd : InodeRef) (path : List UInt8) : FsM (Option (InodeRef × List UInt8)) :=
  if path = [] then
    pure none
  else do
    match ← startRef cwd path with
    | none => pure none
    | some r => nameiparentLoop (path.length + 1) r path

inductive InodeType
  | file
  | dir
  | device (major : ℕ)
  deriving DecidableEq, Repr

def inodeType [Access] (r : InodeRef) : FsM InodeType :=
  withInode r (peek fun ip =>
    if ip.typ = tFile then pure .file
    else if ip.typ = tDir then pure .dir
    else if ip.typ = tDevice then pure (.device (w16 ip.major))
    else pure .file)

def create [Access] (cwd : InodeRef) (path : List UInt8) : FsM (Option InodeRef) := do
  match ← nameiparent cwd path with
  | none => pure none
  | some (parent, name) =>
    match ← withInode parent (peek fun dp => dirlookup dp name) with
    | some inum =>
      iput parent
      match ← iget inum with
      | none => pure none
      | some r =>
        if (← inodeType r) = .file then
          pure (some r)
        else
          iput r
          pure none
    | none =>
      let r ← createEmptyFile parent name
      iput parent
      pure r

def mkdir [Access] (cwd : InodeRef) (path : List UInt8) : FsM (Option InodeRef) := do
  match ← nameiparent cwd path with
  | none => pure none
  | some (parent, name) =>
    if (← withInode parent (peek fun dp => dirlookup dp name)).isSome then
      iput parent
      pure none
    else
      let r ← mkdirChild parent name
      iput parent
      pure r

def rootPlaceholder : InodeRef := ⟨0, by decide⟩

def root : FsM InodeRef := do Prog.expect .noRoot (← iget rootino)

structure Stat where
  typ : ℤ
  ino : ℕ
  nlink : ℤ
  size : ℕ
  deriving DecidableEq, Repr

def stati [Access] (r : InodeRef) : FsM Stat :=
  withInode r (peek fun ip =>
    pure { typ := ip.typ, ino := ip.inum, nlink := ip.nlink, size := ip.size })

/-- `readi`: the bytes read; `none` stands for the result -1. -/
def readi [Access] (r : InodeRef) (off len : ℕ) : FsM (Option (List UInt8)) :=
  if off < 2 ^ 32 then do
    let bytes ← withInode r (peek fun ip => readiInner ip off len)
    pure (some bytes)
  else
    pure none

/-- `writei`: the number of bytes written; `none` stands for the result -1. -/
def writei [Access] (r : InodeRef) (off : ℕ) (src : List UInt8) : FsM (Option ℕ) :=
  if off < 2 ^ 32 then do
    let n ← withInode r fun ip => writeiInner ip off src
    pure (some n)
  else
    pure none

/-- `appendi`: the number of bytes written and the new offset. -/
def appendi [Access] (r : InodeRef) (src : List UInt8) : FsM (ℕ × ℕ) :=
  withInode r fun ip => do
    let (n, ip') ← writeiInner ip ip.size src
    pure ((n, if 0 < n then ip.size + n else ip.size), ip')

def trunc [Access] (r : InodeRef) : FsM Unit :=
  withInode r fun ip => do
    let ip ← itrunc ip
    pure ((), ip)

/-- The 32 bytes of the superblock. -/
def superblock : List UInt8 :=
  [0x10203040, fssize, fssize - datastart, ninodes, 0, inodestart, inodestart, bmapstart].flatMap
    fun v => (List.range 4).map (byteAt v)

def writeSuperblock [Access] : DevM Unit := do
  let bp ← Prog.expect .bread (← Access.bread 1)
  Access.writeBuf bp fun data => write data 0 superblock
  Access.brelse bp

def initRoot [Access] : FsM (Option InodeRef) := do
  onDev (writeDinode rootino (Dinode.fresh tDir))
  iget rootino

/-- The entries `.` and `..` of the root. -/
def rootLinks [Access] (ip : Inode) : DevM (Unit × Inode) := do
  let (ok, ip) ← dirlink ip dotName rootino
  let ip := if ok then { ip with nlink := ip.nlink + 1 } else ip
  let (ok, ip) ← dirlink ip dotdotName rootino
  let ip := if ok then { ip with nlink := ip.nlink + 1 } else ip
  iupdate ip
  pure ((), ip)

/-- What the build embeds into the kernel: the programs by name and `README.md`. -/
structure Embedded where
  program : List UInt8 → List UInt8
  readme : List UInt8

def binName : List UInt8 := [0x62, 0x69, 0x6e]

def readmeName : List UInt8 := [0x52, 0x45, 0x41, 0x44, 0x4d, 0x45, 0x2e, 0x6d, 0x64]

/-- The programs of `/bin`, in the order of `populate_root`. -/
def programNames : List (List UInt8) :=
  [[0x73, 0x68],
   [0x63, 0x61, 0x74],
   [0x6c, 0x73],
   [0x61, 0x6c, 0x6c, 0x6f, 0x63, 0x5f, 0x74, 0x65, 0x73, 0x74],
   [0x77, 0x72, 0x69, 0x74, 0x65, 0x5f, 0x74, 0x65, 0x73, 0x74],
   [0x64, 0x75, 0x70, 0x5f, 0x74, 0x65, 0x73, 0x74],
   [0x70, 0x69, 0x70, 0x65, 0x5f, 0x74, 0x65, 0x73, 0x74],
   [0x77, 0x63],
   [0x6d, 0x6b, 0x64, 0x69, 0x72],
   [0x65, 0x63, 0x68, 0x6f],
   [0x63, 0x6c, 0x65, 0x61, 0x72]]

/-- Create a file of the image and drop the reference to it. -/
def installFile [Access] (dir : InodeRef) (name data : List UInt8) : FsM Unit := do
  let r ← Prog.expect .populateRoot (← createFile dir name data)
  iput r

def populateRoot [Access] (embedded : Embedded) : FsM Unit := do
  onDev writeSuperblock
  let root ← Prog.expect .populateRoot (← initRoot)
  withInode root rootLinks
  let bin ← Prog.expect .populateRoot (← mkdirChild root binName)
  Prog.forEach programNames fun name => installFile bin name (embedded.program name)
  installFile root readmeName embedded.readme
  iput bin
  iput root

/-- The zeroed disk and the empty caches at the start of `init`. -/
def blank : State where
  dev := { disk := fun _ _ => 0, bcache := fun _ => Buffer.empty, bcacheLock := false }
  icache := fun _ => Slot.empty
  icacheLock := false

def init [Access] (embedded : Embedded) : FsM Unit := do
  Prog.modify fun _ => blank
  populateRoot embedded

end ToyOs.Fs
