import ToyOs.Memlayout
import Mathlib.Data.Fintype.Basic
import Mathlib.Data.Fin.Basic

/-!
The block layer of `fs.rs`: the disk in memory, the buffer cache, the inode
table on disk and the block bitmap. A buffer is addressed by its slot. The
guard of a buffer is taken and dropped explicitly; locking a locked buffer
never returns in the kernel and is a `deadlock` here.
-/
namespace ToyOs.Fs

open Bytes

def bsize : ℕ := 1024

def fssize : ℕ := 2000

def ninodes : ℕ := 200

def ninode : ℕ := 50

def rootino : ℕ := 1

def ndirect : ℕ := 12

def nindirect : ℕ := 256

def maxfile : ℕ := ndirect + nindirect

/-- Inodes per block; a `Dinode` has 64 bytes. -/
def ipb : ℕ := 16

/-- Bits per block. -/
def bpb : ℕ := bsize * 8

def inodestart : ℕ := 2

def bmapstart : ℕ := 15

def datastart : ℕ := 16

def tDir : ℤ := 1

def tFile : ℤ := 2

def tDevice : ℤ := 3

def nbuf : ℕ := 16

abbrev Block := Store

structure Buffer where
  blockno : ℕ
  refcnt : ℕ
  valid : Bool
  data : Block
  locked : Bool

def Buffer.empty : Buffer where
  blockno := 0
  refcnt := 0
  valid := false
  data := fun _ => 0
  locked := false

/-- The disk and its cache. -/
structure Dev where
  disk : ℕ → Block
  bcache : Fin nbuf → Buffer
  bcacheLock : Bool

abbrev DevM := Prog Panic Dev

def Dev.setBuf (s : Dev) (i : Fin nbuf) (b : Buffer) : Dev :=
  { s with bcache := Function.update s.bcache i b }

def bcacheAcquire : DevM Unit := do
  let s ← Prog.get
  Prog.assert .acquireHolding (!s.bcacheLock)
  Prog.modify fun s => { s with bcacheLock := true }

def bcacheRelease : DevM Unit := do
  let s ← Prog.get
  Prog.assert .releaseNotHolding s.bcacheLock
  Prog.modify fun s => { s with bcacheLock := false }

/-- `slot.lock()`: the buffer behind the guard. -/
def lockBuf (i : Fin nbuf) : DevM Buffer := do
  let s ← Prog.get
  Prog.assert .deadlock (!(s.bcache i).locked)
  Prog.modify fun s => s.setBuf i { s.bcache i with locked := true }
  pure (s.bcache i)

/-- Drop the guard. -/
def unlockBuf (i : Fin nbuf) : DevM Unit :=
  Prog.modify fun s => s.setBuf i { s.bcache i with locked := false }

def modifyBuf (i : Fin nbuf) (f : Buffer → Buffer) : DevM Unit :=
  Prog.modify fun s => s.setBuf i (f (s.bcache i))

/-- Fill a buffer from the disk. -/
def fetch (blockno : ℕ) (i : Fin nbuf) : DevM Unit :=
  Prog.modify fun s => s.setBuf i { s.bcache i with data := s.disk blockno, valid := true }

/-- `bwrite` of the buffer behind a guard. -/
def bwrite (i : Fin nbuf) : DevM Unit :=
  Prog.modify fun s =>
    { s with disk := Function.update s.disk (s.bcache i).blockno (s.bcache i).data }

/-- The steps of the block layer. Its functions are written over them, so that
the device can be looked at between two steps. -/
class Steps where
  bcacheAcquire : DevM Unit
  bcacheRelease : DevM Unit
  lockBuf : Fin nbuf → DevM Buffer
  unlockBuf : Fin nbuf → DevM Unit
  modifyBuf : Fin nbuf → (Buffer → Buffer) → DevM Unit
  fetch : ℕ → Fin nbuf → DevM Unit
  bwrite : Fin nbuf → DevM Unit

/-- The steps themselves. -/
instance plain : Steps where
  bcacheAcquire := bcacheAcquire
  bcacheRelease := bcacheRelease
  lockBuf := lockBuf
  unlockBuf := unlockBuf
  modifyBuf := modifyBuf
  fetch := fetch
  bwrite := bwrite

@[simp] theorem plain_unlockBuf (i : Fin nbuf) : Steps.unlockBuf i = unlockBuf i := rfl

@[simp] theorem plain_modifyBuf (i : Fin nbuf) (f : Buffer → Buffer) :
    Steps.modifyBuf i f = modifyBuf i f := rfl

@[simp] theorem plain_fetch (blockno : ℕ) (i : Fin nbuf) :
    Steps.fetch blockno i = fetch blockno i := rfl

/-- One slot of the first loop of `bget`: a buffer that already caches the block. -/
def bgetCached [Steps] (blockno : ℕ) (i : Fin nbuf) : DevM (Option (Fin nbuf)) := do
  let b ← Steps.lockBuf i
  if b.blockno = blockno ∧ (0 < b.refcnt ∨ b.valid) then
    Steps.modifyBuf i fun b => { b with refcnt := b.refcnt + 1 }
    Steps.unlockBuf i
    pure (some i)
  else
    Steps.unlockBuf i
    pure none

/-- One slot of the second loop of `bget`: a free buffer is recycled. -/
def bgetFree [Steps] (blockno : ℕ) (i : Fin nbuf) : DevM (Option (Fin nbuf)) := do
  let b ← Steps.lockBuf i
  if b.refcnt = 0 then
    Steps.modifyBuf i fun b => { b with blockno := blockno, refcnt := 1, valid := false }
    Steps.unlockBuf i
    pure (some i)
  else
    Steps.unlockBuf i
    pure none

def bget [Steps] (blockno : ℕ) : DevM (Option (Fin nbuf)) :=
  if fssize ≤ blockno then
    pure none
  else do
    Steps.bcacheAcquire
    match ← Prog.firstSome (List.finRange nbuf) (bgetCached blockno) with
    | some i =>
      Steps.bcacheRelease
      pure (some i)
    | none =>
      let r ← Prog.firstSome (List.finRange nbuf) (bgetFree blockno)
      Steps.bcacheRelease
      pure r

def bread [Steps] (blockno : ℕ) : DevM (Option (Fin nbuf)) := do
  match ← bget blockno with
  | none => pure none
  | some i =>
    let b ← Steps.lockBuf i
    if !b.valid then
      Steps.fetch blockno i
    Steps.unlockBuf i
    pure (some i)

def brelse [Steps] (i : Fin nbuf) : DevM Unit := do
  Steps.bcacheAcquire
  let b ← Steps.lockBuf i
  Prog.assert .brelseNoRef (1 ≤ b.refcnt)
  Steps.modifyBuf i fun b => { b with refcnt := b.refcnt - 1 }
  Steps.unlockBuf i
  Steps.bcacheRelease

/-- Read under the guard: `bp.lock()` followed by a use of the data. -/
def readBuf [Steps] (i : Fin nbuf) : DevM Block := do
  let b ← Steps.lockBuf i
  Steps.unlockBuf i
  pure b.data

/-- Change the data under the guard and write it through. -/
def writeBuf [Steps] (i : Fin nbuf) (f : Block → Block) : DevM Unit := do
  let _ ← Steps.lockBuf i
  Steps.modifyBuf i fun b => { b with data := f b.data }
  Steps.bwrite i
  Steps.unlockBuf i

/-- Byte of the bitmap block that holds the bit of a block. -/
def bitByte (blockno : ℕ) : ℕ := blockno % bpb / 8

def bitMask (blockno : ℕ) : UInt8 := UInt8.ofNat (2 ^ (blockno % bpb % 8))

/-- Set the bit of a block if it is clear; the result says whether it was. -/
def bitmapTake [Steps] (bp : Fin nbuf) (blockno : ℕ) : DevM Bool := do
  let b ← Steps.lockBuf bp
  if b.data (bitByte blockno) &&& bitMask blockno = 0 then
    Steps.modifyBuf bp fun b => { b with
      data := Function.update b.data (bitByte blockno)
        (b.data (bitByte blockno) ||| bitMask blockno) }
    Steps.bwrite bp
    Steps.unlockBuf bp
    pure true
  else
    Steps.unlockBuf bp
    pure false

/-- Clear the bit of a block, which must be set. -/
def bitmapDrop [Steps] (bp : Fin nbuf) (blockno : ℕ) : DevM Unit := do
  let b ← Steps.lockBuf bp
  Prog.assert .freeingFree (b.data (bitByte blockno) &&& bitMask blockno != 0)
  Steps.modifyBuf bp fun b => { b with
    data := Function.update b.data (bitByte blockno)
      (b.data (bitByte blockno) &&& ~~~bitMask blockno) }
  Steps.bwrite bp
  Steps.unlockBuf bp

/-- The operations on the blocks of a device. The code above the block layer is
written over them; the file system is its instance at `cached`. -/
class Access where
  β : Type
  bread : ℕ → DevM (Option β)
  readBuf : β → DevM Block
  writeBuf : β → (Block → Block) → DevM Unit
  bitmapTake : β → ℕ → DevM Bool
  bitmapDrop : β → ℕ → DevM Unit
  brelse : β → DevM Unit

/-- The buffer cache. -/
instance cached [Steps] : Access where
  β := Fin nbuf
  bread := bread
  readBuf := readBuf
  writeBuf := writeBuf
  bitmapTake := bitmapTake
  bitmapDrop := bitmapDrop
  brelse := brelse

structure Dinode where
  typ : ℤ
  major : ℤ
  minor : ℤ
  nlink : ℤ
  size : ℕ
  addrs : Fin (ndirect + 1) → ℕ
  deriving DecidableEq

def dinodeSize : ℕ := 64

/-- The two's complement value of a 16-bit word. -/
def i16 (w : ℕ) : ℤ := if w < 2 ^ 15 then w else (w : ℤ) - 2 ^ 16

/-- The 16-bit word of a value. -/
def w16 (v : ℤ) : ℕ := (v % 2 ^ 16).toNat

/-- `read_unaligned` of a `Dinode` at `off`. -/
def Dinode.decode (b : Block) (off : ℕ) : Dinode where
  typ := i16 (load 2 b off)
  major := i16 (load 2 b (off + 2))
  minor := i16 (load 2 b (off + 4))
  nlink := i16 (load 2 b (off + 6))
  size := load 4 b (off + 8)
  addrs := fun k => load 4 b (off + 12 + 4 * k)

/-- The bytes of a `Dinode`, field after field. -/
def Dinode.encode (d : Dinode) : List UInt8 :=
  (List.range 2).map (byteAt (w16 d.typ)) ++ (List.range 2).map (byteAt (w16 d.major)) ++
    (List.range 2).map (byteAt (w16 d.minor)) ++ (List.range 2).map (byteAt (w16 d.nlink)) ++
    (List.range 4).map (byteAt d.size) ++
    (List.finRange (ndirect + 1)).flatMap fun k => (List.range 4).map (byteAt (d.addrs k))

def iblock (inum : ℕ) : ℕ := inum / ipb + inodestart

def readDinode [Access] (inum : ℕ) : DevM Dinode := do
  let bp ← Prog.expect .bread (← Access.bread (iblock inum))
  let data ← Access.readBuf bp
  Access.brelse bp
  pure (Dinode.decode data (inum % ipb * dinodeSize))

def writeDinode [Access] (inum : ℕ) (dip : Dinode) : DevM Unit := do
  let bp ← Prog.expect .bread (← Access.bread (iblock inum))
  Access.writeBuf bp fun data => write data (inum % ipb * dinodeSize) dip.encode
  Access.brelse bp

def bblock (blockno : ℕ) : ℕ := blockno / bpb + bmapstart

/-- One round of the search of `balloc`. -/
def ballocTry [Access] (blockno : ℕ) : DevM (Option ℕ) := do
  let bp ← Prog.expect .bread (← Access.bread (bblock blockno))
  let found ← Access.bitmapTake bp blockno
  Access.brelse bp
  if found then
    let dataBp ← Prog.expect .bread (← Access.bread blockno)
    Access.writeBuf dataBp fun data => fill data 0 bsize 0
    Access.brelse dataBp
    pure (some blockno)
  else
    pure none

/-- Numbers of the data blocks. -/
@[irreducible] def dataBlocks : List ℕ := List.range' datastart (fssize - datastart)

def balloc [Access] : DevM (Option ℕ) := Prog.firstSome dataBlocks ballocTry

def bfree [Access] (blockno : ℕ) : DevM Unit := do
  Prog.assert .bfreeInvalid (datastart ≤ blockno ∧ blockno < fssize)
  let bp ← Prog.expect .bread (← Access.bread (bblock blockno))
  Access.bitmapDrop bp blockno
  Access.brelse bp

end ToyOs.Fs
