import ToyOs.Fs.Inode

/-!
Directories: files of 16-byte entries. A name is cut to 14 bytes and padded
with zeros; an entry with inode number 0 is free.
-/
namespace ToyOs.Fs

open Bytes

def dirsiz : ℕ := 14

/-- A name as it is stored: `dirent_name` cuts and pads it. -/
def direntName (name : List UInt8) : List UInt8 :=
  name.take dirsiz ++ List.replicate (dirsiz - name.length) 0

structure Dirent where
  inum : ℕ
  name : List UInt8
  deriving DecidableEq, Repr

def direntSize : ℕ := 16

def nameEq (dirName name : List UInt8) : Bool := dirName == direntName name

def Dirent.decode (buf : List UInt8) : Dirent where
  inum := load 2 (fun k => buf.getD k 0) 0
  name := (buf.drop 2).take dirsiz

def Dirent.encode (de : Dirent) : List UInt8 := (List.range 2).map (byteAt de.inum) ++ de.name

def readDirent [Access] (dp : Inode) (off : ℕ) : DevM (Option Dirent) := do
  let buf ← readiInner dp off direntSize
  if buf.length = direntSize then
    pure (some (Dirent.decode buf))
  else
    pure none

def writeDirent [Access] (dp : Inode) (off : ℕ) (de : Dirent) : DevM (Bool × Inode) := do
  let (n, dp) ← writeiInner dp off de.encode
  pure (n == direntSize, dp)

/-- `off += entsize` on a `u32`. -/
def nextDirent (off : ℕ) : DevM ℕ :=
  if off + direntSize < 2 ^ 32 then pure (off + direntSize) else Prog.panic .overflow

/-- Number of rounds of a loop over the entries of a directory. -/
def direntRounds (dp : Inode) : ℕ := (dp.size + direntSize - 1) / direntSize

/-- The loop of `dirlookup`. -/
def dirlookupLoop [Access] (dp : Inode) (name : List UInt8) : ℕ → ℕ → DevM (Option ℕ)
  | 0, _ => pure none
  | n + 1, off => do
    match ← readDirent dp off with
    | none => pure none
    | some de =>
      if de.inum ≠ 0 ∧ nameEq de.name name then
        pure (some de.inum)
      else
        let off ← nextDirent off
        dirlookupLoop dp name n off

def dirlookup [Access] (dp : Inode) (name : List UInt8) : DevM (Option ℕ) :=
  if dp.typ ≠ tDir then pure none else dirlookupLoop dp name (direntRounds dp) 0

/-- The search of `dirlink` for a free entry: its offset, or nothing when an
entry cannot be read. -/
def freeDirentLoop [Access] (dp : Inode) : ℕ → ℕ → DevM (Option ℕ)
  | 0, off => pure (some off)
  | n + 1, off => do
    match ← readDirent dp off with
    | none => pure none
    | some de =>
      if de.inum = 0 then
        pure (some off)
      else
        let off ← nextDirent off
        freeDirentLoop dp n off

def dirlink [Access] (dp : Inode) (name : List UInt8) (inum : ℕ) : DevM (Bool × Inode) :=
  if dp.typ ≠ tDir then
    pure (false, dp)
  else do
    if (← dirlookup dp name).isSome then
      pure (false, dp)
    else
      match ← freeDirentLoop dp (direntRounds dp) 0 with
      | none => pure (false, dp)
      | some off => writeDirent dp off { inum := inum % 2 ^ 16, name := direntName name }

end ToyOs.Fs
