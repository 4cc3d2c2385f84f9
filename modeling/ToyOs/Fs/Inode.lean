import ToyOs.Fs.Device

/-!
Inodes and their blocks: the block map, reading, writing and truncation, and
directories as files of entries. A function that gets `&mut Inode` in the
source takes the inode and returns it; the caller holds the slot's guard, so
nothing else sees it in between.
-/
namespace ToyOs.Fs

open Bytes

/-- The fields of `Inode` behind the guard of its slot. -/
structure Inode where
  inum : ℕ
  typ : ℤ
  major : ℤ
  minor : ℤ
  nlink : ℤ
  size : ℕ
  addrs : Fin (ndirect + 1) → ℕ
  deriving DecidableEq

/-- Index of the indirect block among the addresses. -/
def indirectSlot : Fin (ndirect + 1) := Fin.last ndirect

/-- The fields that are also on disk. -/
def Inode.toDinode (ip : Inode) : Dinode where
  typ := ip.typ
  major := ip.major
  minor := ip.minor
  nlink := ip.nlink
  size := ip.size
  addrs := ip.addrs

def Inode.setAddr (ip : Inode) (k : Fin (ndirect + 1)) (blockno : ℕ) : Inode :=
  { ip with addrs := Function.update ip.addrs k blockno }

/-- `(blockno != 0).then_some(blockno)`. -/
def nonZero (blockno : ℕ) : Option ℕ := if blockno ≠ 0 then some blockno else none

def bmapLookup [Access] (ip : Inode) (bn : ℕ) : DevM (Option ℕ) :=
  if h : bn < ndirect then
    pure (nonZero (ip.addrs ⟨bn, Nat.lt_succ_of_lt h⟩))
  else if bn - ndirect < nindirect then
    if ip.addrs indirectSlot = 0 then
      pure none
    else do
      let bp ← Prog.expect .bread (← Access.bread (ip.addrs indirectSlot))
      let data ← Access.readBuf bp
      Access.brelse bp
      pure (nonZero (load 4 data ((bn - ndirect) * 4)))
  else
    pure none

/-- The entry of the indirect block for `bn`, allocated if it is empty. -/
def indirectAlloc [Access] (indirectBlock bn : ℕ) : DevM (Option ℕ) := do
  let bp ← Prog.expect .bread (← Access.bread indirectBlock)
  let data ← Access.readBuf bp
  let addr := load 4 data (bn * 4)
  if addr = 0 then
    match ← balloc with
    | none =>
      Access.brelse bp
      pure none
    | some addr =>
      Access.writeBuf bp fun data => store 4 data (bn * 4) addr
      Access.brelse bp
      pure (some addr)
  else
    Access.brelse bp
    pure (some addr)

def bmapAlloc [Access] (ip : Inode) (bn : ℕ) : DevM (Option ℕ × Inode) :=
  if h : bn < ndirect then
    let k : Fin (ndirect + 1) := ⟨bn, Nat.lt_succ_of_lt h⟩
    if ip.addrs k = 0 then do
      match ← balloc with
      | none => pure (none, ip)
      | some blockno => pure (some blockno, ip.setAddr k blockno)
    else
      pure (some (ip.addrs k), ip)
  else if bn - ndirect < nindirect then
    if ip.addrs indirectSlot = 0 then do
      match ← balloc with
      | none => pure (none, ip)
      | some blockno =>
        let r ← indirectAlloc blockno (bn - ndirect)
        pure (r, ip.setAddr indirectSlot blockno)
    else do
      let r ← indirectAlloc (ip.addrs indirectSlot) (bn - ndirect)
      pure (r, ip)
  else
    pure (none, ip)

def iupdate [Access] (ip : Inode) : DevM Unit := writeDinode ip.inum ip.toDinode

/-- The loop of `itrunc` over the direct blocks. -/
def itruncDirect [Access] : List (Fin (ndirect + 1)) → Inode → DevM Inode
  | [], ip => pure ip
  | k :: rest, ip =>
    if ip.addrs k ≠ 0 then do
      bfree (ip.addrs k)
      itruncDirect rest (ip.setAddr k 0)
    else
      itruncDirect rest ip

/-- Indices of the entries of an indirect block. -/
@[irreducible] def indirectEntries : List ℕ := List.range nindirect

/-- The blocks named by an indirect block and the block itself. -/
def itruncIndirect [Access] (indirectBlock : ℕ) : DevM Unit := do
  let bp ← Prog.expect .bread (← Access.bread indirectBlock)
  Prog.forEach indirectEntries fun i => do
    let data ← Access.readBuf bp
    if load 4 data (i * 4) ≠ 0 then
      bfree (load 4 data (i * 4))
  Access.brelse bp
  bfree indirectBlock

def directSlots : List (Fin (ndirect + 1)) := (List.finRange ndirect).map Fin.castSucc

def itrunc [Access] (ip : Inode) : DevM Inode := do
  let ip ← itruncDirect directSlots ip
  if ip.addrs indirectSlot ≠ 0 then
    itruncIndirect (ip.addrs indirectSlot)
    let ip := { ip.setAddr indirectSlot 0 with size := 0 }
    iupdate ip
    pure ip
  else
    let ip := { ip with size := 0 }
    iupdate ip
    pure ip

/-- The loop of `_readi`; every round reads at least one byte. -/
def readiLoop [Access] (ip : Inode) (off n : ℕ) : ℕ → List UInt8 → DevM (List UInt8)
  | 0, got => pure got
  | fuel + 1, got =>
    if got.length < n then do
      let cur := off + got.length
      let boff := cur % bsize
      let m := min (n - got.length) (bsize - boff)
      let blockno ← Prog.expect .readiHole (← bmapLookup ip (cur / bsize))
      let bp ← Prog.expect .bread (← Access.bread blockno)
      let data ← Access.readBuf bp
      Access.brelse bp
      readiLoop ip off n fuel (got ++ read data boff m)
    else
      pure got

/-- `_readi`: the bytes written to the front of `dst`. -/
def readiInner [Access] (ip : Inode) (off len : ℕ) : DevM (List UInt8) :=
  if ip.size ≤ off then
    pure []
  else
    let n := min len (ip.size - off)
    readiLoop ip off n n []

/-- Put `bytes` into the block for `cur`, allocating it if needed. -/
def putChunk [Access] (ip : Inode) (cur : ℕ) (bytes : List UInt8) : DevM (Bool × Inode) := do
  match ← bmapAlloc ip (cur / bsize) with
  | (none, ip) => pure (false, ip)
  | (some blockno, ip) =>
    let bp ← Prog.expect .bread (← Access.bread blockno)
    Access.writeBuf bp fun data => write data (cur % bsize) bytes
    Access.brelse bp
    pure (true, ip)

/-- The loop of `zero_fill`. -/
def zeroFillLoop [Access] (start len : ℕ) : ℕ → ℕ → Inode → DevM (Bool × Inode)
  | 0, _, ip => pure (true, ip)
  | fuel + 1, total, ip =>
    if total < len then do
      let cur := start + total
      let m := min (len - total) (bsize - cur % bsize)
      match ← putChunk ip cur (List.replicate m 0) with
      | (false, ip) => pure (false, ip)
      | (true, ip) => zeroFillLoop start len fuel (total + m) ip
    else
      pure (true, ip)

def zeroFill [Access] (ip : Inode) (start stop : ℕ) : DevM (Bool × Inode) :=
  if stop ≤ start then
    pure (true, ip)
  else
    zeroFillLoop start (stop - start) (stop - start) 0 ip

/-- The loop of `_writei`: it stops early when no block is left. -/
def writeiLoop [Access] (off : ℕ) (src : List UInt8) : ℕ → ℕ → Inode → DevM (ℕ × Inode)
  | 0, total, ip => pure (total, ip)
  | fuel + 1, total, ip =>
    if total < src.length then do
      let cur := off + total
      let m := min (src.length - total) (bsize - cur % bsize)
      match ← putChunk ip cur ((src.drop total).take m) with
      | (false, ip) => pure (total, ip)
      | (true, ip) => writeiLoop off src fuel (total + m) ip
    else
      pure (total, ip)

/-- The end of `_writei`: the size grows and the inode is written back. -/
def writeiFinish [Access] (off total : ℕ) (sizeChanged : Bool) (ip : Inode) : DevM (ℕ × Inode) := do
  let ip := if ip.size < off + total then { ip with size := off + total } else ip
  if 0 < total ∨ sizeChanged then
    iupdate ip
  pure (total, ip)

def writeiInner [Access] (ip : Inode) (off : ℕ) (src : List UInt8) : DevM (ℕ × Inode) :=
  if src = [] then
    pure (0, ip)
  else
    match checkedAdd off src.length with
    | none => pure (0, ip)
    | some stop =>
      if maxfile * bsize < stop then
        pure (0, ip)
      else if ip.size < off then do
        match ← zeroFill ip ip.size off with
        | (false, ip) => pure (0, ip)
        | (true, ip) =>
          let (total, ip) ← writeiLoop off src src.length 0 { ip with size := off }
          writeiFinish off total true ip
      else do
        let (total, ip) ← writeiLoop off src src.length 0 ip
        writeiFinish off total false ip

end ToyOs.Fs
