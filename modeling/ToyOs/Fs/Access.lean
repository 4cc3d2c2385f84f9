import ToyOs.Fs.Ops

/-!
The file system without its cache: with `direct` the same code reads and writes
the disk itself. A session is `init` and one call after the other.
-/
namespace ToyOs.Fs

open Bytes

/-- Replace a block of the disk. -/
def putBlock (blockno : ℕ) (f : Block → Block) : DevM Unit :=
  Prog.modify fun s => { s with disk := Function.update s.disk blockno (f (s.disk blockno)) }

/-- The disk itself: a buffer is the number of its block. -/
abbrev direct : Access where
  β := ℕ
  bread blockno := pure (if fssize ≤ blockno then none else some blockno)
  readBuf bp := do pure ((← Prog.get).disk bp)
  writeBuf bp f := putBlock bp f
  bitmapTake bp blockno := do
    let data := (← Prog.get).disk bp
    if data (bitByte blockno) &&& bitMask blockno = 0 then
      putBlock bp fun data =>
        Function.update data (bitByte blockno) (data (bitByte blockno) ||| bitMask blockno)
      pure true
    else
      pure false
  bitmapDrop bp blockno := do
    let data := (← Prog.get).disk bp
    Prog.assert .freeingFree (data (bitByte blockno) &&& bitMask blockno != 0)
    putBlock bp fun data =>
      Function.update data (bitByte blockno) (data (bitByte blockno) &&& ~~~bitMask blockno)
  brelse _ := pure ()

/-- One call after the other, with what they return. -/
def calls [Access] : List Op → FsM (List Reply)
  | [] => pure []
  | op :: rest => do
    let v ← op.run
    let vs ← calls rest
    pure (v :: vs)

/-- The file system from `init` on. -/
def session [Access] (embedded : Embedded) (ops : List Op) : FsM (List Reply) := do
  init embedded
  calls ops

end ToyOs.Fs
