import ToyOs.Lib.Blocks
import ToyOs.Memlayout

/-!
The heap allocator of user programs. Free blocks are threaded through headers
that lie in the heap itself; the allocator holds only the head. User programs
are built with the release profile, so sums wrap. A loop over the list that
goes round more often than there are addresses never ends.
The answer of `sbrk` is a parameter of the call that may need it, and the
memory it returned is recorded.
-/
namespace ToyOs.User

open Bytes Blocks

/-- A layout as `GlobalAlloc` receives it. -/
structure AllocLayout where
  size : ℕ
  align : ℕ
  size_lt : size < usizeSize

/-- The memory of the process, the head pointer (0 is null) and the memory
obtained from `sbrk`. -/
structure Heap where
  mem : Store
  head : ℕ
  obtained : List Block

inductive Fault
  | endless
  deriving DecidableEq

abbrev HeapM := Prog Fault Heap

def align : ℕ := 16

/-- `(x + align - 1) & !(align - 1)` for a power of two. -/
def alignUpConst (x a : ℕ) : ℕ := (x + a - 1) / a * a

@[irreducible] def alignUp (x a : ℕ) : Option ℕ := (checkedAdd x (a - 1)).map fun v => v / a * a

/-- Two words. -/
def headerBytes : ℕ := 16

def headerSize : ℕ := alignUpConst headerBytes align

def minPayload : ℕ := align

def minBlockSize : ℕ := headerSize + minPayload

def isizeMax : ℕ := 2 ^ 63 - 1

/-- `a + b` in a release build. -/
def wrappingAdd (a b : ℕ) : ℕ := (a + b) % usizeSize

namespace Heap

def sizeAt (h : Heap) (b : ℕ) : ℕ := load 8 h.mem b

def nextAt (h : Heap) (b : ℕ) : ℕ := load 8 h.mem (b + 8)

def setSize (b v : ℕ) : HeapM Unit := Prog.modify fun h => { h with mem := store 8 h.mem b v }

def setNext (b v : ℕ) : HeapM Unit :=
  Prog.modify fun h => { h with mem := store 8 h.mem (b + 8) v }

/-- Store a pointer where the search came from. -/
def setLink (prev v : ℕ) : HeapM Unit :=
  if prev = 0 then Prog.modify fun h => { h with head := v } else setNext prev v

end Heap

open Heap

def blockEnd (h : Heap) (b : ℕ) : ℕ := wrappingAdd b (h.sizeAt b)

/-- Cut `needed` bytes off the low end of a free block, or take all of it when
too little would remain; the result is what follows it in the list. -/
def carve (needed cur : ℕ) : HeapM ℕ := do
  let h ← Prog.get
  let remaining := h.sizeAt cur - needed
  if minBlockSize ≤ remaining then
    let rest := wrappingAdd cur needed
    setSize rest remaining
    let h ← Prog.get
    setNext rest (h.nextAt cur)
    setSize cur needed
    pure rest
  else
    pure (h.nextAt cur)

/-- The search loop of `alloc_from_freelist`. -/
def allocLoop (needed : ℕ) : ℕ → ℕ → ℕ → HeapM (Option ℕ)
  | 0, _, _ => Prog.panic .endless
  | fuel + 1, prev, cur =>
    if cur = 0 then
      pure none
    else do
      let h ← Prog.get
      if needed ≤ h.sizeAt cur then
        let after ← carve needed cur
        setLink prev after
        setNext cur 0
        pure (some (wrappingAdd cur headerSize))
      else
        allocLoop needed fuel cur (h.nextAt cur)

def allocFromFreelist (needed : ℕ) : HeapM (Option ℕ) := do
  let h ← Prog.get
  allocLoop needed usizeSize 0 h.head

/-- The search loop of `insert_free_block`: the neighbours of the new block. -/
def insertLoop (block : ℕ) : ℕ → ℕ → ℕ → HeapM (ℕ × ℕ)
  | 0, _, _ => Prog.panic .endless
  | fuel + 1, prev, cur =>
    if cur ≠ 0 ∧ cur < block then do
      let h ← Prog.get
      insertLoop block fuel cur (h.nextAt cur)
    else
      pure (prev, cur)

/-- Merge the block that follows `b` in the list into `b`. -/
def absorb (b c : ℕ) : HeapM Unit := do
  let h ← Prog.get
  setSize b (wrappingAdd (h.sizeAt b) (h.sizeAt c))
  let h ← Prog.get
  setNext b (h.nextAt c)

/-- Merge the block into the one before it; the result is the block they are in. -/
def mergePrev (prev block : ℕ) : HeapM ℕ := do
  let h ← Prog.get
  if prev ≠ 0 ∧ blockEnd h prev = block then
    absorb prev block
    pure prev
  else
    pure block

def mergeNext (merged cur : ℕ) : HeapM Unit := do
  let h ← Prog.get
  if cur ≠ 0 ∧ blockEnd h merged = cur then
    absorb merged cur

def insertFreeBlock (block : ℕ) : HeapM Unit := do
  let h ← Prog.get
  let (prev, cur) ← insertLoop block usizeSize 0 h.head
  setNext block cur
  setLink prev block
  let merged ← mergePrev prev block
  mergeNext merged cur

/-- A call of `sbrk` that is answered with `base`. -/
def sbrk (base : ℤ) (total : ℕ) : HeapM ℤ := do
  if 0 ≤ base then
    Prog.modify fun h => { h with obtained := ⟨base.toNat, total⟩ :: h.obtained }
  pure base

/-- `answer` is what `sbrk` returns for each request. -/
def growHeap (answer : ℕ → ℤ) (needed : ℕ) : HeapM (Option Unit) :=
  match alignUp needed pgSize with
  | none => pure none
  | some total =>
    if isizeMax < total then
      pure none
    else do
      let base ← sbrk (answer total) total
      if base < 0 then
        pure none
      else
        setSize base.toNat total
        setNext base.toNat 0
        insertFreeBlock base.toNat
        pure (some ())

/-- The bytes a request takes with its header. -/
@[irreducible] def neededFor (l : AllocLayout) : Option ℕ := do
  let payloadSize ← alignUp (max l.size 1) align
  checkedAdd headerSize payloadSize

def alloc (answer : ℕ → ℤ) (l : AllocLayout) : HeapM ℕ :=
  if align < l.align then
    pure 0
  else
    match neededFor l with
    | none => pure 0
    | some needed => do
      match ← allocFromFreelist needed with
      | some ptr => pure ptr
      | none =>
        match ← growHeap answer needed with
        | none => pure 0
        | some _ => do
          let r ← allocFromFreelist needed
          pure (r.getD 0)

def dealloc (ptr : ℕ) : HeapM Unit :=
  if ptr = 0 then
    pure ()
  else
    insertFreeBlock (ptr - headerSize)

end ToyOs.User
