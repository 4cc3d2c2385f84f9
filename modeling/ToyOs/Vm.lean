import ToyOs.Kalloc

/-!
The page tables of `vm.rs` as programs over physical memory. An entry is a
64-bit word at `table + 8 * index`; pointers to tables and to entries are
physical addresses. Loops of the source that count pages are recursions on
that count. `freewalk` recurses on what it finds in memory, so it carries
the number of frames the kernel stack has room for.
-/
namespace ToyOs

open Bytes

def pteV : ℕ := 1 <<< 0

def pteR : ℕ := 1 <<< 1

def pteW : ℕ := 1 <<< 2

def pteX : ℕ := 1 <<< 3

def pteU : ℕ := 1 <<< 4

def pteA : ℕ := 1 <<< 6

def pteD : ℕ := 1 <<< 7

def isValid (pte : ℕ) : Bool := pte &&& pteV != 0

def isLeaf (pte : ℕ) : Bool := isValid pte && (pte &&& (pteR ||| pteW ||| pteX)) != 0

def ptePa (pte : ℕ) : ℕ := ((pte >>> 10) &&& ((1 <<< 44) - 1)) <<< 12

def pteFlags (pte : ℕ) : ℕ := pte &&& 0x3ff

def leafWord (pa flags : ℕ) : ℕ :=
  ((pa >>> 12) <<< 10) ||| flags ||| pteV ||| pteA ||| pteD

def tableWord (pa : ℕ) : ℕ := ((pa >>> 12) <<< 10) ||| pteV

def newLeaf (pa flags : ℕ) : RamM ℕ := do
  Prog.assert .newLeafUnaligned (pa % pgSize == 0)
  pure (leafWord pa flags)

def newTable (pa : ℕ) : RamM ℕ := do
  Prog.assert .newTableUnaligned (pa % pgSize == 0)
  pure (tableWord pa)

def loadPte (a : ℕ) : RamM ℕ := do
  let s ← Prog.get
  pure (load 8 s.mem a)

def storePte (a w : ℕ) : RamM Unit :=
  Prog.modify fun s => s.setWord a w

/-- The loop of `walk` over the levels above 0; it ends at the level-0 table. -/
def walkLevels (va : ℕ) (alloc : Bool) : List ℕ → ℕ → RamM (Option ℕ)
  | [], pt => pure (some pt)
  | level :: rest, pt => do
    let a := pt + 8 * ((va >>> (12 + 9 * level)) &&& 0x1ff)
    let pte ← loadPte a
    if isValid pte then
      if isLeaf pte then
        pure none
      else
        walkLevels va alloc rest (ptePa pte)
    else if alloc then
      match ← kallocZeroed with
      | none => pure none
      | some pa =>
        let w ← newTable pa
        storePte a w
        walkLevels va alloc rest pa
    else
      pure none

/-- The address of the level-0 entry for `va`. -/
def walk (pt va : ℕ) (alloc : Bool) : RamM (Option ℕ) := do
  match ← walkLevels va alloc [2, 1] pt with
  | none => pure none
  | some pt => pure (some (pt + 8 * ((va >>> 12) &&& 0x1ff)))

def walkUserPerm (pt va perm : ℕ) : RamM (Option ℕ) :=
  if maxVa ≤ va then
    pure none
  else do
    match ← walk pt va false with
    | none => pure none
    | some a =>
      let pte ← loadPte a
      if !isValid pte then pure none
      else if pte &&& pteU = 0 then pure none
      else if pte &&& perm ≠ perm then pure none
      else if !isLeaf pte then pure none
      else pure (some pte)

/-- The loop of `mappages`, with the number of pages still to be mapped. -/
def mappagesLoop (pt flags : ℕ) : ℕ → ℕ → ℕ → RamM (Option Unit)
  | 0, _, _ => pure (some ())
  | n + 1, va, pa => do
    match ← walk pt va true with
    | none => pure none
    | some a =>
      let pte ← loadPte a
      if isValid pte then
        pure none
      else
        let w ← newLeaf pa flags
        storePte a w
        let va ← addUsize va pgSize
        let pa ← addUsize pa pgSize
        mappagesLoop pt flags n va pa

def mappages (pt va size pa flags : ℕ) : RamM (Option Unit) := do
  Prog.assert .mappagesUnaligned (va % pgSize == 0)
  Prog.assert .mappagesUnaligned (pa % pgSize == 0)
  Prog.assert .mappagesSize (0 < size)
  let stop ← addUsize va size
  let last ← pageRoundUp stop
  mappagesLoop pt flags ((last - va) / pgSize) va pa

variable (L : Layout)

/-- The loop of `uvmunmap`: `n` pages are left, `i` are done. -/
def uvmunmapLoop (pt va : ℕ) (doFree : Bool) : ℕ → ℕ → RamM Unit
  | 0, _ => pure ()
  | n + 1, i => do
    let o ← mulUsize i pgSize
    let a ← addUsize va o
    let p ← Prog.expect .uvmunmapWalk (← walk pt a false)
    let pte ← loadPte p
    if !isValid pte then
      Prog.panic .uvmunmapNotMapped
    else if !isLeaf pte then
      Prog.panic .uvmunmapNotLeaf
    else
      if doFree then
        kfree L (ptePa pte)
      storePte p 0
      uvmunmapLoop pt va doFree n (i + 1)

def uvmunmap (pt va npages : ℕ) (doFree : Bool) : RamM Unit := do
  Prog.assert .uvmunmapUnaligned (va % pgSize == 0)
  Prog.assert .uvmunmapNpages (0 < npages)
  uvmunmapLoop L pt va doFree npages 0

/-- Frames of `freewalk` that fit on the one-page kernel stack. -/
def freewalkDepth : ℕ := 16

/-- Indices of the entries of one table. -/
@[irreducible] def tableIndices : List ℕ := List.range 512

def freewalk : ℕ → ℕ → RamM Unit
  | 0, _ => Prog.panic .stackOverflow
  | depth + 1, pt => do
    Prog.forEach tableIndices fun i => do
      let pte ← loadPte (pt + 8 * i)
      if isValid pte && !isLeaf pte then
        freewalk depth (ptePa pte)
        storePte (pt + 8 * i) 0
      else if isLeaf pte then
        Prog.panic .freewalkLeaf
      else
        pure ()
    kfree L pt

def uvmfree (pt sz : ℕ) : RamM Unit := do
  let stop ← pageRoundUp sz
  if 0 < sz then
    uvmunmap L pt 0 (stop / pgSize) true
  freewalk L freewalkDepth pt

def procFreepagetable (pt sz : ℕ) : RamM Unit := do
  uvmunmap L pt trampolineVa 1 false
  uvmunmap L pt trapframeVa 1 false
  if (← walkUserPerm pt userStack 0).isSome then
    uvmunmap L pt userStack 1 true
  uvmfree L pt sz

def uvmcreate : RamM (Option ℕ) := kallocZeroed

def procPagetable (trapframe : ℕ) : RamM (Option ℕ) := do
  match ← uvmcreate with
  | none => pure none
  | some pt =>
    match ← mappages pt trampolineVa pgSize L.trampolineStart (pteR ||| pteX) with
    | none =>
      freewalk L freewalkDepth pt
      pure none
    | some _ =>
      match ← mappages pt trapframeVa pgSize trapframe (pteR ||| pteW) with
      | none =>
        uvmunmap L pt trampolineVa 1 false
        freewalk L freewalkDepth pt
        pure none
      | some _ => pure (some pt)

/-- The loop of `uvmcopy`: `n` pages are left, `i` are done. -/
def uvmcopyLoop (old new : ℕ) : ℕ → ℕ → RamM (Option Unit)
  | 0, _ => pure (some ())
  | n + 1, i => do
    let a ← mulUsize i pgSize
    let pte ← Prog.expect .uvmcopyPte (← walkUserPerm old a 0)
    match ← kallocZeroed with
    | none =>
      if 0 < i then
        uvmunmap L new 0 i true
      pure none
    | some dst =>
      Prog.modify fun s => { s with mem := copy s.mem (ptePa pte) dst pgSize }
      match ← mappages new a pgSize dst (pteFlags pte) with
      | none =>
        kfree L dst
        if 0 < i then
          uvmunmap L new 0 i true
        pure none
      | some _ => uvmcopyLoop old new n (i + 1)

def uvmcopy (old new sz : ℕ) : RamM (Option Unit) := do
  let stop ← pageRoundUp sz
  uvmcopyLoop L old new (stop / pgSize) 0

def uvmcopyStack (old new : ℕ) : RamM (Option Unit) := do
  match ← walkUserPerm old userStack 0 with
  | none => pure none
  | some pte =>
    match ← kallocZeroed with
    | none => pure none
    | some dst =>
      Prog.modify fun s => { s with mem := copy s.mem (ptePa pte) dst pgSize }
      match ← mappages new userStack pgSize dst (pteU ||| pteR ||| pteW) with
      | none =>
        kfree L dst
        pure none
      | some _ => pure (some ())

/-- The loop of `uvmalloc` from `a` on, with `n` pages left. -/
def uvmallocLoop (pt a0 : ℕ) : ℕ → ℕ → RamM (Option Unit)
  | 0, _ => pure (some ())
  | n + 1, a => do
    match ← kallocZeroed with
    | none => pure none
    | some pa =>
      match ← mappages pt a pgSize pa (pteU ||| pteR ||| pteW) with
      | none =>
        kfree L pa
        if a0 < a then
          uvmunmap L pt a0 ((a - a0) / pgSize) true
        pure none
      | some _ =>
        let a ← addUsize a pgSize
        uvmallocLoop pt a0 n a

def uvmalloc (pt oldsz newsz : ℕ) : RamM (Option Unit) := do
  let a0 ← pageRoundUp oldsz
  let a1 ← pageRoundUp newsz
  uvmallocLoop L pt a0 ((a1 - a0) / pgSize) a0

/-- The loop of `copyout`; every round moves at least one byte, so the
length of the source bounds the number of rounds. -/
def copyoutLoop (pt dstVa : ℕ) (src : List UInt8) : ℕ → ℕ → RamM (Option Unit)
  | 0, _ => pure (some ())
  | fuel + 1, done =>
    if done < src.length then
      match checkedAdd dstVa done with
      | none => pure none
      | some va =>
        if maxVa ≤ va then
          pure none
        else do
          let page := pageRoundDown va
          let off := va - page
          let n := min (pgSize - off) (src.length - done)
          match ← walkUserPerm pt page pteW with
          | none => pure none
          | some pte =>
            Prog.modify fun s =>
              { s with mem := write s.mem (ptePa pte + off) ((src.drop done).take n) }
            copyoutLoop pt dstVa src fuel (done + n)
    else
      pure (some ())

def copyout (pt dstVa : ℕ) (src : List UInt8) : RamM (Option Unit) :=
  copyoutLoop pt dstVa src src.length 0

/-- The loop of `copyin`; `got` are the bytes copied so far. -/
def copyinLoop (pt srcVa len : ℕ) : ℕ → List UInt8 → RamM (Option (List UInt8))
  | 0, got => pure (some got)
  | fuel + 1, got =>
    if got.length < len then
      match checkedAdd srcVa got.length with
      | none => pure none
      | some va =>
        if maxVa ≤ va then
          pure none
        else do
          let page := pageRoundDown va
          let off := va - page
          let n := min (pgSize - off) (len - got.length)
          match ← walkUserPerm pt page pteR with
          | none => pure none
          | some pte =>
            let s ← Prog.get
            copyinLoop pt srcVa len fuel (got ++ read s.mem (ptePa pte + off) n)
    else
      pure (some got)

def copyin (pt srcVa len : ℕ) : RamM (Option (List UInt8)) :=
  copyinLoop pt srcVa len len []

/-- The loop of `copyinstr`; the string without its NUL is returned. -/
def copyinstrLoop (pt srcVa len : ℕ) : ℕ → List UInt8 → RamM (Option (List UInt8))
  | 0, _ => pure none
  | fuel + 1, got =>
    if got.length < len then
      match checkedAdd srcVa got.length with
      | none => pure none
      | some va =>
        if maxVa ≤ va then
          pure none
        else do
          let page := pageRoundDown va
          let off := va - page
          let n := min (pgSize - off) (len - got.length)
          match ← walkUserPerm pt page pteR with
          | none => pure none
          | some pte =>
            let s ← Prog.get
            let chunk := read s.mem (ptePa pte + off) n
            if 0 ∈ chunk then
              pure (some (got ++ chunk.takeWhile (· ≠ 0)))
            else
              copyinstrLoop pt srcVa len fuel (got ++ chunk)
    else
      pure none

def copyinstr (pt srcVa len : ℕ) : RamM (Option (List UInt8)) :=
  copyinstrLoop pt srcVa len (len + 1) []

end ToyOs
