import ToyOs.Lib.Sim
import ToyOs.Kernel.State
import ToyOs.Fs.Ops

/-!
The loader on an inode. `load_elf_from_inode` calls `readi` for the header,
for every program header and for every page; between two calls the memory
changes, and each call may move buffers and fill the inode's slot. The file
itself does not change under it, so the loader does to memory what it does
on the list of the file's bytes.
-/
namespace ToyOs.OnInode

open Bytes Prog

variable (L : Layout) {α : Type}

def readExactInode (inode : Fs.InodeRef) (off len : ℕ) : KernelM (Option (List UInt8)) := do
  match ← onFs (Fs.readi inode off len) with
  | none => pure none
  | some bytes => pure (if bytes.length = len then some bytes else none)

def fillPage (ph : Phdr) (inode : Fs.InodeRef) (pa off : ℕ) : KernelM Bool :=
  if off < ph.filesz then do
    let n := min pgSize (ph.filesz - off)
    let o ← addUsize ph.offset off
    match ← onFs (Fs.readi inode o n) with
    | none => pure false
    | some bytes =>
      onRam (Prog.modify fun s => { s with mem := write s.mem pa bytes })
      pure (bytes.length == n)
  else
    pure true

/-- The page loop of `load_segment_from_inode`: `n` pages are left, `mapped` are done. -/
def loadSegmentLoop (pt : ℕ) (ph : Phdr) (inode : Fs.InodeRef) :
    ℕ → ℕ → KernelM (Option Unit)
  | 0, _ => pure (some ())
  | n + 1, mapped => do
    let off := mapped * pgSize
    match ← onRam kallocZeroed with
    | none =>
      onRam (unmapSegment L pt ph.vaddr mapped)
      pure none
    | some pa =>
      if ← fillPage ph inode pa off then
        let va ← addUsize ph.vaddr off
        match ← onRam (mappages pt va pgSize pa ph.perm) with
        | none =>
          onRam (kfree L pa)
          onRam (unmapSegment L pt ph.vaddr mapped)
          pure none
        | some _ =>
          let _ ← addUsize off pgSize
          loadSegmentLoop pt ph inode n (mapped + 1)
      else
        onRam (kfree L pa)
        onRam (unmapSegment L pt ph.vaddr mapped)
        pure none

def loadSegmentFromInode (pt : ℕ) (ph : Phdr) (inode : Fs.InodeRef) : KernelM (Option Unit) :=
  if ph.vaddr % pgSize ≠ 0 then
    pure none
  else if ph.memsz < ph.filesz then
    pure none
  else
    loadSegmentLoop L pt ph inode (pages ph.memsz) 0

/-- The loop over the program headers: `n` are left, `i` are done. -/
def loadHeaders (pt : ℕ) (inode : Fs.InodeRef) (e : Ehdr) : ℕ → ℕ → ℕ → KernelM (Option ℕ)
  | 0, _, sz => pure (some sz)
  | n + 1, i, sz => do
    match ← readExactInode inode (e.phoff + i * e.phentsize) phdrSize with
    | none => pure none
    | some buf =>
      let ph := Phdr.ofBytes buf
      if ph.typ ≠ ptLoad then
        loadHeaders pt inode e n (i + 1) sz
      else
        match ← loadSegmentFromInode L pt ph inode with
        | none =>
          onRam (cleanupUser L pt sz)
          pure none
        | some _ =>
          let stop ← addUsize ph.vaddr ph.memsz
          loadHeaders pt inode e n (i + 1) (if sz < stop then stop else sz)

/-- `load_elf_from_inode` behind the checks of the header. -/
def loadImage (pt : ℕ) (inode : Fs.InodeRef) (e : Ehdr) : KernelM (Option LoadedImage) := do
  match ← loadHeaders L pt inode e e.phnum 0 0 with
  | none => pure none
  | some sz =>
    let sz ← pageRoundUp sz
    match ← onRam (loadStack L pt sz) with
    | none => pure none
    | some _ => pure (some { entry := e.entry, sp := userStack + pgSize, sz := sz })

def loadElfFromInode (pt : ℕ) (inode : Fs.InodeRef) : KernelM (Option LoadedImage) := do
  match ← readExactInode inode 0 ehdrSize with
  | none => pure none
  | some buf =>
    let e := Ehdr.ofBytes buf
    if e.accepted then
      match checkedMul e.phnum e.phentsize with
      | none => pure none
      | some size =>
        match checkedAdd e.phoff size with
        | none => pure none
        | some _ => loadImage L pt inode e
    else
      pure none

/-- The reference stands for a file with this content. -/
def FileAt (s : Fs.State) (inode : Fs.InodeRef) (content : List UInt8) : Prop :=
  Fs.Stable s ∧ ∃ n k, s.refs inode = some (n, k) ∧ (s.file n).data = content

/-- Memory is `ram`; apart from it, only buffers and the slot of the file may
differ from `k₀`. -/
structure Beside (k₀ : Kernel) (inode : Fs.InodeRef) (content : List UInt8) (k : Kernel)
    (ram : Ram) : Prop where
  rest : k = { k₀ with ram := ram, fs := k.fs }
  file : FileAt k.fs inode content
  quiet : Fs.Quiet k₀.fs k.fs
  refs : k.fs.refs = k₀.fs.refs

variable {L} {k₀ k : Kernel} {inode : Fs.InodeRef} {content : List UInt8} {ram : Ram}
  {pt off len pa : ℕ} {ph : Phdr}

theorem Beside.start (h : FileAt k.fs inode content) : Beside k inode content k k.ram where
  rest := rfl
  file := h
  quiet := h.1.quiet
  refs := rfl

theorem Beside.ram_eq (h : Beside k₀ inode content k ram) : k.ram = ram := by
  rw [h.rest]

theorem Beside.put (h : Beside k₀ inode content k ram) (ram' : Ram) :
    Beside k₀ inode content { k with ram := ram' } ram' where
  rest := by rw [h.rest]
  file := h.file
  quiet := h.quiet
  refs := h.refs

/-- The results agree, and the states stay related. -/
abbrev Same (k₀ : Kernel) (inode : Fs.InodeRef) (content : List UInt8) {α : Type} :
    α → α → Kernel → Ram → Prop :=
  fun a b k ram => a = b ∧ Beside k₀ inode content k ram

theorem sim_onRam (p : RamM α) (h : Beside k₀ inode content k ram) :
    Sim (onRam p) p (Same k₀ inode content) k ram := by
  rw [← h.ram_eq]
  exact sim_zoom fun a ram' => ⟨rfl, h.put ram'⟩

theorem sim_addUsize {σ τ : Type} {a b : ℕ} {S : ℕ → ℕ → σ → τ → Prop} {s : σ} {t : τ}
    (h : S (a + b) (a + b) s t) : Sim (addUsize a b) (addUsize a b) S s t := by
  unfold addUsize
  exact sim_ite (fun _ => sim_pure h) fun _ => sim_panic _

theorem sim_pageRoundUp {σ τ : Type} {x : ℕ} {S : ℕ → ℕ → σ → τ → Prop} {s : σ} {t : τ}
    (h : ∀ y, S y y s t) : Sim (pageRoundUp x) (pageRoundUp x) S s t :=
  sim_bind (sim_addUsize (sim_pure (h _)))

/-- A read of the inode delivers the bytes that the content has there. -/
theorem sim_readi {f : Option (List UInt8) → KernelM α} {p : RamM α}
    {S : α → α → Kernel → Ram → Prop} (h : Beside k₀ inode content k ram)
    (hnext : ∀ k', Beside k₀ inode content k' ram → Sim (f (readi content off len)) p S k' ram) :
    Sim (onFs (Fs.readi inode off len) >>= f) p S k ram := by
  obtain ⟨hst, n, c, href, hdata⟩ := h.file
  have hn := (hst.live inode n c href).1
  refine sim_left ?_
  rw [onFs, wp_zoom]
  refine Fs.wp_readi hst href (fun hbig => ?_) fun t hoff hq hrefs => ?_
  · have hno : readi content off len = none := if_neg (by omega)
    rw [← hno]
    exact hnext k h
  · have hsome : readi content off len = some ((content.drop off).take len) := if_pos hoff
    rw [hdata, ← hsome]
    refine hnext _ ⟨by rw [h.rest], ⟨hq.stable, n, c, hrefs ▸ href, ?_⟩, h.quiet.trans hq,
      hrefs.trans h.refs⟩
    rw [hq.file n hn, hdata]

theorem sim_readExactInode {f : Option (List UInt8) → KernelM α} {p : RamM α}
    {S : α → α → Kernel → Ram → Prop} (h : Beside k₀ inode content k ram)
    (hnext : ∀ k', Beside k₀ inode content k' ram →
      Sim (f (ToyOs.readExactInode content off len)) p S k' ram) :
    Sim (readExactInode inode off len >>= f) p S k ram := by
  unfold readExactInode
  rw [Prog.bind_assoc]
  refine sim_readi h fun k' hk => ?_
  have hk' := hnext k' hk
  unfold ToyOs.readExactInode at hk'
  cases hr : readi content off len with
  | none =>
    rw [hr] at hk'
    exact hk'
  | some bytes =>
    rw [hr] at hk'
    exact hk'

theorem sim_fillPage (h : Beside k₀ inode content k ram) :
    Sim (fillPage ph inode pa off) (ToyOs.fillPage ph content pa off) (Same k₀ inode content)
      k ram := by
  unfold fillPage ToyOs.fillPage
  refine sim_ite (fun _ => sim_bind (sim_addUsize (sim_readi h fun k' hk => ?_)))
    fun _ => sim_pure ⟨rfl, h⟩
  cases readi content (ph.offset + off) (min pgSize (ph.filesz - off)) with
  | none => exact sim_pure ⟨rfl, hk⟩
  | some bytes => exact sim_bind (sim_mono (sim_onRam _ hk) fun _ _ _ _ hS => sim_pure ⟨rfl, hS.2⟩)

/-- Two steps on memory end every failure exit. -/
theorem sim_exit (p q : RamM Unit) (h : Beside k₀ inode content k ram) :
    Sim (do onRam p; onRam q; pure none : KernelM (Option α)) (do p; q; pure none)
      (Same k₀ inode content) k ram := by
  refine sim_bind (sim_mono (sim_onRam p h) fun _ _ _ _ hS => ?_)
  exact sim_bind (sim_mono (sim_onRam q hS.2) fun _ _ _ _ hS' => sim_pure ⟨rfl, hS'.2⟩)

theorem sim_exit_one (p : RamM Unit) (h : Beside k₀ inode content k ram) :
    Sim (do onRam p; pure none : KernelM (Option α)) (do p; pure none)
      (Same k₀ inode content) k ram :=
  sim_bind (sim_mono (sim_onRam p h) fun _ _ _ _ hS => sim_pure ⟨rfl, hS.2⟩)

theorem sim_loadSegmentLoop {n mapped : ℕ} (h : Beside k₀ inode content k ram) :
    Sim (loadSegmentLoop L pt ph inode n mapped) (ToyOs.loadSegmentLoop L pt ph content n mapped)
      (Same k₀ inode content) k ram := by
  induction n generalizing mapped k ram with
  | zero => exact sim_pure ⟨rfl, h⟩
  | succ n ih =>
    refine sim_bind (sim_mono (sim_onRam _ h) ?_)
    rintro o _ k1 ram1 ⟨rfl, h1⟩
    cases o with
    | none => exact sim_exit_one _ h1
    | some pa =>
      refine sim_bind (sim_mono (sim_fillPage h1) ?_)
      rintro b _ k2 ram2 ⟨rfl, h2⟩
      refine sim_ite (fun _ => ?_) fun _ => sim_exit _ _ h2
      refine sim_bind (sim_addUsize (sim_bind (sim_mono (sim_onRam _ h2) ?_)))
      rintro o _ k3 ram3 ⟨rfl, h3⟩
      cases o with
      | none => exact sim_exit _ _ h3
      | some _ => exact sim_bind (sim_addUsize (ih h3))

theorem sim_loadSegmentFromInode (h : Beside k₀ inode content k ram) :
    Sim (loadSegmentFromInode L pt ph inode) (ToyOs.loadSegmentFromInode L pt ph content)
      (Same k₀ inode content) k ram :=
  sim_ite (fun _ => sim_pure ⟨rfl, h⟩) fun _ =>
    sim_ite (fun _ => sim_pure ⟨rfl, h⟩) fun _ => sim_loadSegmentLoop h

theorem sim_loadHeaders {e : Ehdr} {n i sz : ℕ} (h : Beside k₀ inode content k ram) :
    Sim (loadHeaders L pt inode e n i sz) (ToyOs.loadHeaders L pt content e n i sz)
      (Same k₀ inode content) k ram := by
  induction n generalizing i sz k ram with
  | zero => exact sim_pure ⟨rfl, h⟩
  | succ n ih =>
    unfold loadHeaders ToyOs.loadHeaders readPhdr
    refine sim_readExactInode h fun k1 h1 => ?_
    cases ToyOs.readExactInode content (e.phoff + i * e.phentsize) phdrSize with
    | none => exact sim_pure ⟨rfl, h1⟩
    | some buf =>
      simp only [Option.map_some]
      generalize Phdr.ofBytes buf = ph
      refine sim_ite (fun _ => ih h1) fun _ => ?_
      refine sim_bind (sim_mono (sim_loadSegmentFromInode h1) ?_)
      rintro o _ k2 ram2 ⟨rfl, h2⟩
      cases o with
      | none => exact sim_exit_one _ h2
      | some _ => exact sim_bind (sim_addUsize (ih h2))

/-- The loader on the inode does to memory what it does on the file's bytes. -/
theorem sim_loadElfFromInode (h : Beside k₀ inode content k ram) :
    Sim (loadElfFromInode L pt inode) (ToyOs.loadElfFromInode L pt content)
      (Same k₀ inode content) k ram := by
  unfold loadElfFromInode ToyOs.loadElfFromInode readEhdr
  refine sim_readExactInode h fun k1 h1 => ?_
  cases ToyOs.readExactInode content 0 ehdrSize with
  | none => exact sim_pure ⟨rfl, h1⟩
  | some buf =>
    dsimp only
    generalize Ehdr.ofBytes buf = e
    by_cases hacc : e.accepted = true
    · rw [if_pos hacc, if_pos hacc]
      cases checkedMul e.phnum e.phentsize with
      | none => exact sim_pure ⟨rfl, h1⟩
      | some size =>
        dsimp only
        cases checkedAdd e.phoff size with
        | none => exact sim_pure ⟨rfl, h1⟩
        | some _ =>
          refine sim_bind (sim_mono (sim_loadHeaders h1) ?_)
          rintro o _ k2 ram2 ⟨rfl, h2⟩
          cases o with
          | none => exact sim_pure ⟨rfl, h2⟩
          | some sz =>
            refine sim_bind (sim_pageRoundUp fun y => sim_bind (sim_mono (sim_onRam _ h2) ?_))
            rintro o _ k3 ram3 ⟨rfl, h3⟩
            cases o with
            | none => exact sim_pure ⟨rfl, h3⟩
            | some _ => exact sim_pure ⟨rfl, h3⟩
    · rw [if_neg hacc, if_neg hacc]
      exact sim_pure ⟨rfl, h1⟩

end ToyOs.OnInode
