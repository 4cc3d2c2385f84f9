import ToyOs.Kernel.Console
import ToyOs.Kernel.Pipes
import ToyOs.RamPanics

/-!
The kernel between two operations of a call: the locks the hart holds, the
invariant of the tables with the references in flight, and the free locks of
the file system. Memory and the file system may change in any way without
touching it. The operations on open files keep it.
-/
namespace ToyOs

open Prog Function List

variable {Q : Unit → Kernel → Prop} {P : ProcRef → Process}

/-- The state of the kernel in the middle of a call. -/
structure Steady (ls : List Lock) (x : List FileRef) (y : Option PipeRef) (cur : Option ProcRef)
    (k : Kernel) : Prop where
  hart : Hart ls cur k.cpu k.held
  tables : Tables x y cur k.procs k.ftable k.pipes k.input
  fs : Fs.Resting k.fs

variable {ls : List Lock} {x : List FileRef} {y : Option PipeRef} {cur : Option ProcRef}
  {k : Kernel} {E : Panic → Prop} {α : Type} {i : ProcRef} {f : FileRef}

/-- Memory and its allocator may do anything but stop with an assertion of the
process layer. -/
theorem wp_onRam (hE : ∀ e, e.Benign → E e) {m : RamM α} (hm : Mild m) {Q : α → Kernel → Prop}
    (hQ : ∀ a r, Q a { k with ram := r }) : (onRam m).wp E Q k := by
  rw [onRam, wp_zoom]
  exact wp_of_keeps hm trivial hE fun a r _ => hQ a r

theorem wp_onFs (hE : ∀ e, e.Benign → E e) {m : Fs.FsM α} (hm : Fs.Calm m)
    (hfs : Fs.Resting k.fs) {Q : α → Kernel → Prop}
    (hQ : ∀ a s, Fs.Resting s → Q a { k with fs := s }) : (onFs m).wp E Q k := by
  rw [onFs, wp_zoom]
  exact wp_of_keeps hm hfs hE hQ

theorem onRam_ok {m : RamM α} {a : α} {k' : Kernel} (h : onRam m k = .ok (a, k')) :
    m k.ram = .ok (a, k'.ram) ∧ k' = { k with ram := k'.ram } := by
  unfold onRam Prog.zoom at h
  cases hm : m k.ram with
  | error e =>
    rw [hm] at h
    exact absurd h (by simp)
  | ok r =>
    rw [hm] at h
    obtain ⟨rfl, rfl⟩ := Prod.mk.inj (Except.ok.inj h)
    exact ⟨rfl, rfl⟩

/-- What a run on the file system says of the file system. -/
theorem onFs_ok {m : Fs.FsM α} {a : α} {k' : Kernel} (h : onFs m k = .ok (a, k')) :
    m k.fs = .ok (a, k'.fs) ∧ k' = { k with fs := k'.fs } := by
  unfold onFs Prog.zoom at h
  cases hm : m k.fs with
  | error e =>
    rw [hm] at h
    exact absurd h (by simp)
  | ok r =>
    rw [hm] at h
    obtain ⟨rfl, rfl⟩ := Prod.mk.inj (Except.ok.inj h)
    exact ⟨rfl, rfl⟩

theorem Steady.ram (h : Steady ls x y cur k) (r : Ram) : Steady ls x y cur { k with ram := r } :=
  ⟨h.hart, h.tables, h.fs⟩

theorem wp_fileAlloc (hh : Hart ls cur k.cpu k.held) (hl : Lock.ftable ∉ ls)
    {Q : Option FileRef → Kernel → Prop}
    (hnone : ∀ c h, Hart ls cur c h → Q none { k with cpu := c, held := h })
    (hsome : ∀ f c h, Hart ls cur c h → (k.ftable f).refcnt = 0 →
      Q (some f) { k with
        ftable := update k.ftable f { File.unused with refcnt := 1 }
        cpu := c, held := h }) :
    fileAlloc.wp E Q k := by
  simp only [fileAlloc, wp_bind]
  refine wp_acquire hh hl fun c h1 hh1 => ?_
  refine wp_firstSome (fun _ t => t = { k with cpu := c, held := h1 }) rfl ?_ ?_
  · rintro t rfl
    refine wp_release hh1 (mem_cons_self ..) fun c' h' hh' => ?_
    rw [erase_cons_head] at hh'
    exact hnone c' h' hh'
  · rintro f rest t - rfl
    simp only [fileAllocTry, wp_bind, wp_get, wp_ite, wp_pure, wp_modifyFile,
      and_true, implies_true]
    intro hfree
    refine wp_release hh1 (mem_cons_self ..) fun c' h' hh' => ?_
    rw [erase_cons_head] at hh'
    exact hsome f c' h' hh' hfree

theorem wp_fileDup (hh : Hart ls cur k.cpu k.held) (hl : Lock.ftable ∉ ls)
    (hpos : 0 < (k.ftable f).refcnt)
    (hQ : ∀ c h, Hart ls cur c h →
      Q () { k with
        ftable := update k.ftable f { k.ftable f with refcnt := (k.ftable f).refcnt + 1 }
        cpu := c, held := h }) :
    (fileDup f).wp E Q k := by
  simp only [fileDup, wp_bind]
  refine wp_acquire hh hl fun c h1 hh1 => ?_
  simp only [wp_get, wp_assert, hpos, decide_true, true_implies, reduceCtorEq,
    false_implies, and_true, wp_modifyFile]
  refine wp_release hh1 (mem_cons_self ..) fun c' h' hh' => ?_
  rw [erase_cons_head] at hh'
  exact hQ c' h' hh'

theorem Steady.dup (h : Steady [] x y cur k) {c : Cpu} {held : Lock → Bool}
    (hh : Hart [] cur c held) :
    Steady [] (f :: x) y cur { k with
      ftable := update k.ftable f { k.ftable f with refcnt := (k.ftable f).refcnt + 1 }
      cpu := c, held := held } := by
  refine ⟨hh, h.tables.setFile h.tables.accounts.dup ?_, h.fs⟩
  exact fun i fd q _ hkind => ⟨hkind, rfl⟩

theorem Steady.alloc (h : Steady [] x y cur k) {c : Cpu} {held : Lock → Bool}
    (hh : Hart [] cur c held) (hf : (k.ftable f).refcnt = 0) :
    Steady [] (f :: x) y cur { k with
      ftable := update k.ftable f { File.unused with refcnt := 1 }
      cpu := c, held := held } := by
  refine ⟨hh, h.tables.setFile (h.tables.accounts.alloc hf) ?_, h.fs⟩
  intro i fd q hfd
  exact absurd hfd (h.tables.accounts.not_held (by omega) i fd)

/-- A closed file is opened for something other than a pipe. -/
theorem Tables.newFile {Ft : FileRef → File} {Pi : PipeRef → Pipe} {In : Input}
    {readable writable : Bool} {kind : FileKind} (h : Tables x y cur P Ft Pi In)
    (hf : (Ft f).refcnt = 0) (hkind : ∀ p, kind ≠ .pipe p) :
    Tables (f :: x) y cur P (update Ft f ⟨1, readable, writable, kind⟩) Pi In := by
  have hold : ∀ p, (Ft f).kind ≠ .pipe p := by
    intro p
    rw [h.accounts.closed f hf]
    exact FileKind.noConfusion
  apply h.setFile
  · have hcount := h.accounts.count f
    refine h.accounts.setFile hold hkind ?_ (fun a ha => ?_) (fun h0 => absurd h0 Nat.one_ne_zero)
    · rw [hf] at hcount
      dsimp only
      rw [count_cons_self]
      omega
    · exact count_cons_of_ne ha.symm
  · intro j fd q hfd
    exact absurd hfd (h.accounts.not_held (by rw [hf]; exact Nat.zero_le _) j fd)

/-- What closing a file does to the tables besides the count. -/
theorem Steady.closed (h : Steady ls (f :: x) y cur k) (hf : (k.ftable f).refcnt = 1) (i : ProcRef)
    (fd : Fin nofile) : (k.procs i).ofile fd ≠ some f :=
  h.tables.accounts.not_held (by rw [hf, count_cons_self]; omega) i fd

/-- The pipe of a closed end: its peer is woken. -/
theorem Tables.closePipe {Ft : FileRef → File} {Pi : PipeRef → Pipe} {In : Input} {p : PipeRef}
    {w : Bool} (h : Tables (f :: x) y cur P Ft Pi In) (hf : (Ft f).refcnt = 1)
    (hkind : (Ft f).kind = .pipe p) (hw : (Ft f).writable = w) :
    Tables x y cur (fun i => wakeProc (peerChan p w) (P i)) (update Ft f File.unused)
      (update Pi p ((Pi p).closeEnd w)) In := by
  have hheld : ∀ i fd, (P i).ofile fd ≠ some f :=
    h.accounts.not_held (by rw [hf, count_cons_self]; omega)
  apply h.wake (h.accounts.closePipe hf hkind hw)
  · intro i hi
    apply (h.parked i hi).files
    intro fd a q hfd hkind
    have ha : a ≠ f := by
      rintro rfl
      exact hheld i fd hfd
    rw [update_of_ne ha]
    exact ⟨hkind, rfl⟩
  · intro ch hch hwaits
    have hcontents : ((Pi p).closeEnd w).contents = (Pi p).contents := by
      cases w <;> simp only [Pipe.closeEnd] <;> split_ifs <;> rfl
    have hread : ((Pi p).closeEnd w).nread = (Pi p).nread := congrArg Contents.nread hcontents
    have hwrite : ((Pi p).closeEnd w).nwrite = (Pi p).nwrite := congrArg Contents.nwrite hcontents
    cases ch with
    | proc i => exact hwaits
    | input => exact hwaits
    | pipeRead q =>
      by_cases hq : q = p
      · subst hq
        cases w with
        | true => exact absurd rfl hch
        | false =>
          simpa [Waits, hread, hwrite, Pipe.closeEnd_writeopen] using hwaits
      · simpa [Waits, update_of_ne hq] using hwaits
    | pipeWrite q =>
      by_cases hq : q = p
      · subst hq
        cases w with
        | false => exact absurd rfl hch
        | true =>
          simpa [Waits, hread, hwrite, Pipe.closeEnd_readopen] using hwaits
      · simpa [Waits, update_of_ne hq] using hwaits

theorem closeEnd_contents {q : Pipe} {w : Bool} : (q.closeEnd w).contents = q.contents := by
  cases w <;> simp only [Pipe.closeEnd] <;> split_ifs <;> rfl

/-- A file with one reference less. -/
def File.dropRef (g : File) : File :=
  if g.refcnt = 1 then File.unused else { g with refcnt := g.refcnt - 1 }

/-- The pipes once a reference to the file is gone. -/
def File.dropPipes (g : File) (Pi : PipeRef → Pipe) : PipeRef → Pipe :=
  match g.kind with
  | .pipe p => if g.refcnt = 1 then Function.update Pi p ((Pi p).closeEnd g.writable) else Pi
  | _ => Pi

/-- The file stands for an inode. -/
def File.OfInode (g : File) : Prop := ∃ ip off append, g.kind = .inode ip off append

/-- What the file system does when a reference to the file is gone. -/
def File.dropInode (g : File) : Fs.FsM Unit :=
  match g.kind with
  | .inode ip _ _ => if g.refcnt = 1 then Fs.iput ip else pure ()
  | _ => pure ()

/-- What dropping a reference to a file changes: its count, and with the last
reference what the file stands for. Processes are at most woken. -/
structure Closing (f : FileRef) (k k' : Kernel) : Prop where
  obs : k'.obs = k.obs
  procs : ∀ i, ∃ st, k'.procs i = { k.procs i with state := st }
  ram : k'.ram = k.ram
  ftable : k'.ftable = Function.update k.ftable f (k.ftable f).dropRef
  pipes : k'.pipes = (k.ftable f).dropPipes k.pipes
  fs : (k.ftable f).dropInode k.fs = .ok ((), k'.fs)

theorem Closing.ofile {k' : Kernel} (h : Closing f k k') (i : ProcRef) :
    (k'.procs i).ofile = (k.procs i).ofile := by
  obtain ⟨st, hst⟩ := h.procs i
  rw [hst]

theorem wakeProc_state {chan : Option Chan} (p : Process) :
    ∃ st, wakeProc chan p = { p with state := st } := by
  unfold wakeProc
  split_ifs
  · exact ⟨.runnable, rfl⟩
  · exact ⟨p.state, rfl⟩

theorem wp_fileClose (hE : (k.ftable f).OfInode → ∀ e, e.Benign → E e)
    (h : Steady [] (f :: x) y cur k) (hQ : ∀ k', Steady [] x y cur k' → Closing f k k' → Q () k') :
    (fileClose f).wp E Q k := by
  have hpos : 0 < (k.ftable f).refcnt := h.tables.accounts.refcnt_pos_of_mem mem_cons_self
  simp only [fileClose, wp_bind]
  refine wp_acquire h.hart not_mem_nil fun c h1 hh1 => ?_
  simp only [wp_get, wp_assert, hpos, decide_true, true_implies, reduceCtorEq,
    false_implies, and_true, wp_modifyFile, wp_ite, wp_bind, update_self,
    update_idem]
  constructor
  · intro hlast
    refine wp_release hh1 (mem_singleton_self _) fun c2 h2 hh2 => ?_
    rw [erase_cons_head] at hh2
    have hunused : File.mk ((k.ftable f).refcnt - 1) false false .none = File.unused := by
      rw [hlast]
      rfl
    have hdrop : (k.ftable f).dropRef = File.unused := if_pos hlast
    -- A file that is no end of a pipe is closed with at most its inode.
    have hplain : ∀ s, Fs.Resting s → (∀ p, (k.ftable f).kind ≠ .pipe p) →
        (k.ftable f).dropInode k.fs = .ok ((), s) →
        Q () { k with ftable := update k.ftable f File.unused, cpu := c2, held := h2, fs := s } := by
      intro s hs hnot hfs
      apply hQ
      · refine ⟨hh2, h.tables.setFile (h.tables.accounts.close hlast hnot) ?_, hs⟩
        exact fun i fd q hfd => absurd hfd (h.closed hlast i fd)
      · refine ⟨rfl, fun i => ⟨_, rfl⟩, rfl, by rw [hdrop], ?_, hfs⟩
        unfold File.dropPipes
        cases hkind : (k.ftable f).kind with
        | pipe p => exact absurd hkind (hnot p)
        | _ => rfl
    simp only [hunused]
    cases hkind : (k.ftable f).kind with
    | pipe p =>
      refine wp_pipeClose hh2 fun c3 h3 hh3 => ?_
      apply hQ
      · exact ⟨hh3, h.tables.closePipe hlast hkind rfl, h.fs⟩
      · refine ⟨?_, fun i => wakeProc_state _, rfl, by rw [hdrop], ?_, ?_⟩
        · simp only [Kernel.obs, wakeProc_life, Obs.mk.injEq, true_and, and_true]
          funext q
          by_cases hq : q = p
          · subst hq
            rw [update_self, closeEnd_contents]
          · rw [update_of_ne hq]
        · simp only [File.dropPipes, hkind, hlast, if_true]
        · simp only [File.dropInode, hkind]
          rfl
    | inode ip off append =>
      refine wp_run (wp_onFs (hE ⟨ip, off, append, hkind⟩) Fs.calm_iput (by exact h.fs) fun _ s hs hrun => ?_)
      refine hplain s hs (by simp [hkind]) ?_
      simp only [File.dropInode, hkind, hlast, if_true]
      exact (onFs_ok hrun).1
    | device major => exact hplain k.fs h.fs (by simp [hkind]) (by simp only [File.dropInode, hkind]; rfl)
    | none => exact hplain k.fs h.fs (by simp [hkind]) (by simp only [File.dropInode, hkind]; rfl)
  · intro hmore
    refine wp_release hh1 (mem_singleton_self _) fun c2 h2 hh2 => ?_
    rw [erase_cons_head] at hh2
    apply hQ
    · refine ⟨hh2, h.tables.setFile (h.tables.accounts.drop (by omega)) ?_, h.fs⟩
      exact fun i fd q hfd hkind => ⟨hkind, rfl⟩
    · refine ⟨rfl, fun i => ⟨_, rfl⟩, rfl, by rw [File.dropRef, if_neg hmore], ?_, ?_⟩
      · unfold File.dropPipes
        cases (k.ftable f).kind <;> simp only [hmore, if_false]
      · unfold File.dropInode
        cases (k.ftable f).kind <;> simp only [hmore, if_false] <;> rfl

end ToyOs
