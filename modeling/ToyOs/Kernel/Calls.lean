import ToyOs.Kernel.Transfers
import ToyOs.Kernel.Fork

/-!
What a system call can do to the tables of the kernel, said once for all
calls. Most calls only touch memory, the file system and fields of their own
process; the others have an effect of their own. A call leaves a kernel in
which nothing is in flight, and the hart runs the caller unless it was put to
sleep.
-/
namespace ToyOs

open Bytes Prog Function

/-- The files are the same but for the offsets of open inodes. -/
def Shifted (Ft Ft' : FileRef → File) : Prop :=
  ∀ f, Ft' f = Ft f ∨ ∃ ip off off' append,
    (Ft f).kind = .inode ip off append ∧ Ft' f = { Ft f with kind := .inode ip off' append }

section Shifted

variable {Ft Ft' Ft'' : FileRef → File} {f : FileRef}

theorem Shifted.refl : Shifted Ft Ft := fun _ => .inl rfl

theorem Shifted.frame (h : Shifted Ft Ft') (f : FileRef) :
    (Ft' f).refcnt = (Ft f).refcnt ∧ (Ft' f).readable = (Ft f).readable ∧
      (Ft' f).writable = (Ft f).writable := by
  rcases h f with h | ⟨ip, off, off', append, -, h⟩ <;> rw [h] <;> exact ⟨rfl, rfl, rfl⟩

theorem Shifted.pipe_iff (h : Shifted Ft Ft') {p : PipeRef} :
    (Ft' f).kind = .pipe p ↔ (Ft f).kind = .pipe p := by
  rcases h f with h | ⟨ip, off, off', append, hkind, h⟩
  · rw [h]
  · rw [h, hkind]
    simp only [reduceCtorEq]

theorem Shifted.none_iff (h : Shifted Ft Ft') : (Ft' f).kind = .none ↔ (Ft f).kind = .none := by
  rcases h f with h | ⟨ip, off, off', append, hkind, h⟩
  · rw [h]
  · rw [h, hkind]
    simp only [reduceCtorEq]

theorem Shifted.advance {ip : Fs.InodeRef} {off : ℕ} {append : Bool} (h : Shifted Ft Ft')
    (hkind : (Ft' f).kind = .inode ip off append) (off' : ℕ) :
    Shifted Ft (update Ft' f { Ft' f with kind := .inode ip off' append }) := by
  intro g
  by_cases hg : g = f
  · subst hg
    rw [update_self]
    rcases h g with heq | ⟨ip', off₁, off₂, append', hold, heq⟩
    · rw [heq] at hkind ⊢
      exact .inr ⟨ip, off, off', append, hkind, rfl⟩
    · rw [heq] at hkind ⊢
      obtain ⟨rfl, rfl, rfl⟩ := FileKind.inode.inj hkind
      exact .inr ⟨ip', off₁, off', append', hold, rfl⟩
  · rw [update_of_ne hg]
    exact h g

variable {x : List FileRef} {y : Option PipeRef} {P : ProcRef → Process} {Pi : PipeRef → Pipe}
  {In : Input} {cur : Option ProcRef}

theorem Shifted.endOpen_iff (h : Shifted Ft Ft') {p : PipeRef} {w : Bool} :
    EndOpen Ft' p w ↔ EndOpen Ft p w := by
  simp only [EndOpen, h.pipe_iff, (h.frame _).2.2]

theorem Accounts.shift (h : Accounts x y P Ft Pi) (hs : Shifted Ft Ft') : Accounts x y P Ft' Pi where
  count f := by rw [(hs.frame f).1, h.count]
  closed f hf := by
    rw [(hs.frame f).1] at hf
    exact hs.none_iff.mpr (h.closed f hf)
  oneWay f p hf := by
    rw [(hs.frame f).2.1, (hs.frame f).2.2]
    exact h.oneWay f p (hs.pipe_iff.mp hf)
  unique f g p hf hg hw := by
    rw [(hs.frame f).2.2, (hs.frame g).2.2] at hw
    exact h.unique f g p (hs.pipe_iff.mp hf) (hs.pipe_iff.mp hg) hw
  reading p := by rw [h.reading, hs.endOpen_iff]
  writing p := by rw [h.writing, hs.endOpen_iff]
  used := h.used
  new f p hy := by
    rw [ne_eq, hs.pipe_iff]
    exact h.new f p hy

theorem Tables.shift (h : Tables x y cur P Ft Pi In) (hs : Shifted Ft Ft') :
    Tables x y cur P Ft' Pi In := by
  apply h.set (h.accounts.shift hs)
  · intro i hi
    apply (h.parked i hi).files
    intro fd f q _ hkind
    exact ⟨hs.pipe_iff.mpr hkind, (hs.frame f).2.2⟩
  · exact fun _ _ _ _ hw => hw

end Shifted

/-- What a call without an effect on the tables leaves. -/
structure Local (i : ProcRef) (k k' : Kernel) : Prop where
  others : ∀ j, j ≠ i → k'.procs j = k.procs j
  ofile : (k'.procs i).ofile = (k.procs i).ofile
  life : (k'.procs i).life = (k.procs i).life
  files : Shifted k.ftable k'.ftable
  pipes : k'.pipes = k.pipes
  input : k'.input = k.input
  nextPid : k'.nextPid = k.nextPid
  initproc : k'.initproc = k.initproc

/-- In the middle of a call that has had no effect on the tables. -/
structure InCall (i : ProcRef) (k k' : Kernel) : Prop extends Local i k k' where
  hart : Hart [] (some i) k'.cpu k'.held
  running : (k'.procs i).state = .running
  fs : Fs.Resting k'.fs

variable {L : Layout} {k k₀ : Kernel} {E : Panic → Prop} {i : ProcRef} {α : Type}

theorem Steady.inCall (h : Steady [] [] none (some i) k) : InCall i k k where
  others _ _ := rfl
  ofile := rfl
  life := rfl
  files := .refl
  pipes := rfl
  input := rfl
  nextPid := rfl
  initproc := rfl
  hart := h.hart
  running := h.running
  fs := h.fs

theorem InCall.steady (h : InCall i k₀ k) (h₀ : Steady [] [] none (some i) k₀) :
    Steady [] [] none (some i) k := by
  have hprocs : k.procs = update k₀.procs i (k.procs i) := by
    funext j
    by_cases hj : j = i
    · subst hj
      rw [update_self]
    · rw [update_of_ne hj, h.others j hj]
  refine ⟨h.hart, ?_, h.fs⟩
  rw [hprocs, h.pipes, h.input]
  exact (h₀.tables.own (h₀.tables.accounts.congr (ofile_update h.ofile)) h.running h.life).shift h.files

section Keeps

theorem keeps_onRam (hE : ∀ e, e.Benign → E e) {m : RamM α} (hm : Mild m) :
    Keeps E (InCall i k₀) (onRam m) := by
  intro k hk
  apply wp_onRam hE hm
  exact fun a r => ⟨⟨hk.others, hk.ofile, hk.life, hk.files, hk.pipes, hk.input, hk.nextPid,
    hk.initproc⟩, hk.hart, hk.running, hk.fs⟩

theorem keeps_onFs (hE : ∀ e, e.Benign → E e) {m : Fs.FsM α} (hm : Fs.Calm m) :
    Keeps E (InCall i k₀) (onFs m) := by
  intro k hk
  apply wp_onFs hE hm hk.fs
  exact fun a s hs => ⟨⟨hk.others, hk.ofile, hk.life, hk.files, hk.pipes, hk.input, hk.nextPid,
    hk.initproc⟩, hk.hart, hk.running, hs⟩

theorem keeps_myproc {f : ProcRef → KernelM α} (hf : Keeps E (InCall i k₀) (f i)) :
    Keeps E (InCall i k₀) (myproc >>= f) := by
  intro k hk
  rw [wp_bind]
  exact wp_myproc hk.hart (hf k hk)

theorem keeps_getProc {j : ProcRef} : Keeps E (InCall i k₀) (getProc j) := fun _ hk => hk

theorem keeps_modifyProc {g : Process → Process}
    (hg : ∀ p, (g p).ofile = p.ofile ∧ (g p).life = p.life ∧ (g p).state = p.state) :
    Keeps E (InCall i k₀) (modifyProc i g) := by
  intro k hk
  obtain ⟨hofile, hlife, hstate⟩ := hg (k.procs i)
  rw [wp_modifyProc]
  refine ⟨⟨fun j hj => ?_, ?_, ?_, hk.files, hk.pipes, hk.input, hk.nextPid, hk.initproc⟩, hk.hart,
    ?_, hk.fs⟩
  · simp only [update_of_ne hj, hk.others j hj]
  · simp only [update_self, hofile, hk.ofile]
  · simp only [update_self, hlife, hk.life]
  · simp only [update_self, hstate, hk.running]

theorem keeps_consoleWriteBytes {bytes : List UInt8} :
    Keeps E (InCall i k₀) (consoleWriteBytes bytes) := by
  intro k hk
  refine wp_consoleWriteBytes hk.hart fun u c held hh => ?_
  exact ⟨⟨hk.others, hk.ofile, hk.life, hk.files, hk.pipes, hk.input, hk.nextPid, hk.initproc⟩,
    hh, hk.running, hk.fs⟩

end Keeps

/-- A call that returns and has no effect on the tables. -/
def Quiet (E : Panic → Prop) (i : ProcRef) (k₀ : Kernel) (m : KernelM Result) : Prop :=
  ∀ k, InCall i k₀ k → m.wp E (fun r k' => r ≠ .blocked ∧ InCall i k₀ k') k

theorem calm_fileContent {r : Fs.InodeRef} : Fs.Calm (fileContent r) := by
  refine keeps_bind Fs.calm_readi fun bytes => ?_
  cases bytes with
  | none => exact keeps_pure
  | some bytes => exact keeps_pure

section Quiet

variable {tf : ℕ}

theorem quiet_done {v : SyscallResult} : Quiet E i k₀ (pure (.done v)) :=
  fun _ hk => ⟨by simp, hk⟩

theorem quiet_bind {m : KernelM α} {f : α → KernelM Result} (hm : Keeps E (InCall i k₀) m)
    (hf : ∀ a, Quiet E i k₀ (f a)) : Quiet E i k₀ (m >>= f) := by
  intro k hk
  rw [wp_bind]
  exact wp_post (hm k hk) fun a k' => hf a k'

theorem quiet_myproc {f : ProcRef → KernelM Result} (hf : Quiet E i k₀ (f i)) :
    Quiet E i k₀ (myproc >>= f) := by
  intro k hk
  rw [wp_bind]
  exact wp_myproc hk.hart (hf k hk)

theorem quiet_unknownSyscall {num : ℕ} : Quiet E i k₀ (unknownSyscall num) :=
  quiet_bind keeps_consoleWriteBytes fun _ => quiet_done

theorem keeps_getReg {reg : ℕ} (hE : ∀ e, e.Benign → E e) :
    Keeps E (InCall i k₀) (onRam (getReg tf reg)) := keeps_onRam hE mild_getReg

theorem keeps_pathArg {pt : ℕ} (hE : ∀ e, e.Benign → E e) :
    Keeps E (InCall i k₀) (pathArg pt tf) :=
  keeps_bind (keeps_getReg hE) fun _ => keeps_onRam hE mild_copyinstr

variable (hE : ∀ e, e.Benign → E e)
include hE

theorem quiet_finishStat {pt va : ℕ} {st : Option Fs.Stat} : Quiet E i k₀ (finishStat pt va st) := by
  cases st with
  | none => exact quiet_done
  | some st =>
    refine quiet_bind (keeps_onRam hE mild_copyout) fun r => ?_
    cases r with
    | none => exact quiet_done
    | some _ => exact quiet_done

theorem keeps_fileStat {f : FileRef} : Keeps E (InCall i k₀) (fileStat f) := by
  refine keeps_bind keeps_get fun k => ?_
  cases (k.ftable f).kind with
  | inode ip off append => exact keeps_bind (keeps_onFs hE Fs.calm_stati) fun _ => keeps_pure
  | _ => exact keeps_pure

theorem quiet_sysFstat : Quiet E i k₀ (sysFstat tf) := by
  refine quiet_myproc (quiet_bind keeps_getProc fun p => ?_)
  refine quiet_bind (keeps_getReg hE) fun fd => quiet_bind (keeps_getReg hE) fun va => ?_
  cases p.fdFile fd with
  | none => exact quiet_done
  | some f => exact quiet_bind (keeps_fileStat hE) fun _ => quiet_finishStat hE

theorem quiet_sysSbrk : Quiet E i k₀ (sysSbrk L tf) := by
  refine quiet_myproc (quiet_bind keeps_getProc fun p => quiet_bind (keeps_getReg hE) fun n => ?_)
  cases sbrkSize p.sz (toIsize n) with
  | none => exact quiet_done
  | some newsz =>
    refine quiet_bind (keeps_onRam hE mild_uvmalloc) fun r => ?_
    cases r with
    | none => exact quiet_done
    | some _ => exact quiet_bind (keeps_modifyProc fun _ => ⟨rfl, rfl, rfl⟩) fun _ => quiet_done

theorem quiet_sysMkdir : Quiet E i k₀ (sysMkdir tf) := by
  refine quiet_myproc (quiet_bind keeps_getProc fun p => ?_)
  refine quiet_bind (@keeps_pathArg _ _ _ _ _ hE) fun path => ?_
  cases path with
  | none => exact quiet_done
  | some path =>
    refine quiet_bind (keeps_onFs hE Fs.calm_mkdir) fun r => ?_
    cases r with
    | none => exact quiet_done
    | some inode => exact quiet_bind (keeps_onFs hE Fs.calm_iput) fun _ => quiet_done

theorem quiet_sysChdir : Quiet E i k₀ (sysChdir tf) := by
  refine quiet_myproc (quiet_bind keeps_getProc fun p => ?_)
  refine quiet_bind (@keeps_pathArg _ _ _ _ _ hE) fun path => ?_
  cases path with
  | none => exact quiet_done
  | some path =>
    refine quiet_bind (keeps_onFs hE Fs.calm_namei) fun r => ?_
    cases r with
    | none => exact quiet_done
    | some inode =>
      refine quiet_bind (keeps_onFs hE Fs.calm_inodeType) fun typ => ?_
      cases typ with
      | dir =>
        refine quiet_bind (keeps_onFs hE Fs.calm_iput) fun _ => ?_
        exact quiet_bind (keeps_modifyProc fun _ => ⟨rfl, rfl, rfl⟩) fun _ => quiet_done
      | _ => exact quiet_bind (keeps_onFs hE Fs.calm_iput) fun _ => quiet_done

theorem keeps_execFromInode {content : List UInt8} {argv : KernelArgs} :
    Keeps E (InCall i k₀) (execFromInode L content argv) := by
  refine keeps_myproc (keeps_bind keeps_getProc fun p => ?_)
  refine keeps_bind (keeps_onRam hE mild_procPagetable) fun r => ?_
  cases r with
  | none => exact keeps_pure
  | some pt =>
    refine keeps_bind (keeps_onRam hE mild_loadElfFromInode) fun r => ?_
    cases r with
    | none => exact keeps_bind (keeps_onRam hE mild_procFreepagetable) fun _ => keeps_pure
    | some image =>
      refine keeps_bind (keeps_onRam hE mild_pushArgv) fun r => ?_
      cases r with
      | none => exact keeps_bind (keeps_onRam hE mild_procFreepagetable) fun _ => keeps_pure
      | some v =>
        refine keeps_bind (keeps_modifyProc fun _ => ⟨rfl, rfl, rfl⟩) fun _ => ?_
        refine keeps_bind (keeps_onRam hE mild_execRegs) fun _ => ?_
        exact keeps_bind (keeps_onRam hE mild_procFreepagetable) fun _ => keeps_pure

theorem quiet_sysExecArgs {pt va pa : ℕ} {inode : Fs.InodeRef} :
    Quiet E i k₀ (sysExecArgs L pt va pa inode) := by
  refine quiet_bind (keeps_onRam hE mild_copyArgv) fun r => ?_
  cases r with
  | none =>
    refine quiet_bind (keeps_onRam hE mild_kfree) fun _ => ?_
    exact quiet_bind (keeps_onFs hE Fs.calm_iput) fun _ => quiet_done
  | some kargs =>
    refine quiet_bind (keeps_onFs hE calm_fileContent) fun content => ?_
    refine quiet_bind (keeps_execFromInode hE) fun r => ?_
    refine quiet_bind (keeps_onFs hE Fs.calm_iput) fun _ => ?_
    refine quiet_bind (keeps_onRam hE mild_kfree) fun _ => ?_
    cases r with
    | none => exact quiet_done
    | some _ => exact quiet_done

theorem quiet_sysExec : Quiet E i k₀ (sysExec L tf) := by
  refine quiet_myproc (quiet_bind keeps_getProc fun p => ?_)
  refine quiet_bind (@keeps_pathArg _ _ _ _ _ hE) fun path => ?_
  cases path with
  | none => exact quiet_done
  | some path =>
    refine quiet_bind (keeps_onFs hE Fs.calm_namei) fun r => ?_
    cases r with
    | none => exact quiet_done
    | some inode =>
      refine quiet_bind (keeps_getReg hE) fun va => quiet_bind (keeps_onRam hE mild_kallocZeroed) fun r => ?_
      cases r with
      | none => exact quiet_bind (keeps_onFs hE Fs.calm_iput) fun _ => quiet_done
      | some pa => exact quiet_sysExecArgs hE

end Quiet

end ToyOs
