import ToyOs.Kernel.Change
import ToyOs.Kernel.Init

/-!
The start of the kernel. `userinit` leaves a sound kernel with one process,
which has the console open three times.
-/
namespace ToyOs

open Prog Function

variable {L : Layout} {k : Kernel} {E : Panic → Prop} {i : ProcRef}

/-- A kernel with one process, which has not run yet. -/
structure Started (ls : List Lock) (i : ProcRef) (k : Kernel) : Prop where
  steady : Steady ls [] none none k
  state : (k.procs i).state = .runnable
  cont : (k.procs i).cont = .forkret
  life : (k.procs i).life = ⟨.alive, 1, none, 0⟩
  others : ∀ j, j ≠ i → k.procs j = Process.unused
  pipes : k.pipes = fun _ => Pipe.unused
  input : k.input = ⟨fun _ => 0, 0, 0, 0⟩
  nextPid : k.nextPid = 2
  initproc : k.initproc = some i

theorem tables_initial {In : Input} : Tables [] none none (fun _ => Process.unused)
    (fun _ => File.unused) (fun _ => Pipe.unused) In := by
  constructor
  · constructor <;> simp [File.unused, Pipe.unused, EndOpen, holders, Process.unused]
  all_goals simp [Process.unused, ProcState.status]

theorem tables_first {In : Input} {p : Process} (hstate : p.state = .runnable)
    (hcont : p.cont = .forkret) (hofile : p.ofile = fun _ => none) :
    Tables [] none none (update (fun _ => Process.unused) i p) (fun _ => File.unused)
      (fun _ => Pipe.unused) In := by
  have h : Tables [] none none (fun _ => Process.unused) (fun _ => File.unused)
    (fun _ => Pipe.unused) In := tables_initial
  refine h.replace (h.accounts.congr (ofile_update hofile))
    (fun _ _ => Iff.rfl) ?_ ?_ ?_ ?_ ?_ ?_
  · intro j ch hs
    exact absurd hs ProcState.noConfusion
  · simp [hstate]
  · simp [hstate]
  · intro _
    simp [Parked, hcont]
  · exact fun hne => absurd (by rw [hstate]; rfl) hne
  · simp [hstate]

theorem wp_initFd {fd : Fin nofile} {r w : Bool} {Q : Unit → Kernel → Prop} (hE : E .userinit)
    (h : Started [.proc i] i k) (hfree : (k.procs i).ofile fd = none)
    (hQ : ∀ f k', Started [.proc i] i k' →
      (k'.procs i).ofile = update (k.procs i).ofile fd (some f) → Q () k') :
    (initFd i fd r w).wp E Q k := by
  simp only [initFd, openConsole, wp_bind]
  refine wp_fileAlloc h.steady.hart (by simp) (fun c held hh => ?_) fun f c held hh hf => ?_
  · simpa using hE
  · simp only [wp_bind, wp_modifyFile, wp_pure, wp_expect, update_self,
      update_idem]
    refine ⟨fun a ha => ?_, fun hn => by simp at hn⟩
    obtain rfl := Option.some.inj ha
    rw [wp_modifyProc]
    have hnew : Tables [f] none none k.procs (update k.ftable f ⟨1, r, w, .device consoleMajor⟩)
        k.pipes k.input := h.steady.tables.newFile hf fun p => FileKind.noConfusion
    have htables := Tables.grant hnew h.state h.cont hfree
    refine hQ f _ ⟨⟨hh, htables, h.steady.fs⟩, ?_, ?_, ?_, ?_, h.pipes, h.input, h.nextPid,
      h.initproc⟩ ?_
    · simpa using h.state
    · simpa using h.cont
    · simpa [Process.life] using h.life
    · intro j hj
      simp only [update_of_ne hj]
      exact h.others j hj
    · simp only [update_self]

theorem wp_userinit {ram : Ram} {fs : Fs.State} {uart initElf : List UInt8} {b : Bool}
    {Q : ProcRef → Kernel → Prop} (hE : ∀ e, e.Benign → E e) (hfs : Fs.Resting fs)
    (hQ : ∀ i k, Started [] i k → Q i k) :
    (userinit L initElf).wp E Q (Kernel.initial ram fs uart b) := by
  have hinit : E .userinit := hE _ (by simp [Panic.Benign])
  have hh₀ : Hart [] none (Kernel.initial ram fs uart b).cpu (Kernel.initial ram fs uart b).held := by
    constructor <;> simp [Kernel.initial]
  simp only [userinit, wp_bind]
  refine wp_allocproc hE hh₀ hfs (fun c held _ _ => ?_) (fun c p r s cpu held _ _ _ _ => ?_)
    fun c p r s cpu held hc hp hs hh => ?_
  · simpa using hinit
  · simpa using hinit
  simp only [wp_expect, wp_modify, wp_getProc]
  refine ⟨fun a ha => ?_, fun hn => by simp at hn⟩
  obtain rfl := Option.some.inj ha
  refine wp_onRam hE mild_loadElf fun image r' => ?_
  refine ⟨fun a ha => ?_, fun _ => hinit⟩
  simp only [wp_modifyProc, wp_setReg, update_self, update_idem]
  have hlife := hp.life
  simp only [Process.life, Life.mk.injEq] at hlife
  refine wp_initFd hinit ?_ ?_ fun f₀ k₁ h₁ ho₁ => ?_
  · refine ⟨⟨hh, tables_first rfl rfl hp.ofile, hs⟩, ?_, ?_, ?_, ?_, rfl, rfl, rfl, rfl⟩
    · simp only [update_self]
    · simp only [update_self]
    · simp only [update_self, Process.life, ProcState.status, hlife.2]
      rfl
    · intro j hj
      simp only [update_of_ne hj]
      rfl
  · simp only [update_self, hp.ofile]
  simp only [update_self, hp.ofile] at ho₁
  refine wp_initFd hinit h₁ ?_ fun f₁ k₂ h₂ ho₂ => ?_
  · rw [ho₁, update_of_ne (by decide)]
  refine wp_initFd hinit h₂ ?_ fun f₂ k₃ h₃ ho₃ => ?_
  · rw [ho₂, ho₁, update_of_ne (by decide), update_of_ne (by decide)]
  refine wp_release h₃.steady.hart (List.mem_singleton_self _) fun cpu' held' hh' => ?_
  rw [List.erase_cons_head] at hh'
  exact hQ _ _ ⟨⟨hh', h₃.steady.tables, h₃.steady.fs⟩, h₃.state, h₃.cont, h₃.life, h₃.others,
    h₃.pipes, h₃.input, h₃.nextPid, h₃.initproc⟩

end ToyOs
