import ToyOs.Kernel.Hart
import ToyOs.Kernel.File
import Mathlib.Data.Fintype.Prod
import Mathlib.Data.Finset.Card

/-!
Accounting of open files and pipes. A file counts the descriptors that point
at it; a pipe is in use while one of its two files is open. In the middle of a
call there are references that no descriptor holds yet, or no longer: the
accounts carry them as a list, together with a pipe whose files are not made
yet.
-/
namespace ToyOs

open Function List Nat

/-- The descriptors that point at a file. -/
def holders (P : ProcRef → Process) (f : FileRef) : Finset (ProcRef × Fin nofile) :=
  Finset.univ.filter fun a => (P a.1).ofile a.2 = some f

/-- Some file of the table is an end of the pipe. -/
def EndOpen (Ft : FileRef → File) (p : PipeRef) (writable : Bool) : Prop :=
  ∃ f, (Ft f).kind = .pipe p ∧ (Ft f).writable = writable

structure Accounts (x : List FileRef) (y : Option PipeRef) (P : ProcRef → Process)
    (Ft : FileRef → File) (Pi : PipeRef → Pipe) : Prop where
  count : ∀ f, (Ft f).refcnt = (holders P f).card + x.count f
  closed : ∀ f, (Ft f).refcnt = 0 → (Ft f).kind = .none
  oneWay : ∀ f p, (Ft f).kind = .pipe p → (Ft f).readable = !(Ft f).writable
  unique : ∀ f g p, (Ft f).kind = .pipe p → (Ft g).kind = .pipe p →
    (Ft f).writable = (Ft g).writable → f = g
  reading : ∀ p, (Pi p).readopen = true ↔ y = some p ∨ EndOpen Ft p false
  writing : ∀ p, (Pi p).writeopen = true ↔ y = some p ∨ EndOpen Ft p true
  used : ∀ p, (Pi p).used = true ↔ (Pi p).readopen = true ∨ (Pi p).writeopen = true
  new : ∀ f p, y = some p → (Ft f).kind ≠ .pipe p

variable {x : List FileRef} {y : Option PipeRef} {P P' : ProcRef → Process} {Ft : FileRef → File}
  {Pi : PipeRef → Pipe} {f : FileRef} {i : ProcRef} {fd : Fin nofile}

theorem mem_holders {a : ProcRef × Fin nofile} : a ∈ holders P f ↔ (P a.1).ofile a.2 = some f := by
  simp [holders]

theorem holders_congr (h : ∀ i, (P' i).ofile = (P i).ofile) : holders P' f = holders P f := by
  ext a
  rw [mem_holders, mem_holders, h]

/-- A process with one descriptor changed. -/
def Process.setFd (p : Process) (fd : Fin nofile) (v : Option FileRef) : Process :=
  { p with ofile := Function.update p.ofile fd v }

theorem Process.setFd_ofile {p : Process} {v : Option FileRef} {e : Fin nofile} :
    (p.setFd fd v).ofile e = if e = fd then v else p.ofile e := update_apply ..

theorem mem_holders_setFd {v : Option FileRef} {a : ProcRef × Fin nofile} :
    a ∈ holders (update P i ((P i).setFd fd v)) f ↔
      (a = (i, fd) ∧ v = some f) ∨ (a ≠ (i, fd) ∧ a ∈ holders P f) := by
  obtain ⟨j, e⟩ := a
  rw [mem_holders, mem_holders, update_apply, Prod.mk.injEq, ne_eq, Prod.mk.injEq]
  by_cases hj : j = i
  · subst hj
    rw [if_pos rfl, Process.setFd_ofile]
    by_cases he : e = fd <;> simp [he]
  · rw [if_neg hj]
    simp [hj]

theorem card_holders_link (hfree : (P i).ofile fd = none) (g : FileRef) :
    (holders (update P i ((P i).setFd fd (some f))) g).card =
      (holders P g).card + [f].count g := by
  have hnot : (i, fd) ∉ holders P g := by
    rw [mem_holders, hfree]
    exact Option.some_ne_none g |>.symm
  by_cases hg : f = g
  · subst hg
    have heq : holders (update P i ((P i).setFd fd (some f))) f =
        insert (i, fd) (holders P f) := by
      ext a
      rw [mem_holders_setFd, Finset.mem_insert]
      by_cases ha : a = (i, fd) <;> simp [ha]
    rw [heq, Finset.card_insert_of_notMem hnot, count_singleton_self]
  · have heq : holders (update P i ((P i).setFd fd (some f))) g = holders P g := by
      ext a
      rw [mem_holders_setFd]
      by_cases ha : a = (i, fd)
      · subst ha
        simp [hg, hnot]
      · simp [ha]
    rw [heq, count_singleton, if_neg (by simpa using hg), add_zero]

theorem card_holders_unlink (hold : (P i).ofile fd = some f) (g : FileRef) :
    (holders P g).card =
      (holders (update P i ((P i).setFd fd none)) g).card + [f].count g := by
  have hback : update (update P i ((P i).setFd fd none)) i
      ((update P i ((P i).setFd fd none) i).setFd fd (some f)) = P := by
    rw [update_idem, update_self]
    have hsame : ((P i).setFd fd none).setFd fd (some f) = P i := by
      rw [Process.setFd, Process.setFd, update_idem, ← hold, update_eq_self]
    rw [hsame, update_eq_self]
  have hempty : (update P i ((P i).setFd fd none) i).ofile fd = none := by
    rw [update_self, Process.setFd_ofile, if_pos rfl]
  have hcard := card_holders_link (f := f) hempty g
  rwa [hback] at hcard

theorem holders_pos (h : (P i).ofile fd = some f) : 0 < (holders P f).card :=
  Finset.card_pos.mpr ⟨(i, fd), mem_holders.mpr h⟩

namespace Accounts

theorem congr (h : Accounts x y P Ft Pi) (hP : ∀ i, (P' i).ofile = (P i).ofile) :
    Accounts x y P' Ft Pi where
  count f := by rw [h.count, holders_congr hP]
  closed := h.closed
  oneWay := h.oneWay
  unique := h.unique
  reading := h.reading
  writing := h.writing
  used := h.used
  new := h.new

/-- A file that a descriptor points at is open. -/
theorem refcnt_pos (h : Accounts x y P Ft Pi) (hf : (P i).ofile fd = some f) :
    0 < (Ft f).refcnt := by
  rw [h.count]
  exact Nat.add_pos_left (holders_pos hf) _

theorem refcnt_pos_of_mem (h : Accounts x y P Ft Pi) (hf : f ∈ x) : 0 < (Ft f).refcnt := by
  rw [h.count]
  exact Nat.add_pos_right _ (count_pos_iff.mpr hf)

/-- A file all of whose references are in flight. -/
theorem not_held (h : Accounts x y P Ft Pi) (hf : (Ft f).refcnt ≤ x.count f) (i : ProcRef)
    (fd : Fin nofile) : (P i).ofile fd ≠ some f := by
  intro hfd
  have hpos := holders_pos hfd
  have hcount := h.count f
  omega

/-- A reference in flight moves into a free descriptor. -/
theorem link (h : Accounts (f :: x) y P Ft Pi) (hfree : (P i).ofile fd = none) :
    Accounts x y (update P i ((P i).setFd fd (some f))) Ft Pi where
  count g := by
    rw [h.count, card_holders_link hfree, count_cons, count_singleton]
    omega
  closed := h.closed
  oneWay := h.oneWay
  unique := h.unique
  reading := h.reading
  writing := h.writing
  used := h.used
  new := h.new

/-- A descriptor is cleared; its reference is in flight. -/
theorem unlink (h : Accounts x y P Ft Pi) (hold : (P i).ofile fd = some f) :
    Accounts (f :: x) y (update P i ((P i).setFd fd none)) Ft Pi where
  count g := by
    rw [h.count, card_holders_unlink hold]
    simp only [count_cons, count_nil]
    omega
  closed := h.closed
  oneWay := h.oneWay
  unique := h.unique
  reading := h.reading
  writing := h.writing
  used := h.used
  new := h.new

/-- The order of the references in flight does not matter. -/
theorem perm {x' : List FileRef} (h : Accounts x y P Ft Pi) (hx : x.Perm x') :
    Accounts x' y P Ft Pi where
  count f := by rw [h.count, hx.count_eq]
  closed := h.closed
  oneWay := h.oneWay
  unique := h.unique
  reading := h.reading
  writing := h.writing
  used := h.used
  new := h.new

/-- The ends of the pipes do not depend on a file that is no end. -/
theorem endOpen_update {g : File} (hold : ∀ p, (Ft f).kind ≠ .pipe p) (hnew : ∀ p, g.kind ≠ .pipe p)
    {p : PipeRef} {w : Bool} : EndOpen (update Ft f g) p w ↔ EndOpen Ft p w := by
  constructor
  · rintro ⟨a, hkind, hw⟩
    rw [update_apply] at hkind hw
    by_cases ha : a = f
    · rw [if_pos ha] at hkind
      exact absurd hkind (hnew p)
    · rw [if_neg ha] at hkind hw
      exact ⟨a, hkind, hw⟩
  · rintro ⟨a, hkind, hw⟩
    have ha : a ≠ f := by
      rintro rfl
      exact hold p hkind
    exact ⟨a, by rwa [update_of_ne ha], by rwa [update_of_ne ha]⟩

/-- A file that is no end of a pipe is replaced by another such file. -/
theorem setFile {g : File} {x' : List FileRef} (h : Accounts x y P Ft Pi)
    (hold : ∀ p, (Ft f).kind ≠ .pipe p) (hnew : ∀ p, g.kind ≠ .pipe p)
    (hcount : g.refcnt = (holders P f).card + x'.count f) (hx : ∀ a, a ≠ f → x'.count a = x.count a)
    (hclosed : g.refcnt = 0 → g.kind = .none) : Accounts x' y P (update Ft f g) Pi where
  count a := by
    by_cases ha : a = f
    · subst ha
      rw [update_self, hcount]
    · rw [update_of_ne ha, h.count, hx a ha]
  closed a := by
    by_cases ha : a = f
    · subst ha
      rw [update_self]
      exact hclosed
    · rw [update_of_ne ha]
      exact h.closed a
  oneWay a p := by
    by_cases ha : a = f
    · subst ha
      rw [update_self]
      exact fun hk => absurd hk (hnew p)
    · rw [update_of_ne ha]
      exact h.oneWay a p
  unique a b p := by
    rw [update_apply, update_apply]
    split_ifs with ha hb hb
    · exact fun hk => absurd hk (hnew p)
    · exact fun hk => absurd hk (hnew p)
    · exact fun _ hk => absurd hk (hnew p)
    · exact h.unique a b p
  reading p := by rw [h.reading, endOpen_update hold hnew]
  writing p := by rw [h.writing, endOpen_update hold hnew]
  used := h.used
  new a p hy := by
    by_cases ha : a = f
    · subst ha
      rw [update_self]
      exact hnew p
    · rw [update_of_ne ha]
      exact h.new a p hy

theorem setRefcnt {n : ℕ} {x' : List FileRef} (h : Accounts x y P Ft Pi) (hn : 0 < n)
    (hcount : n = (holders P f).card + x'.count f) (hx : ∀ a, a ≠ f → x'.count a = x.count a) :
    Accounts x' y P (update Ft f { Ft f with refcnt := n }) Pi := by
  have hkind : ∀ a, (update Ft f { Ft f with refcnt := n } a).kind = (Ft a).kind := by
    intro a
    rw [update_apply]
    split_ifs with ha
    · rw [ha]
    · rfl
  have hread : ∀ a, (update Ft f { Ft f with refcnt := n } a).readable = (Ft a).readable := by
    intro a
    rw [update_apply]
    split_ifs with ha
    · rw [ha]
    · rfl
  have hwrite : ∀ a, (update Ft f { Ft f with refcnt := n } a).writable = (Ft a).writable := by
    intro a
    rw [update_apply]
    split_ifs with ha
    · rw [ha]
    · rfl
  have hopen : ∀ p w, EndOpen (update Ft f { Ft f with refcnt := n }) p w ↔ EndOpen Ft p w := by
    intro p w
    simp only [EndOpen, hkind, hwrite]
  constructor
  · intro a
    by_cases ha : a = f
    · subst ha
      rw [update_self, hcount]
    · rw [update_of_ne ha, h.count, hx a ha]
  · intro a ha0
    by_cases ha : a = f
    · subst ha
      rw [update_self] at ha0
      exact absurd ha0 hn.ne'
    · rw [update_of_ne ha] at ha0 ⊢
      exact h.closed a ha0
  · intro a p
    rw [hkind, hread, hwrite]
    exact h.oneWay a p
  · intro a b p
    rw [hkind, hkind, hwrite, hwrite]
    exact h.unique a b p
  · intro p
    rw [h.reading, hopen]
  · intro p
    rw [h.writing, hopen]
  · exact h.used
  · intro a p
    rw [hkind]
    exact h.new a p

theorem dup (h : Accounts x y P Ft Pi) :
    Accounts (f :: x) y P (update Ft f { Ft f with refcnt := (Ft f).refcnt + 1 }) Pi := by
  apply h.setRefcnt (succ_pos _)
  · rw [h.count, count_cons_self]
    rfl
  · intro a ha
    rw [count_cons_of_ne (Ne.symm ha)]

theorem alloc (h : Accounts x y P Ft Pi) (hf : (Ft f).refcnt = 0) :
    Accounts (f :: x) y P (update Ft f { File.unused with refcnt := 1 }) Pi := by
  have hkind := h.closed f hf
  rw [h.count] at hf
  apply h.setFile
  · intro p
    rw [hkind]
    exact FileKind.noConfusion
  · intro p
    exact FileKind.noConfusion
  · rw [count_cons_self]
    change 1 = _
    omega
  · intro a ha
    rw [count_cons_of_ne (Ne.symm ha)]
  · intro _
    rfl

theorem drop (h : Accounts (f :: x) y P Ft Pi) (hf : 1 < (Ft f).refcnt) :
    Accounts x y P (update Ft f { Ft f with refcnt := (Ft f).refcnt - 1 }) Pi := by
  have hcount := h.count f
  rw [count_cons_self] at hcount
  apply h.setRefcnt (by omega)
  · omega
  · intro a ha
    rw [count_cons_of_ne (Ne.symm ha)]

/-- The last reference to a file that is no end of a pipe is dropped. -/
theorem close (h : Accounts (f :: x) y P Ft Pi) (hf : (Ft f).refcnt = 1)
    (hkind : ∀ p, (Ft f).kind ≠ .pipe p) :
    Accounts x y P (update Ft f File.unused) Pi := by
  have hcount := h.count f
  rw [count_cons_self, hf] at hcount
  apply h.setFile hkind
  · intro p
    exact FileKind.noConfusion
  · change 0 = _
    omega
  · intro a ha
    rw [count_cons_of_ne (Ne.symm ha)]
  · intro _
    rfl

end Accounts

/-- What closing one end does to a pipe. -/
def Pipe.closeEnd (q : Pipe) (writable : Bool) : Pipe :=
  let q := if writable then { q with writeopen := false } else { q with readopen := false }
  if !q.readopen && !q.writeopen then { q with used := false } else q

theorem Pipe.closeEnd_readopen (q : Pipe) (w : Bool) :
    (q.closeEnd w).readopen = (q.readopen && w) := by
  cases w <;> simp only [closeEnd] <;> split_ifs <;> simp_all

theorem Pipe.closeEnd_writeopen (q : Pipe) (w : Bool) :
    (q.closeEnd w).writeopen = (q.writeopen && !w) := by
  cases w <;> simp only [closeEnd] <;> split_ifs <;> simp_all

theorem Pipe.closeEnd_used (q : Pipe) (w : Bool) :
    (q.closeEnd w).used = (q.used && ((q.readopen && w) || (q.writeopen && !w))) := by
  cases w <;> cases hr : q.readopen <;> cases hw : q.writeopen <;> simp [closeEnd, hr, hw]

namespace Accounts

/-- Which ends are open after one end of one pipe is closed. -/
theorem endOpen_close {w : Bool} {p : PipeRef} (h : Accounts x y P Ft Pi) (hkind : (Ft f).kind = .pipe p)
    (hw : (Ft f).writable = w) {q : PipeRef} {v : Bool} :
    EndOpen (update Ft f File.unused) q v ↔ EndOpen Ft q v ∧ ¬ (q = p ∧ v = w) := by
  constructor
  · rintro ⟨a, ha, hv⟩
    rw [update_apply] at ha hv
    by_cases haf : a = f
    · rw [if_pos haf] at ha
      exact absurd ha FileKind.noConfusion
    · rw [if_neg haf] at ha hv
      refine ⟨⟨a, ha, hv⟩, ?_⟩
      rintro ⟨rfl, rfl⟩
      exact haf (h.unique a f q ha hkind (hv.trans hw.symm))
  · rintro ⟨⟨a, ha, hv⟩, hne⟩
    have haf : a ≠ f := by
      rintro rfl
      rw [hkind] at ha
      exact hne ⟨(FileKind.pipe.inj ha).symm, hv.symm.trans hw⟩
    exact ⟨a, by rwa [update_of_ne haf], by rwa [update_of_ne haf]⟩

/-- The last reference to an end of a pipe is dropped. -/
theorem closePipe {w : Bool} {p : PipeRef} (h : Accounts (f :: x) y P Ft Pi) (hf : (Ft f).refcnt = 1)
    (hkind : (Ft f).kind = .pipe p) (hw : (Ft f).writable = w) :
    Accounts x y P (update Ft f File.unused)
      (update Pi p ((Pi p).closeEnd w)) := by
  have hcount := h.count f
  rw [count_cons_self, hf] at hcount
  have hy : y ≠ some p := fun hy => h.new f p hy hkind
  have hopen := fun q v => h.endOpen_close hkind hw (q := q) (v := v)
  have hreads : ∀ q, (update Pi p ((Pi p).closeEnd w) q).readopen = true ↔
      (Pi q).readopen = true ∧ ¬ (q = p ∧ false = w) := by
    intro q
    rw [update_apply]
    split_ifs with hq
    · rw [Pipe.closeEnd_readopen, hq]
      cases w <;> simp
    · simp [hq]
  have hwrites : ∀ q, (update Pi p ((Pi p).closeEnd w) q).writeopen = true ↔
      (Pi q).writeopen = true ∧ ¬ (q = p ∧ true = w) := by
    intro q
    rw [update_apply]
    split_ifs with hq
    · rw [Pipe.closeEnd_writeopen, hq]
      cases w <;> simp
    · simp [hq]
  constructor
  · intro a
    by_cases ha : a = f
    · subst ha
      rw [update_self]
      change 0 = _
      omega
    · rw [update_of_ne ha, h.count, count_cons_of_ne (Ne.symm ha)]
  · intro a ha0
    by_cases ha : a = f
    · subst ha
      rw [update_self]
      rfl
    · rw [update_of_ne ha] at ha0 ⊢
      exact h.closed a ha0
  · intro a q
    by_cases ha : a = f
    · subst ha
      rw [update_self]
      exact FileKind.noConfusion
    · rw [update_of_ne ha]
      exact h.oneWay a q
  · intro a b q
    rw [update_apply, update_apply]
    split_ifs with ha hb hb
    · exact FileKind.noConfusion
    · exact FileKind.noConfusion
    · exact fun _ => FileKind.noConfusion
    · exact h.unique a b q
  · intro q
    rw [hreads, hopen, h.reading]
    by_cases hq : y = some q
    · have hqp : q ≠ p := by
        rintro rfl
        exact hy hq
      simp [hq, hqp]
    · simp [hq]
  · intro q
    rw [hwrites, hopen, h.writing]
    by_cases hq : y = some q
    · have hqp : q ≠ p := by
        rintro rfl
        exact hy hq
      simp [hq, hqp]
    · simp [hq]
  · intro q
    by_cases hq : q = p
    · subst hq
      have hused := h.used q
      rw [update_self, Pipe.closeEnd_used, Pipe.closeEnd_readopen, Pipe.closeEnd_writeopen]
      grind
    · rw [update_of_ne hq]
      exact h.used q
  · intro a q hq
    by_cases ha : a = f
    · subst ha
      rw [update_self]
      exact FileKind.noConfusion
    · rw [update_of_ne ha]
      exact h.new a q hq

/-- A pipe that is not in use has no files. -/
theorem no_end {p : PipeRef} (h : Accounts x y P Ft Pi) (hp : (Pi p).used = false) (a : FileRef) :
    (Ft a).kind ≠ .pipe p := by
  intro hkind
  have hopen : ∀ w, (Ft a).writable = w → EndOpen Ft p w := fun w hw => ⟨a, hkind, hw⟩
  have hused := h.used p
  cases hw : (Ft a).writable with
  | false => simp [hp, (h.reading p).mpr (Or.inr (hopen _ hw))] at hused
  | true => simp [hp, (h.writing p).mpr (Or.inr (hopen _ hw))] at hused

theorem allocPipe {p : PipeRef} {q : Pipe} (h : Accounts x none P Ft Pi) (hp : (Pi p).used = false)
    (hq : q.used = true ∧ q.readopen = true ∧ q.writeopen = true) :
    Accounts x (some p) P Ft (update Pi p q) := by
  constructor
  · exact h.count
  · exact h.closed
  · exact h.oneWay
  · exact h.unique
  · intro r
    rw [update_apply]
    split_ifs with hr
    · simp [hr, hq]
    · rw [h.reading, Option.some.injEq]
      simp [Ne.symm hr]
  · intro r
    rw [update_apply]
    split_ifs with hr
    · simp [hr, hq]
    · rw [h.writing, Option.some.injEq]
      simp [Ne.symm hr]
  · intro r
    rw [update_apply]
    split_ifs with hr
    · simp [hq]
    · exact h.used r
  · intro a r hr hkind
    obtain rfl := Option.some.inj hr
    exact h.no_end hp a hkind

theorem freePipe {p : PipeRef} {q : Pipe} (h : Accounts x (some p) P Ft Pi)
    (hq : q.used = false ∧ q.readopen = false ∧ q.writeopen = false) :
    Accounts x none P Ft (update Pi p q) := by
  have hfree : ∀ w, ¬ EndOpen Ft p w := fun w ⟨a, hkind, _⟩ => h.new a p rfl hkind
  constructor
  · exact h.count
  · exact h.closed
  · exact h.oneWay
  · exact h.unique
  · intro r
    rw [update_apply]
    split_ifs with hr
    · simp [hr, hq, hfree]
    · rw [h.reading, Option.some.injEq]
      simp [Ne.symm hr]
  · intro r
    rw [update_apply]
    split_ifs with hr
    · simp [hr, hq, hfree]
    · rw [h.writing, Option.some.injEq]
      simp [Ne.symm hr]
  · intro r
    rw [update_apply]
    split_ifs with hr
    · simp [hq]
    · exact h.used r
  · intro a r hr
    exact absurd hr.symm (Option.some_ne_none r)

theorem makeEnds {p : PipeRef} {r w : FileRef} (h : Accounts x (some p) P Ft Pi) (hrw : r ≠ w)
    (hr : (Ft r).refcnt = 1 ∧ (Ft r).kind = .none) (hw : (Ft w).refcnt = 1 ∧ (Ft w).kind = .none) :
    Accounts x none P (update (update Ft r ⟨1, true, false, .pipe p⟩) w
      ⟨1, false, true, .pipe p⟩) Pi := by
  generalize hnew : update (update Ft r ⟨1, true, false, .pipe p⟩) w
      ⟨1, false, true, .pipe p⟩ = Ft'
  have hFr : Ft' r = ⟨1, true, false, .pipe p⟩ := by
    rw [← hnew, update_of_ne hrw, update_self]
  have hFw : Ft' w = ⟨1, false, true, .pipe p⟩ := by rw [← hnew, update_self]
  have hother : ∀ a, a ≠ r → a ≠ w → Ft' a = Ft a := fun a har haw => by
    rw [← hnew, update_of_ne haw, update_of_ne har]
  have hcases : ∀ a, a = r ∨ a = w ∨ Ft' a = Ft a := fun a => by
    by_cases har : a = r
    · exact Or.inl har
    · by_cases haw : a = w
      · exact Or.inr (Or.inl haw)
      · exact Or.inr (Or.inr (hother a har haw))
  have hend : ∀ q v, EndOpen Ft' q v ↔ q = p ∨ EndOpen Ft q v := by
    intro q v
    constructor
    · rintro ⟨a, hkind, hv⟩
      rcases hcases a with rfl | rfl | ha
      · rw [hFr] at hkind
        exact Or.inl (FileKind.pipe.inj hkind).symm
      · rw [hFw] at hkind
        exact Or.inl (FileKind.pipe.inj hkind).symm
      · rw [ha] at hkind hv
        exact Or.inr ⟨a, hkind, hv⟩
    · rintro (rfl | ⟨a, hkind, hv⟩)
      · cases v with
        | false => exact ⟨r, by rw [hFr], by rw [hFr]⟩
        | true => exact ⟨w, by rw [hFw], by rw [hFw]⟩
      · have har : a ≠ r := by
          rintro rfl
          rw [hr.2] at hkind
          exact FileKind.noConfusion hkind
        have haw : a ≠ w := by
          rintro rfl
          rw [hw.2] at hkind
          exact FileKind.noConfusion hkind
        exact ⟨a, by rw [hother a har haw, hkind], by rw [hother a har haw, hv]⟩
  constructor
  · intro a
    rcases hcases a with rfl | rfl | ha
    · rw [hFr, ← h.count, hr.1]
    · rw [hFw, ← h.count, hw.1]
    · rw [ha, h.count]
  · intro a hzero
    rcases hcases a with rfl | rfl | ha
    · rw [hFr] at hzero
      exact absurd hzero one_ne_zero
    · rw [hFw] at hzero
      exact absurd hzero one_ne_zero
    · rw [ha] at hzero ⊢
      exact h.closed a hzero
  · intro a q hkind
    rcases hcases a with rfl | rfl | ha
    · rw [hFr]
      rfl
    · rw [hFw]
      rfl
    · rw [ha] at hkind ⊢
      exact h.oneWay a q hkind
  · intro a b q ha hb hab
    rcases hcases a with rfl | rfl | ha' <;> rcases hcases b with rfl | rfl | hb'
    · rfl
    · rw [hFr, hFw] at hab
      exact Bool.noConfusion hab
    · rw [hFr] at ha
      rw [hb'] at hb
      exact absurd hb (h.new b q (by rw [FileKind.pipe.inj ha]))
    · rw [hFr, hFw] at hab
      exact Bool.noConfusion hab
    · rfl
    · rw [hFw] at ha
      rw [hb'] at hb
      exact absurd hb (h.new b q (by rw [FileKind.pipe.inj ha]))
    · rw [hFr] at hb
      rw [ha'] at ha
      exact absurd ha (h.new a q (by rw [FileKind.pipe.inj hb]))
    · rw [hFw] at hb
      rw [ha'] at ha
      exact absurd ha (h.new a q (by rw [FileKind.pipe.inj hb]))
    · rw [ha'] at ha hab
      rw [hb'] at hb hab
      exact h.unique a b q ha hb hab
  · intro q
    rw [h.reading, hend, Option.some.injEq]
    simp [eq_comm]
  · intro q
    rw [h.writing, hend, Option.some.injEq]
    simp [eq_comm]
  · exact h.used
  · intro a q hq
    exact absurd hq (by simp)

end Accounts

end ToyOs
