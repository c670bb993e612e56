import Xv6.Foundation.Pointers
import Xv6.Vm.ExecRule
import Xv6.Vm.Kernel

/-!
# Open files and pipes

Every file has as many references as there are descriptors that point to it, but for the
references that a call holds at the moment; these are counted by `extra`. A pipe has at
most one file for each of its ends, and its flags say which ends are open.
-/

namespace Xv6

open Foundation KernelM

/-- The flag for an end of a pipe; `true` is the write end. -/
def PipeEnds.isOpen (x : PipeEnds) (b : Bool) : Bool := if b then x.writeopen else x.readopen

namespace Kernel

def slots (w : Kernel) : Slot × Fin NOFILE → Option (Fin NFILE) := fun x => (w.proc x.1).ofile x.2

/-- The file is an end of the pipe. -/
def IsEnd (w : Kernel) (f : Fin NFILE) (x : Frame) (b : Bool) : Prop :=
  (w.ftable f).type = .pipe ∧ (w.ftable f).pipe = x ∧ (w.ftable f).writable = b

/-- The pages of the pipes with an open end. -/
def pipePages (w : Kernel) : Finset Frame :=
  (Finset.univ.filter fun f => (w.ftable f).type = .pipe).image fun f => (w.ftable f).pipe

variable {w : Kernel} {x : Frame}

theorem mem_pipePages : x ∈ w.pipePages ↔ ∃ f b, w.IsEnd f x b := by
  simp only [pipePages, Finset.mem_image, Finset.mem_filter, Finset.mem_univ, true_and, IsEnd]
  constructor
  · rintro ⟨f, htype, hpipe⟩
    exact ⟨f, _, htype, hpipe, rfl⟩
  · rintro ⟨f, b, htype, hpipe, -⟩
    exact ⟨f, htype, hpipe⟩

end Kernel

/-- The state of the file table while a call holds `extra` references. -/
structure Files (w : Kernel) (extra : Fin NFILE → ℤ) : Prop where
  refs : ∀ f, (w.ftable f).ref = pointers w.slots f + extra f
  nonneg : ∀ f, 0 ≤ (w.ftable f).ref
  closed : ∀ f, (w.ftable f).ref = 0 → (w.ftable f).type = .none
  unique : ∀ f g x b, w.IsEnd f x b → w.IsEnd g x b → f = g
  flags : ∀ x b, (w.pipe x).isOpen b = true ↔ ∃ f, w.IsEnd f x b

/-! ### Rules -/

section Rules

variable {w : Kernel} {E : VmStop → Prop}

theorem wp_onVm {α : Type} {m : VmM α} {Q : α → Kernel → Prop} :
    wp (onVm m) Q E w ↔ wp m (fun a s => Q a (w.setVm s)) E w.vm := by
  cases h : m w.vm with
  | ok r =>
      have hw : onVm m w = .ok (r.1, w.setVm r.2) := by rw [onVm, h]
      rw [wp_of_ok hw, wp_of_ok h]
  | error e =>
      have hw : onVm m w = .error e := by rw [onVm, h]
      rw [wp_of_error hw, wp_of_error h]

theorem wp_kernelPanic {α : Type} {e : Panic} {Q : α → Kernel → Prop} :
    wp (KernelM.panic e) Q E w ↔ E (.panic e) := wp_throw

theorem wp_proc {p : Slot} {Q : MemProc → Kernel → Prop} :
    wp (proc p) Q E w ↔ Q (w.proc p) w := by
  rw [proc, wp_bind, wp_get, wp_pure]

theorem wp_setProc {p : Slot} {x : MemProc} {Q : Unit → Kernel → Prop} :
    wp (setProc p x) Q E w ↔ Q () (w.setProc p x) := wp_modify

theorem wp_setFile {f : Fin NFILE} {x : File} {Q : Unit → Kernel → Prop} :
    wp (setFile f x) Q E w ↔ Q () (w.setFile f x) := wp_modify

theorem wp_setPipe {p : Frame} {x : PipeEnds} {Q : Unit → Kernel → Prop} :
    wp (setPipe p x) Q E w ↔ Q () (w.setPipe p x) := wp_modify

theorem wp_filealloc {Q : Option (Fin NFILE) → Kernel → Prop} (hnone : Q none w)
    (hsome : ∀ f, (w.ftable f).ref = 0 → Q (some f) (w.setFile f { w.ftable f with ref := 1 })) :
    wp filealloc Q E w := by
  rw [filealloc, wp_bind, wp_get]
  cases h : (List.finRange NFILE).find? fun f => decide ((w.ftable f).ref = 0) with
  | none => exact wp_pure.mpr hnone
  | some f =>
      dsimp only
      rw [wp_bind, wp_setFile]
      exact wp_pure.mpr (hsome f (by simpa using List.find?_some h))

theorem wp_fdalloc {p : Slot} {f : Fin NFILE} {Q : Option (Fin NOFILE) → Kernel → Prop}
    (hnone : (∀ fd, (w.proc p).ofile fd ≠ none) → Q none w)
    (hsome : ∀ fd, Lowest (w.proc p).ofile fd → Q (some fd) (w.setProc p
      { w.proc p with ofile := Function.update (w.proc p).ofile fd (some f) })) :
    wp (fdalloc p f) Q E w := by
  rw [fdalloc, wp_bind, wp_proc]
  cases h : (List.finRange NOFILE).find? fun fd => decide ((w.proc p).ofile fd = none) with
  | none => exact wp_pure.mpr (hnone fun fd => by simpa using List.find?_eq_none.mp h fd)
  | some fd =>
      dsimp only
      rw [wp_bind, wp_setProc]
      exact wp_pure.mpr (hsome fd (.of_find (fun _ => decide_eq_true_iff) h))

end Rules

/-! ### One change at a time -/

section Changes

variable {w : Kernel} {e : Fin NFILE → ℤ} {f g : Fin NFILE} {p : Slot} {fd : Fin NOFILE}

theorem ftable_setFile_self {y : File} : (w.setFile f y).ftable f = y := Function.update_self ..

theorem ftable_setFile_ne {y : File} (h : g ≠ f) : (w.setFile f y).ftable g = w.ftable g :=
  Function.update_of_ne h ..

theorem isEnd_setFile {y : File} {x : Frame} {b : Bool} :
    (w.setFile f y).IsEnd g x b ↔
      if g = f then y.type = .pipe ∧ y.pipe = x ∧ y.writable = b else w.IsEnd g x b := by
  by_cases hg : g = f
  · simp [Kernel.IsEnd, Kernel.setFile, hg]
  · simp [Kernel.IsEnd, Kernel.setFile, hg]

/-- The reference count of a file changes. -/
theorem Files.setRef (h : Files w e) {n : ℤ} (hn : 0 ≤ n)
    (hclosed : n = 0 → (w.ftable f).type = .none) :
    Files (w.setFile f { w.ftable f with ref := n }) (e + Pi.single f (n - (w.ftable f).ref)) := by
  have hends : ∀ g x b, (w.setFile f { w.ftable f with ref := n }).IsEnd g x b ↔ w.IsEnd g x b := by
    intro g x b
    rw [isEnd_setFile]
    split
    · rename_i hg
      rw [hg, Kernel.IsEnd]
    · rfl
  refine ⟨fun g => ?_, fun g => ?_, fun g => ?_, fun g g' x b hg hg' => ?_, fun x b => ?_⟩
  · by_cases hg : g = f
    · subst hg
      have hrefs := h.refs g
      rw [ftable_setFile_self, Pi.add_apply, Pi.single_eq_same]
      change n = pointers w.slots g + _
      omega
    · rw [ftable_setFile_ne hg, Pi.add_apply, Pi.single_eq_of_ne hg, add_zero]
      exact h.refs g
  · by_cases hg : g = f
    · rw [hg, ftable_setFile_self]
      exact hn
    · rw [ftable_setFile_ne hg]
      exact h.nonneg g
  · by_cases hg : g = f
    · rw [hg, ftable_setFile_self]
      exact hclosed
    · rw [ftable_setFile_ne hg]
      exact h.closed g
  · exact h.unique g g' x b ((hends _ _ _).mp hg) ((hends _ _ _).mp hg')
  · simp only [hends]
    exact h.flags x b

theorem pipePages_setRef {n : ℤ} :
    (w.setFile f { w.ftable f with ref := n }).pipePages = w.pipePages := by
  ext x
  rw [Kernel.mem_pipePages, Kernel.mem_pipePages]
  refine exists_congr fun g => exists_congr fun b => ?_
  rw [isEnd_setFile]
  split
  · rename_i hg
    rw [hg, Kernel.IsEnd]
  · rfl

/-- A descriptor changes. -/
theorem slots_setFd {v : Option (Fin NFILE)} :
    (w.setProc p { w.proc p with ofile := Function.update (w.proc p).ofile fd v }).slots =
      Function.update w.slots (p, fd) v := by
  funext x
  obtain ⟨q, fd'⟩ := x
  by_cases hq : q = p
  · subst hq
    by_cases hfd : fd' = fd
    · simp [Kernel.slots, Kernel.setProc, hfd]
    · simp [Kernel.slots, Kernel.setProc, hfd]
  · simp [Kernel.slots, Kernel.setProc, hq]

theorem Files.setFd (h : Files w e) {v : Option (Fin NFILE)} {e' : Fin NFILE → ℤ}
    (he : ∀ g, e' g + (if v = some g then 1 else 0) =
      e g + (if (w.proc p).ofile fd = some g then 1 else 0)) :
    Files (w.setProc p { w.proc p with ofile := Function.update (w.proc p).ofile fd v }) e' where
  refs := fun g => by
    have hcount := pointers_update (g := w.slots) (a := g) (p, fd) v
    have hrefs := h.refs g
    have hg := he g
    rw [slots_setFd]
    change (w.ftable g).ref = _
    change _ + (if (w.proc p).ofile fd = some g then 1 else 0) = _ at hcount
    zify at hcount
    linarith
  nonneg := h.nonneg
  closed := h.closed
  unique := h.unique
  flags := h.flags

/-- A descriptor takes a reference over. -/
theorem Files.fillFd (h : Files w e) (hfd : (w.proc p).ofile fd = none) :
    Files (w.setProc p { w.proc p with ofile := Function.update (w.proc p).ofile fd (some f) })
      (e - Pi.single f 1) :=
  h.setFd fun g => by
    rw [hfd, Pi.sub_apply, Pi.single_apply]
    by_cases hg : g = f
    · simp [hg]
    · simp [hg, Ne.symm hg]

/-- A descriptor gives a reference up. -/
theorem Files.clearFd (h : Files w e) (hfd : (w.proc p).ofile fd = some f) :
    Files (w.setProc p { w.proc p with ofile := Function.update (w.proc p).ofile fd none })
      (e + Pi.single f 1) :=
  h.setFd fun g => by
    rw [hfd, Pi.add_apply, Pi.single_apply]
    by_cases hg : g = f
    · simp [hg]
    · simp [hg, Ne.symm hg]

end Changes

/-! ### Closing a file -/

/-- The flags when an end is closed. -/
def PipeEnds.shut (x : PipeEnds) (writable : Bool) : PipeEnds :=
  if writable then { x with writeopen := false } else { x with readopen := false }

theorem isOpen_shut {y : PipeEnds} {b c : Bool} :
    (y.shut b).isOpen c = (decide (c ≠ b) && y.isOpen c) := by
  cases b <;> cases c <;> simp [PipeEnds.shut, PipeEnds.isOpen]

/-- What `fileclose` does to memory. -/
structure Closes (w : Kernel) (f : Fin NFILE) (w' : Kernel) : Prop where
  proc : w'.proc = w.proc
  kpgdir : w'.kpgdir = w.kpgdir
  link : w'.vm.link = w.vm.link
  acct : w'.vm.free + w'.pipePages.val = w.vm.free + w.pipePages.val
  mono : w.vm.free ≤ w'.vm.free
  other : (w.ftable f).type ≠ .pipe → w'.pipePages = w.pipePages
  rest : ∀ g, g ≠ f → w'.ftable g = w.ftable g

section Close

variable {w : Kernel} {e : Fin NFILE → ℤ} {f : Fin NFILE} {E : VmStop → Prop}

def Kernel.drop (w : Kernel) (f : Fin NFILE) : Kernel :=
  w.setFile f { w.ftable f with ref := 0, type := .none }

theorem isEnd_drop {g : Fin NFILE} {x : Frame} {b : Bool} :
    (w.drop f).IsEnd g x b ↔ g ≠ f ∧ w.IsEnd g x b := by
  rw [Kernel.drop, isEnd_setFile]
  split
  · rename_i hg
    simp [hg]
  · rename_i hg
    simp [hg]

/-- The last reference to a file is given up; `ends` are the flags of the pipes then. -/
theorem Files.drop (h : Files w e) (href : (w.ftable f).ref = 1) {ends : Frame → PipeEnds}
    (hends : ∀ x b, (ends x).isOpen b = true ↔ (w.pipe x).isOpen b = true ∧ ¬ w.IsEnd f x b) :
    Files { w.drop f with pipe := ends } (e - Pi.single f 1) where
  refs := fun g => by
    change ((w.drop f).ftable g).ref = pointers w.slots g + _
    by_cases hg : g = f
    · subst hg
      have hrefs := h.refs g
      rw [Kernel.drop, ftable_setFile_self, Pi.sub_apply, Pi.single_eq_same]
      dsimp only
      omega
    · rw [Kernel.drop, ftable_setFile_ne hg, Pi.sub_apply, Pi.single_eq_of_ne hg, sub_zero]
      exact h.refs g
  nonneg := fun g => by
    change 0 ≤ ((w.drop f).ftable g).ref
    by_cases hg : g = f
    · rw [hg, Kernel.drop, ftable_setFile_self]
    · rw [Kernel.drop, ftable_setFile_ne hg]
      exact h.nonneg g
  closed := fun g => by
    change ((w.drop f).ftable g).ref = 0 → ((w.drop f).ftable g).type = .none
    by_cases hg : g = f
    · rw [hg, Kernel.drop, ftable_setFile_self]
      exact fun _ => rfl
    · rw [Kernel.drop, ftable_setFile_ne hg]
      exact h.closed g
  unique := fun g g' x b hg hg' => h.unique g g' x b (isEnd_drop.mp hg).2 (isEnd_drop.mp hg').2
  flags := fun x b => by
    change (ends x).isOpen b = true ↔ ∃ g, (w.drop f).IsEnd g x b
    rw [hends, h.flags]
    constructor
    · rintro ⟨⟨g, hg⟩, hf⟩
      refine ⟨g, isEnd_drop.mpr ⟨?_, hg⟩⟩
      rintro rfl
      exact hf hg
    · rintro ⟨g, hg⟩
      obtain ⟨hne, hg⟩ := isEnd_drop.mp hg
      exact ⟨⟨g, hg⟩, fun hf => hne (h.unique g f x b hg hf)⟩

theorem pipePages_drop_of_not_pipe (h : (w.ftable f).type ≠ .pipe) :
    (w.drop f).pipePages = w.pipePages := by
  ext x
  rw [Kernel.mem_pipePages, Kernel.mem_pipePages]
  simp only [isEnd_drop]
  constructor
  · rintro ⟨g, b, -, hg⟩
    exact ⟨g, b, hg⟩
  · rintro ⟨g, b, hg⟩
    refine ⟨g, b, ?_, hg⟩
    rintro rfl
    exact h hg.1

/-- The other end is open. -/
theorem Files.pipePages_drop_of_open (h : Files w e) (htype : (w.ftable f).type = .pipe)
    (hopen : (w.pipe (w.ftable f).pipe).isOpen (!(w.ftable f).writable) = true) :
    (w.drop f).pipePages = w.pipePages := by
  obtain ⟨g, hg⟩ := (h.flags _ _).mp hopen
  have hgf : g ≠ f := by
    rintro rfl
    simpa using hg.2.2
  ext x
  rw [Kernel.mem_pipePages, Kernel.mem_pipePages]
  simp only [isEnd_drop]
  constructor
  · rintro ⟨g', b, -, hg'⟩
    exact ⟨g', b, hg'⟩
  · rintro ⟨g', b, hg'⟩
    by_cases hf : g' = f
    · refine ⟨g, !(w.ftable f).writable, hgf, hg.1, ?_, hg.2.2⟩
      rw [hg.2.1, ← hf, hg'.2.1]
    · exact ⟨g', b, hf, hg'⟩

/-- The other end is closed. -/
theorem Files.pipePages_drop_of_closed (h : Files w e) (htype : (w.ftable f).type = .pipe)
    (hclosed : ¬ (w.pipe (w.ftable f).pipe).isOpen (!(w.ftable f).writable) = true) :
    w.pipePages.val = {(w.ftable f).pipe} + (w.drop f).pipePages.val := by
  have hno : ∀ g b, w.IsEnd g (w.ftable f).pipe b → g = f := fun g b hg => by
    by_cases hb : b = (w.ftable f).writable
    · exact h.unique g f _ b hg ⟨htype, rfl, hb.symm⟩
    · have hb' : b = !(w.ftable f).writable := by
        cases b <;> cases hw : (w.ftable f).writable <;> simp_all
      exact absurd ((h.flags _ _).mpr ⟨g, hb' ▸ hg⟩) hclosed
  have hnot : (w.ftable f).pipe ∉ (w.drop f).pipePages := fun hmem => by
    obtain ⟨g, b, hg⟩ := Kernel.mem_pipePages.mp hmem
    obtain ⟨hne, hg⟩ := isEnd_drop.mp hg
    exact hne (hno g b hg)
  have hcons : w.pipePages = Finset.cons (w.ftable f).pipe (w.drop f).pipePages hnot := by
    ext x
    rw [Finset.mem_cons, Kernel.mem_pipePages, Kernel.mem_pipePages]
    simp only [isEnd_drop]
    constructor
    · rintro ⟨g, b, hg⟩
      by_cases hf : g = f
      · exact .inl (hg.2.1 ▸ hf ▸ rfl)
      · exact .inr ⟨g, b, hf, hg⟩
    · rintro (rfl | ⟨g, b, -, hg⟩)
      · exact ⟨f, _, htype, rfl, rfl⟩
      · exact ⟨g, b, hg⟩
  rw [hcons, Finset.cons_val, Multiset.singleton_add]

theorem wp_pipeclose {x : Frame} {b : Bool} {Q : Unit → Kernel → Prop}
    (hkfree : BadFrame w.vm.link x → E (.panic .kfree))
    (hopen : (w.pipe x).isOpen (!b) = true → Q () (w.setPipe x ((w.pipe x).shut b)))
    (hclosed : ¬ (w.pipe x).isOpen (!b) = true →
      Q () ((w.setPipe x ((w.pipe x).shut b)).setVm (w.vm.putFree x))) :
    wp (pipeclose x b) Q E w := by
  have hcond : (!((w.pipe x).shut b).readopen && !((w.pipe x).shut b).writeopen) = true ↔
      ¬ (w.pipe x).isOpen (!b) = true := by
    cases b <;> simp [PipeEnds.shut, PipeEnds.isOpen]
  rw [pipeclose, wp_bind, wp_get]
  change wp (setPipe x ((w.pipe x).shut b) >>= fun _ =>
    if (!((w.pipe x).shut b).readopen && !((w.pipe x).shut b).writeopen) = true then
      onVm (VmM.kfree x) else pure ⟨⟩) Q E w
  rw [wp_bind, wp_setPipe, wp_ite, wp_onVm, wp_pure, hcond, not_not]
  exact ⟨fun h => wp_kfree (fun hbad => hkfree (.inr hbad)) (hclosed h), hopen⟩

/-- `fileclose` gives a reference up, and the page of a pipe with its last end. -/
theorem wp_fileclose {Q : Unit → Kernel → Prop} (h : Files w e)
    (href : 1 ≤ (w.ftable f).ref ∨ E (.panic .fileclose))
    (hsound : ∀ x ∈ w.pipePages, BadFrame w.vm.link x → E (.panic .kfree))
    (hok : ∀ w', Files w' (e - Pi.single f 1) → Closes w f w' → Q () w') :
    wp (fileclose f) Q E w := by
  rw [fileclose, wp_bind, wp_get, wp_ite, wp_kernelPanic]
  refine ⟨fun hlt => href.resolve_left (by omega), fun hge => ?_⟩
  rw [wp_ite, wp_setFile]
  refine ⟨fun hmore => hok _ ?_ ⟨rfl, rfl, rfl, ?_, le_rfl, fun _ => pipePages_setRef,
      fun _ => ftable_setFile_ne⟩,
    fun hlast => ?_⟩
  · have hset := h.setRef (f := f) (n := (w.ftable f).ref - 1) (by omega) (by omega)
    rwa [sub_sub_cancel_left, Pi.single_neg, ← sub_eq_add_neg] at hset
  · rw [pipePages_setRef]
    rfl
  have hone : (w.ftable f).ref = 1 := by omega
  rw [wp_bind, wp_setFile]
  change wp (if (w.ftable f).type = .pipe then pipeclose (w.ftable f).pipe (w.ftable f).writable
    else pure ⟨⟩) Q E (w.drop f)
  rw [wp_ite, wp_pure]
  refine ⟨fun htype => ?_, fun htype => hok _ (h.drop hone fun x b => ?_)
    ⟨rfl, rfl, rfl, ?_, le_rfl, fun _ => pipePages_drop_of_not_pipe htype,
      fun _ => ftable_setFile_ne⟩⟩
  · have hends : ∀ x b, (Function.update w.pipe (w.ftable f).pipe
        ((w.pipe (w.ftable f).pipe).shut (w.ftable f).writable) x).isOpen b = true ↔
          (w.pipe x).isOpen b = true ∧ ¬ w.IsEnd f x b := fun x b => by
      by_cases hx : x = (w.ftable f).pipe
      · rw [hx, Function.update_self, isOpen_shut, Bool.and_eq_true, decide_eq_true_eq, and_comm]
        refine and_congr_right fun _ => not_congr ⟨fun hb => ⟨htype, rfl, hb.symm⟩,
          fun hf => hf.2.2.symm⟩
      · rw [Function.update_of_ne hx]
        exact (and_iff_left fun hf => hx hf.2.1.symm).symm
    have hfiles := h.drop hone hends
    refine wp_pipeclose (hsound _ (Kernel.mem_pipePages.mpr ⟨f, _, htype, rfl, rfl⟩))
      (fun hopen => hok _ hfiles ⟨rfl, rfl, rfl, ?_, le_rfl, fun hno => absurd htype hno,
        fun _ => ftable_setFile_ne⟩)
      fun hclosed => hok _ ⟨hfiles.refs, hfiles.nonneg, hfiles.closed, hfiles.unique, hfiles.flags⟩
        ⟨rfl, rfl, rfl, ?_, ?_, fun hno => absurd htype hno, fun _ => ftable_setFile_ne⟩
    · change w.vm.free + (w.drop f).pipePages.val = _
      rw [h.pipePages_drop_of_open htype hopen]
    · change (w.vm.putFree (w.ftable f).pipe).free + (w.drop f).pipePages.val = _
      rw [h.pipePages_drop_of_closed htype hclosed, Vm.free_putFree]
      abel
    · change _ ≤ (w.vm.putFree (w.ftable f).pipe).free
      rw [Vm.free_putFree]
      exact Multiset.le_add_left _ _
  · refine (and_iff_left_of_imp fun _ hf => htype hf.1).symm
  · change w.vm.free + (w.drop f).pipePages.val = _
    rw [pipePages_drop_of_not_pipe htype]

theorem wp_filedup {Q : Unit → Kernel → Prop} (h : Files w e)
    (href : 1 ≤ (w.ftable f).ref ∨ E (.panic .filedup))
    (hok : Files (w.setFile f { w.ftable f with ref := (w.ftable f).ref + 1 }) (e + Pi.single f 1) →
      Q () (w.setFile f { w.ftable f with ref := (w.ftable f).ref + 1 })) :
    wp (filedup f) Q E w := by
  rw [filedup, wp_bind, wp_get, wp_ite, wp_kernelPanic, wp_setFile]
  refine ⟨fun hlt => href.resolve_left (by omega), fun hge => hok ?_⟩
  have hset := h.setRef (f := f) (n := (w.ftable f).ref + 1) (by omega) (by omega)
  rwa [add_sub_cancel_left] at hset

end Close

/-! ### Opening a pipe -/

section Open

variable {w : Kernel} {e : Fin NFILE → ℤ} {f0 f1 : Fin NFILE} {x : Frame} {E : VmStop → Prop}

/-- The two ends of a new pipe. -/
def Kernel.withPipe (w : Kernel) (f0 f1 : Fin NFILE) (x : Frame) : Kernel :=
  ((w.setPipe x ⟨true, true⟩).setFile f0
      { w.ftable f0 with type := .pipe, readable := true, writable := false, pipe := x }).setFile f1
    { w.ftable f1 with type := .pipe, readable := false, writable := true, pipe := x }

theorem isEnd_withPipe (hne : f0 ≠ f1) {g : Fin NFILE} {y : Frame} {b : Bool} :
    (w.withPipe f0 f1 x).IsEnd g y b ↔ g = f1 ∧ y = x ∧ b = true ∨ g = f0 ∧ y = x ∧ b = false ∨
      g ≠ f0 ∧ g ≠ f1 ∧ w.IsEnd g y b := by
  rw [Kernel.withPipe, isEnd_setFile, isEnd_setFile]
  by_cases h1 : g = f1
  · rw [if_pos h1]
    constructor
    · rintro ⟨-, hx, hb⟩
      exact .inl ⟨h1, hx.symm, hb.symm⟩
    · rintro (⟨-, hx, hb⟩ | ⟨h0, -⟩ | ⟨-, hno, -⟩)
      · exact ⟨rfl, hx.symm, hb.symm⟩
      · exact absurd (h0.symm.trans h1) hne
      · exact absurd h1 hno
  · rw [if_neg h1]
    by_cases h0 : g = f0
    · rw [if_pos h0]
      constructor
      · rintro ⟨-, hx, hb⟩
        exact .inr (.inl ⟨h0, hx.symm, hb.symm⟩)
      · rintro (⟨h, -⟩ | ⟨-, hx, hb⟩ | ⟨hno, -⟩)
        · exact absurd h h1
        · exact ⟨rfl, hx.symm, hb.symm⟩
        · exact absurd h0 hno
    · rw [if_neg h0]
      constructor
      · exact fun h => .inr (.inr ⟨h0, h1, h⟩)
      · rintro (⟨h, -⟩ | ⟨h, -⟩ | ⟨-, -, h⟩)
        · exact absurd h h1
        · exact absurd h h0
        · exact h

theorem ref_withPipe (g : Fin NFILE) :
    ((w.withPipe f0 f1 x).ftable g).ref = (w.ftable g).ref := by
  rw [Kernel.withPipe]
  by_cases h1 : g = f1
  · rw [h1, ftable_setFile_self]
  · rw [ftable_setFile_ne h1]
    by_cases h0 : g = f0
    · rw [h0, ftable_setFile_self]
    · rw [ftable_setFile_ne h0]
      rfl

theorem pipe_withPipe (y : Frame) :
    (w.withPipe f0 f1 x).pipe y = if y = x then ⟨true, true⟩ else w.pipe y := by
  change Function.update w.pipe x ⟨true, true⟩ y = _
  rw [Function.update_apply]

/-- The pipe is a new one, and so are its files. -/
theorem Files.withPipe (h : Files w e) (hne : f0 ≠ f1) (href0 : (w.ftable f0).ref ≠ 0)
    (href1 : (w.ftable f1).ref ≠ 0) (h0 : (w.ftable f0).type ≠ .pipe)
    (h1 : (w.ftable f1).type ≠ .pipe) (hx : x ∉ w.pipePages) :
    Files (w.withPipe f0 f1 x) e where
  refs := fun g => by
    rw [ref_withPipe]
    exact h.refs g
  nonneg := fun g => by
    rw [ref_withPipe]
    exact h.nonneg g
  closed := fun g hg => by
    rw [ref_withPipe] at hg
    have hg1 : g ≠ f1 := fun heq => href1 (heq ▸ hg)
    have hg0 : g ≠ f0 := fun heq => href0 (heq ▸ hg)
    rw [Kernel.withPipe, ftable_setFile_ne hg1, ftable_setFile_ne hg0]
    exact h.closed g hg
  unique := fun g g' y b hg hg' => by
    have hno : ∀ g b, ¬ w.IsEnd g x b := fun g b hg => hx (Kernel.mem_pipePages.mpr ⟨g, b, hg⟩)
    rw [isEnd_withPipe hne] at hg hg'
    grind [h.unique g g' y b]
  flags := fun y b => by
    rw [pipe_withPipe]
    simp only [isEnd_withPipe hne]
    by_cases hy : y = x
    · rw [if_pos hy]
      refine iff_of_true (by cases b <;> rfl) ?_
      cases b with
      | true => exact ⟨f1, .inl ⟨rfl, hy, rfl⟩⟩
      | false => exact ⟨f0, .inr (.inl ⟨rfl, hy, rfl⟩)⟩
    · rw [if_neg hy, h.flags]
      constructor
      · rintro ⟨g, hg⟩
        refine ⟨g, .inr (.inr ⟨?_, ?_, hg⟩)⟩
        · rintro rfl
          exact h0 hg.1
        · rintro rfl
          exact h1 hg.1
      · rintro ⟨g, ⟨-, hyx, -⟩ | ⟨-, hyx, -⟩ | ⟨-, -, hg⟩⟩
        · exact absurd hyx hy
        · exact absurd hyx hy
        · exact ⟨g, hg⟩

theorem pipePages_withPipe (hne : f0 ≠ f1) (h0 : (w.ftable f0).type ≠ .pipe)
    (h1 : (w.ftable f1).type ≠ .pipe) (hx : x ∉ w.pipePages) :
    (w.withPipe f0 f1 x).pipePages.val = {x} + w.pipePages.val := by
  have hcons : (w.withPipe f0 f1 x).pipePages = Finset.cons x w.pipePages hx := by
    ext y
    rw [Finset.mem_cons, Kernel.mem_pipePages, Kernel.mem_pipePages]
    simp only [isEnd_withPipe hne]
    constructor
    · rintro ⟨g, b, ⟨-, hyx, -⟩ | ⟨-, hyx, -⟩ | ⟨-, -, hg⟩⟩
      · exact .inl hyx
      · exact .inl hyx
      · exact .inr ⟨g, b, hg⟩
    · rintro (hyx | ⟨g, b, hg⟩)
      · exact ⟨f1, true, .inl ⟨rfl, hyx, rfl⟩⟩
      · refine ⟨g, b, .inr (.inr ⟨?_, ?_, hg⟩)⟩
        · rintro rfl
          exact h0 hg.1
        · rintro rfl
          exact h1 hg.1
  rw [hcons, Finset.cons_val, Multiset.singleton_add]

theorem wp_openPipe {Q : Unit → Kernel → Prop} (hne : f0 ≠ f1)
    (hok : Q () (w.withPipe f0 f1 x)) : wp (openPipe f0 f1 x) Q E w := by
  rw [openPipe, wp_bind, wp_setPipe, wp_bind, wp_get, wp_bind, wp_setFile, wp_bind, wp_get,
    wp_setFile, ftable_setFile_ne hne.symm]
  exact hok

end Open

end Xv6
