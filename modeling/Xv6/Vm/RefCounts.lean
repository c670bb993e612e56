import Xv6.Vm.System

/-!
# Reference counts of files

In every state that calls other than `exec` lead to, the reference count of a file is the
number of descriptors that point to it, the flags of a pipe say which of its ends have a
file, and the page of a pipe is given back by the call that closes its last end.
-/

namespace Xv6

open Foundation

namespace Kernel

/-- A file in use is an end of the pipe. -/
def HasEnd (w : Kernel) (x : Frame) (b : Bool) : Prop :=
  ∃ f, 0 < (w.ftable f).ref ∧ w.IsEnd f x b

/-- The reference counts and the flags of pipes are right. -/
structure RefsExact (w : Kernel) : Prop where
  ref : ∀ f, (w.ftable f).ref = pointers w.slots f
  flags : ∀ x b, (w.pipe x).isOpen b = true ↔ w.HasEnd x b
  /-- no file in use is an end of a pipe whose page is free -/
  kept : ∀ x b, w.HasEnd x b → x ∉ w.vm.free

/-- The page of a pipe has been freed exactly if its last end has been closed. -/
def FreesClosed (w w' : Kernel) : Prop :=
  ∀ x, (∃ b, w.HasEnd x b) → (x ∈ w'.vm.free ↔ ∀ b, ¬ w'.HasEnd x b)

variable {w w' : Kernel} {x : Frame} {b : Bool}

/-- A file of a pipe is in use. -/
theorem Sane.hasEnd_iff (h : w.Sane) : w.HasEnd x b ↔ ∃ f, w.IsEnd f x b := by
  constructor
  · rintro ⟨f, -, hf⟩
    exact ⟨f, hf⟩
  · rintro ⟨f, hf⟩
    refine ⟨f, lt_of_le_of_ne (h.files.nonneg f) fun hzero => ?_, hf⟩
    have htype := hf.1
    rw [h.files.closed f hzero.symm] at htype
    cases htype

theorem Sane.hasEnd_pipePages (h : w.Sane) : (∃ b, w.HasEnd x b) ↔ x ∈ w.pipePages := by
  rw [mem_pipePages]
  simp only [h.hasEnd_iff]
  exact exists_comm

theorem Sane.refsExact (h : w.Sane) : w.RefsExact where
  ref := fun f => by
    rw [h.files.refs f, Pi.zero_apply, add_zero]
  flags := fun x b => by
    rw [h.files.flags, h.hasEnd_iff]
  kept := fun x b hend hfree =>
    h.free_disjoint x hfree (h.hasEnd_pipePages.mp ⟨b, hend⟩)

end Kernel

theorem Keeps.freesClosed {w w' : Kernel} (h : Keeps w w') (hw : w.Sane) : w.FreesClosed w' := by
  intro x hx
  have hw' := h.sane hw
  rw [← not_exists, hw'.hasEnd_pipePages]
  constructor
  · exact hw'.free_disjoint x
  · exact (h.pipes x (hw.hasEnd_pipePages.mp hx)).resolve_right

/-- A run without `exec` keeps the kernel sane. -/
theorem sane_of_run {w₀ w : Kernel} {ls : List KernelStep} (hw₀ : w₀.Sane)
    (hcalls : ∀ l ∈ ls, l.call.isExec = false) (hrun : run Kernel.step w₀ ls = some w) : w.Sane := by
  have hmeets : RunMeets Kernel.step (fun _ l => l.call.isExec = false) w₀ ls :=
    runMeets_of_forall (fun l hl _ => hcalls l hl) w₀
  refine run_invariant_of_meets Kernel.Sane (fun u l u' hu hl hstep => ?_) hw₀ hmeets hrun
  exact (keeps_of_ok hu (step_cases hstep).1 (outcome_of_step hu hl hstep)).sane hu

/-- The panics of `filedup` and `fileclose` are not reached. -/
theorem Kernel.Sane.refPanics {w : Kernel} {l : KernelStep} (hw : w.Sane)
    (hrun : (w.proc l.proc).state = .RUNNABLE) (hexec : l.call.isExec = false) {e : Panic}
    (he : e = .filedup ∨ e = .fileclose) : w.outcome l ≠ .error (.panic e) := fun hout => by
  rcases wp_outcome (E := fun s => s ≠ .panic .filedup ∧ s ≠ .panic .fileclose) hw hrun
    (callStops_of_not_exec hexec (by simp) (by simp)) with ⟨w', hok, -⟩ | ⟨s, herr, hs⟩
  · rw [hok] at hout
    cases hout
  · rw [herr] at hout
    cases hout
    rcases he with rfl | rfl
    · exact hs.1 rfl
    · exact hs.2 rfl

/-- The reference counts of files are exact, in every run of calls other than `exec`: `ref` is the
number of the descriptors of all processes that lead to the file, a pipe has an end open exactly
if some file is that end, and the call that closes its last end frees its page. So neither
`filedup` nor `fileclose` panics. -/
theorem file_refs_exact {w₀ w : Kernel} {ls : List KernelStep} (hboot : w₀.Booted)
    (hcalls : ∀ l ∈ ls, l.call.isExec = false) (hrun : run Kernel.step w₀ ls = some w) :
    w.RefsExact ∧ ∀ l, (w.proc l.proc).state = .RUNNABLE → l.call.isExec = false →
      w.outcome l ≠ .error (.panic .filedup) ∧ w.outcome l ≠ .error (.panic .fileclose) ∧
        ∀ w', w.step l = some w' → w.FreesClosed w' := by
  have hw := sane_of_run hboot.boots.sane hcalls hrun
  refine ⟨hw.refsExact, fun l hl hexec => ⟨hw.refPanics hl hexec (.inl rfl),
    hw.refPanics hl hexec (.inr rfl), fun w' hstep => ?_⟩⟩
  exact (keeps_of_ok hw hl (outcome_of_step hw hexec hstep)).freesClosed hw

/-- After `main` the first process can make a pipe. -/
theorem file_refs_exact_pipe : ∃ w₀ w : Kernel,
    run Kernel.step w₀ [⟨initproc, .pipe, [], w₀⟩] = some w ∧ w.RefsExact := by
  obtain ⟨w₀, hboot⟩ := exists_booted
  obtain ⟨w, hstep⟩ : ∃ w, w₀.step ⟨initproc, .pipe, [], w₀⟩ = some w :=
    exists_step hboot.boots rfl (by simp)
  have hrun : run Kernel.step w₀ [⟨initproc, .pipe, [], w₀⟩] = some w := by
    rw [run_cons, hstep]
    rfl
  exact ⟨w₀, w, hrun, (file_refs_exact hboot (by simp [KernelCall.isExec]) hrun).1⟩

end Xv6
