import Xv6.Vm.System

/-!
# The address space of every process

As long as no page table is refused for a page of a program or of a process that grows, no
process gives up all its memory at once and the arguments of `exec` are short, the memory of
every process is there and nothing else is accessible. In particular `fork` does not panic.
-/

namespace Xv6

open Foundation

/-- The address space of a process of this size: what is below it is present, what is above
it is not accessible. -/
structure SpaceExact (d : Pgdir) (sz : ℕ) : Prop where
  bound : sz ≤ KERNBASE
  present : ∀ va < sz, (d.pte va).p = true
  above : ∀ va < 2 ^ 32, PGROUNDUP sz ≤ va → ¬ Accessible d va
  kernel : ∀ va < 2 ^ 32, KERNBASE ≤ va → ¬ Accessible d va

/-- The address space of every process is as its size says. -/
def Kernel.SpacesExact (w : Kernel) : Prop :=
  ∀ p, (w.proc p).state ≠ .UNUSED → ∃ d, (w.proc p).pgdir = some d ∧ SpaceExact d (w.proc p).sz

section Space

variable {d : Pgdir} {sz : ℕ}

theorem Space.not_accessible (h : Space d sz) {va : ℕ} (hva : va < 2 ^ 32)
    (hge : sz ≤ va / PGSIZE * PGSIZE) : ¬ Accessible d va := fun hacc => by
  have hm : va / PGSIZE < numPages := by
    rw [numPages_eq, PGSIZE_eq]
    omega
  rw [Accessible, ← Pgdir.pte_page] at hacc
  by_cases hmu : va / PGSIZE < userPages
  · exact h.above _ hmu hge hacc.1
  · have hu := h.kernelOnly _ hm (Nat.not_lt.mp hmu)
    rw [hacc.2] at hu
    cases hu

theorem Space.exact (h : Space d sz) : SpaceExact d sz where
  bound := h.bound
  present := fun va hva => by
    rw [← Pgdir.pte_page]
    exact h.present _ ((Nat.div_mul_le_self _ _).trans_lt hva)
  above := fun va hva hge => by
    refine h.not_accessible hva (pageUp_le_iff.mp ?_)
    rw [PGROUNDUP_eq h.bound] at hge
    exact (Nat.le_div_iff_mul_le (by decide)).mpr hge
  kernel := fun va hva hge => by
    refine h.not_accessible hva (h.bound.trans ?_)
    rw [KERNBASE, PGSIZE_eq] at *
    omega

end Space

/-- The condition on a call. -/
structure CallFits (w : Kernel) (l : KernelStep) : Prop where
  hole : LeavesNoHole (w.enter l.fails) l.proc l.call
  program : ExecFits w l

section Runs

variable {w₀ w w' : Kernel} {l : KernelStep} {ls : List KernelStep}

theorem CallFits.spaces (h : CallFits w l) (hw : w.Sane) (hspaces : w.Spaces)
    (hstep : w.step l = some w') : w'.Spaces := by
  have hout := h.program.outcome hw hstep
  rcases wp_outcome (E := (· ≠ .nullPtr)) hw (step_cases hstep).1
    (h.program.stops fun _ => by simp) with
    ⟨u, hok, -, hu⟩ | ⟨e, herr, -⟩
  · rw [hok] at hout
    cases hout
    exact hu h.hole hspaces
  · rw [herr] at hout
    cases hout

/-- Calls that fit keep the kernel sane and the memory of every process there. -/
theorem spaces_of_run (hw₀ : w₀.Sane) (hspaces : w₀.Spaces)
    (hfits : RunMeets Kernel.step CallFits w₀ ls) (hrun : run Kernel.step w₀ ls = some w) :
    w.Sane ∧ w.Spaces :=
  run_invariant_of_meets (fun w => w.Sane ∧ w.Spaces)
    (fun _ _ _ h hl hstep => ⟨hl.program.sane h.1 hstep, hl.spaces h.1 h.2 hstep⟩)
    ⟨hw₀, hspaces⟩ hfits hrun

theorem Kernel.Spaces.exact (h : w.Spaces) : w.SpacesExact := fun p hp => by
  obtain ⟨d, hd, hspace⟩ := h p hp
  exact ⟨d, hd, hspace.exact⟩

/-- The panics of `copyuvm` are not reached where the memory of every process is there. -/
theorem Kernel.Spaces.copyuvmPanics (hspaces : w.Spaces) (hw : w.Sane)
    (hrun : (w.proc l.proc).state = .RUNNABLE) {e : Panic}
    (he : e = .copyuvmPte ∨ e = .copyuvmPage) : w.outcome l ≠ .error (.panic e) := fun hout => by
  rcases wp_outcome (E := fun s => s ≠ .panic .copyuvmPte ∧ s ≠ .panic .copyuvmPage) hw hrun
    ⟨.inr hspaces, .inr hspaces, fun _ => by simp, fun _ _ _ _ _ _ _ =>
      .inl ⟨by simp, by simp, by simp, by simp, by simp⟩, fun _ _ _ _ _ => .inl (by simp)⟩ with
    ⟨w', hok, -⟩ | ⟨s, herr, hs⟩
  · rw [hok] at hout
    cases hout
  · rw [herr] at hout
    cases hout
    rcases he with rfl | rfl
    · exact hs.1 rfl
    · exact hs.2 rfl

/-- In a run of calls that fit, every address space is as the size of its process says: the user
pages below the size are present, each in a page of its own, and nothing else is mapped below
`KERNBASE`. So the panics of `copyuvm` are not reached. A call does not fit if it asks for a size
that wraps, or if `allocuvm` is refused a page table, which it does not notice. -/
theorem address_spaces_exact (hboot : w₀.Booted) (hfits : RunMeets Kernel.step CallFits w₀ ls)
    (hrun : run Kernel.step w₀ ls = some w) : w.SpacesExact ∧
      ∀ l, (w.proc l.proc).state = .RUNNABLE → w.outcome l ≠ .error (.panic .copyuvmPte) ∧
        w.outcome l ≠ .error (.panic .copyuvmPage) := by
  obtain ⟨hw, hspaces⟩ := spaces_of_run hboot.boots.sane hboot.boots.spaces hfits hrun
  exact ⟨hspaces.exact, fun l hl => ⟨hspaces.copyuvmPanics hw hl (.inl rfl),
    hspaces.copyuvmPanics hw hl (.inr rfl)⟩⟩

/-- The first process gives up a byte. -/
theorem address_spaces_exact_shrink : ∃ w₀ w : Kernel,
    run Kernel.step w₀ [⟨initproc, .sbrk (-1), [], w₀⟩] = some w ∧ w.SpacesExact := by
  obtain ⟨w₀, hboot⟩ := exists_booted
  have hsize := hboot.boots.init.2
  obtain ⟨w, hstep⟩ : ∃ w, w₀.step ⟨initproc, .sbrk (-1), [], w₀⟩ = some w :=
    exists_step hboot.boots rfl (by simp)
  have hrun : run Kernel.step w₀ [⟨initproc, .sbrk (-1), [], w₀⟩] = some w := by
    rw [run_cons, hstep]
    rfl
  have hfits : CallFits w₀ ⟨initproc, .sbrk (-1), [], w₀⟩ := by
    refine ⟨⟨by simp [TableRefused, callNeeds], fun _ => ?_⟩, fun _ _ _ _ h => by cases h⟩
    change uint ((w₀.proc initproc).sz + -1) ≠ 0
    rw [hsize]
    decide
  have hmeets : RunMeets Kernel.step CallFits w₀ [⟨initproc, .sbrk (-1), [], w₀⟩] :=
    ⟨hfits, fun _ _ => trivial⟩
  exact ⟨w₀, w, hrun, (address_spaces_exact hboot hmeets hrun).1⟩

/-- The first process gives up all its memory: `growproc` fails, but the page is gone. -/
theorem address_space_hole : ∃ w₀ w : Kernel, w₀.Booted ∧
    run Kernel.step w₀ [⟨initproc, .sbrk (-4096), [], w₀⟩] = some w ∧ ¬ w.SpacesExact := by
  obtain ⟨w₀, hboot⟩ := exists_booted
  have hinit := hboot.boots.init
  have halive : (w₀.proc initproc).state ≠ .UNUSED := by
    rw [hinit.1]
    simp
  obtain ⟨d, hd, hspace⟩ := hboot.boots.spaces initproc halive
  have hcall : wp (KernelM.call initproc (.sbrk (-4096))) (fun _ w => ¬ w.SpacesExact)
      (fun _ => False) (w₀.enter []) := by
    rw [KernelM.call, wp_bind]
    refine wp_growproc (hboot.boots.sane.enter []) halive hd (.inr hspace) (by simp)
      fun t d' r h => wp_pure.mpr fun hexact => ?_
    change Resized (-4096) (w₀.proc initproc).sz _ _ _ _ _ at h
    change Kernel.SpacesExact (((w₀.enter []).setVm t).setProc initproc
      ((w₀.proc initproc).resize d' (if r = 0 then (w₀.proc initproc).sz else r))) at hexact
    rw [hinit.2] at h hexact
    have hzero : uint ((PGSIZE : ℕ) + -4096) = 0 := by decide
    cases h with
    | up hn => exact absurd hn (by decide)
    | same _ hle =>
        rw [hzero] at hle
        exact absurd hle (by decide)
    | down _ _ h hr =>
        rw [hr, hzero, if_pos rfl] at hexact
        obtain ⟨d₁, hd₁, hspace₁⟩ := hexact initproc (by rw [proc_setProc_self]; exact halive)
        rw [proc_setProc_self] at hd₁ hspace₁
        obtain rfl : d' = d₁ := Option.some.inj hd₁
        have hpresent := hspace₁.present (0 * PGSIZE) (by change 0 * PGSIZE < PGSIZE; decide)
        rw [hzero] at h
        rw [h.gone (.inl rfl) 0 (by decide) le_rfl (by decide)] at hpresent
        cases hpresent
  obtain ⟨_, w, hok, hno⟩ := hcall.exists_ok
  refine ⟨w₀, w, hboot, ?_, hno⟩
  rw [run_cons, step_of_ok (l := ⟨initproc, .sbrk (-4096), [], w₀⟩) hinit.1 hok]
  rfl

end Runs

end Xv6
