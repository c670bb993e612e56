import Xv6.Vm.Boot

/-!
# Runs of the kernel

A step is a call of one process, from its entry to its return. A call that panics does not
return, and one that waits has not been made. What comes after a use of a null pointer is
not defined, so it can be anything.
-/

namespace Xv6

open Foundation KernelM

inductive KernelCall where
  | fork
  | exec (file : Option Reader) (stack path : List UInt8) (argv : List (List UInt8))
  | sbrk (n : ℤ)
  | pipe
  | dup (fd : ℤ)
  | open (ip : Option (Fin NINODE)) (readable writable : Bool)
  | close (fd : ℤ)
  | exit
  | wait

def KernelCall.isExec : KernelCall → Bool
  | .exec .. => true
  | _ => false

structure KernelStep where
  proc : Slot
  call : KernelCall
  /-- what `kalloc` does in the call -/
  fails : List Bool
  /-- the state after a use of a null pointer -/
  after : Kernel

namespace KernelM

/-- `argfd`, as far as it does not look at the process: the descriptor is in range. -/
def argfd (fd : ℤ) : Option (Fin NOFILE) :=
  if h : 0 ≤ fd ∧ fd.toNat < NOFILE then some ⟨fd.toNat, h.2⟩ else none

def call (p : Slot) : KernelCall → KernelM Unit
  | .fork => do let _ ← fork p
  | .exec file stack path argv => do let _ ← exec p file stack path argv
  | .sbrk n => do let _ ← growproc p n
  | .pipe => do let _ ← sys_pipe p
  | .dup fd => do
      match argfd fd with
      | none => return ()
      | some fd => let _ ← sys_dup p fd
  | .open ip readable writable => do let _ ← sys_open p ip readable writable
  | .close fd => do
      match argfd fd with
      | none => return ()
      | some fd => let _ ← sys_close p fd
  | .exit => exit p
  | .wait => do let _ ← wait p

end KernelM

namespace Kernel

/-- The kernel at the entry of a call. -/
def enter (w : Kernel) (fails : List Bool) : Kernel := w.setVm { w.vm with fails := fails }

def outcome (w : Kernel) (l : KernelStep) : Except VmStop (Unit × Kernel) :=
  KernelM.call l.proc l.call (w.enter l.fails)

def step (w : Kernel) (l : KernelStep) : Option Kernel :=
  if (w.proc l.proc).state = .RUNNABLE then
    match w.outcome l with
    | .ok (_, w') => some w'
    | .error (.panic _) => none
    | .error .nullPtr => some l.after
  else none

/-- The kernel after `main`, on some machine. -/
def Booted (w : Kernel) : Prop :=
  ∃ link page initcode, KernelM.main initcode (reset link page) = .ok ((), w)

end Kernel

section Rules

variable {w w' : Kernel} {l : KernelStep} {E : VmStop → Prop}

theorem Kernel.Booted.boots (h : w.Booted) : Boots w := by
  obtain ⟨link, page, initcode, h⟩ := h
  have hmain : wp (KernelM.main initcode) (fun _ w => Boots w) (fun _ => True)
      (Kernel.reset link page) := wp_main (.inl fun _ => trivial) fun _ h => h
  exact (wp_of_ok h).mp hmain

/-- The entry of a call changes nothing that matters. -/
theorem Kernel.Sane.enter (h : w.Sane) (fails : List Bool) : (w.enter fails).Sane :=
  ⟨h.files.congr rfl rfl fun _ => rfl, h.procs, h.nodup, h.sound⟩

def callNeeds (w : Kernel) (p : Slot) : KernelCall → List Need
  | .fork => forkNeeds w p
  | .exec file stack _ _ => execNeeds file stack w.vm.nread
  | .sbrk n =>
      if n > 0 then
        (w.proc p).pgdir.elim [] fun d =>
          allocNeeds d.has (w.proc p).sz (uint ((w.proc p).sz + n))
      else []
  | .pipe => [.page]
  | _ => []

/-- A page that the call asks for is refused, and it was to become a page table. -/
def TableRefused (w : Kernel) (p : Slot) (c : KernelCall) : Prop :=
  (callNeeds w p c)[w.vm.granted]? = some .table

/-- The call does not leave a hole in the memory of a process: no page table is refused for
a new page, and a process does not give up all its memory. -/
def LeavesNoHole (w : Kernel) (p : Slot) : KernelCall → Prop
  | .exec file stack path argv => ¬ TableRefused w p (.exec file stack path argv)
  | .sbrk n => ¬ TableRefused w p (.sbrk n) ∧ (n < 0 → uint ((w.proc p).sz + n) ≠ 0)
  | _ => True

/-- The ways in which a call may stop. -/
structure CallStops (w : Kernel) (p : Slot) (c : KernelCall) (E : VmStop → Prop) : Prop where
  copyuvm : E (.panic .copyuvmPte) ∧ E (.panic .copyuvmPage) ∨ w.Spaces
  remap : E (.panic .remap) ∨ w.Spaces
  init : c = .exit → E (.panic .initExiting)
  panics : ∀ file stack path argv, c = .exec file stack path argv → ∀ d ∈ (w.proc p).pgdir,
    ExecPanics E ∨ ExecSafe file stack w.vm d
  null : ∀ file stack path argv, c = .exec file stack path argv →
    E .nullPtr ∨ ¬ TableRefused w p c ∧ ArgsShort argv

/-- What a call does. -/
theorem wp_call {p : Slot} {c : KernelCall} (hw : w.Sane) (hrun : (w.proc p).state = .RUNNABLE)
    (hE : CallStops w p c E) :
    wp (KernelM.call p c) (fun _ w' => Keeps w w' ∧
      (LeavesNoHole w p c → w.Spaces → w'.Spaces)) E w := by
  have halive : (w.proc p).state ≠ .UNUSED := by
    rw [hrun]
    simp
  obtain ⟨d, hd, hkernel⟩ := (hw.procs p).pgdir halive
  have hshuffles : ∀ w', Files w' 0 → Shuffles p w w' → Keeps w w' ∧
      (LeavesNoHole w p c → w.Spaces → w'.Spaces) :=
    fun w' hfiles hs => ⟨hs.keeps hw hfiles hrun, fun _ => hs.spaces⟩
  cases c with
  | fork =>
      rw [call, wp_bind]
      exact wp_fork hw hrun hE.copyuvm fun r w' h => wp_pure.mpr ⟨h.keeps hw, fun _ => h.spaces⟩
  | exec file stack path argv =>
      rw [call, wp_bind]
      exact wp_kernelExec hd (hE.panics _ _ _ _ rfl d hd) (hE.null _ _ _ _ rfl) fun t r h =>
        wp_pure.mpr ⟨h.keeps hw hrun hd, fun hneed => h.spaces hneed⟩
  | sbrk n =>
      rw [call, wp_bind]
      refine wp_growproc hw halive hd (hE.remap.imp_right fun hs => ?_)
        (fun _ => wp_pure.mpr (hshuffles w hw.files .refl)) fun t d' r h => wp_pure.mpr ⟨?_, ?_⟩
      · obtain ⟨d', hd', hspace⟩ := hs p halive
        obtain rfl : d = d' := Option.some.inj (hd.symm.trans hd')
        exact hspace
      · have hbound := (hw.procs p).bound halive
        refine (trades_resize hw hrun hd ?_ h.le h.link (h.kernelOnly hbound hkernel)).keeps hw
        split
        · exact hbound
        · exact h.bound hbound
      · rintro ⟨hneed, hzero⟩ hspaces
        obtain ⟨d₀, hd₀, hspace⟩ := hspaces p halive
        obtain rfl : d = d₀ := Option.some.inj (hd.symm.trans hd₀)
        refine spaces_resize hspaces (h.space hspace hzero fun hn => ?_)
        rwa [TableRefused, callNeeds, if_pos hn, hd] at hneed
  | pipe =>
      rw [call, wp_bind]
      exact wp_sys_pipe hw.files hw.usable hw.free_disjoint fun _ w' h hs _ =>
        wp_pure.mpr (hshuffles w' h hs)
  | dup fd =>
      rw [call]
      cases argfd fd with
      | none => exact wp_pure.mpr (hshuffles w hw.files .refl)
      | some fd =>
          dsimp only
          rw [wp_bind]
          exact wp_sys_dup hw.files fun _ w' h hs _ => wp_pure.mpr (hshuffles w' h hs)
  | «open» ip readable writable =>
      rw [call, wp_bind]
      exact wp_sys_open hw.files hw.usable fun _ w' h hs => wp_pure.mpr (hshuffles w' h hs)
  | close fd =>
      rw [call]
      cases argfd fd with
      | none => exact wp_pure.mpr (hshuffles w hw.files .refl)
      | some fd =>
          dsimp only
          rw [wp_bind]
          exact wp_sys_close hw.files hw.usable fun _ w' h hs =>
            wp_pure.mpr (hshuffles w' h hs)
  | exit =>
      exact wp_exit hw hrun (fun _ => hE.init rfl) fun w' h hspaces => ⟨h, fun _ => hspaces⟩
  | wait =>
      rw [call, wp_bind]
      exact wp_wait hw (wp_pure.mpr (hshuffles w hw.files .refl)) fun q w' h hfree =>
        wp_pure.mpr ⟨h.keeps hw, fun _ => h.spaces hfree⟩

theorem step_cases (h : w.step l = some w') : (w.proc l.proc).state = .RUNNABLE ∧
    (w.outcome l = .ok ((), w') ∨ w.outcome l = .error .nullPtr ∧ w' = l.after) := by
  rw [Kernel.step] at h
  split at h
  · rename_i hrun
    refine ⟨hrun, ?_⟩
    cases hout : w.outcome l with
    | ok r =>
        rw [hout] at h
        exact .inl (by rw [← Option.some.inj h])
    | error e =>
        rw [hout] at h
        cases e with
        | panic e => cases h
        | nullPtr => exact .inr ⟨rfl, (Option.some.inj h).symm⟩
  · cases h

theorem step_of_ok (hrun : (w.proc l.proc).state = .RUNNABLE) (h : w.outcome l = .ok ((), w')) :
    w.step l = some w' := by
  rw [Kernel.step, if_pos hrun, h]

theorem step_of_nullPtr (hrun : (w.proc l.proc).state = .RUNNABLE)
    (h : w.outcome l = .error .nullPtr) : w.step l = some l.after := by
  rw [Kernel.step, if_pos hrun, h]

/-- What holds of a call holds of its outcome. -/
theorem wp_outcome (hw : w.Sane) (hrun : (w.proc l.proc).state = .RUNNABLE)
    (hE : CallStops (w.enter l.fails) l.proc l.call E) :
    (∃ w', w.outcome l = .ok ((), w') ∧ Keeps w w' ∧
      (LeavesNoHole (w.enter l.fails) l.proc l.call → w.Spaces → w'.Spaces)) ∨
      ∃ e, w.outcome l = .error e ∧ E e := by
  have hcall : wp (KernelM.call l.proc l.call) _ E (w.enter l.fails) :=
    wp_call (hw.enter l.fails) hrun hE
  cases hout : w.outcome l with
  | ok r =>
      obtain ⟨hkeeps, hspaces⟩ := (wp_of_ok (a := r.1) (t := r.2) hout).mp hcall
      exact .inl ⟨r.2, rfl, ⟨hkeeps.files, hkeeps.procs, hkeeps.owners, hkeeps.link, hkeeps.pipes⟩,
        hspaces⟩
  | error e => exact .inr ⟨e, rfl, (wp_of_error hout).mp hcall⟩

theorem ne_exec {c : KernelCall} (h : c.isExec = false) {file : Option Reader}
    {stack path : List UInt8} {argv : List (List UInt8)} : c ≠ .exec file stack path argv := by
  rintro rfl
  cases h

/-- `exec` is the only call that can use a null pointer. -/
theorem callStops_of_not_exec (hexec : l.call.isExec = false)
    (hmem : E (.panic .copyuvmPte) ∧ E (.panic .copyuvmPage) ∧ E (.panic .remap))
    (hinit : E (.panic .initExiting)) : CallStops w l.proc l.call E where
  copyuvm := .inl ⟨hmem.1, hmem.2.1⟩
  remap := .inl hmem.2.2
  init := fun _ => hinit
  panics := fun _ _ _ _ h => absurd h (ne_exec hexec)
  null := fun _ _ _ _ h => absurd h (ne_exec hexec)

theorem outcome_of_step (hw : w.Sane) (hexec : l.call.isExec = false) (h : w.step l = some w') :
    w.outcome l = .ok ((), w') := by
  obtain ⟨hrun, hok | ⟨hnull, -⟩⟩ := step_cases h
  · exact hok
  · rcases wp_outcome (E := (· ≠ .nullPtr)) hw hrun
      (callStops_of_not_exec hexec (by simp) (by simp)) with ⟨w', hok, -⟩ | ⟨e, herr, hne⟩
    · rw [hok] at hnull
      cases hnull
    · rw [herr] at hnull
      exact absurd (Except.error.inj hnull) hne

/-- What a call keeps that returns. -/
theorem keeps_of_ok (hw : w.Sane) (hrun : (w.proc l.proc).state = .RUNNABLE)
    (h : w.outcome l = .ok ((), w')) : Keeps w w' := by
  rcases wp_outcome (E := fun _ => True) hw hrun
    ⟨.inl ⟨trivial, trivial⟩, .inl trivial, fun _ => trivial, fun _ _ _ _ _ _ _ =>
      .inl ⟨trivial, trivial, trivial, trivial, trivial⟩, fun _ _ _ _ _ => .inl trivial⟩
    with ⟨u, hok, hkeeps, -⟩ | ⟨e, herr, -⟩
  · rw [hok] at h
    cases h
    exact hkeeps
  · rw [herr] at h
    cases h

/-- `exec` is not refused a page table, and the program's segments and arguments are as it
takes them to be. -/
def ExecFits (w : Kernel) (l : KernelStep) : Prop :=
  ∀ file stack path argv, l.call = .exec file stack path argv →
    ¬ TableRefused (w.enter l.fails) l.proc l.call ∧ FileFits file stack w.vm.nread ∧
      ArgsShort argv

/-- A call that fits uses no null pointer. -/
theorem ExecFits.stops (h : ExecFits w l) (hpanic : ∀ e, E (.panic e)) :
    CallStops (w.enter l.fails) l.proc l.call E where
  copyuvm := .inl ⟨hpanic _, hpanic _⟩
  remap := .inl (hpanic _)
  init := fun _ => hpanic _
  panics := fun _ _ _ _ _ _ _ => .inl ⟨hpanic _, hpanic _, hpanic _, hpanic _, hpanic _⟩
  null := fun _ _ _ _ hc => .inr ⟨(h _ _ _ _ hc).1, (h _ _ _ _ hc).2.2⟩

theorem ExecFits.outcome (h : ExecFits w l) (hw : w.Sane) (hstep : w.step l = some w') :
    w.outcome l = .ok ((), w') := by
  obtain ⟨hrun, hok | ⟨hnull, -⟩⟩ := step_cases hstep
  · exact hok
  · rcases wp_outcome (E := (· ≠ .nullPtr)) hw hrun (h.stops fun _ => by simp) with
      ⟨w', hok, -⟩ | ⟨e, herr, hne⟩
    · rw [hok] at hnull
      cases hnull
    · rw [herr] at hnull
      exact absurd (Except.error.inj hnull) hne

theorem ExecFits.sane (h : ExecFits w l) (hw : w.Sane) (hstep : w.step l = some w') : w'.Sane :=
  (keeps_of_ok hw (step_cases hstep).1 (h.outcome hw hstep)).sane hw

/-- There are machines on which `main` gets to its end. -/
theorem exists_booted : ∃ w : Kernel, w.Booted := by
  let link : Linker := ⟨0x102000, 0x110000, by decide, by decide, by decide, by decide⟩
  have hmain : wp (KernelM.main []) (fun _ w => Boots w) (fun _ => False)
      (Kernel.reset link fun _ _ => 0) :=
    wp_main (.inr ⟨by decide, by decide⟩) fun _ h => h
  obtain ⟨_, w, hw, -⟩ := hmain.exists_ok
  exact ⟨w, link, _, [], hw⟩

/-- The first process can make a call that does not stop. -/
theorem exists_step {c : KernelCall} {fails : List Bool} (hw : Boots w)
    (hexec : c.isExec = false) (hexit : c ≠ .exit) :
    ∃ w', w.step ⟨initproc, c, fails, w⟩ = some w' := by
  rcases wp_outcome (l := ⟨initproc, c, fails, w⟩) (E := fun _ => False) hw.sane hw.init.1
    ⟨.inr hw.spaces, .inr hw.spaces, fun h => absurd h hexit, fun _ _ _ _ h =>
      absurd h (ne_exec hexec), fun _ _ _ _ h => absurd h (ne_exec hexec)⟩
    with ⟨w', hok, -⟩ | ⟨e, -, hno⟩
  · exact ⟨w', step_of_ok hw.init.1 hok⟩
  · exact hno.elim

end Rules

end Xv6
