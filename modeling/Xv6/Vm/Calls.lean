import Xv6.Vm.FileCalls

/-!
# The calls on processes

`fork`, `exec`, `sbrk`, `exit` and `wait`, by what they do to the pages of all owners: the
free list, the pipes, the page directory of the kernel and the processes. A page that a
call loses is not given to anybody else.
-/

namespace Xv6

open Foundation KernelM

def MemProc.held (x : MemProc) : Multiset Frame :=
  if x.state = .UNUSED then 0 else x.kstack.elim 0 (fun f => {f}) + heldBy x.pgdir

namespace Kernel

def procPages (w : Kernel) : Multiset Frame := ∑ p, (w.proc p).held

def owners (w : Kernel) : Multiset Frame :=
  w.vm.free + w.pipePages.val + heldBy w.kpgdir + w.procPages

end Kernel

/-- A slot of `ptable` between two calls. -/
structure MemProc.Ok (x : MemProc) : Prop where
  idle : x.state ≠ .RUNNABLE → ∀ fd, x.ofile fd = none
  kstack : x.state ≠ .UNUSED → ∃ f, x.kstack = some f
  pgdir : x.state ≠ .UNUSED → ∃ d, x.pgdir = some d ∧ KernelOnly d
  bound : x.state ≠ .UNUSED → x.sz ≤ KERNBASE

/-- The kernel between two calls. -/
structure Kernel.Sane (w : Kernel) : Prop where
  files : Files w 0
  procs : ∀ p, (w.proc p).Ok
  nodup : w.owners.Nodup
  sound : ∀ f ∈ w.owners, ¬ BadFrame w.vm.link f

/-- What every call keeps. -/
structure Keeps (w w' : Kernel) : Prop where
  files : Files w' 0
  procs : ∀ p, (w'.proc p).Ok
  owners : w'.owners ≤ w.owners
  link : w'.vm.link = w.vm.link
  pipes : ∀ x ∈ w.pipePages, x ∈ w'.vm.free ∨ x ∈ w'.pipePages

theorem Keeps.sane {w w' : Kernel} (h : Keeps w w') (hw : w.Sane) : w'.Sane where
  files := h.files
  procs := h.procs
  nodup := Multiset.nodup_of_le h.owners hw.nodup
  sound := fun f hf => by
    rw [h.link]
    exact hw.sound f (Multiset.mem_of_le h.owners hf)

namespace Kernel

variable {w w' : Kernel} {p : Slot}

theorem mem_owners_of_free {f : Frame} (hf : f ∈ w.vm.free) : f ∈ w.owners :=
  Multiset.mem_add.mpr (.inl (Multiset.mem_add.mpr (.inl (Multiset.mem_add.mpr (.inl hf)))))

theorem mem_owners_of_proc {f : Frame} (hf : f ∈ (w.proc p).held) : f ∈ w.owners := by
  refine Multiset.mem_add.mpr (.inr ?_)
  rw [procPages, Multiset.mem_sum]
  exact ⟨p, Finset.mem_univ p, hf⟩

theorem Sane.usable (h : w.Sane) : w.Usable := fun x hx =>
  h.sound x (Multiset.mem_add.mpr (.inl (Multiset.mem_add.mpr (.inl hx))))

/-- A free page is in no pipe. -/
theorem Sane.free_disjoint (h : w.Sane) : ∀ x ∈ w.vm.free, x ∉ w.pipePages := fun x hx hpipe => by
  have hnodup : (w.vm.free + w.pipePages.val).Nodup :=
    Multiset.nodup_of_le (by rw [owners, add_assoc]; exact Multiset.le_add_right _ _) h.nodup
  exact Multiset.disjoint_left.mp (Multiset.nodup_add.mp hnodup).2.2 hx hpipe

/-- A process keeps a sound address space. -/
theorem Sane.sound_pgdir (h : w.Sane) (hstate : (w.proc p).state ≠ .UNUSED) {d : Pgdir}
    (hd : (w.proc p).pgdir = some d) : Sound w.vm d := fun f hf => by
  refine h.sound f ?_
  rcases Multiset.mem_add.mp hf with hfree | hheld
  · exact mem_owners_of_free hfree
  · refine mem_owners_of_proc (p := p) ?_
    rw [MemProc.held, if_neg hstate, hd, heldBy]
    exact Multiset.mem_add.mpr (.inr hheld)

/-- All processes keep what they had, but for one. -/
theorem procPages_change (w w' : Kernel) (p : Slot)
    (h : ∀ q, q ≠ p → (w'.proc q).held = (w.proc q).held) :
    w'.procPages + (w.proc p).held = w.procPages + (w'.proc p).held := by
  have hrest : ∑ q ∈ Finset.univ.erase p, (w'.proc q).held =
      ∑ q ∈ Finset.univ.erase p, (w.proc q).held :=
    Finset.sum_congr rfl fun q hq => h q (Finset.ne_of_mem_erase hq)
  rw [procPages, procPages, ← Finset.add_sum_erase _ _ (Finset.mem_univ p),
    ← Finset.add_sum_erase Finset.univ (fun q => (w.proc q).held) (Finset.mem_univ p), hrest]
  abel

theorem procPages_same (h : ∀ q, (w'.proc q).held = (w.proc q).held) :
    w'.procPages = w.procPages := Finset.sum_congr rfl fun q _ => h q

end Kernel

/-- The memory of every process is there. -/
def Kernel.Spaces (w : Kernel) : Prop :=
  ∀ p, (w.proc p).state ≠ .UNUSED → ∃ d, (w.proc p).pgdir = some d ∧ Space d (w.proc p).sz

section Rules

variable {w w' : Kernel} {p : Slot} {E : VmStop → Prop}

theorem Shuffles.held (h : Shuffles p w w') (q : Slot) : (w'.proc q).held = (w.proc q).held := by
  by_cases hq : q = p
  · rw [hq, h.self]
    rfl
  · rw [h.other q hq]

theorem Shuffles.keeps (h : Shuffles p w w') (hw : w.Sane) (hfiles : Files w' 0)
    (hrun : (w.proc p).state = .RUNNABLE) : Keeps w w' where
  files := hfiles
  procs := fun q => by
    by_cases hq : q = p
    · rw [hq, h.self]
      have hok := hw.procs p
      exact ⟨fun hne => absurd hrun hne, hok.kstack, hok.pgdir, hok.bound⟩
    · rw [h.other q hq]
      exact hw.procs q
  owners := by
    rw [Kernel.owners, Kernel.owners, h.acct, h.kpgdir, Kernel.procPages_same h.held]
  link := h.link
  pipes := fun x hx => by
    have hmem : x ∈ w'.vm.free + w'.pipePages.val := by
      rw [h.acct]
      exact Multiset.mem_add.mpr (.inr hx)
    exact Multiset.mem_add.mp hmem

theorem Shuffles.spaces (h : Shuffles p w w') (hspaces : w.Spaces) : w'.Spaces := fun q hq => by
  by_cases hqp : q = p
  · subst hqp
    rw [h.self] at hq ⊢
    exact hspaces q hq
  · rw [h.other q hqp] at hq ⊢
    exact hspaces q hq

/-- The file table and the descriptors are as they were. -/
theorem Files.congr {e : Fin NFILE → ℤ} (h : Files w e) (hfile : w'.ftable = w.ftable)
    (hpipe : w'.pipe = w.pipe) (hfds : ∀ q, (w'.proc q).ofile = (w.proc q).ofile) : Files w' e := by
  have hslots : w'.slots = w.slots := funext fun x => by rw [Kernel.slots, hfds, Kernel.slots]
  have hends : ∀ f x b, w'.IsEnd f x b ↔ w.IsEnd f x b := fun f x b => by
    rw [Kernel.IsEnd, Kernel.IsEnd, hfile]
  refine ⟨fun f => ?_, fun f => ?_, fun f => ?_, fun f g x b hf hg => ?_, fun x b => ?_⟩
  · rw [hfile, hslots]
    exact h.refs f
  · rw [hfile]
    exact h.nonneg f
  · rw [hfile]
    exact h.closed f
  · exact h.unique f g x b ((hends f x b).mp hf) ((hends g x b).mp hg)
  · simp only [hpipe, hends]
    exact h.flags x b

theorem pipePages_congr (hfile : w'.ftable = w.ftable) : w'.pipePages = w.pipePages := by
  rw [Kernel.pipePages, Kernel.pipePages, hfile]

/-- A call of one process that changes memory only; `q` is the process whose memory it is. -/
structure Trades (q : Slot) (w w' : Kernel) : Prop where
  ftable : w'.ftable = w.ftable
  pipe : w'.pipe = w.pipe
  kpgdir : w'.kpgdir = w.kpgdir
  link : w'.vm.link = w.vm.link
  fds : ∀ p, (w'.proc p).ofile = (w.proc p).ofile
  other : ∀ p, p ≠ q → w'.proc p = w.proc p
  ok : (w'.proc q).Ok
  le : w'.vm.free + (w'.proc q).held ≤ w.vm.free + (w.proc q).held

theorem Trades.keeps {q : Slot} (h : Trades q w w') (hw : w.Sane) : Keeps w w' where
  files := hw.files.congr h.ftable h.pipe h.fds
  procs := fun p => by
    by_cases hp : p = q
    · exact hp ▸ h.ok
    · rw [h.other p hp]
      exact hw.procs p
  owners := by
    have hchange := Kernel.procPages_change w w' q
      fun p hp => by rw [h.other p hp]
    refine le_of_add_le_add_right (a := (w.proc q).held) ?_
    calc w'.owners + (w.proc q).held
        = w'.vm.free + (w'.proc q).held + (w.pipePages.val + heldBy w.kpgdir + w.procPages) := by
          rw [Kernel.owners, add_assoc _ w'.procPages, hchange, pipePages_congr h.ftable, h.kpgdir]
          abel
      _ ≤ w.vm.free + (w.proc q).held + (w.pipePages.val + heldBy w.kpgdir + w.procPages) :=
          add_le_add_left h.le _
      _ = w.owners + (w.proc q).held := by
          rw [Kernel.owners]
          abel
  link := h.link
  pipes := fun x hx => .inr (by rwa [pipePages_congr h.ftable])

/-! ### `fork` -/

theorem wp_kernelPgdir {d : Pgdir} {Q : Pgdir → Kernel → Prop} (h : (w.proc p).pgdir = some d) :
    wp (KernelM.pgdir p) Q E w ↔ Q d w := by
  rw [KernelM.pgdir, wp_bind, wp_proc, h]
  exact wp_pure

def forkNeeds (w : Kernel) (p : Slot) : List Need :=
  if ∃ q, (w.proc q).state = .UNUSED then .page :: copyNeeds (w.proc p).sz else []

/-- The slot is as it was, or it is not in use before and after. -/
def SameSlot (x y : MemProc) : Prop :=
  y = x ∨ x.state = .UNUSED ∧ y.state = .UNUSED ∧ y.ofile = x.ofile

theorem SameSlot.held {x y : MemProc} (h : SameSlot x y) : y.held = x.held := by
  rcases h with rfl | ⟨hx, hy, -⟩
  · rfl
  · rw [MemProc.held, if_pos hy, MemProc.held, if_pos hx]

theorem SameSlot.ok {x y : MemProc} (h : SameSlot x y) (hx : x.Ok) : y.Ok := by
  rcases h with rfl | ⟨hstate, hy, hfds⟩
  · exact hx
  · refine ⟨fun _ fd => ?_, fun hne => absurd hy hne, fun hne => absurd hy hne,
      fun hne => absurd hy hne⟩
    rw [hfds]
    exact hx.idle (by rw [hstate]; simp) fd

structure Forks (p : Slot) (w : Kernel) (r : Option Slot) (w' : Kernel) : Prop where
  files : Files w' 0
  pipes : w'.pipePages = w.pipePages
  kpgdir : w'.kpgdir = w.kpgdir
  link : w'.vm.link = w.vm.link
  balance : Balance (forkNeeds w p)[w.vm.granted]?
    (w'.vm.free + r.elim 0 fun np => (w'.proc np).held) w.vm.free
  same : ∀ q, r ≠ some q → SameSlot (w.proc q) (w'.proc q)
  child : ∀ np ∈ r, (w.proc np).state = .UNUSED ∧ (w'.proc np).Ok ∧
    ∃ d, (w'.proc np).pgdir = some d ∧ Space d (w'.proc np).sz

theorem Forks.keeps {r : Option Slot} (h : Forks p w r w') (hw : w.Sane) : Keeps w w' where
  files := h.files
  procs := fun q => by
    by_cases hq : r = some q
    · exact (h.child q hq).2.1
    · exact (h.same q hq).ok (hw.procs q)
  owners := by
    have hprocs : w'.procPages = w.procPages + r.elim 0 fun np => (w'.proc np).held := by
      cases r with
      | none =>
          rw [Option.elim_none, add_zero]
          exact Kernel.procPages_same fun q => (h.same q (by simp)).held
      | some np =>
          have hchange := Kernel.procPages_change w w' np
            fun q hq => (h.same q (by simpa using Ne.symm hq)).held
          rwa [MemProc.held, if_pos (h.child np rfl).1, add_zero] at hchange
    calc w'.owners
        = (w'.vm.free + r.elim 0 fun np => (w'.proc np).held) +
            (w.pipePages.val + heldBy w.kpgdir + w.procPages) := by
          rw [Kernel.owners, hprocs, h.pipes, h.kpgdir]
          abel
      _ ≤ w.vm.free + (w.pipePages.val + heldBy w.kpgdir + w.procPages) :=
          add_le_add_left h.balance.le _
      _ = w.owners := by
          rw [Kernel.owners]
          abel
  link := h.link
  pipes := fun x hx => .inr (by rwa [h.pipes])

theorem Forks.spaces {r : Option Slot} (h : Forks p w r w') (hspaces : w.Spaces) : w'.Spaces :=
  fun q hstate => by
    by_cases hq : r = some q
    · exact (h.child q hq).2.2
    · rcases h.same q hq with heq | ⟨-, hunused, -⟩
      · rw [heq] at hstate ⊢
        exact hspaces q hstate
      · exact absurd hunused hstate

theorem wp_allocproc {Q : Option Slot → Kernel → Prop}
    (hfull : ¬ (∃ q, (w.proc q).state = .UNUSED) → Q none w)
    (hnone : ∀ np, (w.proc np).state = .UNUSED → w.vm.granted = 0 →
      Q none ((w.setVm w.vm.refuse).setProc np { w.proc np with state := .UNUSED, kstack := none }))
    (hsome : ∀ np f free, (w.proc np).state = .UNUSED →
      w.vm.free = {f} + (w.vm.give f free).free → w.vm.granted = (w.vm.give f free).granted + 1 →
      Q (some np) ((w.setVm (w.vm.give f free)).setProc np
        { w.proc np with state := .EMBRYO, kstack := some f })) :
    wp allocproc Q E w := by
  rw [allocproc, wp_bind, wp_get]
  cases hfind : (List.finRange NPROC).find? fun q => decide ((w.proc q).state = .UNUSED) with
  | none =>
      refine wp_pure.mpr (hfull ?_)
      rintro ⟨q, hq⟩
      exact List.find?_eq_none.mp hfind q (List.mem_finRange q) (by simpa using hq)
  | some np =>
      have hnp : (w.proc np).state = .UNUSED := by simpa using List.find?_some hfind
      dsimp only
      rw [wp_bind, wp_onVm]
      refine wp_kalloc (fun hgranted => ?_) fun f free hfree hgranted => ?_
      · dsimp only
        rw [wp_bind, wp_setProc]
        exact wp_pure.mpr (hnone np hnp hgranted)
      · dsimp only
        rw [wp_bind, wp_setProc]
        exact wp_pure.mpr (hsome np f free hnp hfree hgranted)

theorem proc_setProc_self {x : MemProc} : (w.setProc p x).proc p = x := Function.update_self ..

theorem proc_setProc_ne {q : Slot} {x : MemProc} (h : q ≠ p) : (w.setProc p x).proc q = w.proc q :=
  Function.update_of_ne h ..

theorem proc_setVm {s : Vm} : (w.setVm s).proc = w.proc := rfl

/-- In the middle of `fork`: `allocproc` has found a slot and a page for its stack, and `copyuvm`
has returned `r`. -/
structure Embryo (p np : Slot) (f : Frame) (r : Option Pgdir) (w w' : Kernel) : Prop where
  unused : (w.proc np).state = .UNUSED
  files : Files w' 0
  pipes : w'.pipePages = w.pipePages
  kpgdir : w'.kpgdir = w.kpgdir
  link : w'.vm.link = w.vm.link
  self : w'.proc np = { w.proc np with state := .EMBRYO, kstack := some f }
  other : ∀ q, q ≠ np → w'.proc q = w.proc q
  usable : ¬ BadFrame w'.vm.link f
  balance : Balance (forkNeeds w p)[w.vm.granted]? ({f} + (w'.vm.free + heldBy r)) w.vm.free

/-- No slot is free, or there is no page for the stack. -/
theorem Forks.refused (hw : w.Sane) :
    (¬ (∃ q, (w.proc q).state = .UNUSED) → Forks p w none w) ∧
    ∀ np, (w.proc np).state = .UNUSED → w.vm.granted = 0 → Forks p w none
      ((w.setVm w.vm.refuse).setProc np { w.proc np with state := .UNUSED, kstack := none }) := by
  refine ⟨fun hfull => ⟨hw.files, rfl, rfl, rfl, ?_, fun _ _ => .inl rfl, by simp⟩,
    fun np hnp hgranted =>
      ⟨hw.files.congr rfl rfl fun q => ?_, rfl, rfl, rfl, ?_, fun q _ => ?_, by simp⟩⟩
  · rw [forkNeeds, if_neg hfull]
    exact Balance.of_eq (by simp) (add_zero _)
  · by_cases hq : q = np
    · rw [hq, proc_setProc_self]
    · rw [proc_setProc_ne hq, proc_setVm]
  · rw [forkNeeds, if_pos ⟨np, hnp⟩, hgranted]
    exact Balance.of_eq (by simp) (add_zero _)
  · by_cases hq : q = np
    · rw [hq, proc_setProc_self]
      exact .inr ⟨hnp, rfl, rfl⟩
    · rw [proc_setProc_ne hq, proc_setVm]
      exact .inl rfl

/-- `copyuvm` has failed: the stack is freed, and the slot is given back. -/
theorem Embryo.wp_abandon {Q : Option Slot → Kernel → Prop} {np : Slot} {f : Frame} {w' : Kernel}
    (h : Embryo p np f none w w') (hok : ∀ w'', Forks p w none w'' → Q none w'') :
    wp (do
      kfree (← proc np).kstack
      setProc np { ← proc np with pgdir := none, kstack := none, state := .UNUSED }
      return none) Q E w' := by
  rw [wp_bind, wp_proc, wp_bind, h.self, KernelM.kfree, wp_onVm]
  refine wp_kfree (fun hbad => absurd (.inr hbad) h.usable) ?_
  rw [wp_bind, wp_proc, wp_bind, wp_setProc, proc_setVm]
  refine wp_pure.mpr (hok _
    ⟨h.files.congr rfl rfl fun q => ?_, h.pipes, h.kpgdir, h.link, ?_, fun q _ => ?_, by simp⟩)
  · by_cases hq : q = np
    · rw [hq, proc_setProc_self]
    · rw [proc_setProc_ne hq, proc_setVm]
  · have hbalance := h.balance
    change Balance _ ((w'.vm.putFree f).free + 0) _
    rwa [add_zero, Vm.free_putFree, ← add_zero w'.vm.free]
  · by_cases hq : q = np
    · rw [hq, proc_setProc_self, h.self]
      exact .inr ⟨h.unused, rfl, rfl⟩
    · rw [proc_setProc_ne hq, proc_setVm, h.other q hq]
      exact .inl rfl

/-- The child gets the copy and the open files. -/
theorem Embryo.wp_complete {Q : Option Slot → Kernel → Prop} {np : Slot} {f : Frame} {d : Pgdir}
    {w' : Kernel} (h : Embryo p np f (some d) w w') (hw : w.Sane) (hne : p ≠ np)
    (hd : KernelOnly d) (hspace : Space d (w.proc p).sz) (hbound : (w.proc p).sz ≤ KERNBASE)
    (hok : ∀ w'', Forks p w (some np) w'' → Q (some np) w'') :
    wp (do
      setProc np { ← proc np with pgdir := some d, sz := (← proc p).sz, parent := some p }
      dupFiles p np (List.finRange NOFILE)
      setProc np { ← proc np with state := .RUNNABLE }
      return some np) Q E w' := by
  rw [wp_bind, wp_proc, wp_bind, wp_proc, wp_bind, wp_setProc, wp_bind, h.self, h.other p hne]
  refine wp_dupFiles (List.nodup_finRange _) (h.files.congr rfl rfl fun q => ?_)
    (fun fd _ => ?_) fun w₃ h₃ hs₃ hvm₃ hpages₃ => ?_
  · by_cases hq : q = np
    · rw [hq, proc_setProc_self, h.self]
    · rw [proc_setProc_ne hq]
  · rw [proc_setProc_self]
    exact (hw.procs np).idle (by rw [h.unused]; simp) fd
  · have hself := hs₃.self
    rw [proc_setProc_self] at hself
    rw [wp_bind, wp_proc, wp_bind, wp_setProc]
    refine wp_pure.mpr (hok _ ⟨h₃.congr rfl rfl fun q => ?_, hpages₃.trans h.pipes,
      hs₃.kpgdir.trans h.kpgdir, hs₃.link.trans h.link, ?_, fun q hq => ?_, ?_⟩)
    · by_cases hq : q = np
      · rw [hq, proc_setProc_self]
      · rw [proc_setProc_ne hq]
    · have hbalance := h.balance
      rw [Option.elim_some, proc_setProc_self]
      change Balance _ (w₃.vm.free + MemProc.held _) _
      rw [hvm₃, hself, MemProc.held, if_neg (by simp)]
      change Balance _ (w'.vm.free + ({f} + d.held)) _
      rwa [add_left_comm]
    · have hne' : q ≠ np := fun heq => hq (by rw [heq])
      rw [proc_setProc_ne hne', hs₃.other q hne', proc_setProc_ne hne', h.other q hne']
      exact .inl rfl
    · rintro _ ⟨⟩
      rw [proc_setProc_self, hself]
      exact ⟨h.unused, ⟨fun hne => absurd rfl hne, fun _ => ⟨f, rfl⟩, fun _ => ⟨d, rfl, hd⟩,
        fun _ => hbound⟩, d, rfl, hspace⟩

theorem wp_fork {Q : Option Slot → Kernel → Prop} (hw : w.Sane)
    (hrun : (w.proc p).state = .RUNNABLE)
    (hmissing : E (.panic .copyuvmPte) ∧ E (.panic .copyuvmPage) ∨ w.Spaces)
    (hok : ∀ r w', Forks p w r w' → Q r w') : wp (KernelM.fork p) Q E w := by
  have halive : (w.proc p).state ≠ .UNUSED := by
    rw [hrun]
    simp
  have hbound := (hw.procs p).bound halive
  obtain ⟨d, hd, -⟩ := (hw.procs p).pgdir halive
  have hrefused := Forks.refused (p := p) hw
  rw [KernelM.fork, wp_bind]
  refine wp_allocproc (fun hfull => wp_pure.mpr (hok none w (hrefused.1 hfull)))
    (fun np hnp hgranted => wp_pure.mpr (hok none _ (hrefused.2 np hnp hgranted)))
    fun np f free hnp hfree hgranted => ?_
  have hne : p ≠ np := by
    rintro rfl
    exact halive hnp
  have hp₁ : ((w.setVm (w.vm.give f free)).setProc np
      { w.proc np with state := .EMBRYO, kstack := some f }).proc p = w.proc p := by
    rw [proc_setProc_ne hne, proc_setVm]
  dsimp only
  rw [wp_bind, wp_kernelPgdir (hp₁ ▸ hd), wp_bind, wp_proc, hp₁, wp_bind, wp_onVm]
  refine wp_copyuvm (hmissing.imp_right fun hs m hm => ?_) (.inr hbound) (.inr fun x hx => ?_)
    fun t r hcopy => ?_
  · obtain ⟨d', hd', hspace⟩ := hs p halive
    obtain rfl : d = d' := Option.some.inj (hd.symm.trans hd')
    exact hspace.present m hm
  · refine hw.sound x (Kernel.mem_owners_of_free ?_)
    rw [hfree]
    exact Multiset.mem_add.mpr (.inr hx)
  have hembryo : Embryo p np f r w (((w.setVm (w.vm.give f free)).setProc np
      { w.proc np with state := .EMBRYO, kstack := some f }).setVm t) := by
    refine ⟨hnp, hw.files.congr rfl rfl fun q => ?_, rfl, rfl, hcopy.inside.link, ?_,
      fun q hq => ?_, ?_, ?_⟩
    · by_cases hq : q = np
      · rw [hq, proc_setVm, proc_setProc_self]
      · rw [proc_setVm, proc_setProc_ne hq, proc_setVm]
    · rw [proc_setVm, proc_setProc_self]
    · rw [proc_setVm, proc_setProc_ne hq, proc_setVm]
    · change ¬ BadFrame t.link f
      rw [show t.link = w.vm.link from hcopy.inside.link]
      refine hw.usable f (Multiset.mem_add.mpr (.inl ?_))
      rw [hfree]
      exact Multiset.mem_add.mpr (.inl (Multiset.mem_singleton_self f))
    · have hcomm : ∀ x : Multiset Frame, {f} + x = x + {f} := fun x => add_comm _ _
      rw [forkNeeds, if_pos ⟨np, hnp⟩, hgranted, List.getElem?_cons_succ, hfree, hcomm, hcomm]
      exact hcopy.balance.add {f}
  cases r with
  | none => exact hembryo.wp_abandon (hok none)
  | some d' =>
      exact hembryo.wp_complete hw hne (hcopy.kernelOnly d' rfl) (hcopy.space d' rfl hbound) hbound
        (hok (some np))

/-! ### `sbrk` and `exec` -/

/-- What `growproc` has done to the address space in the end. -/
inductive Resized (n : ℤ) (sz : ℕ) (s : Vm) (d : Pgdir) (t : Vm) (d' : Pgdir) (r : ℕ) : Prop where
  | up (hn : 0 < n) (h : Alloc sz (uint (sz + n)) s d t d' r)
  | same (hn : n < 0) (hle : sz ≤ uint (sz + n)) (ht : t = s) (hd : d' = d) (hr : r = sz)
  | down (hn : n < 0) (hlt : uint (sz + n) < sz) (h : Frees s d (pageUp (uint (sz + n))) sz t d')
      (hr : r = uint (sz + n))

namespace Resized

variable {n : ℤ} {sz r : ℕ} {s t : Vm} {d d' : Pgdir}

theorem le (h : Resized n sz s d t d' r) : t.free + d'.held ≤ s.free + d.held := by
  cases h with
  | up _ h => exact h.balance.le
  | same _ _ ht hd => rw [ht, hd]
  | down _ _ h => exact h.acct.le

theorem link (h : Resized n sz s d t d' r) : t.link = s.link := by
  cases h with
  | up _ h => exact h.evolves.link
  | same _ _ ht => rw [ht]
  | down _ _ h => exact h.link

theorem kernelOnly (h : Resized n sz s d t d' r) (hsz : sz ≤ KERNBASE) (hd : KernelOnly d) :
    KernelOnly d' := by
  cases h with
  | up _ h => exact h.kernel.kernelOnly hd
  | same _ _ _ hd' => rwa [hd']
  | down _ _ h => exact (h.kernel hsz).kernelOnly hd

theorem bound (h : Resized n sz s d t d' r) (hsz : sz ≤ KERNBASE) : r ≤ KERNBASE := by
  cases h with
  | up _ h => exact h.bound hsz
  | same _ _ _ _ hr => rwa [hr]
  | down _ hlt _ hr => omega

/-- The memory is that of the new size, unless a page is lost or the new size is 0. -/
theorem space (h : Resized n sz s d t d' r) (hd : Space d sz)
    (hzero : n < 0 → uint (sz + n) ≠ 0)
    (hneed : 0 < n → (allocNeeds d.has sz (uint (sz + n)))[s.granted]? ≠ some .table) :
    Space d' (if r = 0 then sz else r) := by
  cases h with
  | up hn h => exact h.space hd (hneed hn)
  | same _ _ _ hd' hr => rwa [hd', hr, ite_self]
  | down hn hlt h hr =>
      have hpos : r ≠ 0 := hr ▸ hzero hn
      rw [if_neg hpos, hr]
      exact h.space hd hlt

end Resized

/-- The process after its memory has changed. -/
def MemProc.resize (x : MemProc) (d : Pgdir) (sz : ℕ) : MemProc :=
  { x with pgdir := some d, sz := sz }

theorem wp_growproc {n : ℤ} {d : Pgdir} {Q : Bool → Kernel → Prop} (hw : w.Sane)
    (halive : (w.proc p).state ≠ .UNUSED) (hd : (w.proc p).pgdir = some d)
    (hremap : E (.panic .remap) ∨ Space d (w.proc p).sz) (hzero : n = 0 → Q true w)
    (hok : ∀ t d' r, Resized n (w.proc p).sz w.vm d t d' r →
      Q (decide (r ≠ 0)) ((w.setVm t).setProc p
        ((w.proc p).resize d' (if r = 0 then (w.proc p).sz else r)))) :
    wp (growproc p n) Q E w := by
  have hbound := (hw.procs p).bound halive
  have hsound := hw.sound_pgdir halive hd
  rw [growproc, wp_bind, wp_proc, wp_ite]
  refine ⟨fun hpos => ?_, fun hpos => ?_⟩
  · rw [wp_bind, wp_kernelPgdir hd, wp_bind, wp_onVm]
    refine wp_allocuvm (hremap.imp_right fun hs => hs.above_of_lt) (.inr hsound) fun t d' r h => ?_
    have hend := hok t d' r (.up hpos h)
    dsimp only
    rw [wp_ite, wp_bind, wp_setProc, wp_pure, wp_bind, wp_setProc, wp_pure]
    refine ⟨fun hr => ?_, fun hr => ?_⟩
    · simpa [hr, MemProc.resize] using hend
    · simpa [hr, MemProc.resize] using hend
  · rw [wp_ite]
    refine ⟨fun hneg => ?_, fun hneg => wp_pure.mpr (hzero (by omega))⟩
    rw [wp_bind, wp_kernelPgdir hd, wp_bind, wp_onVm]
    by_cases hlt : uint ((w.proc p).sz + n) < (w.proc p).sz
    · refine wp_deallocuvm hbound hlt (.inr hsound) fun t d' h => ?_
      have hend := hok t d' _ (.down hneg hlt h rfl)
      dsimp only
      rw [wp_ite, wp_bind, wp_setProc, wp_pure, wp_bind, wp_setProc, wp_pure]
      refine ⟨fun hr => ?_, fun hr => ?_⟩
      · simpa [hr, MemProc.resize] using hend
      · simpa [hr, MemProc.resize] using hend
    · have hend := hok w.vm d _ (.same hneg (Nat.not_lt.mp hlt) rfl rfl rfl)
      rw [VmM.deallocuvm, if_pos (Nat.not_lt.mp hlt), wp_pure]
      dsimp only
      rw [wp_ite, wp_bind, wp_setProc, wp_pure, wp_bind, wp_setProc, wp_pure]
      refine ⟨fun hr => ?_, fun hr => ?_⟩
      · simpa [hr, MemProc.resize] using hend
      · simpa [hr, MemProc.resize] using hend

theorem trades_resize {sz : ℕ} {t : Vm} {d d' : Pgdir} (hw : w.Sane)
    (hrun : (w.proc p).state = .RUNNABLE) (hd : (w.proc p).pgdir = some d) (hle : sz ≤ KERNBASE)
    (h : t.free + d'.held ≤ w.vm.free + d.held) (hlink : t.link = w.vm.link)
    (hkernel : KernelOnly d') :
    Trades p w ((w.setVm t).setProc p ((w.proc p).resize d' sz)) where
  ftable := rfl
  pipe := rfl
  kpgdir := rfl
  link := hlink
  fds := fun q => by
    by_cases hq : q = p
    · rw [hq, proc_setProc_self]
      rfl
    · rw [proc_setProc_ne hq, proc_setVm]
  other := fun q hq => by rw [proc_setProc_ne hq, proc_setVm]
  ok := by
    have hok := hw.procs p
    rw [proc_setProc_self]
    exact ⟨fun hne => absurd hrun hne, hok.kstack, fun _ => ⟨d', rfl, hkernel⟩, fun _ => hle⟩
  le := by
    have halive : (w.proc p).state ≠ .UNUSED := by
      rw [hrun]
      simp
    have halive' : ((w.proc p).resize d' sz).state ≠ .UNUSED := halive
    rw [proc_setProc_self, MemProc.held, MemProc.held, if_neg halive, if_neg halive', hd]
    change t.free + ((w.proc p).kstack.elim 0 (fun f => {f}) + d'.held) ≤
      w.vm.free + ((w.proc p).kstack.elim 0 (fun f => {f}) + d.held)
    rw [add_left_comm, add_left_comm w.vm.free]
    exact add_le_add_right h _

theorem spaces_resize {sz : ℕ} {t : Vm} {d' : Pgdir} (hspaces : w.Spaces) (hd : Space d' sz) :
    ((w.setVm t).setProc p ((w.proc p).resize d' sz)).Spaces := fun q hq => by
  by_cases hqp : q = p
  · rw [hqp, proc_setProc_self]
    exact ⟨d', rfl, hd⟩
  · rw [proc_setProc_ne hqp, proc_setVm] at hq ⊢
    exact hspaces q hq

/-- Only the allocator has been busy. -/
theorem keeps_setVm {t : Vm} (hw : w.Sane) (hle : t.free ≤ w.vm.free)
    (hlink : t.link = w.vm.link) : Keeps w (w.setVm t) where
  files := hw.files.congr rfl rfl fun _ => rfl
  procs := hw.procs
  owners := add_le_add_left (add_le_add_left (add_le_add_left hle _) _) _
  link := hlink
  pipes := fun _ hx => .inr hx

def Kernel.exec (w : Kernel) (p : Slot) (t : Vm) : Option Image → Kernel
  | none => w.setVm t
  | some image => (w.setVm t).setProc p ((w.proc p).resize image.pgdir image.sz)

theorem wp_kernelExec {file : Option Reader} {stack path : List UInt8}
    {argv : List (List UInt8)} {d : Pgdir} {Q : Option Image → Kernel → Prop}
    (hd : (w.proc p).pgdir = some d) (hpanics : ExecPanics E ∨ ExecSafe file stack w.vm d)
    (hnull : E .nullPtr ∨ (execNeeds file stack w.vm.nread)[w.vm.granted]? ≠ some .table ∧
      ArgsShort argv)
    (hok : ∀ t r, Execs file stack w.vm d t r → Q r (w.exec p t r)) :
    wp (KernelM.exec p file stack path argv) Q E w := by
  rw [KernelM.exec, wp_bind, wp_kernelPgdir hd, wp_bind, wp_onVm]
  refine wp_exec hpanics (hnull.imp_right fun h => ⟨fun _ => h.1, .inl h.2⟩) fun t r h _ => ?_
  have hend := hok t r h
  cases r with
  | none => exact wp_pure.mpr hend
  | some image =>
      dsimp only
      rw [wp_bind, wp_proc, wp_bind, wp_setProc]
      exact wp_pure.mpr hend

theorem Execs.keeps {file : Option Reader} {stack : List UInt8} {d : Pgdir} {t : Vm}
    {r : Option Image} (h : Execs file stack w.vm d t r) (hw : w.Sane)
    (hrun : (w.proc p).state = .RUNNABLE) (hd : (w.proc p).pgdir = some d) :
    Keeps w (w.exec p t r) := by
  cases r with
  | none => exact keeps_setVm hw (h.bad rfl).le h.link
  | some image =>
      exact (trades_resize hw hrun hd (h.bound image rfl) (h.good image rfl).le h.link
        (h.kernelOnly image rfl)).keeps hw

theorem Execs.spaces {file : Option Reader} {stack : List UInt8} {d : Pgdir} {t : Vm}
    {r : Option Image} (h : Execs file stack w.vm d t r)
    (hneed : (execNeeds file stack w.vm.nread)[w.vm.granted]? ≠ some .table) (hspaces : w.Spaces) :
    (w.exec p t r).Spaces := by
  cases r with
  | none => exact hspaces
  | some image => exact spaces_resize hspaces (h.space hneed image rfl)

/-! ### `exit` and `wait` -/

theorem proc_passChildren (q : Slot) :
    (w.passChildren p).proc q = { w.proc q with parent := ((w.passChildren p).proc q).parent } := by
  rw [Kernel.passChildren]
  dsimp only
  split <;> rfl

/-- The kernel after `exit`, once the files have been closed. -/
def Kernel.exit (w : Kernel) (p : Slot) : Kernel :=
  (w.passChildren p).setProc p { (w.passChildren p).proc p with state := .ZOMBIE }

/-- In every slot `exit` changes the parent and the state only. -/
theorem proc_exit (q : Slot) : (w.exit p).proc q = { w.proc q with
    parent := ((w.exit p).proc q).parent
    state := if q = p then .ZOMBIE else (w.proc q).state } := by
  by_cases hq : q = p
  · rw [hq, Kernel.exit, proc_setProc_self, proc_passChildren, if_pos rfl]
  · rw [Kernel.exit, proc_setProc_ne hq, proc_passChildren, if_neg hq]

theorem Kernel.Sane.keeps_exit (hw : w.Sane) (hrun : (w.proc p).state = .RUNNABLE)
    (hfds : ∀ fd, (w.proc p).ofile fd = none) : Keeps w (w.exit p) where
  files := hw.files.congr rfl rfl fun q => by rw [proc_exit]
  procs := fun q => by
    have hok := hw.procs q
    rw [proc_exit]
    by_cases hq : q = p
    · subst hq
      have halive : (w.proc q).state ≠ .UNUSED := by
        rw [hrun]
        simp
      exact ⟨fun _ => hfds, fun _ => hok.kstack halive, fun _ => hok.pgdir halive,
        fun _ => hok.bound halive⟩
    · rw [if_neg hq]
      exact ⟨hok.idle, hok.kstack, hok.pgdir, hok.bound⟩
  owners := by
    have hprocs : (w.exit p).procPages = w.procPages := Kernel.procPages_same fun q => by
      rw [proc_exit, MemProc.held, MemProc.held]
      by_cases hq : q = p
      · subst hq
        rw [if_pos rfl, hrun]
        rfl
      · rw [if_neg hq]
    change w.vm.free + w.pipePages.val + heldBy w.kpgdir + (w.exit p).procPages ≤ _
    rw [hprocs, Kernel.owners]
  link := rfl
  pipes := fun _ hx => .inr hx

theorem spaces_exit (hspaces : w.Spaces) (hrun : (w.proc p).state = .RUNNABLE) :
    (w.exit p).Spaces := fun q hq => by
  rw [proc_exit] at hq ⊢
  refine hspaces q fun hunused => hq ?_
  by_cases hqp : q = p
  · rw [hqp, hrun] at hunused
    cases hunused
  · rwa [if_neg hqp]

theorem Keeps.trans {u : Kernel} (h : Keeps w u) (h' : Keeps u w')
    (hpages : ∀ x ∈ u.vm.free, x ∈ w'.vm.free) : Keeps w w' where
  files := h'.files
  procs := h'.procs
  owners := h'.owners.trans h.owners
  link := h'.link.trans h.link
  pipes := fun x hx => by
    rcases h.pipes x hx with hfree | hpipe
    · exact .inl (hpages x hfree)
    · exact h'.pipes x hpipe

theorem wp_exit {Q : Unit → Kernel → Prop} (hw : w.Sane) (hrun : (w.proc p).state = .RUNNABLE)
    (hinit : p = initproc → E (.panic .initExiting))
    (hok : ∀ w', Keeps w w' → (w.Spaces → w'.Spaces) → Q () w') : wp (KernelM.exit p) Q E w := by
  rw [KernelM.exit, wp_ite, wp_kernelPanic]
  refine ⟨hinit, fun _ => ?_⟩
  rw [wp_bind]
  refine wp_closeFiles hw.files hw.usable fun w₁ h₁ hs₁ hfds₁ => ?_
  have hk₁ := hs₁.keeps hw h₁ hrun
  have hrun₁ : (w₁.proc p).state = .RUNNABLE := by
    rw [hs₁.self]
    exact hrun
  rw [wp_bind, wp_modify, wp_bind, wp_proc, wp_setProc]
  refine hok (w₁.exit p) (hk₁.trans ((hk₁.sane hw).keeps_exit hrun₁ fun fd => ?_) fun _ hx => hx)
    fun hspaces => spaces_exit (hs₁.spaces hspaces) hrun₁
  rw [hfds₁, if_pos (List.mem_finRange fd)]

theorem wp_wait {Q : Option Slot → Kernel → Prop} (hw : w.Sane) (hnone : Q none w)
    (hok : ∀ q w', Trades q w w' → (w'.proc q).state = .UNUSED → Q (some q) w') :
    wp (KernelM.wait p) Q E w := by
  rw [KernelM.wait, wp_bind, wp_get]
  cases hfind : (List.finRange NPROC).find? fun q =>
      decide ((w.proc q).parent = some p ∧ (w.proc q).state = .ZOMBIE) with
  | none => exact wp_pure.mpr hnone
  | some q =>
      have hzombie : (w.proc q).state = .ZOMBIE := by
        have hq := List.find?_some hfind
        rw [decide_eq_true_eq] at hq
        exact hq.2
      have halive : (w.proc q).state ≠ .UNUSED := by
        rw [hzombie]
        simp
      obtain ⟨f, hf⟩ := (hw.procs q).kstack halive
      obtain ⟨d, hd, -⟩ := (hw.procs q).pgdir halive
      have hsound := hw.sound_pgdir halive hd
      have hheld : (w.proc q).held = {f} + d.held := by
        rw [MemProc.held, if_neg halive, hf, hd]
        rfl
      have hbad : ¬ BadFrame w.vm.link f := by
        refine hw.sound f (Kernel.mem_owners_of_proc (p := q) ?_)
        rw [hheld]
        exact Multiset.mem_add.mpr (.inl (Multiset.mem_singleton_self f))
      dsimp only
      rw [hf, hd, KernelM.kfree, KernelM.freevm, wp_bind, wp_onVm]
      refine wp_kfree (fun h => absurd (.inr h) hbad) ?_
      rw [wp_bind, wp_onVm]
      refine wp_freevm (.inr fun x hx => ?_) fun t hin hfree => ?_
      · change x ∈ (w.vm.putFree f).free + d.held at hx
        rw [Vm.free_putFree, add_assoc] at hx
        rcases Multiset.mem_add.mp hx with hxf | hx
        · rw [Multiset.mem_singleton.mp hxf]
          exact hbad
        · exact hsound x hx
      · rw [wp_bind, wp_setProc]
        refine wp_pure.mpr (hok q _ ⟨rfl, rfl, rfl, hin.link, fun r => ?_, fun r hr => ?_, ?_, ?_⟩ ?_)
        · by_cases hr : r = q
          · rw [hr, proc_setProc_self]
          · rw [proc_setProc_ne hr, proc_setVm, proc_setVm]
        · rw [proc_setProc_ne hr, proc_setVm, proc_setVm]
        · rw [proc_setProc_self]
          exact ⟨fun _ => (hw.procs q).idle (by rw [hzombie]; simp), fun hne => absurd rfl hne,
            fun hne => absurd rfl hne, fun hne => absurd rfl hne⟩
        · rw [proc_setProc_self, hheld, MemProc.held, if_pos rfl, add_zero]
          change t.free ≤ _
          rw [hfree]
          change (w.vm.putFree f).free + d.held ≤ _
          rw [Vm.free_putFree, add_comm ({f} : Multiset Frame), add_assoc]
        · rw [proc_setProc_self]

theorem Trades.spaces {q : Slot} (h : Trades q w w') (hfree : (w'.proc q).state = .UNUSED)
    (hspaces : w.Spaces) : w'.Spaces := fun r hr => by
  by_cases hrq : r = q
  · rw [hrq] at hr
    exact absurd hfree hr
  · rw [h.other r hrq] at hr ⊢
    exact hspaces r hr

end Rules

end Xv6
