import Xv6.Proc.Exit

/-!
# The invariant of the process table

`Shape` says what each state of a slot means: an EMBRYO belongs to exactly one `fork`, an
active process or a zombie has its kernel stack and page directory, and a parent is
active. Each step of a `fork`, `exit`, the reaping of a zombie and the steps that only
schedule have a lemma; `shape_step` puts them together.
-/

namespace Xv6

/-- What `fork` has filled in at this stage. -/
def ForkStage.filled (p : Slot) (x : ProcEntry) : ForkStage → Prop
  | .kalloc => x.parent = none ∧ x.kstack = none
  | .copyuvm => x.parent = none ∧ x.kstack ≠ none
  | .setParent => x.parent = none ∧ x.kstack ≠ none ∧ x.pgdir ≠ none
  | .setRunnable => x.parent = some p ∧ x.kstack ≠ none ∧ x.pgdir ≠ none

namespace Procs

open Foundation

variable {s t : Procs} {l : Label}

/-! ### The states of the slots -/

structure Shape (s : Procs) : Prop where
  unused : ∀ q, (s.proc q).state = .UNUSED → (s.proc q).parent = none ∧ (s.proc q).kstack = none
  embryo : ∀ q, (s.proc q).state = .EMBRYO → ∃ p stage, s.place p = .fork stage q
  stage : ∀ p stage q, s.place p = .fork stage q →
    (s.proc q).state = .EMBRYO ∧ stage.filled p (s.proc q)
  one : ∀ p p' stage stage' q, s.place p = .fork stage q → s.place p' = .fork stage' q → p = p'
  whole : ∀ q, (s.proc q).state.active = true ∨ (s.proc q).state = .ZOMBIE →
    (s.proc q).kstack ≠ none ∧ (s.proc q).pgdir ≠ none ∧
      (q ≠ initproc → (s.proc q).parent ≠ none)
  parent : ∀ q p, (s.proc q).parent = some p → (s.proc p).state.active = true ∧ p ≠ q
  init : (s.proc initproc).state.active = true ∧ (s.proc initproc).parent = none
  busy : ∀ p, s.place p ≠ .user → (s.proc p).state.active = true

theorem shape_init : Shape init := by
  have hinit : init.proc initproc =
      { ProcEntry.zero with state := .RUNNABLE, pid := 1, kstack := some 0, pgdir := some 1 } := rfl
  have hother : ∀ q, q ≠ initproc → init.proc q = ProcEntry.zero :=
    fun q hq => by simp [init, Function.update_of_ne hq]
  have hplace : ∀ p, init.place p = .user := fun _ => rfl
  constructor
  case unused =>
    intro q hq
    by_cases h : q = initproc
    · rw [h, hinit] at hq
      simp at hq
    · rw [hother q h]
      exact ⟨rfl, rfl⟩
  case embryo =>
    intro q hq
    by_cases h : q = initproc
    · rw [h, hinit] at hq
      simp at hq
    · rw [hother q h] at hq
      simp [ProcEntry.zero] at hq
  case stage => simp [hplace]
  case one => simp [hplace]
  case whole =>
    intro q hq
    by_cases h : q = initproc
    · rw [h, hinit]
      simp
    · rw [hother q h] at hq
      simp [ProcEntry.zero, Procstate.active] at hq
  case parent =>
    intro q p hp
    by_cases h : q = initproc
    · rw [h, hinit] at hp
      simp [ProcEntry.zero] at hp
    · rw [hother q h] at hp
      simp [ProcEntry.zero] at hp
  case init =>
    rw [hinit]
    exact ⟨rfl, rfl⟩
  case busy => simp [hplace]

theorem SchedOnly.active (h : SchedOnly s t) (q : Slot) :
    (t.proc q).state.active = (s.proc q).state.active := by
  obtain ⟨st, ch, k, hq, hst | ⟨h₁, h₂⟩⟩ := h.proc q
  · rw [hq, hst]
  · rw [hq, h₂]
    exact h₁

theorem SchedOnly.state_iff (h : SchedOnly s t) (q : Slot) {st : Procstate}
    (hst : st.active = false) : (t.proc q).state = st ↔ (s.proc q).state = st := by
  obtain ⟨st', ch, k, hq, hst' | ⟨h₁, h₂⟩⟩ := h.proc q
  · rw [hq, hst']
  · rw [hq]
    constructor
    · rintro rfl
      rw [hst] at h₁
      simp at h₁
    · rintro rfl
      rw [hst] at h₂
      simp at h₂

theorem SchedOnly.same (h : SchedOnly s t) (q : Slot) :
    (t.proc q).parent = (s.proc q).parent ∧ (t.proc q).kstack = (s.proc q).kstack ∧
      (t.proc q).pgdir = (s.proc q).pgdir ∧ (t.proc q).pid = (s.proc q).pid := by
  obtain ⟨st, ch, k, hq, -⟩ := h.proc q
  rw [hq]
  exact ⟨rfl, rfl, rfl, rfl⟩

theorem Shape.sched (h : Shape s) (hs : SchedOnly s t) : Shape t := by
  have hparent : ∀ q, (t.proc q).parent = (s.proc q).parent := fun q => (hs.same q).1
  have hkstack : ∀ q, (t.proc q).kstack = (s.proc q).kstack := fun q => (hs.same q).2.1
  have hpgdir : ∀ q, (t.proc q).pgdir = (s.proc q).pgdir := fun q => (hs.same q).2.2.1
  constructor
  case unused =>
    intro q hq
    rw [hparent, hkstack]
    exact h.unused q ((hs.state_iff q rfl).mp hq)
  case embryo =>
    intro q hq
    obtain ⟨p, stage, hp⟩ := h.embryo q ((hs.state_iff q rfl).mp hq)
    exact ⟨p, stage, (hs.fork p stage q).mpr hp⟩
  case stage =>
    intro p stage q hp
    obtain ⟨he, hf⟩ := h.stage p stage q ((hs.fork p stage q).mp hp)
    refine ⟨(hs.state_iff q rfl).mpr he, ?_⟩
    cases stage <;> simpa only [ForkStage.filled, hparent, hkstack, hpgdir] using hf
  case one =>
    intro p p' stage stage' q hp hp'
    exact h.one p p' stage stage' q ((hs.fork p stage q).mp hp) ((hs.fork p' stage' q).mp hp')
  case whole =>
    intro q hq
    rw [hs.active, hs.state_iff q rfl] at hq
    rw [hparent, hkstack, hpgdir]
    exact h.whole q hq
  case parent =>
    intro q p hp
    rw [hparent] at hp
    rw [hs.active]
    exact h.parent q p hp
  case init =>
    rw [hs.active, hparent]
    exact h.init
  case busy =>
    intro p hp
    rw [hs.active]
    rcases hs.place p hp with h' | h'
    · exact h.busy p h'
    · exact h'

/-! ### Steps on one slot -/

/-- A step of the process `p` on the slot `np`, which is not active and in no `fork` but that of
`p`. -/
structure OnSlot (p np : Slot) (s t : Procs) : Prop where
  proc : ∀ q, q ≠ np → t.proc q = s.proc q
  place : ∀ q, q ≠ p → t.place q = s.place q
  inactive : (s.proc np).state.active = false
  caller : (s.proc p).state.active = true
  others : ∀ q, q ≠ p → ∀ stage, s.place q ≠ .fork stage np
  own : ∀ stage q, s.place p = .fork stage q → q = np

namespace OnSlot

variable {p q r np : Slot} {stage : ForkStage}

theorem stays (ho : OnSlot p np s t) (ha : (s.proc q).state.active = true) :
    t.proc q = s.proc q := by
  refine ho.proc q ?_
  rintro rfl
  rw [ho.inactive] at ha
  cases ha

theorem ne (ho : OnSlot p np s t) : p ≠ np := by
  rintro rfl
  have ha := ho.caller
  rw [ho.inactive] at ha
  cases ha

theorem fork (ho : OnSlot p np s t) (hq : q ≠ p) (hst : t.place q = .fork stage r) :
    s.place q = .fork stage r ∧ r ≠ np := by
  rw [ho.place q hq] at hst
  exact ⟨hst, fun hr => ho.others q hq stage (hr ▸ hst)⟩

/-- What is left to show is about the slot alone. -/
theorem shape (ho : OnSlot p np s t) (h : Shape s)
    (hunused : (t.proc np).state = .UNUSED → (t.proc np).parent = none ∧ (t.proc np).kstack = none)
    (hembryo : (t.proc np).state = .EMBRYO → ∃ stage, t.place p = .fork stage np)
    (hstage : ∀ stage q, t.place p = .fork stage q →
      q = np ∧ (t.proc np).state = .EMBRYO ∧ stage.filled p (t.proc np))
    (hwhole : (t.proc np).state.active = true ∨ (t.proc np).state = .ZOMBIE →
      (t.proc np).kstack ≠ none ∧ (t.proc np).pgdir ≠ none ∧ (t.proc np).parent ≠ none)
    (hparent : ∀ p', (t.proc np).parent = some p' → p' = p) : Shape t where
  unused := by
    intro q hq
    by_cases hqn : q = np
    · rw [hqn] at hq ⊢
      exact hunused hq
    · rw [ho.proc q hqn] at hq ⊢
      exact h.unused q hq
  embryo := by
    intro q hq
    by_cases hqn : q = np
    · rw [hqn] at hq ⊢
      exact ⟨p, hembryo hq⟩
    · rw [ho.proc q hqn] at hq
      obtain ⟨p', st, hp'⟩ := h.embryo q hq
      have hpp : p' ≠ p := by
        rintro rfl
        exact hqn (ho.own st q hp')
      exact ⟨p', st, by rw [ho.place p' hpp]; exact hp'⟩
  stage := by
    intro p' st q hp'
    by_cases hpp : p' = p
    · rw [hpp] at hp' ⊢
      obtain ⟨rfl, hx⟩ := hstage st q hp'
      exact hx
    · obtain ⟨hold, hqn⟩ := ho.fork hpp hp'
      rw [ho.proc q hqn]
      exact h.stage p' st q hold
  one := by
    intro p₁ p₂ st₁ st₂ q h₁ h₂
    by_cases hp₁ : p₁ = p <;> by_cases hp₂ : p₂ = p
    · rw [hp₁, hp₂]
    · rw [hp₁] at h₁
      exact absurd (hstage st₁ q h₁).1 (ho.fork hp₂ h₂).2
    · rw [hp₂] at h₂
      exact absurd (hstage st₂ q h₂).1 (ho.fork hp₁ h₁).2
    · exact h.one p₁ p₂ st₁ st₂ q (ho.fork hp₁ h₁).1 (ho.fork hp₂ h₂).1
  whole := by
    intro q hq
    by_cases hqn : q = np
    · rw [hqn] at hq ⊢
      obtain ⟨hk, hd, hpar⟩ := hwhole hq
      exact ⟨hk, hd, fun _ => hpar⟩
    · rw [ho.proc q hqn] at hq ⊢
      exact h.whole q hq
  parent := by
    intro q p' hp'
    by_cases hqn : q = np
    · rw [hqn] at hp' ⊢
      rw [hparent p' hp', ho.stays ho.caller]
      exact ⟨ho.caller, ho.ne⟩
    · rw [ho.proc q hqn] at hp'
      obtain ⟨ha, hpq⟩ := h.parent q p' hp'
      rw [ho.stays ha]
      exact ⟨ha, hpq⟩
  init := by
    rw [ho.stays h.init.1]
    exact h.init
  busy := by
    intro p' hp'
    by_cases hpp : p' = p
    · rw [hpp, ho.stays ho.caller]
      exact ho.caller
    · rw [ho.place p' hpp] at hp'
      have ha := h.busy p' hp'
      rwa [ho.stays ha]

end OnSlot

/-- `fork` goes on to another stage. -/
theorem Shape.forkStep (h : Shape s) {p np : Slot} {x : ProcEntry} {k : ForkStage}
    (hproc : t.proc = Function.update s.proc np x)
    (hplace : t.place = Function.update s.place p (.fork k np))
    (hr : (s.proc p).state = .RUNNING) (hx : x.state = .EMBRYO) (hf : k.filled p x)
    (hfrom : (∃ stage', s.place p = .fork stage' np) ∨
      (s.proc np).state = .UNUSED ∧ s.place p = .user)
    (hpar : x.parent = none ∨ x.parent = some p) : Shape t := by
  have hself : t.proc np = x := by rw [hproc, Function.update_self]
  have hplp : t.place p = .fork k np := by rw [hplace, Function.update_self]
  have ho : OnSlot p np s t := by
    refine ⟨fun q hq => by rw [hproc, Function.update_of_ne hq],
      fun q hq => by rw [hplace, Function.update_of_ne hq], ?_, by rw [hr]; rfl,
      fun q hq st hst => ?_, fun st q hst => ?_⟩
    · rcases hfrom with ⟨st', hp⟩ | ⟨hu, -⟩
      · rw [(h.stage p st' np hp).1]
        rfl
      · rw [hu]
        rfl
    · rcases hfrom with ⟨st', hp⟩ | ⟨hu, -⟩
      · exact hq (h.one q p st st' np hst hp)
      · rw [(h.stage q st np hst).1] at hu
        cases hu
    · rcases hfrom with ⟨st', hp⟩ | ⟨-, hp⟩
      · cases hp.symm.trans hst
        rfl
      · cases hp.symm.trans hst
  refine ho.shape h ?_ (fun _ => ⟨k, hplp⟩) (fun st q hst => ?_) ?_ fun p' hp' => ?_
  · rw [hself, hx]
    exact fun hc => by cases hc
  · cases hplp.symm.trans hst
    rw [hself]
    exact ⟨rfl, hx, hf⟩
  · rw [hself, hx]
    rintro (hc | hc) <;> cases hc
  · rw [hself] at hp'
    rcases hpar with hn | hs
    · cases hn.symm.trans hp'
    · exact (Option.some.inj (hs.symm.trans hp')).symm

/-- `fork` ends: the slot is free again, or holds a child. -/
theorem Shape.forkEnd (h : Shape s) {p np : Slot} {x : ProcEntry} {stage : ForkStage}
    (hproc : t.proc = Function.update s.proc np x)
    (hp : s.place p = .fork stage np) (hplp : t.place p = .user)
    (hplo : ∀ q, q ≠ p → t.place q = s.place q)
    (hx : x.state = .UNUSED ∧ x.parent = none ∧ x.kstack = none ∨
      x.state = .RUNNABLE ∧ x.parent = some p ∧ x.kstack ≠ none ∧ x.pgdir ≠ none) : Shape t := by
  have hself : t.proc np = x := by rw [hproc, Function.update_self]
  have ho : OnSlot p np s t := by
    refine ⟨fun q hq => by rw [hproc, Function.update_of_ne hq], hplo, ?_,
      h.busy p (by rw [hp]; simp), fun q hq st hst => hq (h.one q p st stage np hst hp),
      fun st q hst => ?_⟩
    · rw [(h.stage p stage np hp).1]
      rfl
    · cases hp.symm.trans hst
      rfl
  refine ho.shape h ?_ ?_ (fun st q hst => ?_) ?_ fun p' hp' => ?_
  · rw [hself]
    rcases hx with ⟨-, hpar, hk⟩ | ⟨hs, -⟩
    · exact fun _ => ⟨hpar, hk⟩
    · rw [hs]
      exact fun hc => by cases hc
  · rw [hself]
    rcases hx with ⟨hs, -⟩ | ⟨hs, -⟩ <;> rw [hs] <;> exact fun hc => by cases hc
  · cases hplp.symm.trans hst
  · rw [hself]
    rcases hx with ⟨hs, -⟩ | ⟨-, hpar, hk, hd⟩
    · rw [hs]
      rintro (hc | hc) <;> cases hc
    · exact fun _ => ⟨hk, hd, by rw [hpar]; simp⟩
  · rw [hself] at hp'
    rcases hx with ⟨-, hpar, -⟩ | ⟨-, hpar, -⟩
    · cases hpar.symm.trans hp'
    · exact (Option.some.inj (hpar.symm.trans hp')).symm

theorem Awoken.active {x y : ProcEntry} (h : Awoken x y) : y.state.active = x.state.active := by
  obtain ⟨st, hy, rfl | ⟨hx, rfl⟩⟩ := h
  · rw [hy]
  · rw [hy, hx]
    rfl

theorem Awoken.state_iff {x y : ProcEntry} (h : Awoken x y) {st : Procstate}
    (hst : st.active = false) : y.state = st ↔ x.state = st := by
  obtain ⟨st', hy, rfl | ⟨hx, rfl⟩⟩ := h
  · rw [hy]
  · rw [hy, hx]
    constructor <;> rintro rfl <;> simp [Procstate.active] at hst

theorem ExitEffect.fields {p : Slot} (he : ExitEffect s p t) (q : Slot) :
    (t.proc q).kstack = (s.proc q).kstack ∧ (t.proc q).pgdir = (s.proc q).pgdir ∧
      (t.proc q).pid = (s.proc q).pid := by
  by_cases hq : q = p
  · obtain ⟨x, ⟨st, hx, -⟩, hself⟩ := he.self
    rw [hq, hself, hx]
    exact ⟨rfl, rfl, rfl⟩
  · obtain ⟨st, hq', -⟩ := he.other q hq
    rw [hq']
    exact ⟨rfl, rfl, rfl⟩

theorem Shape.exit (h : Shape s) {p : Slot} (hr : (s.proc p).state = .RUNNING)
    (hp : s.place p = .user) (hi : p ≠ initproc) (he : ExitEffect s p t) : Shape t := by
  have hplace : t.place = s.place := by rw [he.rest]
  obtain ⟨x, -, hself⟩ := he.self
  have hkstack : ∀ q, (t.proc q).kstack = (s.proc q).kstack := fun q => (he.fields q).1
  have hpgdir : ∀ q, (t.proc q).pgdir = (s.proc q).pgdir := fun q => (he.fields q).2.1
  have hzombie : (t.proc p).state = .ZOMBIE := by rw [hself]
  have hnotp : ∀ q {st : Procstate}, (t.proc q).state = st → st ≠ .ZOMBIE → q ≠ p := by
    rintro q st hq hst rfl
    exact hst (hq.symm.trans hzombie)
  -- a slot without an active process or a zombie has no parent that could exit
  have hnoparent : ∀ q, (s.proc q).parent = none → (t.proc q).parent = none := by
    intro q hq
    rw [he.parent, hq]
    simp
  constructor
  case unused =>
    intro q hq
    have hqp := hnotp q hq (by simp)
    obtain ⟨hpar, hk⟩ := h.unused q (((he.other q hqp).state_iff rfl).mp hq)
    exact ⟨hnoparent q hpar, by rw [hkstack]; exact hk⟩
  case embryo =>
    intro q hq
    have hqp := hnotp q hq (by simp)
    rw [hplace]
    exact h.embryo q (((he.other q hqp).state_iff rfl).mp hq)
  case stage =>
    intro p' st q hp'
    rw [hplace] at hp'
    obtain ⟨hs, hf⟩ := h.stage p' st q hp'
    have hqp : q ≠ p := by
      rintro rfl
      rw [hr] at hs
      simp at hs
    have hpp : p' ≠ p := by
      rintro rfl
      rw [hp] at hp'
      simp at hp'
    refine ⟨((he.other q hqp).state_iff rfl).mpr hs, ?_⟩
    cases st
    case setRunnable =>
      simp only [ForkStage.filled, hkstack, hpgdir, he.parent] at hf ⊢
      refine ⟨?_, hf.2⟩
      rw [hf.1, if_neg (by simpa using hpp)]
    all_goals
      simp only [ForkStage.filled, hkstack, hpgdir] at hf ⊢
      exact ⟨hnoparent q hf.1, hf.2⟩
  case one =>
    rw [hplace]
    exact h.one
  case whole =>
    intro q hq
    have hold : (s.proc q).state.active = true ∨ (s.proc q).state = .ZOMBIE := by
      by_cases hqp : q = p
      · subst hqp
        rw [hr]
        exact .inl rfl
      · rwa [(he.other q hqp).active, (he.other q hqp).state_iff rfl] at hq
    obtain ⟨hk, hd, hpar⟩ := h.whole q hold
    refine ⟨by rwa [hkstack], by rwa [hpgdir], fun hqi => ?_⟩
    rw [he.parent]
    split
    · simp
    · exact hpar hqi
  case parent =>
    intro q p' hp'
    rw [he.parent] at hp'
    split at hp'
    · -- an orphan: init is active and has no parent itself
      rename_i hpar
      obtain rfl : initproc = p' := by simpa using hp'
      refine ⟨?_, ?_⟩
      · rw [(he.other initproc hi.symm).active]
        exact h.init.1
      · rintro rfl
        rw [h.init.2] at hpar
        simp at hpar
    · rename_i hpar
      obtain ⟨ha, hpq⟩ := h.parent q p' hp'
      have hpp : p' ≠ p := fun heq => hpar (heq ▸ hp')
      exact ⟨by rw [(he.other p' hpp).active]; exact ha, hpq⟩
  case init =>
    rw [(he.other initproc hi.symm).active, he.parent, h.init.2]
    exact ⟨h.init.1, by simp⟩
  case busy =>
    intro p' hp'
    rw [hplace] at hp'
    have hpp : p' ≠ p := fun heq => hp' (heq ▸ hp)
    rw [(he.other p' hpp).active]
    exact h.busy p' hp'

theorem Shape.reap (h : Shape s) {p q : Slot} (hr : (s.proc p).state = .RUNNING)
    (hp : s.place p = .user ∨ s.place p = .wait) (hz : (s.proc q).state = .ZOMBIE) :
    Shape ((s.reap p q).setPlace p .user) := by
  set t := (s.reap p q).setPlace p .user with ht
  have hself : t.proc q = { s.proc q with
      kstack := none, state := .UNUSED, pid := 0, parent := none, killed := false } :=
    Function.update_self ..
  have hplp : t.place p = .user := Function.update_self ..
  have ho : OnSlot p q s t := by
    refine ⟨fun r hr => Function.update_of_ne hr .., fun r hr => Function.update_of_ne hr ..,
      by rw [hz]; rfl, by rw [hr]; rfl, fun r _ st hst => ?_, fun st r hst => ?_⟩
    · rw [(h.stage r st q hst).1] at hz
      cases hz
    · rcases hp with hp | hp <;> cases hp.symm.trans hst
  refine ho.shape h ?_ ?_ (fun st r hst => ?_) ?_ fun p' hp' => ?_
  · rw [hself]
    exact fun _ => ⟨rfl, rfl⟩
  · rw [hself]
    exact fun hc => by cases hc
  · cases hplp.symm.trans hst
  · rw [hself]
    rintro (hc | hc) <;> cases hc
  · rw [hself] at hp'
    cases hp'

theorem shape_step (h : Shape s) (hl : step s l = some t) : Shape t := by
  cases step_took hl with
  | sched hs hw => exact h.sched hs
  | exit hr hp hi => exact h.exit hr hp hi (exit_effect s _)
  | reap hr hp hq hz => exact h.reap hr hp hz
  | fork hr hp hnp =>
      rename_i p np
      have hfree := h.unused np hnp
      exact h.forkStep (x := { s.proc np with state := .EMBRYO, pid := s.nextpid })
        (k := .kalloc) rfl rfl hr rfl hfree (.inr ⟨hnp, hp⟩) (.inl hfree.1)
  | kalloc hr hp =>
      rename_i p np
      obtain ⟨he, hf⟩ := h.stage p .kalloc np hp
      exact h.forkStep (x := { s.proc np with kstack := some s.pages }) (k := .copyuvm)
        rfl rfl hr he ⟨hf.1, by simp⟩ (.inl ⟨_, hp⟩) (.inl hf.1)
  | noStack hr hp =>
      rename_i p np
      exact h.forkEnd (x := { s.proc np with kstack := none, state := .UNUSED }) rfl hp
        (Function.update_self ..) (fun q hq => Function.update_of_ne hq ..)
        (.inl ⟨rfl, (h.stage p .kalloc np hp).2.1, rfl⟩)
  | copyuvm hr hp =>
      rename_i p np
      obtain ⟨he, hf⟩ := h.stage p .copyuvm np hp
      exact h.forkStep (x := { s.proc np with pgdir := some s.pages }) (k := .setParent)
        rfl rfl hr he ⟨hf.1, hf.2, by simp⟩ (.inl ⟨_, hp⟩) (.inl hf.1)
  | noCopy hr hp =>
      rename_i p np
      exact h.forkEnd
        (x := { s.proc np with pgdir := none, kstack := none, state := .UNUSED }) rfl hp
        (Function.update_self ..) (fun q hq => Function.update_of_ne hq ..)
        (.inl ⟨rfl, (h.stage p .copyuvm np hp).2.1, rfl⟩)
  | setParent hr hp =>
      rename_i p np
      obtain ⟨he, hf⟩ := h.stage p .setParent np hp
      exact h.forkStep (x := { s.proc np with parent := some p }) (k := .setRunnable) rfl rfl
        hr he ⟨rfl, hf.2⟩ (.inl ⟨_, hp⟩) (.inr rfl)
  | setRunnable hr hp =>
      rename_i p np
      obtain ⟨he, hf⟩ := h.stage p .setRunnable np hp
      refine h.forkEnd (x := { s.proc np with state := .RUNNABLE }) rfl hp
        (Function.update_self ..) (fun q hq => ?_) (.inr ⟨rfl, hf⟩)
      have hq' : (((s.setProc np { s.proc np with state := .RUNNABLE }).setPlace np .user).setPlace
          p .user).place q = Function.update s.place np .user q := Function.update_of_ne hq ..
      rw [hq']
      by_cases hqn : q = np
      · -- an EMBRYO is at no call
        subst hqn
        rw [Function.update_self]
        by_contra hc
        have ha := h.busy q (Ne.symm hc)
        rw [he] at ha
        simp [Procstate.active] at ha
      · rw [Function.update_of_ne hqn]

end Procs

end Xv6
