import Xv6.Foundation.Ledger
import Xv6.Proc.Invariant

/-!
# Kernel stacks and page directories

The kernel stacks and page directories form a ledger whose holders are the slots. The
pointer `pgdir` that `wait` leaves behind, and that a new EMBRYO still has, holds nothing.
Every step of the processes keeps the ledger balanced.
-/

namespace Xv6

namespace Procs

open Foundation

variable {s t : Procs} {l : Label}

/-- What a slot can hold. -/
inductive Resource where
  | stack (q : Slot)
  | dir (q : Slot)
  deriving DecidableEq

/-- The page directory of the slot is its own: it is not the stale pointer of a slot that
`wait` or a failed `fork` has left. -/
def OwnsDir (s : Procs) (q : Slot) : Prop :=
  (s.proc q).state.active = true ∨ (s.proc q).state = .ZOMBIE ∨
    ∃ p, s.place p = .fork .setParent q ∨ s.place p = .fork .setRunnable q

open Classical in
/-- Who has which kernel stack and page directory. -/
noncomputable def ledger (s : Procs) : Ledger Resource where
  next := s.pages
  held := fun
    | .stack q => (s.proc q).kstack
    | .dir q => if s.OwnsDir q then (s.proc q).pgdir else none
  freed := s.freed

theorem held_dir_of_owns {q : Slot} (h : s.OwnsDir q) :
    s.ledger.held (.dir q) = (s.proc q).pgdir := if_pos h

theorem held_dir_of_not {q : Slot} (h : ¬ s.OwnsDir q) : s.ledger.held (.dir q) = none := if_neg h

theorem Shape.not_ownsDir (h : Shape s) {q : Slot} (hq : (s.proc q).state = .UNUSED) :
    ¬ s.OwnsDir q := by
  rintro (ha | hz | ⟨p, hp | hp⟩)
  · rw [hq] at ha
    simp [Procstate.active] at ha
  · rw [hq] at hz
    simp at hz
  · rw [(h.stage p _ q hp).1] at hq
    simp at hq
  · rw [(h.stage p _ q hp).1] at hq
    simp at hq

theorem Shape.ownsDir_fork (h : Shape s) {p q : Slot} {k : ForkStage}
    (hp : s.place p = .fork k q) :
    s.OwnsDir q ↔ k = .setParent ∨ k = .setRunnable := by
  have he := (h.stage p k q hp).1
  constructor
  · rintro (ha | hz | ⟨p', hp' | hp'⟩)
    · rw [he] at ha
      simp [Procstate.active] at ha
    · rw [he] at hz
      simp at hz
    all_goals
      obtain rfl := h.one p p' _ _ q hp hp'
      rw [hp] at hp'
      simp_all
  · rintro (rfl | rfl)
    · exact .inr (.inr ⟨p, .inl hp⟩)
    · exact .inr (.inr ⟨p, .inr hp⟩)

theorem ownsDir_congr {q : Slot} (ha : (t.proc q).state.active = (s.proc q).state.active)
    (hz : (t.proc q).state = .ZOMBIE ↔ (s.proc q).state = .ZOMBIE)
    (hp : ∀ p stage, t.place p = .fork stage q ↔ s.place p = .fork stage q) :
    t.OwnsDir q ↔ s.OwnsDir q := by
  simp only [OwnsDir, ha, hz, hp]

/-- The ledger after a step is the given one if it has the right entries for the slot that
the step is about, and the old ones for the others. -/
theorem ledger_eq (np : Slot) {L : Ledger Resource}
    (hproc : ∀ q, q ≠ np → t.proc q = s.proc q)
    (hplace : ∀ q, q ≠ np → ∀ p stage, t.place p = .fork stage q ↔ s.place p = .fork stage q)
    (hL : ∀ q, q ≠ np → L.held (.stack q) = s.ledger.held (.stack q) ∧
      L.held (.dir q) = s.ledger.held (.dir q))
    (hstack : L.held (.stack np) = (t.proc np).kstack)
    (hdir : L.held (.dir np) = t.ledger.held (.dir np))
    (hnext : L.next = t.pages) (hfreed : L.freed = t.freed) : t.ledger = L := by
  refine Ledger.ext hnext.symm (funext fun r => ?_) hfreed.symm
  cases r with
  | stack q =>
      by_cases hq : q = np
      · subst hq
        exact hstack.symm
      · rw [(hL q hq).1]
        exact congrArg ProcEntry.kstack (hproc q hq)
  | dir q =>
      by_cases hq : q = np
      · subst hq
        exact hdir.symm
      · have howns : t.OwnsDir q ↔ s.OwnsDir q :=
          ownsDir_congr (by rw [hproc q hq]) (by rw [hproc q hq]) (hplace q hq)
        rw [(hL q hq).2]
        by_cases ho : s.OwnsDir q
        · rw [held_dir_of_owns ho, held_dir_of_owns (howns.mpr ho), hproc q hq]
        · rw [held_dir_of_not ho, held_dir_of_not (fun h => ho (howns.mp h))]

/-- The ledger stays if no slot gains or loses anything. -/
theorem ledger_same (hstack : ∀ q, (t.proc q).kstack = (s.proc q).kstack)
    (hdir : ∀ q, (t.proc q).pgdir = (s.proc q).pgdir) (howns : ∀ q, t.OwnsDir q ↔ s.OwnsDir q)
    (hpages : t.pages = s.pages) (hfreed : t.freed = s.freed) : t.ledger = s.ledger := by
  refine Ledger.ext hpages (funext fun r => ?_) hfreed
  cases r with
  | stack q => exact hstack q
  | dir q =>
      by_cases ho : s.OwnsDir q
      · rw [held_dir_of_owns ho, held_dir_of_owns ((howns q).mpr ho), hdir]
      · rw [held_dir_of_not ho, held_dir_of_not (fun h => ho ((howns q).mp h))]

theorem ExitEffect.ownsDir {p : Slot} (he : ExitEffect s p t) (hr : (s.proc p).state = .RUNNING)
    (q : Slot) : t.OwnsDir q ↔ s.OwnsDir q := by
  have hplace : t.place = s.place := by rw [he.rest]
  by_cases hq : q = p
  · subst hq
    obtain ⟨x, -, hself⟩ := he.self
    exact ⟨fun _ => .inl (by rw [hr]; rfl), fun _ => .inr (.inl (by rw [hself]))⟩
  · exact ownsDir_congr (he.other q hq).active ((he.other q hq).state_iff rfl)
      fun p' stage => by rw [hplace]

/-- The places of other forks stay when a `fork` on `np` goes on or ends. -/
theorem place_fork_iff {p np : Slot} {a : Place} (hs : s.place p = .user ∨ s.place p = .wait ∨
      ∃ stage, s.place p = .fork stage np)
    (ha : a = .user ∨ ∃ stage, a = .fork stage np) (q : Slot) (hq : q ≠ np) (p' : Slot)
    (stage : ForkStage) :
    Function.update s.place p a p' = .fork stage q ↔ s.place p' = .fork stage q := by
  by_cases hp : p' = p
  · subst hp
    rw [Function.update_self]
    have h₁ : a ≠ .fork stage q := by
      rcases ha with rfl | ⟨st, rfl⟩
      · simp
      · simp [Ne.symm hq]
    have h₂ : s.place p' ≠ .fork stage q := by
      rcases hs with hs | hs | ⟨st, hs⟩
      · simp [hs]
      · simp [hs]
      · simp [hs, Ne.symm hq]
    exact ⟨fun h => absurd h h₁, fun h => absurd h h₂⟩
  · rw [Function.update_of_ne hp]

/-! ### What each step does to the ledger -/

section Steps

variable {p np q : Slot}

theorem SchedOnly.ledger (hs : SchedOnly s t) : t.ledger = s.ledger :=
  ledger_same (fun q => (hs.same q).2.1) (fun q => (hs.same q).2.2.1)
    (fun q => ownsDir_congr (hs.active q) (hs.state_iff q rfl) fun p st => hs.fork p st q)
    hs.pages hs.freed

theorem ledger_exit (hr : (s.proc p).state = .RUNNING) : (s.exit p).ledger = s.ledger := by
  have he := exit_effect s p
  exact ledger_same (fun q => (he.fields q).1) (fun q => (he.fields q).2.1) (he.ownsDir hr)
    (by rw [he.rest]) (by rw [he.rest])

/-- The new slot has no stack yet, and the pointer to a page directory is stale. -/
theorem Shape.ledger_allocproc (h : Shape s)
    (h' : Shape ((s.allocproc np).setPlace p (.fork .kalloc np)))
    (hp : s.place p = .user) (hnp : (s.proc np).state = .UNUSED) :
    ((s.allocproc np).setPlace p (.fork .kalloc np)).ledger = s.ledger := by
  set t := (s.allocproc np).setPlace p (.fork .kalloc np)
  have hself : t.proc np = { s.proc np with state := .EMBRYO, pid := s.nextpid } :=
    Function.update_self ..
  have hnew : ¬ t.OwnsDir np := by
    rw [h'.ownsDir_fork (p := p) (k := .kalloc) (Function.update_self ..)]
    simp
  refine ledger_eq np (fun q hq => Function.update_of_ne hq ..)
    (place_fork_iff (.inl hp) (.inr ⟨_, rfl⟩)) (fun q hq => ⟨rfl, rfl⟩) ?_ ?_ rfl rfl
  · rw [hself]
    rfl
  · rw [held_dir_of_not hnew, held_dir_of_not (h.not_ownsDir hnp)]

theorem Shape.ledger_allocStack (h : Shape s)
    (h' : Shape ((s.allocStack np true).setPlace p (.fork .copyuvm np)))
    (hp : s.place p = .fork .kalloc np) :
    ((s.allocStack np true).setPlace p (.fork .copyuvm np)).ledger =
      s.ledger.alloc (.stack np) := by
  set t := (s.allocStack np true).setPlace p (.fork .copyuvm np)
  have hself : t.proc np = { s.proc np with kstack := some s.pages } := Function.update_self ..
  have hnot : ¬ s.OwnsDir np := by
    rw [h.ownsDir_fork hp]
    simp
  have hnew : ¬ t.OwnsDir np := by
    rw [h'.ownsDir_fork (p := p) (k := .copyuvm) (Function.update_self ..)]
    simp
  refine ledger_eq np (fun q hq => Function.update_of_ne hq ..)
    (place_fork_iff (.inr (.inr ⟨_, hp⟩)) (.inr ⟨_, rfl⟩))
    (fun q hq => by simp [Ledger.held_alloc, hq]) ?_ ?_ rfl rfl
  · rw [hself, Ledger.held_alloc, if_pos rfl]
    rfl
  · rw [Ledger.held_alloc, if_neg (by simp), held_dir_of_not hnew, held_dir_of_not hnot]

/-- `kalloc` has failed, and the slot is given back before it had anything. -/
theorem Shape.ledger_noStack (h : Shape s) (h' : Shape ((s.allocStack np false).setPlace p .user))
    (hp : s.place p = .fork .kalloc np) :
    ((s.allocStack np false).setPlace p .user).ledger = s.ledger := by
  set t := (s.allocStack np false).setPlace p .user
  have hself : t.proc np = { s.proc np with kstack := none, state := .UNUSED } :=
    Function.update_self ..
  have hnot : ¬ s.OwnsDir np := by
    rw [h.ownsDir_fork hp]
    simp
  refine ledger_eq np (fun q hq => Function.update_of_ne hq ..)
    (place_fork_iff (.inr (.inr ⟨_, hp⟩)) (.inl rfl)) (fun q hq => ⟨rfl, rfl⟩) ?_ ?_ rfl rfl
  · rw [hself]
    exact (h.stage p _ np hp).2.2
  · rw [held_dir_of_not (h'.not_ownsDir (by rw [hself])), held_dir_of_not hnot]

theorem Shape.ledger_copyDir (h' : Shape ((s.copyDir np true).setPlace p (.fork .setParent np)))
    (hp : s.place p = .fork .copyuvm np) :
    ((s.copyDir np true).setPlace p (.fork .setParent np)).ledger = s.ledger.alloc (.dir np) := by
  set t := (s.copyDir np true).setPlace p (.fork .setParent np)
  have hself : t.proc np = { s.proc np with pgdir := some s.pages } := Function.update_self ..
  have hnew : t.OwnsDir np := by
    rw [h'.ownsDir_fork (p := p) (k := .setParent) (Function.update_self ..)]
    exact .inl rfl
  refine ledger_eq np (fun q hq => Function.update_of_ne hq ..)
    (place_fork_iff (.inr (.inr ⟨_, hp⟩)) (.inr ⟨_, rfl⟩))
    (fun q hq => by simp [Ledger.held_alloc, hq]) ?_ ?_ rfl rfl
  · rw [hself, Ledger.held_alloc, if_neg (by simp)]
    rfl
  · rw [Ledger.held_alloc, if_pos rfl, held_dir_of_owns hnew, hself]
    rfl

/-- `copyuvm` has failed, and `fork` frees the stack. -/
theorem Shape.ledger_noCopy (h : Shape s) (h' : Shape ((s.copyDir np false).setPlace p .user))
    (hp : s.place p = .fork .copyuvm np) :
    ((s.copyDir np false).setPlace p .user).ledger = s.ledger.free (.stack np) := by
  set t := (s.copyDir np false).setPlace p .user
  have hself : t.proc np = { s.proc np with pgdir := none, kstack := none, state := .UNUSED } :=
    Function.update_self ..
  have hnot : ¬ s.OwnsDir np := by
    rw [h.ownsDir_fork hp]
    simp
  refine ledger_eq np (fun q hq => Function.update_of_ne hq ..)
    (place_fork_iff (.inr (.inr ⟨_, hp⟩)) (.inl rfl))
    (fun q hq => by simp [Ledger.held_free, hq]) ?_ ?_ rfl rfl
  · rw [hself, Ledger.held_free, if_pos rfl]
  · rw [Ledger.held_free, if_neg (by simp),
      held_dir_of_not (h'.not_ownsDir (by rw [hself])), held_dir_of_not hnot]

theorem Shape.ledger_setParent (h : Shape s)
    (h' : Shape ((s.setProc np { s.proc np with parent := some p }).setPlace p
      (.fork .setRunnable np)))
    (hp : s.place p = .fork .setParent np) :
    ((s.setProc np { s.proc np with parent := some p }).setPlace p
      (.fork .setRunnable np)).ledger = s.ledger := by
  set t := (s.setProc np { s.proc np with parent := some p }).setPlace p (.fork .setRunnable np)
  have hself : t.proc np = { s.proc np with parent := some p } := Function.update_self ..
  have hnew : t.OwnsDir np := by
    rw [h'.ownsDir_fork (p := p) (k := .setRunnable) (Function.update_self ..)]
    exact .inr rfl
  have hold : s.OwnsDir np := by
    rw [h.ownsDir_fork hp]
    exact .inl rfl
  refine ledger_eq np (fun q hq => Function.update_of_ne hq ..)
    (place_fork_iff (.inr (.inr ⟨_, hp⟩)) (.inr ⟨_, rfl⟩)) (fun q hq => ⟨rfl, rfl⟩) ?_ ?_ rfl rfl
  · rw [hself]
    rfl
  · rw [held_dir_of_owns hnew, held_dir_of_owns hold, hself]

theorem Shape.ledger_setRunnable (h : Shape s) (hp : s.place p = .fork .setRunnable np) :
    (((s.setProc np { s.proc np with state := .RUNNABLE }).setPlace np .user).setPlace p
      .user).ledger = s.ledger := by
  set t := ((s.setProc np { s.proc np with state := .RUNNABLE }).setPlace np .user).setPlace p
    .user with ht
  have hself : t.proc np = { s.proc np with state := .RUNNABLE } := Function.update_self ..
  have hold : s.OwnsDir np := by
    rw [h.ownsDir_fork hp]
    exact .inr rfl
  have hnp : s.place np = .user := by
    by_contra hc
    have ha := h.busy np hc
    rw [(h.stage p _ np hp).1] at ha
    simp [Procstate.active] at ha
  have hplace : t.place = Function.update s.place p .user := by
    rw [ht]
    simp only [setPlace, setProc]
    rw [← hnp, Function.update_eq_self]
  refine ledger_eq np (fun q hq => Function.update_of_ne hq ..) ?_
    (fun q hq => ⟨rfl, rfl⟩) ?_ ?_ rfl rfl
  · rw [hplace]
    exact place_fork_iff (.inr (.inr ⟨_, hp⟩)) (.inl rfl)
  · rw [hself]
    rfl
  · have hnew : t.OwnsDir np := .inl (by rw [hself]; rfl)
    rw [held_dir_of_owns hnew, held_dir_of_owns hold, hself]

/-- `wait` frees the stack and the page directory; the pointer to the directory stays. -/
theorem ledger_reap (h' : Shape ((s.reap p q).setPlace p .user))
    (hp : s.place p = .user ∨ s.place p = .wait) (hz : (s.proc q).state = .ZOMBIE) :
    ((s.reap p q).setPlace p .user).ledger = (s.ledger.free (.stack q)).free (.dir q) := by
  set t := (s.reap p q).setPlace p .user
  have hself : t.proc q = { s.proc q with
      kstack := none, state := .UNUSED, pid := 0, parent := none, killed := false } :=
    Function.update_self ..
  have hdir : s.ledger.held (.dir q) = (s.proc q).pgdir := held_dir_of_owns (.inr (.inl hz))
  have hfreed : (s.ledger.free (.stack q)).held (.dir q) = (s.proc q).pgdir := by
    rw [Ledger.held_free, if_neg (by simp), hdir]
  refine ledger_eq q (fun r hr => Function.update_of_ne hr ..)
    (place_fork_iff (hp.imp id .inl) (.inl rfl))
    (fun r hr => by simp [Ledger.held_free, hr]) ?_ ?_ rfl ?_
  · rw [hself, Ledger.held_free, if_neg (by simp), Ledger.held_free, if_pos rfl]
  · rw [Ledger.held_free, if_pos rfl, held_dir_of_not (h'.not_ownsDir (by rw [hself]))]
  · change (s.freed ++ (s.proc q).kstack.toList) ++
      ((s.ledger.free (.stack q)).held (.dir q)).toList = _
    rw [hfreed, List.append_assoc]
    rfl

end Steps

theorem balanced_step (h : Shape s) (h' : Shape t) (hb : s.ledger.Balanced)
    (hl : Took s l t) : t.ledger.Balanced := by
  cases hl with
  | sched hs hw => rwa [hs.ledger]
  | exit hr hp hi => rwa [ledger_exit hr]
  | fork hr hp hnp => rwa [h.ledger_allocproc h' hp hnp]
  | kalloc hr hp =>
      rw [h.ledger_allocStack h' hp]
      exact hb.alloc _
  | noStack hr hp => rwa [h.ledger_noStack h' hp]
  | copyuvm hr hp =>
      rw [Shape.ledger_copyDir h' hp]
      exact hb.alloc _
  | noCopy hr hp =>
      rw [h.ledger_noCopy h' hp]
      exact hb.free _
  | setParent hr hp => rwa [h.ledger_setParent h' hp]
  | setRunnable hr hp => rwa [h.ledger_setRunnable hp]
  | reap hr hp hq hz =>
      rw [ledger_reap h' hp hz]
      exact (hb.free _).free _

theorem balanced_init : init.ledger.Balanced := by
  have hother : ∀ q, q ≠ initproc → init.proc q = ProcEntry.zero :=
    fun q hq => by simp [init, Function.update_of_ne hq]
  -- init holds its stack and its directory, and nobody else holds anything
  have hheld : ∀ r k, init.ledger.held r = some k →
      r = .stack initproc ∧ k = 0 ∨ r = .dir initproc ∧ k = 1 := by
    intro r k hr
    cases r with
    | stack q =>
        by_cases hq : q = initproc
        · subst hq
          exact .inl ⟨rfl, (Option.some.inj hr).symm⟩
        · have hk : (init.proc q).kstack = some k := hr
          rw [hother q hq] at hk
          simp [ProcEntry.zero] at hk
    | dir q =>
        by_cases hq : q = initproc
        · subst hq
          rw [held_dir_of_owns (.inl rfl)] at hr
          exact .inr ⟨rfl, (Option.some.inj hr).symm⟩
        · have hnot : ¬ init.OwnsDir q :=
            shape_init.not_ownsDir (by rw [hother q hq]; rfl)
          rw [held_dir_of_not hnot] at hr
          simp at hr
  refine ⟨fun r k hr => ?_, fun r r' k hr hr' => ?_, by simp [ledger, init], List.nodup_nil⟩
  · have hk : k < 2 := by rcases hheld r k hr with ⟨-, rfl⟩ | ⟨-, rfl⟩ <;> omega
    exact ⟨hk, List.not_mem_nil⟩
  · rcases hheld r k hr with ⟨rfl, rfl⟩ | ⟨rfl, rfl⟩ <;>
      rcases hheld r' _ hr' with ⟨rfl, h⟩ | ⟨rfl, h⟩ <;> simp_all

end Procs

end Xv6
