import Xv6.Foundation.Run
import Xv6.Basic

/-!
# The process table

`fork`, `exit`, `wait`, `kill`, `sleep` and `wakeup` on `ptable`, as steps of the processes
in its slots. A critical section of `ptable.lock` is one step. What `fork` does to the new
slot without the lock (`kstack`, `pgdir`, `parent`, and `state = UNUSED` when it fails) are
steps of their own, so that critical sections of others come in between.

The allocations of kernel stacks and page directories are numbered, and so are the
processes: `inc` is the number of the process in a slot. These numbers and the lists
`exited`, `reaped` and `freed` are ghosts.
-/

namespace Xv6

abbrev Slot := Fin NPROC

inductive Procstate where
  | UNUSED
  | EMBRYO
  | SLEEPING
  | RUNNABLE
  | RUNNING
  | ZOMBIE
  deriving DecidableEq

/-- The process sleeps, waits for a CPU or runs. -/
def Procstate.active : Procstate → Bool
  | .SLEEPING => true
  | .RUNNABLE => true
  | .RUNNING => true
  | _ => false

/-- What a process sleeps on: a `struct proc`, or another address. -/
inductive SleepChan where
  | proc (p : Slot)
  | other (a : ℕ)
  deriving DecidableEq

/-- `struct proc` (`proc.h`), as far as these functions use it; `none` is a null pointer. -/
structure ProcEntry where
  state : Procstate
  pid : Int32
  parent : Option Slot
  kstack : Option ℕ
  pgdir : Option ℕ
  chan : Option SleepChan
  killed : Bool
  deriving DecidableEq

/-- A slot of `ptable` before its first use. -/
def ProcEntry.zero : ProcEntry where
  state := .UNUSED
  pid := 0
  parent := none
  kstack := none
  pgdir := none
  chan := none
  killed := false

/-- How far `fork` has come with the new slot. -/
inductive ForkStage where
  /-- `allocproc`, before `kalloc` -/
  | kalloc
  /-- before `copyuvm` -/
  | copyuvm
  /-- before `np->parent = proc` -/
  | setParent
  /-- before the critical section that sets RUNNABLE -/
  | setRunnable
  deriving DecidableEq

inductive Place where
  /-- in none of the calls below -/
  | user
  /-- in `fork`, with the new slot -/
  | fork (stage : ForkStage) (np : Slot)
  /-- in the `sleep` of `wait` -/
  | wait
  deriving DecidableEq

/-- A process at the end of its `exit`. -/
structure Exited where
  inc : ℕ
  pid : Int32
  kstack : Option ℕ
  pgdir : Option ℕ
  deriving DecidableEq

/-- What a `wait` that returns a pid found and freed. -/
structure Reaped where
  caller : Slot
  parent : Option Slot
  child : Exited
  deriving DecidableEq

/-- `ptable`, `nextpid` and where the processes are. -/
structure Procs where
  proc : Slot → ProcEntry
  nextpid : Int32
  place : Slot → Place
  /-- the number of the process in a slot -/
  inc : Slot → ℕ
  /-- number of processes so far -/
  born : ℕ
  /-- number of kernel stacks and page directories so far -/
  pages : ℕ
  exited : List Exited
  reaped : List Reaped
  freed : List ℕ

/-- The slot of `userinit`. -/
def initproc : Slot := 0

namespace Procs

/-- After `userinit`. -/
def init : Procs where
  proc := Function.update (fun _ => ProcEntry.zero) initproc
    { ProcEntry.zero with state := .RUNNABLE, pid := 1, kstack := some 0, pgdir := some 1 }
  nextpid := 2
  place := fun _ => .user
  inc := fun _ => 0
  born := 1
  pages := 2
  exited := []
  reaped := []
  freed := []

def setProc (s : Procs) (q : Slot) (x : ProcEntry) : Procs :=
  { s with proc := Function.update s.proc q x }

def setPlace (s : Procs) (p : Slot) (a : Place) : Procs :=
  { s with place := Function.update s.place p a }

/-! ### The functions of `proc.c` -/

def find (s : Procs) (test : ProcEntry → Bool) : Option Slot :=
  (List.finRange NPROC).find? fun q => test (s.proc q)

def wakeup1 (s : Procs) (chan : Option SleepChan) : Procs :=
  { s with
    proc := fun q =>
      if (s.proc q).state = .SLEEPING ∧ (s.proc q).chan = chan then
        { s.proc q with state := .RUNNABLE }
      else s.proc q }

/-- The critical section of `allocproc` when it has found the slot. -/
def allocproc (s : Procs) (np : Slot) : Procs :=
  { s.setProc np { s.proc np with state := .EMBRYO, pid := s.nextpid } with
    nextpid := s.nextpid + 1,
    inc := Function.update s.inc np s.born,
    born := s.born + 1 }

/-- The end of `allocproc`: `kalloc` of the kernel stack. -/
def allocStack (s : Procs) (np : Slot) (ok : Bool) : Procs :=
  if ok then { s.setProc np { s.proc np with kstack := some s.pages } with pages := s.pages + 1 }
  else s.setProc np { s.proc np with kstack := none, state := .UNUSED }

/-- `fork`: `np->pgdir = copyuvm(..)`, with the failure branch. -/
def copyDir (s : Procs) (np : Slot) (ok : Bool) : Procs :=
  if ok then { s.setProc np { s.proc np with pgdir := some s.pages } with pages := s.pages + 1 }
  else
    { s.setProc np { s.proc np with pgdir := none, kstack := none, state := .UNUSED } with
      freed := s.freed ++ (s.proc np).kstack.toList }

/-- One round of the loop of `exit` that passes the children of `p` to init. -/
def abandon (p : Slot) (s : Procs) (q : Slot) : Procs :=
  if (s.proc q).parent = some p then
    let t := s.setProc q { s.proc q with parent := some initproc }
    if (s.proc q).state = .ZOMBIE then t.wakeup1 (some (.proc initproc)) else t
  else s

def abandonAll (s : Procs) (p : Slot) : Procs := (List.finRange NPROC).foldl (abandon p) s

/-- The end of the critical section of `exit`. -/
def becomeZombie (s : Procs) (p : Slot) : Procs :=
  { s.setProc p { s.proc p with state := .ZOMBIE } with
    exited := s.exited ++ [⟨s.inc p, (s.proc p).pid, (s.proc p).kstack, (s.proc p).pgdir⟩] }

def exit (s : Procs) (p : Slot) : Procs :=
  ((s.wakeup1 ((s.proc p).parent.map SleepChan.proc)).abandonAll p).becomeZombie p

/-- `wait`: the scan has found the zombie `q`. -/
def reap (s : Procs) (p q : Slot) : Procs :=
  let x := s.proc q
  { s.setProc q { x with
      kstack := none, state := .UNUSED, pid := 0, parent := none, killed := false } with
    freed := s.freed ++ (x.kstack.toList ++ x.pgdir.toList),
    reaped := s.reaped ++ [⟨p, x.parent, ⟨s.inc q, x.pid, x.kstack, x.pgdir⟩⟩] }

/-- One scan of `wait` with what follows it: the pid of a zombie child is returned, or -1,
or the process goes to sleep on itself. -/
def wait (s : Procs) (p : Slot) : Procs :=
  match s.find fun x => x.parent = some p ∧ x.state = .ZOMBIE with
  | some q => (s.reap p q).setPlace p .user
  | none =>
      if (s.find fun x => x.parent = some p) = none ∨ (s.proc p).killed then s.setPlace p .user
      else
        (s.setProc p { s.proc p with state := .SLEEPING, chan := some (.proc p) }).setPlace p .wait

def kill (s : Procs) (pid : Int32) : ℤ × Procs :=
  match s.find fun x => x.pid = pid with
  | some q =>
      (0, s.setProc q { s.proc q with
        killed := true,
        state := if (s.proc q).state = .SLEEPING then .RUNNABLE else (s.proc q).state })
  | none => (-1, s)

/-! ### Steps -/

inductive Label where
  | fork (p : Slot)
  /-- `fork`: `kalloc` in `allocproc`, which may fail -/
  | kalloc (p : Slot) (ok : Bool)
  | copyuvm (p : Slot) (ok : Bool)
  | setParent (p : Slot)
  | setRunnable (p : Slot)
  | exit (p : Slot)
  /-- one scan of `wait` -/
  | wait (p : Slot)
  /-- `sleep` outside of `wait` -/
  | sleep (p : Slot) (a : ℕ)
  | wakeup (a : ℕ)
  | kill (pid : Int32)
  /-- the scheduler switches to the process, which tidies up if it has slept -/
  | schedule (p : Slot)
  | yield (p : Slot)
  deriving DecidableEq

/-- A step is taken by a running process at the point of its code where it can take it. -/
def step (s : Procs) : Label → Option Procs
  | .fork p =>
      if (s.proc p).state = .RUNNING ∧ s.place p = .user then
        match s.find fun x => x.state = .UNUSED with
        | some np => some ((s.allocproc np).setPlace p (.fork .kalloc np))
        | none => some s
      else none
  | .kalloc p ok =>
      match s.place p with
      | .fork .kalloc np =>
          if (s.proc p).state = .RUNNING then
            some ((s.allocStack np ok).setPlace p (if ok then .fork .copyuvm np else .user))
          else none
      | _ => none
  | .copyuvm p ok =>
      match s.place p with
      | .fork .copyuvm np =>
          if (s.proc p).state = .RUNNING then
            some ((s.copyDir np ok).setPlace p (if ok then .fork .setParent np else .user))
          else none
      | _ => none
  | .setParent p =>
      match s.place p with
      | .fork .setParent np =>
          if (s.proc p).state = .RUNNING then
            some ((s.setProc np { s.proc np with parent := some p }).setPlace p
              (.fork .setRunnable np))
          else none
      | _ => none
  | .setRunnable p =>
      match s.place p with
      | .fork .setRunnable np =>
          if (s.proc p).state = .RUNNING then
            some (((s.setProc np { s.proc np with state := .RUNNABLE }).setPlace np .user).setPlace
              p .user)
          else none
      | _ => none
  | .exit p =>
      -- `exit` of init panics
      if (s.proc p).state = .RUNNING ∧ s.place p = .user ∧ p ≠ initproc then some (s.exit p)
      else none
  | .wait p =>
      if (s.proc p).state = .RUNNING ∧ (s.place p = .user ∨ s.place p = .wait) then
        some (s.wait p)
      else none
  | .sleep p a =>
      if (s.proc p).state = .RUNNING ∧ s.place p = .user then
        some (s.setProc p { s.proc p with state := .SLEEPING, chan := some (.other a) })
      else none
  | .wakeup a => some (s.wakeup1 (some (.other a)))
  | .kill pid => some (s.kill pid).2
  | .schedule p =>
      if (s.proc p).state = .RUNNABLE then
        some (s.setProc p { s.proc p with state := .RUNNING, chan := none })
      else none
  | .yield p =>
      if (s.proc p).state = .RUNNING then
        some (s.setProc p { s.proc p with state := .RUNNABLE })
      else none

/-! ### What one step can do -/

variable {s t : Procs} {l : Label}

theorem find_some {test : ProcEntry → Bool} {q : Slot} (h : s.find test = some q) :
    test (s.proc q) = true := List.find?_some (p := fun q => test (s.proc q)) h

theorem find_none {test : ProcEntry → Bool} (h : s.find test = none) (q : Slot) :
    test (s.proc q) = false := by
  have hq := List.find?_eq_none.mp h q (List.mem_finRange q)
  exact Bool.eq_false_iff.mpr hq

/-- Only the scheduling of processes changes: `state` among the active states, `chan` and
`killed`, and who is in `wait`. -/
structure SchedOnly (s t : Procs) : Prop where
  proc : ∀ q, ∃ st ch k, t.proc q = { s.proc q with state := st, chan := ch, killed := k } ∧
    (st = (s.proc q).state ∨ st.active = true ∧ (s.proc q).state.active = true)
  fork : ∀ p stage np, t.place p = .fork stage np ↔ s.place p = .fork stage np
  place : ∀ p, t.place p ≠ .user → s.place p ≠ .user ∨ (s.proc p).state.active = true
  nextpid : t.nextpid = s.nextpid
  inc : t.inc = s.inc
  born : t.born = s.born
  pages : t.pages = s.pages
  exited : t.exited = s.exited
  reaped : t.reaped = s.reaped
  freed : t.freed = s.freed

/-- Some slots change their scheduling and the places stay. -/
theorem SchedOnly.of_proc {f : Slot → ProcEntry}
    (h : ∀ q, ∃ st ch k, f q = { s.proc q with state := st, chan := ch, killed := k } ∧
      (st = (s.proc q).state ∨ st.active = true ∧ (s.proc q).state.active = true)) :
    SchedOnly s { s with proc := f } where
  proc := h
  fork _ _ _ := Iff.rfl
  place _ := .inl
  nextpid := rfl
  inc := rfl
  born := rfl
  pages := rfl
  exited := rfl
  reaped := rfl
  freed := rfl

theorem schedOnly_setProc {q : Slot} {st : Procstate} {ch : Option SleepChan} {k : Bool}
    (h : st = (s.proc q).state ∨ st.active = true ∧ (s.proc q).state.active = true) :
    SchedOnly s (s.setProc q { s.proc q with state := st, chan := ch, killed := k }) := by
  refine .of_proc fun q' => ?_
  by_cases hq : q' = q
  · subst hq
    exact ⟨st, ch, k, Function.update_self .., h⟩
  · exact ⟨_, _, _, Function.update_of_ne hq .., .inl rfl⟩

theorem schedOnly_wakeup1 (chan : Option SleepChan) : SchedOnly s (s.wakeup1 chan) := by
  refine .of_proc fun q => ?_
  split
  · rename_i h
    exact ⟨_, _, _, rfl, .inr ⟨rfl, by rw [h.1]; rfl⟩⟩
  · exact ⟨_, _, _, rfl, .inl rfl⟩

theorem schedOnly_kill (pid : Int32) : SchedOnly s (s.kill pid).2 := by
  unfold kill
  split
  · refine schedOnly_setProc ?_
    split
    · rename_i h
      exact .inr ⟨rfl, by rw [h]; rfl⟩
    · exact .inl rfl
  · exact .of_proc fun q => ⟨_, _, _, rfl, .inl rfl⟩

/-- A process that is not in `fork` comes out of `wait`, or goes into it. -/
theorem SchedOnly.setPlace (h : SchedOnly s t) {p : Slot} {a : Place}
    (hp : (s.proc p).state.active = true) (hs : ∀ stage np, s.place p ≠ .fork stage np)
    (ha : ∀ stage np, a ≠ .fork stage np) : SchedOnly s (t.setPlace p a) := by
  refine { h with fork := fun q stage np => ?_, place := fun q hq => ?_ }
  · by_cases hqp : q = p
    · subst hqp
      simp [Procs.setPlace, hs, ha]
    · simpa [Procs.setPlace, Function.update_of_ne hqp] using h.fork q stage np
  · by_cases hqp : q = p
    · exact .inr (hqp ▸ hp)
    · exact h.place q (by simpa [Procs.setPlace, Function.update_of_ne hqp] using hq)

/-- Who sleeps in `wait` after a step has slept there before, or has found children and no
zombie among them. -/
def Sleeps (s t : Procs) : Prop :=
  ∀ p, t.place p = .wait → (t.proc p).state = .SLEEPING →
    s.place p = .wait ∧ (s.proc p).state = .SLEEPING ∧ (t.proc p).chan = (s.proc p).chan ∨
    (t.proc p).chan = some (.proc p) ∧ (∃ q, (s.proc q).parent = some p) ∧
      ∀ q, (s.proc q).parent = some p → (s.proc q).state ≠ .ZOMBIE

/-- What each label does. -/
inductive Took (s : Procs) : Label → Procs → Prop where
  | fork {p np} (hr : (s.proc p).state = .RUNNING) (hp : s.place p = .user)
      (hnp : (s.proc np).state = .UNUSED) :
      Took s (.fork p) ((s.allocproc np).setPlace p (.fork .kalloc np))
  | kalloc {p np} (hr : (s.proc p).state = .RUNNING) (hp : s.place p = .fork .kalloc np) :
      Took s (.kalloc p true) ((s.allocStack np true).setPlace p (.fork .copyuvm np))
  | noStack {p np} (hr : (s.proc p).state = .RUNNING) (hp : s.place p = .fork .kalloc np) :
      Took s (.kalloc p false) ((s.allocStack np false).setPlace p .user)
  | copyuvm {p np} (hr : (s.proc p).state = .RUNNING) (hp : s.place p = .fork .copyuvm np) :
      Took s (.copyuvm p true) ((s.copyDir np true).setPlace p (.fork .setParent np))
  | noCopy {p np} (hr : (s.proc p).state = .RUNNING) (hp : s.place p = .fork .copyuvm np) :
      Took s (.copyuvm p false) ((s.copyDir np false).setPlace p .user)
  | setParent {p np} (hr : (s.proc p).state = .RUNNING) (hp : s.place p = .fork .setParent np) :
      Took s (.setParent p) ((s.setProc np { s.proc np with parent := some p }).setPlace p
        (.fork .setRunnable np))
  | setRunnable {p np} (hr : (s.proc p).state = .RUNNING)
      (hp : s.place p = .fork .setRunnable np) :
      Took s (.setRunnable p)
        (((s.setProc np { s.proc np with state := .RUNNABLE }).setPlace np .user).setPlace p .user)
  | exit {p} (hr : (s.proc p).state = .RUNNING) (hp : s.place p = .user) (hi : p ≠ initproc) :
      Took s (.exit p) (s.exit p)
  | reap {p q} (hr : (s.proc p).state = .RUNNING) (hp : s.place p = .user ∨ s.place p = .wait)
      (hq : (s.proc q).parent = some p) (hz : (s.proc q).state = .ZOMBIE) :
      Took s (.wait p) ((s.reap p q).setPlace p .user)
  | sched {l' u} (h : SchedOnly s u) (hw : Sleeps s u) : Took s l' u

theorem sleeps_refl : Sleeps s s := fun _ hp hs => .inl ⟨hp, hs, rfl⟩

theorem sleeps_wakeup1 (chan : Option SleepChan) : Sleeps s (s.wakeup1 chan) := by
  intro p hp hs
  simp only [wakeup1] at hs ⊢
  split at hs
  · simp at hs
  · rename_i h
    rw [if_neg h]
    exact .inl ⟨hp, hs, rfl⟩

/-- A process outside of `wait` changes its state. -/
theorem sleeps_setProc {q : Slot} {x : ProcEntry} (hq : s.place q ≠ .wait ∨ x.state ≠ .SLEEPING) :
    Sleeps s (s.setProc q x) := by
  intro p hp hs
  by_cases hpq : p = q
  · subst hpq
    rw [show (s.setProc p x).proc p = x from Function.update_self ..] at hs
    rcases hq with h | h
    · exact absurd hp h
    · exact absurd hs h
  · rw [show (s.setProc q x).proc p = s.proc p from Function.update_of_ne hpq ..] at hs ⊢
    exact .inl ⟨hp, hs, rfl⟩

theorem sleeps_leave (p : Slot) : Sleeps s (s.setPlace p .user) := by
  intro q hq hs
  by_cases hqp : q = p
  · subst hqp
    simp [setPlace] at hq
  · exact .inl ⟨by simpa [setPlace, Function.update_of_ne hqp] using hq, hs, rfl⟩

theorem took_wait {p : Slot} (hr : (s.proc p).state = .RUNNING)
    (hp : s.place p = .user ∨ s.place p = .wait) : Took s (.wait p) (s.wait p) := by
  have hactive : (s.proc p).state.active = true := by rw [hr]; rfl
  have hfork : ∀ stage np, s.place p ≠ .fork stage np := by
    intro stage np
    rcases hp with h | h <;> simp [h]
  unfold wait
  split
  · rename_i q hq
    have h := find_some hq
    simp only [decide_eq_true_eq] at h
    exact .reap hr hp h.1 h.2
  · rename_i hnone
    split
    · exact .sched ((SchedOnly.of_proc fun q => ⟨_, _, _, rfl, .inl rfl⟩).setPlace hactive hfork
        (by simp)) (sleeps_leave p)
    · rename_i hkids
      rw [not_or] at hkids
      refine .sched ((schedOnly_setProc (.inr ⟨rfl, hactive⟩)).setPlace hactive hfork (by simp)) ?_
      intro w hw hs
      by_cases hwp : w = p
      · subst hwp
        refine .inr ⟨by simp [setPlace, setProc], ?_, fun q hq hz => ?_⟩
        · obtain ⟨q, hq⟩ := Option.ne_none_iff_exists'.mp hkids.1
          exact ⟨q, by simpa using find_some hq⟩
        · simpa [hq, hz] using find_none hnone q
      · simp only [setPlace, setProc, Function.update_of_ne hwp] at hw hs ⊢
        exact .inl ⟨hw, hs, trivial⟩

theorem step_took (hl : step s l = some t) : Took s l t := by
  cases l with
  | fork p =>
      simp only [step, Option.ite_none_right_eq_some] at hl
      obtain ⟨⟨hr, hp⟩, hl⟩ := hl
      split at hl
      · rename_i np hnp
        have h := find_some hnp
        simp only [decide_eq_true_eq] at h
        exact Option.some.inj hl ▸ .fork hr hp h
      · obtain rfl := Option.some.inj hl
        exact .sched (.of_proc fun q => ⟨_, _, _, rfl, .inl rfl⟩) sleeps_refl
  | kalloc p ok =>
      simp only [step] at hl
      split at hl
      · rename_i np hp
        simp only [Option.ite_none_right_eq_some, Option.some.injEq] at hl
        obtain ⟨hr, rfl⟩ := hl
        cases ok with
        | true => exact .kalloc hr hp
        | false => exact .noStack hr hp
      · simp at hl
  | copyuvm p ok =>
      simp only [step] at hl
      split at hl
      · rename_i np hp
        simp only [Option.ite_none_right_eq_some, Option.some.injEq] at hl
        obtain ⟨hr, rfl⟩ := hl
        cases ok with
        | true => exact .copyuvm hr hp
        | false => exact .noCopy hr hp
      · simp at hl
  | setParent p =>
      simp only [step] at hl
      split at hl
      · rename_i np hp
        simp only [Option.ite_none_right_eq_some, Option.some.injEq] at hl
        exact hl.2 ▸ .setParent hl.1 hp
      · simp at hl
  | setRunnable p =>
      simp only [step] at hl
      split at hl
      · rename_i np hp
        simp only [Option.ite_none_right_eq_some, Option.some.injEq] at hl
        exact hl.2 ▸ .setRunnable hl.1 hp
      · simp at hl
  | exit p =>
      simp only [step, Option.ite_none_right_eq_some, Option.some.injEq] at hl
      exact hl.2 ▸ .exit hl.1.1 hl.1.2.1 hl.1.2.2
  | wait p =>
      simp only [step, Option.ite_none_right_eq_some, Option.some.injEq] at hl
      exact hl.2 ▸ took_wait hl.1.1 hl.1.2
  | sleep p a =>
      simp only [step, Option.ite_none_right_eq_some, Option.some.injEq] at hl
      obtain ⟨⟨hr, hp⟩, rfl⟩ := hl
      exact .sched (schedOnly_setProc (.inr ⟨rfl, by rw [hr]; rfl⟩))
        (sleeps_setProc (.inl (by simp [hp])))
  | wakeup a =>
      obtain rfl := Option.some.inj hl
      exact .sched (schedOnly_wakeup1 _) (sleeps_wakeup1 _)
  | kill pid =>
      obtain rfl := Option.some.inj hl
      refine .sched (schedOnly_kill pid) ?_
      unfold kill
      split
      · refine sleeps_setProc (.inr ?_)
        simp only
        split <;> simp [*]
      · exact sleeps_refl
  | schedule p =>
      simp only [step, Option.ite_none_right_eq_some, Option.some.injEq] at hl
      obtain ⟨hr, rfl⟩ := hl
      exact .sched (schedOnly_setProc (.inr ⟨rfl, by rw [hr]; rfl⟩)) (sleeps_setProc (.inr (by simp)))
  | yield p =>
      simp only [step, Option.ite_none_right_eq_some, Option.some.injEq] at hl
      obtain ⟨hr, rfl⟩ := hl
      exact .sched (schedOnly_setProc (.inr ⟨rfl, by rw [hr]; rfl⟩)) (sleeps_setProc (.inr (by simp)))

end Procs

end Xv6
