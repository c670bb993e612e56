import Xv6.Proc.Protocol

/-!
# CPUs, spinlocks and the scheduler

Any number of CPUs, each in its scheduler or in the code of a process, with the spinlocks,
the processes and the contexts that `sched` has saved. A step is taken by one CPU; the
places of its code where it can be seen by the others are the values of `CpuAt`. `acquire`
is the step that gets the lock: a CPU that spins does nothing else.

`code ls` and `top ls` carry the locks that the code there has acquired and not released.
The other places hold what the source says they hold, and every `release` and `sched`
makes the tests of the source. An interrupt handler is code of the scheduler or of the
process that it interrupts, which then holds no lock.
-/

namespace Xv6

abbrev CpuId := ℕ

inductive SpinLock where
  | ptable
  | other (n : ℕ)
  deriving DecidableEq

/-- Who called `sched`, or that the process has never run. -/
inductive SavedAt where
  | yield
  /-- `sleep(chan, lk)` -/
  | sleep (lk : SpinLock)
  | exit
  | forkret
  deriving DecidableEq

inductive CpuAt where
  /-- the scheduler outside of its critical section, or an interrupt handler there -/
  | top (ls : List SpinLock)
  /-- the scheduler in its loop over the table -/
  | scan
  /-- a process outside of the functions below -/
  | code (ls : List SpinLock)
  /-- `yield`, before `proc->state = RUNNABLE` -/
  | yieldLocked
  /-- `sleep`, before `release(lk)` -/
  | sleepLocked (chan : ℕ) (lk : SpinLock)
  /-- `sleep`, before `proc->state = SLEEPING` -/
  | sleepReady (chan : ℕ) (lk : SpinLock)
  /-- `exit`, before `proc->state = ZOMBIE` -/
  | exitLocked
  /-- before `sched()` -/
  | toSched (w : SavedAt)
  /-- after `sched()`, or at the start of `forkret` -/
  | resumed (w : SavedAt)
  deriving DecidableEq

/-- `struct cpu`, with the interrupt flag. -/
structure Cpu where
  proc : Option Pid
  /-- depth of `pushcli` nesting -/
  ncli : ℤ
  /-- were interrupts enabled before `pushcli`? -/
  intena : Bool
  /-- `FL_IF` of the `eflags` register -/
  fl_if : Bool
  place : CpuAt

namespace CpuAt

/-- The locks of code that the model does not follow. -/
def locks : CpuAt → Option (List SpinLock)
  | .top ls => some ls
  | .code ls => some ls
  | _ => none

def withLocks (ls : List SpinLock) : CpuAt → CpuAt
  | .top _ => .top ls
  | .code _ => .code ls
  | a => a

/-- Inside a critical section of `ptable.lock` that can call `wakeup1`. -/
def inTable : CpuAt → Bool
  | .top ls => .ptable ∈ ls
  | .code ls => .ptable ∈ ls
  | .exitLocked => true
  | _ => false

/-- The code of a process, inside a critical section of `ptable.lock`. -/
def inCode : CpuAt → Bool
  | .code ls => .ptable ∈ ls
  | _ => false

end CpuAt

namespace Cpu

def pushcli (x : Cpu) : Cpu :=
  { x with ncli := x.ncli + 1, intena := if x.ncli = 0 then x.fl_if else x.intena, fl_if := false }

def popcli (x : Cpu) : Except Panic Cpu :=
  if x.fl_if then .error .popcliInterruptible
  else if x.ncli - 1 < 0 then .error .popcli
  else .ok { x with ncli := x.ncli - 1, fl_if := decide (x.ncli - 1 = 0) && x.intena }

end Cpu

/-- What `sched` saves: where, and its local variable `intena`. -/
structure Context where
  place : SavedAt
  intena : Bool

structure Cpus where
  cpu : CpuId → Cpu
  /-- `lk->locked` and `lk->cpu` -/
  lock : SpinLock → Option CpuId
  state : Pid → Procstate
  chan : Pid → ℕ
  context : Pid → Option Context
  panicked : Option Panic

namespace Cpus

/-- Every CPU is about to enter its scheduler, and `userinit` has made the first process. -/
def init : Cpus where
  cpu := fun _ => ⟨none, 0, false, false, .top []⟩
  lock := fun _ => none
  state := Function.update (fun _ => .UNUSED) 0 .RUNNABLE
  chan := fun _ => 0
  context := Function.update (fun _ => none) 0 (some ⟨.forkret, false⟩)
  panicked := none

def setCpu (s : Cpus) (c : CpuId) (x : Cpu) : Cpus :=
  { s with cpu := Function.update s.cpu c x }

def setPlace (s : Cpus) (c : CpuId) (a : CpuAt) : Cpus :=
  s.setCpu c { s.cpu c with place := a }

def setState (s : Cpus) (p : Pid) (st : Procstate) : Cpus :=
  { s with state := Function.update s.state p st }

def panic (s : Cpus) (e : Panic) : Cpus := { s with panicked := some e }

def holding (s : Cpus) (c : CpuId) (lk : SpinLock) : Bool := s.lock lk = some c

/-- The end of `acquire(lk)` on a free lock, which leads to the place `a`. -/
def acquire (s : Cpus) (c : CpuId) (lk : SpinLock) (a : CpuAt) : Cpus :=
  { s.setCpu c { (s.cpu c).pushcli with place := a } with
    lock := Function.update s.lock lk (some c) }

/-- `release(lk)` on the way to the place `a`. -/
def release (s : Cpus) (c : CpuId) (lk : SpinLock) (a : CpuAt) : Cpus :=
  if !s.holding c lk then s.panic .release
  else
    match (s.cpu c).popcli with
    | .error e => s.panic e
    | .ok x =>
        { s.setCpu c { x with place := a } with lock := Function.update s.lock lk none }

def wakeup1 (s : Cpus) (chan : ℕ) : Cpus :=
  { s with
    state := fun p =>
      if s.state p = .SLEEPING ∧ s.chan p = chan then .RUNNABLE else s.state p }

/-- `sched()` and the return of the scheduler's `swtch`, up to its `proc = 0`. -/
def sched (s : Cpus) (c : CpuId) (p : Pid) (w : SavedAt) : Cpus :=
  if !s.holding c .ptable then s.panic .schedPtableLock
  else if (s.cpu c).ncli ≠ 1 then s.panic .schedLocks
  else if s.state p = .RUNNING then s.panic .schedRunning
  else if (s.cpu c).fl_if then s.panic .schedInterruptible
  else
    { s.setCpu c { s.cpu c with proc := none, place := .scan } with
      context := Function.update s.context p (some ⟨w, (s.cpu c).intena⟩) }

/-- `intena` when a process runs again: `sched` restores it, `forkret` does not. -/
def Context.restore (k : Context) (x : Cpu) : Bool :=
  if k.place = .forkret then x.intena else k.intena

/-- The scheduler switches to a process with a saved context: `switchuvm` has a pair of
`pushcli` and `popcli`. -/
def pick (s : Cpus) (c : CpuId) (p : Pid) (k : Context) : Cpus :=
  match (s.cpu c).pushcli.popcli with
  | .error e => s.panic e
  | .ok x =>
      (s.setState p .RUNNING).setCpu c
        { x with proc := some p, intena := Context.restore k x, place := .resumed k.place }

/-- `sleep(chan, lk)` takes `ptable.lock`, unless `lk` is it. -/
def sleep (s : Cpus) (c : CpuId) (chan : ℕ) (lk : SpinLock) : Option Cpus :=
  if lk = .ptable then some (s.setPlace c (.sleepReady chan lk))
  else if s.lock .ptable = none then some (s.acquire c .ptable (.sleepLocked chan lk))
  else none

inductive Label where
  /-- the scheduler enables interrupts -/
  | sti (c : CpuId)
  /-- an interrupt -/
  | irq (c : CpuId)
  /-- the return from a trap sets the interrupt flag to what it was -/
  | iret (c : CpuId) (b : Bool)
  | acquire (c : CpuId) (lk : SpinLock)
  | release (c : CpuId) (lk : SpinLock)
  /-- the scheduler acquires `ptable.lock` -/
  | schedule (c : CpuId)
  | pick (c : CpuId) (p : Pid)
  /-- the scheduler has looked at the whole table -/
  | unschedule (c : CpuId)
  | yield (c : CpuId)
  | sleep (c : CpuId) (chan : ℕ) (lk : SpinLock)
  | exit (c : CpuId)
  /-- the next step in `yield`, `sleep`, `exit`, `sched` or `forkret` -/
  | go (c : CpuId)
  | wakeup1 (c : CpuId) (chan : ℕ)
  /-- `kill` finds the process -/
  | kill (c : CpuId) (p : Pid)
  /-- `allocproc` -/
  | alloc (c : CpuId) (np : Pid)
  /-- `fork` fails -/
  | unalloc (c : CpuId) (np : Pid)
  /-- `fork` makes its child RUNNABLE -/
  | ready (c : CpuId) (np : Pid)
  /-- `wait` frees the kernel stack of a zombie -/
  | reap (c : CpuId) (q : Pid)
  deriving DecidableEq

/-- The next step in the functions that change processes. -/
def go (s : Cpus) (c : CpuId) : Option Cpus :=
  match (s.cpu c).proc, (s.cpu c).place with
  | some p, .yieldLocked => some ((s.setState p .RUNNABLE).setPlace c (.toSched .yield))
  | some _, .sleepLocked chan lk => some (s.release c lk (.sleepReady chan lk))
  | some p, .sleepReady chan lk =>
      some ({ s.setState p .SLEEPING with chan := Function.update s.chan p chan }.setPlace c
        (.toSched (.sleep lk)))
  | some p, .exitLocked => some ((s.setState p .ZOMBIE).setPlace c (.toSched .exit))
  | some p, .toSched w => some (s.sched c p w)
  | some _, .resumed .yield => some (s.release c .ptable (.code []))
  | some p, .resumed (.sleep lk) =>
      let t := { s with chan := Function.update s.chan p 0 }
      if lk = .ptable then some (t.setPlace c (.code [.ptable]))
      -- the `acquire(lk)` that follows is one of `code`
      else some (t.release c .ptable (.code []))
  | some _, .resumed .exit => some (s.panic .zombieExit)
  | some _, .resumed .forkret => some (s.release c .ptable (.code []))
  | _, _ => none

/-- A step is taken where the code is at its point and the locks that it acquires are
free. `yield`, `exit` and `sleep` are called with no other lock than the one passed. -/
def act (s : Cpus) : Label → Option Cpus
  | .sti c =>
      if (s.cpu c).place = .top [] then some (s.setCpu c { s.cpu c with fl_if := true }) else none
  | .irq c =>
      if (s.cpu c).fl_if then some (s.setCpu c { s.cpu c with fl_if := false }) else none
  | .iret c b =>
      if (s.cpu c).place.locks = some [] then some (s.setCpu c { s.cpu c with fl_if := b })
      else none
  | .acquire c lk =>
      match (s.cpu c).place.locks with
      | some ls =>
          if s.holding c lk then some (s.panic .acquire)
          else if s.lock lk = none then
            some (s.acquire c lk ((s.cpu c).place.withLocks (lk :: ls)))
          else none
      | none => none
  | .release c lk =>
      match (s.cpu c).place.locks with
      | some ls =>
          if lk ∈ ls then some (s.release c lk ((s.cpu c).place.withLocks (ls.erase lk)))
          else none
      | none => none
  | .schedule c =>
      if (s.cpu c).place = .top [] ∧ s.lock .ptable = none then some (s.acquire c .ptable .scan)
      else none
  | .pick c p =>
      match s.context p with
      | some k =>
          if (s.cpu c).place = .scan ∧ s.state p = .RUNNABLE then some (s.pick c p k) else none
      | none => none
  | .unschedule c =>
      if (s.cpu c).place = .scan then some (s.release c .ptable (.top [])) else none
  | .yield c =>
      if (s.cpu c).place = .code [] ∧ s.lock .ptable = none then
        some (s.acquire c .ptable .yieldLocked)
      else none
  | .sleep c chan lk => if (s.cpu c).place = .code [lk] then s.sleep c chan lk else none
  | .exit c =>
      if (s.cpu c).place = .code [] ∧ s.lock .ptable = none then
        some (s.acquire c .ptable .exitLocked)
      else none
  | .go c => s.go c
  | .wakeup1 c chan => if (s.cpu c).place.inTable then some (s.wakeup1 chan) else none
  | .kill c p =>
      if (s.cpu c).place.inCode ∧ s.state p = .SLEEPING then some (s.setState p .RUNNABLE)
      else none
  | .alloc c np =>
      if (s.cpu c).place.inCode ∧ s.state np = .UNUSED then some (s.setState np .EMBRYO)
      else none
  | .unalloc _ np => if s.state np = .EMBRYO then some (s.setState np .UNUSED) else none
  | .ready c np =>
      if (s.cpu c).place.inCode ∧ s.state np = .EMBRYO then
        some { s.setState np .RUNNABLE with
          context := Function.update s.context np (some ⟨.forkret, false⟩) }
      else none
  | .reap c q =>
      if (s.cpu c).place.inCode ∧ s.state q = .ZOMBIE then
        some { s.setState q .UNUSED with context := Function.update s.context q none }
      else none

def step (s : Cpus) (l : Label) : Option Cpus := if s.panicked = none then s.act l else none

end Cpus

end Xv6
