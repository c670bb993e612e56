import Xv6.Foundation.Run
import Xv6.Basic

/-!
# Processes that sleep in pipes, in `sys_sleep` and in `wait`

The loops of `pipewrite`, `piperead`, `sys_sleep` and `wait` around `sleep`, with
`pipeclose`, `wakeup` and `kill`, as steps of any number of processes. A step is what a
process does between two points where another process can be seen: each test of
`proc->killed`, each `acquire` and each `release` is a point of its own, since `kill`
needs `ptable.lock` only. `wakeup` and `kill` hold `ptable.lock` for one step.

A `pipewrite` is at the index `i` of the bytes `addr`. The ghost fields `stored` and
`delivered` list all the bytes that went into the pipe, each with its writer, and all
that came out of it; `before` is what a process had stored when its call began.
-/

namespace Xv6

/-- Size of the ring of a pipe (`pipe.c`). -/
def PIPESIZE : ℕ := 512

instance : NeZero PIPESIZE := ⟨by decide⟩

structure Pipe where
  data : Fin PIPESIZE → UInt8
  /-- number of bytes read -/
  nread : UInt32
  /-- number of bytes written -/
  nwrite : UInt32
  /-- read fd is still open -/
  readopen : Bool
  /-- write fd is still open -/
  writeopen : Bool

namespace Pipe

/-- What `pipealloc` makes. -/
def init : Pipe where
  data := fun _ => 0
  nread := 0
  nwrite := 0
  readopen := true
  writeopen := true

/-- `p->nwrite == p->nread + PIPESIZE` -/
def full (p : Pipe) : Bool := p.nwrite = p.nread + UInt32.ofNat PIPESIZE

/-- `p->nread == p->nwrite` -/
def empty (p : Pipe) : Bool := p.nread = p.nwrite

/-- `p->data[p->nwrite++ % PIPESIZE] = b` -/
def store (p : Pipe) (b : UInt8) : Pipe :=
  { p with
    data := Function.update p.data (Fin.ofNat PIPESIZE p.nwrite.toNat) b,
    nwrite := p.nwrite + 1 }

/-- `p->data[p->nread % PIPESIZE]` -/
def next (p : Pipe) : UInt8 := p.data (Fin.ofNat PIPESIZE p.nread.toNat)

def consume (p : Pipe) : Pipe := { p with nread := p.nread + 1 }

/-- `p->writeopen = 0` or `p->readopen = 0` -/
def close (p : Pipe) (writable : Bool) : Pipe :=
  if writable then { p with writeopen := false } else { p with readopen := false }

end Pipe

inductive Chan where
  | nread
  | nwrite
  | ticks
  | proc (p : Pid)
  deriving DecidableEq

/-- A call that can sleep, with its local variables. -/
inductive Caller where
  /-- `pipewrite`, at `addr[i]` -/
  | write (addr : List UInt8) (i : ℕ)
  /-- `piperead` of `n` bytes -/
  | read (n : ℕ)
  /-- `sys_sleep` -/
  | ticks (n ticks0 : UInt32)
  /-- `wait` -/
  | wait
  deriving DecidableEq

/-- The lock that a call holds at the head of its loop. -/
inductive LockId where
  | pipe
  | ticks
  | ptable
  deriving DecidableEq

namespace Caller

def chan (p : Pid) : Caller → Chan
  | .write _ _ => .nwrite
  | .read _ => .nread
  | .ticks _ _ => .ticks
  | .wait => .proc p

def lock : Caller → LockId
  | .write _ _ => .pipe
  | .read _ => .pipe
  | .ticks _ _ => .ticks
  | .wait => .ptable

end Caller

inductive At where
  | idle
  /-- before `acquire` of the lock of the call -/
  | enter (c : Caller)
  /-- at the head of the loop, before the evaluation of the wait condition -/
  | test (c : Caller)
  /-- the wait condition holds; before the test of `proc->killed` -/
  | testKilled (c : Caller)
  /-- `pipewrite`: before the `wakeup(&p->nread)` of the loop -/
  | wakeReaders (addr : List UInt8) (i : ℕ)
  /-- in `sleep`, before `acquire(&ptable.lock)` -/
  | toSleep (c : Caller)
  /-- in `sleep`, before `release(lk)` -/
  | dropLock (c : Caller)
  /-- in `sleep`, before `proc->state = SLEEPING` -/
  | suspend (c : Caller)
  /-- in `sleep`, SLEEPING, or woken and before `acquire(lk)` -/
  | asleep (c : Caller)
  /-- `piperead`: in the copying loop, with `n` bytes to go -/
  | copy (n : ℕ)
  /-- before `pipeclose` -/
  | close (writable : Bool)
  /-- `pipeclose`, before the flag is cleared -/
  | clear (writable : Bool)
  /-- before the last `wakeup` of a call on the pipe -/
  | wakeup (c : Chan)
  /-- before the last `release` -/
  | leave (l : LockId)
  deriving DecidableEq

/-- The call in whose loop the process is. -/
def At.caller : At → Option Caller
  | .enter c => some c
  | .test c => some c
  | .testKilled c => some c
  | .wakeReaders addr i => some (.write addr i)
  | .toSleep c => some c
  | .dropLock c => some c
  | .suspend c => some c
  | .asleep c => some c
  | _ => none

structure Sleepers where
  pipe : Pipe
  ticks : UInt32
  /-- who holds a lock -/
  lock : LockId → Option Pid
  status : Pid → At
  /-- the channel of a SLEEPING process -/
  sleeping : Pid → Option Chan
  killed : Pid → Bool
  /-- the bytes stored so far, with their writers -/
  stored : List (Pid × UInt8)
  /-- the bytes read so far -/
  delivered : List UInt8
  /-- what a process had stored when its `pipewrite` began -/
  before : Pid → List UInt8

namespace Sleepers

/-- A new pipe, and no process in a call. -/
def init : Sleepers where
  pipe := .init
  ticks := 0
  lock := fun _ => none
  status := fun _ => .idle
  sleeping := fun _ => none
  killed := fun _ => false
  stored := []
  delivered := []
  before := fun _ => []

/-- The bytes that the process has stored, in order. -/
def storedBy (s : Sleepers) (p : Pid) : List UInt8 :=
  (s.stored.filter fun e => e.1 = p).map Prod.snd

def setStatus (s : Sleepers) (p : Pid) (a : At) : Sleepers :=
  { s with status := Function.update s.status p a }

def setPipe (s : Sleepers) (x : Pipe) : Sleepers := { s with pipe := x }

def acquire (s : Sleepers) (p : Pid) (l : LockId) : Sleepers :=
  { s with lock := Function.update s.lock l (some p) }

def release (s : Sleepers) (l : LockId) : Sleepers :=
  { s with lock := Function.update s.lock l none }

def wakeup (s : Sleepers) (c : Chan) : Sleepers :=
  { s with sleeping := fun q => if s.sleeping q = some c then none else s.sleeping q }

/-- `p->state = SLEEPING; p->chan = chan`. -/
def suspend (s : Sleepers) (p : Pid) (c : Chan) : Sleepers :=
  { s with sleeping := Function.update s.sleeping p (some c) }

def kill (s : Sleepers) (p : Pid) : Sleepers :=
  { s with
    killed := Function.update s.killed p true,
    sleeping := Function.update s.sleeping p none }

def store (s : Sleepers) (p : Pid) (b : UInt8) : Sleepers :=
  { s with pipe := s.pipe.store b, stored := s.stored ++ [(p, b)] }

def deliver (s : Sleepers) : Sleepers :=
  { s with pipe := s.pipe.consume, delivered := s.delivered ++ [s.pipe.next] }

/-- `pipewrite`, one round of its loops up to the test of the `if`: the `for` has ended,
the pipe is full, or a byte is stored. -/
def writeTest (s : Sleepers) (p : Pid) (addr : List UInt8) (i : ℕ) : Sleepers :=
  match addr[i]? with
  | none => s.setStatus p (.wakeup .nread)
  | some b =>
      if s.pipe.full then s.setStatus p (.testKilled (.write addr i))
      else (s.store p b).setStatus p (.test (.write addr (i + 1)))

/-- The evaluation of the wait condition, and what follows it if it is false. -/
def test (s : Sleepers) (p : Pid) : Caller → Sleepers
  | .write addr i => s.writeTest p addr i
  | .read n =>
      if s.pipe.empty ∧ s.pipe.writeopen then s.setStatus p (.testKilled (.read n))
      else s.setStatus p (.copy n)
  | .ticks n ticks0 =>
      if s.ticks - ticks0 < n then s.setStatus p (.testKilled (.ticks n ticks0))
      else s.setStatus p (.leave .ticks)
  | .wait => s

/-- The test of `proc->killed`; for `pipewrite` also of `p->readopen`. -/
def testKilled (s : Sleepers) (p : Pid) : Caller → Sleepers
  | .write addr i =>
      if !s.pipe.readopen ∨ s.killed p then s.setStatus p (.leave .pipe)
      else s.setStatus p (.wakeReaders addr i)
  | .read n =>
      if s.killed p then s.setStatus p (.leave .pipe) else s.setStatus p (.toSleep (.read n))
  | .ticks n ticks0 =>
      if s.killed p then s.setStatus p (.leave .ticks)
      else s.setStatus p (.toSleep (.ticks n ticks0))
  | .wait =>
      if s.killed p then s.setStatus p (.leave .ptable) else s.setStatus p (.suspend .wait)

def copy (s : Sleepers) (p : Pid) : ℕ → Sleepers
  | 0 => s.setStatus p (.wakeup .nwrite)
  | n + 1 =>
      if s.pipe.empty then s.setStatus p (.wakeup .nwrite)
      else s.deliver.setStatus p (.copy n)

/-- The next step of a process, if it can be taken. The scan of `wait` has its own label. -/
def advance (s : Sleepers) (p : Pid) : Option Sleepers :=
  match s.status p with
  | .idle => none
  | .enter c =>
      if s.lock c.lock = none then some ((s.acquire p c.lock).setStatus p (.test c)) else none
  | .test c => if c = .wait then none else some (s.test p c)
  | .testKilled c => some (s.testKilled p c)
  | .wakeReaders addr i =>
      if s.lock .ptable = none then
        some ((s.wakeup .nread).setStatus p (.toSleep (.write addr i)))
      else none
  | .toSleep c =>
      if s.lock .ptable = none then some ((s.acquire p .ptable).setStatus p (.dropLock c))
      else none
  | .dropLock c => some ((s.release c.lock).setStatus p (.suspend c))
  | .suspend c => some (((s.suspend p (c.chan p)).release .ptable).setStatus p (.asleep c))
  | .asleep c =>
      if s.sleeping p = none ∧ s.lock c.lock = none then
        some ((s.acquire p c.lock).setStatus p (.test c))
      else none
  | .copy n => some (s.copy p n)
  | .close w =>
      if s.lock .pipe = none then some ((s.acquire p .pipe).setStatus p (.clear w)) else none
  | .clear w =>
      some ((s.setPipe (s.pipe.close w)).setStatus p (.wakeup (if w then .nread else .nwrite)))
  | .wakeup c =>
      if s.lock .ptable = none then some ((s.wakeup c).setStatus p (.leave .pipe)) else none
  | .leave l => some ((s.release l).setStatus p .idle)

inductive Label where
  | pipewrite (p : Pid) (addr : List UInt8)
  | piperead (p : Pid) (n : ℕ)
  | pipeclose (p : Pid) (writable : Bool)
  | sysSleep (p : Pid) (n : UInt32)
  | wait (p : Pid)
  /-- the next step of a process -/
  | go (p : Pid)
  /-- `wait` looks at the children of the process -/
  | scan (p : Pid) (havekids zombie : Bool)
  | kill (p : Pid)
  /-- a clock tick -/
  | tick
  /-- `wakeup1(parent)` of an exiting child -/
  | childExit (p : Pid)

/-- A step is enabled where the process is at the point of its code where it takes it and
the locks that it acquires are free. -/
def step (s : Sleepers) : Label → Option Sleepers
  | .pipewrite p addr =>
      if s.status p = .idle then
        some ({ s with before := Function.update s.before p (s.storedBy p) }.setStatus p
          (.enter (.write addr 0)))
      else none
  | .piperead p n =>
      if s.status p = .idle then some (s.setStatus p (.enter (.read n))) else none
  | .pipeclose p w => if s.status p = .idle then some (s.setStatus p (.close w)) else none
  | .sysSleep p n =>
      -- `ticks0 = ticks` is the first thing done under `tickslock`
      if s.status p = .idle ∧ s.lock .ticks = none then
        some ((s.acquire p .ticks).setStatus p (.test (.ticks n s.ticks)))
      else none
  | .wait p => if s.status p = .idle then some (s.setStatus p (.enter .wait)) else none
  | .go p => s.advance p
  | .scan p havekids zombie =>
      if s.status p = .test .wait then
        if zombie ∨ !havekids then some (s.setStatus p (.leave .ptable))
        else some (s.setStatus p (.testKilled .wait))
      else none
  | .kill p => if s.lock .ptable = none then some (s.kill p) else none
  | .tick =>
      if s.lock .ticks = none ∧ s.lock .ptable = none then
        some ({ s with ticks := s.ticks + 1 }.wakeup .ticks)
      else none
  | .childExit p => if s.lock .ptable = none then some (s.wakeup (.proc p)) else none

/-! ### What one step can do -/

/-- What each label does, and where it is enabled. -/
inductive Took (s : Sleepers) : Label → Sleepers → Prop where
  | pipewrite {p addr} (hp : s.status p = .idle) : Took s (.pipewrite p addr)
      ({ s with before := Function.update s.before p (s.storedBy p) }.setStatus p
        (.enter (.write addr 0)))
  | piperead {p n} (hp : s.status p = .idle) :
      Took s (.piperead p n) (s.setStatus p (.enter (.read n)))
  | pipeclose {p w} (hp : s.status p = .idle) : Took s (.pipeclose p w) (s.setStatus p (.close w))
  | sysSleep {p n} (hp : s.status p = .idle) (hl : s.lock .ticks = none) :
      Took s (.sysSleep p n) ((s.acquire p .ticks).setStatus p (.test (.ticks n s.ticks)))
  | wait {p} (hp : s.status p = .idle) : Took s (.wait p) (s.setStatus p (.enter .wait))
  | enter {p c} (hp : s.status p = .enter c) (hl : s.lock c.lock = none) :
      Took s (.go p) ((s.acquire p c.lock).setStatus p (.test c))
  | test {p c} (hp : s.status p = .test c) (hc : c ≠ .wait) : Took s (.go p) (s.test p c)
  | testKilled {p c} (hp : s.status p = .testKilled c) : Took s (.go p) (s.testKilled p c)
  | wakeReaders {p addr i} (hp : s.status p = .wakeReaders addr i) (hl : s.lock .ptable = none) :
      Took s (.go p) ((s.wakeup .nread).setStatus p (.toSleep (.write addr i)))
  | toSleep {p c} (hp : s.status p = .toSleep c) (hl : s.lock .ptable = none) :
      Took s (.go p) ((s.acquire p .ptable).setStatus p (.dropLock c))
  | dropLock {p c} (hp : s.status p = .dropLock c) :
      Took s (.go p) ((s.release c.lock).setStatus p (.suspend c))
  | suspend {p c} (hp : s.status p = .suspend c) :
      Took s (.go p) (((s.suspend p (c.chan p)).release .ptable).setStatus p (.asleep c))
  | asleep {p c} (hp : s.status p = .asleep c) (hw : s.sleeping p = none)
      (hl : s.lock c.lock = none) : Took s (.go p) ((s.acquire p c.lock).setStatus p (.test c))
  | copy {p n} (hp : s.status p = .copy n) : Took s (.go p) (s.copy p n)
  | close {p w} (hp : s.status p = .close w) (hl : s.lock .pipe = none) :
      Took s (.go p) ((s.acquire p .pipe).setStatus p (.clear w))
  | clear {p w} (hp : s.status p = .clear w) : Took s (.go p)
      ((s.setPipe (s.pipe.close w)).setStatus p (.wakeup (if w then .nread else .nwrite)))
  | wakeup {p c} (hp : s.status p = .wakeup c) (hl : s.lock .ptable = none) :
      Took s (.go p) ((s.wakeup c).setStatus p (.leave .pipe))
  | leave {p l} (hp : s.status p = .leave l) : Took s (.go p) ((s.release l).setStatus p .idle)
  | reap {p k z} (hp : s.status p = .test .wait) (hz : z = true ∨ k = false) :
      Took s (.scan p k z) (s.setStatus p (.leave .ptable))
  | scan {p k z} (hp : s.status p = .test .wait) (hz : ¬ (z = true ∨ k = false)) :
      Took s (.scan p k z) (s.setStatus p (.testKilled .wait))
  | kill {p} (hl : s.lock .ptable = none) : Took s (.kill p) (s.kill p)
  | tick (hl : s.lock .ticks = none) (hl' : s.lock .ptable = none) :
      Took s .tick ({ s with ticks := s.ticks + 1 }.wakeup .ticks)
  | childExit {p} (hl : s.lock .ptable = none) : Took s (.childExit p) (s.wakeup (.proc p))

variable {s t : Sleepers} {l : Label}

theorem advance_took {p : Pid} (hl : s.advance p = some t) : Took s (.go p) t := by
  unfold advance at hl
  cases hst : s.status p with
  | idle => simp [hst] at hl
  | enter c =>
      simp only [hst, Option.ite_none_right_eq_some, Option.some.injEq] at hl
      exact hl.2 ▸ .enter hst hl.1
  | test c =>
      simp only [hst, Option.ite_none_left_eq_some, Option.some.injEq] at hl
      exact hl.2 ▸ .test hst hl.1
  | testKilled c =>
      simp only [hst, Option.some.injEq] at hl
      exact hl ▸ .testKilled hst
  | wakeReaders addr i =>
      simp only [hst, Option.ite_none_right_eq_some, Option.some.injEq] at hl
      exact hl.2 ▸ .wakeReaders hst hl.1
  | toSleep c =>
      simp only [hst, Option.ite_none_right_eq_some, Option.some.injEq] at hl
      exact hl.2 ▸ .toSleep hst hl.1
  | dropLock c =>
      simp only [hst, Option.some.injEq] at hl
      exact hl ▸ .dropLock hst
  | suspend c =>
      simp only [hst, Option.some.injEq] at hl
      exact hl ▸ .suspend hst
  | asleep c =>
      simp only [hst, Option.ite_none_right_eq_some, Option.some.injEq] at hl
      exact hl.2 ▸ .asleep hst hl.1.1 hl.1.2
  | copy n =>
      simp only [hst, Option.some.injEq] at hl
      exact hl ▸ .copy hst
  | close w =>
      simp only [hst, Option.ite_none_right_eq_some, Option.some.injEq] at hl
      exact hl.2 ▸ .close hst hl.1
  | clear w =>
      simp only [hst, Option.some.injEq] at hl
      exact hl ▸ .clear hst
  | wakeup c =>
      simp only [hst, Option.ite_none_right_eq_some, Option.some.injEq] at hl
      exact hl.2 ▸ .wakeup hst hl.1
  | leave l =>
      simp only [hst, Option.some.injEq] at hl
      exact hl ▸ .leave hst

theorem step_took (hl : step s l = some t) : Took s l t := by
  cases l with
  | pipewrite p addr =>
      simp only [step, Option.ite_none_right_eq_some, Option.some.injEq] at hl
      exact hl.2 ▸ .pipewrite hl.1
  | piperead p n =>
      simp only [step, Option.ite_none_right_eq_some, Option.some.injEq] at hl
      exact hl.2 ▸ .piperead hl.1
  | pipeclose p w =>
      simp only [step, Option.ite_none_right_eq_some, Option.some.injEq] at hl
      exact hl.2 ▸ .pipeclose hl.1
  | sysSleep p n =>
      simp only [step, Option.ite_none_right_eq_some, Option.some.injEq] at hl
      exact hl.2 ▸ .sysSleep hl.1.1 hl.1.2
  | wait p =>
      simp only [step, Option.ite_none_right_eq_some, Option.some.injEq] at hl
      exact hl.2 ▸ .wait hl.1
  | go p => exact advance_took hl
  | scan p k z =>
      simp only [step, Option.ite_none_right_eq_some] at hl
      obtain ⟨hst, hl⟩ := hl
      split at hl
      · rename_i hz
        exact Option.some.inj hl ▸ .reap hst (by simpa using hz)
      · rename_i hz
        exact Option.some.inj hl ▸ .scan hst (by simpa using hz)
  | kill p =>
      simp only [step, Option.ite_none_right_eq_some, Option.some.injEq] at hl
      exact hl.2 ▸ .kill hl.1
  | tick =>
      simp only [step, Option.ite_none_right_eq_some, Option.some.injEq] at hl
      exact hl.2 ▸ .tick hl.1.1 hl.1.2
  | childExit p =>
      simp only [step, Option.ite_none_right_eq_some, Option.some.injEq] at hl
      exact hl.2 ▸ .childExit hl.1

end Sleepers

end Xv6
