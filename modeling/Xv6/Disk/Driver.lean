import Xv6.Cache.Bcache
import Xv6.Foundation.Chain
import Xv6.Foundation.Run

/-!
# The two disk drivers

`iderw` of `memide.c` as a function, and `iderw` and `ideintr` of `ide.c` as steps of any
number of processes, of the interrupt handler and of the drive. A step is what is done between
two points where another party can be seen; what is done under `idelock` is cut into one step
for each access to the queue or to the drive.

`sleep` holds `ptable.lock` from before the release of `idelock` up to the switch, and `wakeup`
takes it, so the release and the falling asleep are one step. The drive makes no errors, and
raises one interrupt for each command that it finishes.
-/

namespace Xv6

open Foundation

namespace Memide

def disksize (size : UInt32) : ℕ := size.toNat / 512

abbrev Disk := ℕ → Block

/-- `iderw` of `memide.c`; nothing where it panics. -/
def iderw (size : UInt32) (memdisk : Disk) (b : Buf) : Option (Buf × Disk) :=
  if !b.busy then none
  else if b.valid && !b.dirty then none
  else if b.dev ≠ 1 then none
  else if b.sector ≥ disksize size then none
  else if b.dirty then
    some ({ b with dirty := false, valid := true }, Function.update memdisk b.sector b.data)
  else some ({ b with data := memdisk b.sector, valid := true }, memdisk)

/-- Calls of `iderw` one after another: the buffers after them and the disk. -/
def calls (size : UInt32) : Disk → List Buf → Option (List Buf × Disk)
  | memdisk, [] => some ([], memdisk)
  | memdisk, b :: bs => do
      let (b, memdisk) ← iderw size memdisk b
      let (bs, memdisk) ← calls size memdisk bs
      return (b :: bs, memdisk)

end Memide

namespace Ide

/-- The address of a `struct buf`. -/
abbrev BufPtr := ℕ

/-- What `idestart` gives to the drive: the place, and the data of a write. -/
structure Command where
  place : ℕ × ℕ
  data : Option Block

inductive Drive where
  | ready
  | busy (c : Command)
  /-- a command is finished; the data of a read can be taken -/
  | done (data : Option Block)

/-- Who holds `idelock`. -/
inductive Holder where
  | proc (p : Pid)
  | intr
  deriving DecidableEq

/-- Where a process is in `iderw` before its buffer is in the queue. -/
inductive Arriving where
  /-- before `acquire(&idelock)` -/
  | enter
  /-- before `b->qnext = 0` -/
  | append
  /-- in the `for` loop, with `pp`; nothing is `&idequeue` -/
  | walk (pp : Option BufPtr)
  deriving DecidableEq

/-- Where a process is in `iderw` after that. -/
inductive Waiting where
  /-- before `if(idequeue == b)` -/
  | start
  /-- before the test of the `while` loop -/
  | test
  /-- in `sleep`, sleeping, or woken and before `acquire(&idelock)` -/
  | asleep
  /-- before the last `release(&idelock)` -/
  | leave
  deriving DecidableEq

/-- Where a process is; a buffer that has been queued has the number of its request. -/
inductive At where
  | idle
  | arriving (pc : Arriving) (b : BufPtr)
  | waiting (pc : Waiting) (b : BufPtr) (n : ℕ)
  deriving DecidableEq

inductive Handler where
  | idle
  /-- before `acquire(&idelock)` -/
  | enter
  /-- before `b = idequeue` -/
  | pop
  /-- before the data is read, if needed -/
  | data (b : BufPtr)
  /-- before the flags are set -/
  | flags (b : BufPtr)
  /-- before `if(idequeue != 0)` -/
  | next
  /-- before `release(&idelock)` -/
  | leave
  deriving DecidableEq

/-- A request: the buffer, and what was in it when it was queued. -/
structure Request where
  ptr : BufPtr
  buf : Buf

structure Driver where
  idelock : Option Holder
  idequeue : Option BufPtr
  qnext : BufPtr → Option BufPtr
  buf : BufPtr → Buf
  havedisk1 : Bool
  disk : Disk
  drive : Drive
  /-- an interrupt is pending -/
  irq : Bool
  status : Pid → At
  /-- the process whose call has the buffer -/
  owner : BufPtr → Option Pid
  handler : Handler
  /-- the channel of a sleeping process -/
  sleeping : Pid → Option BufPtr
  /-- the requests in the order in which they were queued -/
  arrivals : List Request
  /-- the commands that the drive has finished -/
  executed : List Command
  /-- number of requests that have been taken from the queue -/
  popped : ℕ

def command (b : Buf) : Command :=
  ⟨address b.dev b.sector, if b.dirty then some b.data else none⟩

namespace Driver

/-- An idle driver with these buffers and disks. -/
def init (buf : BufPtr → Buf) (qnext : BufPtr → Option BufPtr) (disk : Disk) : Driver where
  idelock := none
  idequeue := none
  qnext := qnext
  buf := buf
  havedisk1 := true
  disk := disk
  drive := .ready
  irq := false
  status := fun _ => .idle
  owner := fun _ => none
  handler := .idle
  sleeping := fun _ => none
  arrivals := []
  executed := []
  popped := 0

def setStatus (s : Driver) (p : Pid) (a : At) : Driver :=
  { s with status := Function.update s.status p a }

def setBuf (s : Driver) (b : BufPtr) (x : Buf) : Driver :=
  { s with buf := Function.update s.buf b x }

/-- `idestart`; `idewait` does not end while the drive is busy. -/
def idestart (s : Driver) (b : BufPtr) : Option Driver :=
  match s.drive with
  | .busy _ => none
  | _ => some { s with drive := .busy (command (s.buf b)) }

def deref (s : Driver) : Option BufPtr → Option BufPtr
  | none => s.idequeue
  | some c => s.qnext c

def assign (s : Driver) (pp : Option BufPtr) (b : BufPtr) : Driver :=
  match pp with
  | none => { s with idequeue := some b }
  | some c => { s with qnext := Function.update s.qnext c (some b) }

/-- `b` is in the queue, and the request gets the next number. -/
def insert (s : Driver) (p : Pid) (pp : Option BufPtr) (b : BufPtr) : Driver :=
  let t : Driver := { s.assign pp b with arrivals := s.arrivals ++ [⟨b, s.buf b⟩] }
  t.setStatus p (.waiting .start b s.arrivals.length)

def wakeup (s : Driver) (b : BufPtr) : Driver :=
  { s with sleeping := fun q => if s.sleeping q = some b then none else s.sleeping q }

/-- The next step of a process in `iderw`, before its buffer is in the queue. -/
def arrive (s : Driver) (p : Pid) (b : BufPtr) : Arriving → Option Driver
  | .enter =>
      if s.idelock = none then
        some ({ s with idelock := some (.proc p) }.setStatus p (.arriving .append b))
      else none
  | .append =>
      some ({ s with qnext := Function.update s.qnext b none }.setStatus p
        (.arriving (.walk none) b))
  | .walk pp =>
      match s.deref pp with
      | some c => some (s.setStatus p (.arriving (.walk (some c)) b))
      | none => some (s.insert p pp b)

/-- The next step of a process in `iderw`, after that. -/
def wait (s : Driver) (p : Pid) (b : BufPtr) (n : ℕ) : Waiting → Option Driver
  | .start =>
      if s.idequeue = some b then
        (s.idestart b).map fun t => t.setStatus p (.waiting .test b n)
      else some (s.setStatus p (.waiting .test b n))
  | .test =>
      if (s.buf b).valid && !(s.buf b).dirty then some (s.setStatus p (.waiting .leave b n))
      else
        some ({ s with
          idelock := none, sleeping := Function.update s.sleeping p (some b) }.setStatus p
            (.waiting .asleep b n))
  | .asleep =>
      if s.sleeping p = none ∧ s.idelock = none then
        some ({ s with idelock := some (.proc p) }.setStatus p (.waiting .test b n))
      else none
  | .leave =>
      some ({ s with
        idelock := none, owner := Function.update s.owner b none }.setStatus p .idle)

/-- The next step of `ideintr`. -/
def ideintr (s : Driver) : Option Driver :=
  match s.handler with
  | .idle => none
  | .enter =>
      if s.idelock = none then some { s with idelock := some .intr, handler := .pop } else none
  | .pop =>
      match s.idequeue with
      | none => some { s with handler := .leave }
      | some b =>
          some { s with idequeue := s.qnext b, handler := .data b, popped := s.popped + 1 }
  | .data b =>
      if (s.buf b).dirty then some { s with handler := .flags b }
      else
        match s.drive with
        | .busy _ => none
        | .done (some d) => some { s.setBuf b { s.buf b with data := d } with handler := .flags b }
        | _ => some { s with handler := .flags b }
  | .flags b =>
      some { (s.setBuf b { s.buf b with valid := true, dirty := false }).wakeup b with
        handler := .next }
  | .next =>
      match s.idequeue with
      | none => some { s with handler := .leave }
      | some b => (s.idestart b).map fun t => { t with handler := .leave }
  | .leave => some { s with idelock := none, handler := .idle }

def finish (s : Driver) : Option Driver :=
  match s.drive with
  | .busy c =>
      some { s with
        disk := match c.data with
          | some d => Function.update s.disk c.place d
          | none => s.disk
        drive := .done (match c.data with
          | some _ => none
          | none => some (s.disk c.place))
        irq := true
        executed := s.executed ++ [c] }
  | _ => none

inductive Label where
  /-- a process calls `iderw` for a buffer in which it has put `x` -/
  | iderw (p : Pid) (b : BufPtr) (x : Buf)
  /-- the next step of a process -/
  | go (p : Pid)
  /-- the interrupt is taken -/
  | interrupt
  /-- the next step of the handler -/
  | handle
  /-- the drive finishes a command -/
  | finish

/-- A step. A call is made with a buffer that no other call has, for a sector of disk 1. -/
def step (size : UInt32) (s : Driver) : Label → Option Driver
  | .iderw p b x =>
      if s.status p = .idle ∧ s.owner b = none ∧ x.iderwPanic s.havedisk1 = none ∧
          x.dev = 1 ∧ x.sector < Memide.disksize size then
        some (({ s with owner := Function.update s.owner b (some p) }.setBuf b x).setStatus p
          (.arriving .enter b))
      else none
  | .go p =>
      match s.status p with
      | .idle => none
      | .arriving pc b => s.arrive p b pc
      | .waiting pc b n => s.wait p b n pc
  | .interrupt =>
      if s.irq ∧ s.handler = .idle then some { s with irq := false, handler := .enter } else none
  | .handle => s.ideintr
  | .finish => s.finish

end Driver

end Ide

end Xv6
