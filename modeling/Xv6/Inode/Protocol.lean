import Xv6.Foundation.Run
import Xv6.Inode.Icache

/-!
# Processes that use inodes

The critical sections of `iget`, `idup`, `ilock`, `iunlock`, `iput` and `ialloc` as
atomic steps of any number of processes. `icache.lock` is held within a step only:
`iput` gives it up while it frees an inode, and `ilock` while it reads one. An on-disk
inode is read and written under the lock of its block, so each such access is a step
too; `disk` is the newest contents.

The processes follow the protocol at the head of the inode code. A reference belongs
to a holder: a process, or an open file that several processes share. A process locks
an inode through a reference that some holder has, changes it under the lock, updates
it before it unlocks it, and does not change its type; and no holder gives up a
reference through which a process is using the inode.
-/

namespace Xv6

/-- Whoever owns references: a process, or an open file. -/
abbrev Holder := ℕ

/-- How far `iput` has come with freeing an inode. -/
inductive FreeStage where
  /-- in `itrunc`, before the blocks are given back -/
  | trunc
  /-- in `itrunc`, before its `iupdate` -/
  | truncUpdate
  /-- before `ip->type = 0` -/
  | clear
  /-- before the `iupdate` that frees the on-disk inode -/
  | freeUpdate
  /-- before the second critical section of `icache.lock` -/
  | finish
  deriving DecidableEq

/-- Where a process is with respect to the functions of the inode cache. -/
inductive InodeStatus where
  | idle
  /-- in `ilock`, about to test `I_BUSY` -/
  | waiting (i : Fin NINODE)
  /-- in `ilock`, SLEEPING on the inode -/
  | sleeping (i : Fin NINODE)
  /-- in `ilock`, `I_BUSY` is set -/
  | loading (i : Fin NINODE)
  /-- in `iput`, freeing the inode -/
  | freeing (i : Fin NINODE) (stage : FreeStage)
  /-- in `ialloc`, about to look at an on-disk inode -/
  | scanning (h : Holder) (dev type inum : ℕ)
  /-- in `ialloc`, about to call `iget` -/
  | allocated (h : Holder) (dev inum : ℕ)
  deriving DecidableEq

/-- The inode cache, the on-disk inodes and the processes. -/
structure InodeSys where
  icache : Icache
  disk : ℕ → ℕ → Dinode
  ninodes : ℕ
  status : Pid → InodeStatus
  panicked : Option Panic
  /-- who has references to an entry -/
  refs : Fin NINODE → List Holder
  /-- how many references are being given up by an `iput` that frees the inode -/
  putting : Fin NINODE → ℕ
  /-- the processes between the call of `ilock` and `iunlock`, each with the holder of
  the reference that it relies on -/
  users : Fin NINODE → List (Pid × Holder)
  /-- the process has set `I_BUSY` and has not cleared it -/
  holds : Pid → Fin NINODE → Bool
  /-- changed under the lock, and not updated since -/
  changed : Fin NINODE → Bool
  /-- allocated, and not yet returned by an `ilock` -/
  fresh : ℕ → ℕ → Option Dinode

namespace InodeSys

/-- The state after `iinit`. -/
def init (ninodes : ℕ) (disk : ℕ → ℕ → Dinode) : InodeSys where
  icache := fun _ => ⟨0, 0, 0, false, false, Dinode.zero⟩
  disk := disk
  ninodes := ninodes
  status := fun _ => .idle
  panicked := none
  refs := fun _ => []
  putting := fun _ => 0
  users := fun _ => []
  holds := fun _ _ => false
  changed := fun _ => false
  fresh := fun _ _ => none

abbrev ip (s : InodeSys) (i : Fin NINODE) : Inode := s.icache i

/-- The on-disk inode that the entry `i` is a copy of. -/
def dip (s : InodeSys) (i : Fin NINODE) : Dinode := s.disk (s.ip i).dev (s.ip i).inum

def setStatus (s : InodeSys) (p : Pid) (st : InodeStatus) : InodeSys :=
  { s with status := Function.update s.status p st }

def setIp (s : InodeSys) (i : Fin NINODE) (x : Inode) : InodeSys :=
  { s with icache := Function.update s.icache i x }

def setDisk (s : InodeSys) (dev inum : ℕ) (d : Dinode) : InodeSys :=
  { s with disk := Function.update s.disk dev (Function.update (s.disk dev) inum d) }

def setFresh (s : InodeSys) (dev inum : ℕ) (d : Option Dinode) : InodeSys :=
  { s with fresh := Function.update s.fresh dev (Function.update (s.fresh dev) inum d) }

def setHolds (s : InodeSys) (p : Pid) (i : Fin NINODE) (b : Bool) : InodeSys :=
  { s with holds := Function.update s.holds p (Function.update (s.holds p) i b) }

def setChanged (s : InodeSys) (i : Fin NINODE) (b : Bool) : InodeSys :=
  { s with changed := Function.update s.changed i b }

def setRefs (s : InodeSys) (i : Fin NINODE) (hs : List Holder) : InodeSys :=
  { s with refs := Function.update s.refs i hs }

def setUsers (s : InodeSys) (i : Fin NINODE) (us : List (Pid × Holder)) : InodeSys :=
  { s with users := Function.update s.users i us }

def panic (s : InodeSys) (e : Panic) : InodeSys := { s with panicked := some e }

def wakeup (s : InodeSys) (i : Fin NINODE) : InodeSys :=
  { s with status := fun q => if s.status q = .sleeping i then .waiting i else s.status q }

def iget (s : InodeSys) (h : Holder) (dev inum : ℕ) : InodeSys :=
  match s.icache.iget dev inum with
  | some (i, icache) => { s with icache := icache }.setRefs i (h :: s.refs i)
  | none => s.panic .igetNoInodes

def idup (s : InodeSys) (h : Holder) (i : Fin NINODE) : InodeSys :=
  (s.setIp i { s.ip i with ref := (s.ip i).ref + 1 }).setRefs i (h :: s.refs i)

/-- `ilock`, up to the critical section. -/
def ilock (s : InodeSys) (p : Pid) (h : Holder) (i : Fin NINODE) : InodeSys :=
  if (s.ip i).ref < 1 then s.panic .ilock
  else (s.setUsers i ((p, h) :: s.users i)).setStatus p (.waiting i)

/-- `ilock`, one round of the loop. -/
def lock (s : InodeSys) (p : Pid) (i : Fin NINODE) : InodeSys :=
  if (s.ip i).busy then s.setStatus p (.sleeping i)
  else ((s.setIp i { s.ip i with busy := true }).setHolds p i true).setStatus p (.loading i)

/-- `ilock`, after the critical section: read the inode from disk if necessary. -/
def load (s : InodeSys) (p : Pid) (i : Fin NINODE) : InodeSys :=
  if !(s.ip i).valid then
    let s' := s.setIp i { s.ip i with d := s.dip i, valid := true }
    if (s'.ip i).d.type = 0 then s'.panic .ilockNoType
    else (s'.setFresh (s.ip i).dev (s.ip i).inum none).setStatus p .idle
  else (s.setFresh (s.ip i).dev (s.ip i).inum none).setStatus p .idle

def modify (s : InodeSys) (i : Fin NINODE) (d : Dinode) : InodeSys :=
  (s.setIp i { s.ip i with d := d }).setChanged i true

def iupdate (s : InodeSys) (i : Fin NINODE) : InodeSys :=
  (s.setDisk (s.ip i).dev (s.ip i).inum (s.ip i).d).setChanged i false

def iunlock (s : InodeSys) (p : Pid) (i : Fin NINODE) : InodeSys :=
  if !(s.ip i).busy ∨ (s.ip i).ref < 1 then s.panic .iunlock
  else
    (((s.setIp i { s.ip i with busy := false }).setHolds p i false).setUsers i
      ((s.users i).filter fun u => u.1 ≠ p)).wakeup i

/-- `iput`, up to its end or to where it gives up `icache.lock` to free the inode. -/
def iput (s : InodeSys) (p : Pid) (h : Holder) (i : Fin NINODE) : InodeSys :=
  let x := s.ip i
  if x.ref = 1 ∧ x.valid ∧ x.d.nlink = 0 then
    if x.busy then s.panic .iputBusy
    else
      { (((s.setIp i { x with busy := true }).setHolds p i true).setRefs i
          ((s.refs i).erase h)).setStatus p (.freeing i .trunc) with
        putting := Function.update s.putting i (s.putting i + 1) }
  else (s.setIp i { x with ref := x.ref - 1 }).setRefs i ((s.refs i).erase h)

/-- The steps of freeing an inode: `itrunc(ip); ip->type = 0; iupdate(ip);` and the
critical section `ip->flags = 0; wakeup(ip); ip->ref--`. -/
def free (s : InodeSys) (p : Pid) (i : Fin NINODE) : FreeStage → InodeSys
  | .trunc =>
      (s.setIp i { s.ip i with d := { (s.ip i).d with size := 0, addrs := fun _ => 0 } }).setStatus
        p (.freeing i .truncUpdate)
  | .truncUpdate =>
      (s.setDisk (s.ip i).dev (s.ip i).inum (s.ip i).d).setStatus p (.freeing i .clear)
  | .clear =>
      (s.setIp i { s.ip i with d := { (s.ip i).d with type := 0 } }).setStatus
        p (.freeing i .freeUpdate)
  | .freeUpdate =>
      (s.setDisk (s.ip i).dev (s.ip i).inum (s.ip i).d).setStatus p (.freeing i .finish)
  | .finish =>
      { (((s.setIp i { s.ip i with busy := false, valid := false, ref := (s.ip i).ref - 1 }).setHolds
          p i false).setStatus p .idle).wakeup i with
        putting := Function.update s.putting i (s.putting i - 1) }

/-- `ialloc`, one round of the loop. -/
def scan (s : InodeSys) (p : Pid) (h : Holder) (dev type inum : ℕ) : InodeSys :=
  if inum < s.ninodes then
    if (s.disk dev inum).type = 0 then
      ((s.setDisk dev inum (Dinode.fresh type)).setFresh dev inum
        (some (Dinode.fresh type))).setStatus p (.allocated h dev inum)
    else s.setStatus p (.scanning h dev type (inum + 1))
  else s.panic .iallocNoInodes

inductive Label where
  | iget (p : Pid) (h : Holder) (dev inum : ℕ)
  /-- a new reference for `h'`, from one of `h` -/
  | idup (p : Pid) (h h' : Holder) (i : Fin NINODE)
  | ilock (p : Pid) (h : Holder) (i : Fin NINODE)
  | lock (p : Pid)
  | load (p : Pid)
  | modify (p : Pid) (i : Fin NINODE) (d : Dinode)
  | iupdate (p : Pid) (i : Fin NINODE)
  | iunlock (p : Pid) (i : Fin NINODE)
  | iput (p : Pid) (h : Holder) (i : Fin NINODE)
  | free (p : Pid)
  | ialloc (p : Pid) (h : Holder) (dev type : ℕ)
  | scan (p : Pid)
  /-- `ialloc` calls `iget` and returns -/
  | allocIget (p : Pid)
  /-- a sleeper is woken by another `wakeup` on its channel, or by `kill` -/
  | wake (p : Pid)

/-- The holder may give up a reference: it has one, and every process that is using
the inode has a reference left to rely on. -/
def MayPut (s : InodeSys) (h : Holder) (i : Fin NINODE) : Prop :=
  h ∈ s.refs i ∧ ∀ u ∈ s.users i, u.2 ∈ (s.refs i).erase h

instance (s : InodeSys) (h : Holder) (i : Fin NINODE) : Decidable (s.MayPut h i) :=
  inferInstanceAs (Decidable (_ ∧ _))

/-- A step is enabled when the process is at the point of its code where it takes it
and the protocol allows it; nothing is enabled after a panic. -/
def step (s : InodeSys) (l : Label) : Option InodeSys :=
  if s.panicked.isSome then none else
  match l with
  | .iget p h dev inum => if s.status p = .idle then some (s.iget h dev inum) else none
  | .idup p h h' i => if s.status p = .idle ∧ h ∈ s.refs i then some (s.idup h' i) else none
  | .ilock p h i =>
      if s.status p = .idle ∧ h ∈ s.refs i then some (s.ilock p h i) else none
  | .lock p =>
      match s.status p with
      | .waiting i => some (s.lock p i)
      | _ => none
  | .load p =>
      match s.status p with
      | .loading i => some (s.load p i)
      | _ => none
  | .modify p i d =>
      if s.status p = .idle ∧ s.holds p i ∧ d.type = (s.ip i).d.type then some (s.modify i d)
      else none
  | .iupdate p i => if s.status p = .idle ∧ s.holds p i then some (s.iupdate i) else none
  | .iunlock p i =>
      if s.status p = .idle ∧ s.holds p i ∧ s.changed i = false then some (s.iunlock p i)
      else none
  | .iput p h i =>
      if s.status p = .idle ∧ s.MayPut h i then some (s.iput p h i) else none
  | .free p =>
      match s.status p with
      | .freeing i stage => some (s.free p i stage)
      | _ => none
  | .ialloc p h dev type =>
      if s.status p = .idle ∧ type ≠ 0 then some (s.setStatus p (.scanning h dev type 1))
      else none
  | .scan p =>
      match s.status p with
      | .scanning h dev type inum => some (s.scan p h dev type inum)
      | _ => none
  | .allocIget p =>
      match s.status p with
      | .allocated h dev inum => some ((s.iget h dev inum).setStatus p .idle)
      | _ => none
  | .wake p =>
      match s.status p with
      | .sleeping i => some (s.setStatus p (.waiting i))
      | _ => none

/-! ### What one step can do -/

/-- What each label does, and where it is enabled. -/
inductive Took (s : InodeSys) : Label → InodeSys → Prop where
  | iget {p h dev inum} : Took s (.iget p h dev inum) (s.iget h dev inum)
  | idup {p h h' i} (hh : h ∈ s.refs i) : Took s (.idup p h h' i) (s.idup h' i)
  | ilock {p h i} (hp : s.status p = .idle) (hh : h ∈ s.refs i) :
      Took s (.ilock p h i) (s.ilock p h i)
  | lock {p i} (hp : s.status p = .waiting i) : Took s (.lock p) (s.lock p i)
  | load {p i} (hp : s.status p = .loading i) : Took s (.load p) (s.load p i)
  | modify {p i d} (hp : s.status p = .idle) (hi : s.holds p i = true)
      (hd : d.type = (s.ip i).d.type) : Took s (.modify p i d) (s.modify i d)
  | iupdate {p i} (hp : s.status p = .idle) (hi : s.holds p i = true) :
      Took s (.iupdate p i) (s.iupdate i)
  | iunlock {p i} (hp : s.status p = .idle) (hi : s.holds p i = true)
      (hc : s.changed i = false) : Took s (.iunlock p i) (s.iunlock p i)
  | iput {p h i} (hp : s.status p = .idle) (hm : s.MayPut h i) :
      Took s (.iput p h i) (s.iput p h i)
  | free {p i stage} (hp : s.status p = .freeing i stage) : Took s (.free p) (s.free p i stage)
  | ialloc {p h dev type} (hp : s.status p = .idle) (ht : type ≠ 0) :
      Took s (.ialloc p h dev type) (s.setStatus p (.scanning h dev type 1))
  | scan {p h dev type inum} (hp : s.status p = .scanning h dev type inum) :
      Took s (.scan p) (s.scan p h dev type inum)
  | allocIget {p h dev inum} (hp : s.status p = .allocated h dev inum) :
      Took s (.allocIget p) ((s.iget h dev inum).setStatus p .idle)
  | wake {p i} (hp : s.status p = .sleeping i) : Took s (.wake p) (s.setStatus p (.waiting i))

variable {s t : InodeSys} {l : Label}

theorem step_panicked (hl : step s l = some t) : s.panicked = none := by
  unfold step at hl
  split at hl
  · cases hl
  · rename_i hpanic
    simpa using hpanic

theorem step_took (hl : step s l = some t) : Took s l t := by
  have hpanic := step_panicked hl
  cases l with
  | iget p h dev inum =>
      simp only [step, hpanic, Option.isSome_none, Bool.false_eq_true, if_false,
        Option.ite_none_right_eq_some, Option.some.injEq] at hl
      exact hl.2 ▸ .iget
  | idup p h h' i =>
      simp only [step, hpanic, Option.isSome_none, Bool.false_eq_true, if_false,
        Option.ite_none_right_eq_some, Option.some.injEq] at hl
      exact hl.2 ▸ .idup hl.1.2
  | ilock p h i =>
      simp only [step, hpanic, Option.isSome_none, Bool.false_eq_true, if_false,
        Option.ite_none_right_eq_some, Option.some.injEq] at hl
      exact hl.2 ▸ .ilock hl.1.1 hl.1.2
  | modify p i d =>
      simp only [step, hpanic, Option.isSome_none, Bool.false_eq_true, if_false,
        Option.ite_none_right_eq_some, Option.some.injEq] at hl
      exact hl.2 ▸ .modify hl.1.1 hl.1.2.1 hl.1.2.2
  | iupdate p i =>
      simp only [step, hpanic, Option.isSome_none, Bool.false_eq_true, if_false,
        Option.ite_none_right_eq_some, Option.some.injEq] at hl
      exact hl.2 ▸ .iupdate hl.1.1 hl.1.2
  | iunlock p i =>
      simp only [step, hpanic, Option.isSome_none, Bool.false_eq_true, if_false,
        Option.ite_none_right_eq_some, Option.some.injEq] at hl
      exact hl.2 ▸ .iunlock hl.1.1 hl.1.2.1 hl.1.2.2
  | iput p h i =>
      simp only [step, hpanic, Option.isSome_none, Bool.false_eq_true, if_false,
        Option.ite_none_right_eq_some, Option.some.injEq] at hl
      exact hl.2 ▸ .iput hl.1.1 hl.1.2
  | ialloc p h dev type =>
      simp only [step, hpanic, Option.isSome_none, Bool.false_eq_true, if_false,
        Option.ite_none_right_eq_some, Option.some.injEq] at hl
      exact hl.2 ▸ .ialloc hl.1.1 hl.1.2
  | lock p =>
      cases hst : s.status p with
      | waiting i =>
          simp only [step, hpanic, Option.isSome_none, Bool.false_eq_true, if_false, hst,
            Option.some.injEq] at hl
          exact hl ▸ .lock hst
      | _ => simp [step, hpanic, hst] at hl
  | load p =>
      cases hst : s.status p with
      | loading i =>
          simp only [step, hpanic, Option.isSome_none, Bool.false_eq_true, if_false, hst,
            Option.some.injEq] at hl
          exact hl ▸ .load hst
      | _ => simp [step, hpanic, hst] at hl
  | free p =>
      cases hst : s.status p with
      | freeing i stage =>
          simp only [step, hpanic, Option.isSome_none, Bool.false_eq_true, if_false, hst,
            Option.some.injEq] at hl
          exact hl ▸ .free hst
      | _ => simp [step, hpanic, hst] at hl
  | scan p =>
      cases hst : s.status p with
      | scanning h dev type inum =>
          simp only [step, hpanic, Option.isSome_none, Bool.false_eq_true, if_false, hst,
            Option.some.injEq] at hl
          exact hl ▸ .scan hst
      | _ => simp [step, hpanic, hst] at hl
  | allocIget p =>
      cases hst : s.status p with
      | allocated h dev inum =>
          simp only [step, hpanic, Option.isSome_none, Bool.false_eq_true, if_false, hst,
            Option.some.injEq] at hl
          exact hl ▸ .allocIget hst
      | _ => simp [step, hpanic, hst] at hl
  | wake p =>
      cases hst : s.status p with
      | sleeping i =>
          simp only [step, hpanic, Option.isSome_none, Bool.false_eq_true, if_false, hst,
            Option.some.injEq] at hl
          exact hl ▸ .wake hst
      | _ => simp [step, hpanic, hst] at hl

end InodeSys

end Xv6
