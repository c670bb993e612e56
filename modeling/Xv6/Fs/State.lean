import Xv6.Disk.Block
import Xv6.Inode.Icache

/-!
# The state of the file system

The state that the file-system calls of the processes work on, one call at a time. The
disk is seen through the buffer cache and by its regions: the on-disk inodes, the bits
of the bitmap and the contents of the blocks that hold data. Every inode is on
`ROOTDEV`. The log appears as its counter of operations and its header, with the trace
of what the calls did to it.

A computation runs on the state and returns a value, unless it stops: in a panic, or
asleep for good on an inode that the process has locked itself.
-/

namespace Xv6

def NDEV : ℤ := 10

def NFILE : ℕ := 100

def ROOTINO : ℕ := 1

instance : NeZero NFILE := ⟨by decide⟩

structure FsDisk where
  sb : Superblock
  dinode : ℕ → Dinode
  bitmap : ℕ → Bool
  data : ℕ → Block

inductive Event where
  | beginOp
  | endOp
  | logWrite (sector : ℕ)
  deriving DecidableEq

/-- The log: `outstanding`, the sectors of the header, and all that was done to it. -/
structure FsLog where
  outstanding : ℕ
  lh : List ℕ
  trace : List Event

/-- `enum { FD_NONE, FD_PIPE, FD_INODE }`. -/
inductive FdType where
  | none
  | pipe
  | inode
  deriving DecidableEq

structure File where
  type : FdType
  /-- reference count -/
  ref : ℤ
  readable : Bool
  writable : Bool
  pipe : ℕ
  ip : Fin NINODE
  off : ℕ

/-- The states of a slot of `ptable` that matter to the file system. -/
inductive ProcState where
  | unused
  | live
  | zombie
  deriving DecidableEq

/-- The fields of a process that concern files. `cwd` is `0` unless the process is
live. -/
structure Proc where
  state : ProcState
  /-- open files -/
  ofile : Fin NOFILE → Option (Fin NFILE)
  /-- current directory -/
  cwd : Fin NINODE

structure User where
  ftable : Fin NFILE → File
  proc : Fin NPROC → Proc

/-- The answers of what is not in the file system: the devices and the pipes. -/
structure Io where
  /-- `devsw[major].read` and what it stores -/
  devread : ℤ → Option (ℕ → ℤ × List UInt8)
  /-- `devsw[major].write` -/
  devwrite : ℤ → Option (List UInt8 → ℤ)
  piperead : ℕ → ℤ → ℤ
  pipewrite : ℕ → ℤ → ℤ

structure Fs where
  disk : FsDisk
  icache : Icache
  log : FsLog
  user : User
  io : Io

/-- Why a call does not return. -/
inductive Stop where
  | panic (e : Panic)
  /-- asleep on an inode locked by the process itself -/
  | asleep
  deriving DecidableEq

abbrev FsM := StateT Fs (Except Stop)

namespace Fs

def setDinode (s : Fs) (inum : ℕ) (d : Dinode) : Fs :=
  { s with disk := { s.disk with dinode := Function.update s.disk.dinode inum d } }

def setBit (s : Fs) (b : ℕ) (v : Bool) : Fs :=
  { s with disk := { s.disk with bitmap := Function.update s.disk.bitmap b v } }

def setData (s : Fs) (b : ℕ) (x : Block) : Fs :=
  { s with disk := { s.disk with data := Function.update s.disk.data b x } }

def setIp (s : Fs) (i : Fin NINODE) (x : Inode) : Fs :=
  { s with icache := Function.update s.icache i x }

def setFile (s : Fs) (f : Fin NFILE) (x : File) : Fs :=
  { s with user := { s.user with ftable := Function.update s.user.ftable f x } }

def setProc (s : Fs) (p : Fin NPROC) (x : Proc) : Fs :=
  { s with user := { s.user with proc := Function.update s.user.proc p x } }

end Fs

namespace FsM

def panic {α : Type} (e : Panic) : FsM α := throw (.panic e)

def asleep {α : Type} : FsM α := throw .asleep

/-- The entry that a pointer to an inode points to. -/
def ip (i : Fin NINODE) : FsM Inode := do return (← get).icache i

def setIp (i : Fin NINODE) (x : Inode) : FsM Unit := modify (·.setIp i x)

end FsM

namespace FsLog

/-- `begin_op`, when the log has room. -/
def beginOp (l : FsLog) : FsLog :=
  { l with outstanding := l.outstanding + 1, trace := l.trace ++ [.beginOp] }

/-- `end_op`: the last operation commits. -/
def endOp (l : FsLog) : FsLog where
  outstanding := l.outstanding - 1
  lh := if l.outstanding - 1 = 0 then [] else l.lh
  trace := l.trace ++ [.endOp]

/-- The update of the header by `log_write`. -/
def write (l : FsLog) (sector : ℕ) : FsLog :=
  { l with
    lh := if sector ∈ l.lh then l.lh else l.lh ++ [sector],
    trace := l.trace ++ [.logWrite sector] }

end FsLog

namespace FsM

def beginOp : FsM Unit := modify fun s => { s with log := s.log.beginOp }

def endOp : FsM Unit := modify fun s => { s with log := s.log.endOp }

/-- `log_write`, on the buffer of the sector. -/
def logWrite (sector : ℕ) : FsM Unit := do
  let s ← get
  if s.log.lh.length ≥ LOGSIZE ∨ s.log.lh.length + 1 ≥ s.disk.sb.nlog then panic .tooBig
  else if s.log.outstanding < 1 then panic .outsideTrans
  else set { s with log := s.log.write sector }

end FsM

end Xv6
