import Mathlib.Tactic
import Mathlib.Logic.Function.Basic

/-!
# Constants and panics

The constants of `param.h` and `fs.h` and the superblock that `mkfs` writes.
A call of `panic` stops the kernel; it is modelled by a value of `Panic`, one
constructor for each call site that the model contains, with the text of the
call in its docstring.
-/

namespace Xv6

/-- Maximum number of blocks any file-system operation writes (`param.h`). -/
def MAXOPBLOCKS : ℕ := 10

/-- Maximum number of data sectors in the on-disk log (`param.h`). -/
def LOGSIZE : ℕ := MAXOPBLOCKS * 3

/-- Size of the disk block cache (`param.h`). -/
def NBUF : ℕ := MAXOPBLOCKS * 3

instance : NeZero NBUF := ⟨by decide⟩

def NPROC : ℕ := 64

instance : NeZero NPROC := ⟨by decide⟩

def NOFILE : ℕ := 16

instance : NeZero NOFILE := ⟨by decide⟩

/-- Device number of the file-system root disk (`param.h`). -/
def ROOTDEV : ℕ := 1

def BSIZE : ℕ := 512

/-- Inodes per block (`fs.h`); an on-disk inode has 64 bytes. -/
def IPB : ℕ := BSIZE / 64

def BPB : ℕ := BSIZE * 8

/-- Block containing inode `i` (`fs.h`). -/
def IBLOCK (i : ℕ) : ℕ := i / IPB + 2

/-- Block containing the bit for block `b` (`fs.h`). -/
def BBLOCK (b ninodes : ℕ) : ℕ := b / BPB + ninodes / IPB + 3

/-- A process, identified by its slot in `ptable`; any number of them. -/
abbrev Pid := ℕ

structure Superblock where
  /-- size of the file-system image, in blocks -/
  size : ℕ
  /-- number of data blocks -/
  nblocks : ℕ
  /-- number of inodes -/
  ninodes : ℕ
  /-- number of log blocks -/
  nlog : ℕ
  deriving DecidableEq

/-- The superblock written by `mkfs`, with `nlog = LOGSIZE`. -/
def mkfsSuperblock : Superblock where
  size := 1024
  nblocks := 995 - LOGSIZE
  ninodes := 200
  nlog := LOGSIZE

inductive Panic where
  /-- `log_write`: "too big a transaction" -/
  | tooBig
  /-- `log_write`: "log_write outside of trans" -/
  | outsideTrans
  /-- `end_op`: "log.committing" -/
  | logCommitting
  /-- `bget`: "bget: no buffers" -/
  | noBuffers
  /-- `bwrite`: "bwrite" -/
  | bwrite
  /-- `brelse`: "brelse" -/
  | brelse
  /-- `iderw`: "iderw: buf not busy" -/
  | iderwNotBusy
  /-- `iderw`: "iderw: nothing to do" -/
  | iderwNothing
  /-- `iderw`: "iderw: ide disk 1 not present" -/
  | iderwNoDisk1
  /-- `ialloc`: "ialloc: no inodes" -/
  | iallocNoInodes
  /-- `iget`: "iget: no inodes" -/
  | igetNoInodes
  /-- `ilock`: "ilock" -/
  | ilock
  /-- `ilock`: "ilock: no type" -/
  | ilockNoType
  /-- `iunlock`: "iunlock" -/
  | iunlock
  /-- `iput`: "iput busy" -/
  | iputBusy
  /-- `balloc`: "balloc: out of blocks" -/
  | ballocOutOfBlocks
  /-- `bfree`: "freeing free block" -/
  | freeingFree
  /-- `bmap`: "bmap: out of range" -/
  | bmapOutOfRange
  /-- `dirlookup`: "dirlookup not DIR" -/
  | dirlookupNotDir
  /-- `dirlookup`, `dirlink`: "dirlink read" -/
  | dirlinkRead
  /-- `dirlink`: "dirlink" -/
  | dirlink
  /-- `isdirempty`: "isdirempty: readi" -/
  | isdiremptyReadi
  /-- `sys_unlink`: "unlink: nlink < 1" -/
  | unlinkNlink
  /-- `sys_unlink`: "unlink: writei" -/
  | unlinkWritei
  /-- `create`: "create dots" -/
  | createDots
  /-- `create`: "create: dirlink" -/
  | createDirlink
  /-- `filedup`: "filedup" -/
  | filedup
  /-- `fileclose`: "fileclose" -/
  | fileclose
  /-- `fileread`: "fileread" -/
  | fileread
  /-- `filewrite`: "filewrite" -/
  | filewrite
  /-- `filewrite`: "short filewrite" -/
  | shortFilewrite
  /-- `loaduvm`: "loaduvm: addr must be page aligned" -/
  | loaduvmAligned
  /-- `loaduvm`: "loaduvm: address should exist" -/
  | loaduvmAddress
  /-- `exit`: "init exiting" -/
  | initExiting
  /-- `exit`: "zombie exit" -/
  | zombieExit
  /-- `acquire`: "acquire" -/
  | acquire
  /-- `release`: "release" -/
  | release
  /-- `popcli`: "popcli - interruptible" -/
  | popcliInterruptible
  /-- `popcli`: "popcli" -/
  | popcli
  /-- `sched`: "sched ptable.lock" -/
  | schedPtableLock
  /-- `sched`: "sched locks" -/
  | schedLocks
  /-- `sched`: "sched running" -/
  | schedRunning
  /-- `sched`: "sched interruptible" -/
  | schedInterruptible
  /-- `kfree`, `deallocuvm`: "kfree" -/
  | kfree
  /-- `mappages`: "remap" -/
  | remap
  /-- `setupkvm`: "PHYSTOP too high" -/
  | phystopTooHigh
  /-- `freevm`: "freevm: no pgdir" -/
  | freevmNoPgdir
  /-- `clearpteu`: "clearpteu" -/
  | clearpteu
  /-- `copyuvm`: "copyuvm: pte should exist" -/
  | copyuvmPte
  /-- `copyuvm`: "copyuvm: page not present" -/
  | copyuvmPage
  /-- `inituvm`: "inituvm: more than a page" -/
  | inituvmSize
  /-- `userinit`: "userinit: out of memory?" -/
  | userinitMemory
  deriving DecidableEq

end Xv6
