import Xv6.Syscall.User

/-!
# `read`, `write`, `fstat` and `pipe`

The functions between `sys_read`, `sys_write`, `sys_fstat`, `sys_pipe` (`sysfile.c`) and
user memory: `file.c`, `readi`, `writei` and `stati` of `fs.c`, `piperead` and
`pipewrite` of `pipe.c`, `consoleread` and `consolewrite` of `console.c`. A loop around
`sleep` makes at most `rounds` tests of its condition; a run that needs more of them ends
asleep. What the calls do to the pipe, the inode and the console is left out where it is
not seen again before the lock is given up.
-/

namespace Xv6

namespace Syscall

/-! ### Pipes -/

/-- The loop of `piperead` around `sleep`. -/
def pipereadWait : ℕ → Pipe → Syscall (Option Pipe)
  | 0, _ => asleep
  | rounds + 1, p =>
      if p.empty && p.writeopen then do
        if ← killed then return none
        else pipereadWait rounds (← lockPipe)
      else return some p

/-- The copying loop of `piperead`, with `n - i` bytes to go. -/
def pipereadCopy (addr : UInt32) : ℕ → ℕ → Pipe → Syscall ℕ
  | 0, i, _ => return i
  | left + 1, i, p =>
      if p.empty then return i
      else do
        store (addr + UInt32.ofNat i) p.next
        pipereadCopy addr left (i + 1) p.consume

def piperead (rounds : ℕ) (addr : UInt32) (n : ℤ) : Syscall ℤ := do
  match ← pipereadWait rounds (← lockPipe) with
  | none => return -1
  | some p => return (← pipereadCopy addr n.toNat 0 p)

/-- The loop of `pipewrite` around `sleep`. -/
def pipewriteWait : ℕ → Pipe → Syscall (Option Pipe)
  | 0, _ => asleep
  | rounds + 1, p =>
      if p.full then do
        if !p.readopen then return none
        else if ← killed then return none
        else pipewriteWait rounds (← lockPipe)
      else return some p

/-- The copying loop of `pipewrite`, with `n - i` bytes to go; does it get to its end? -/
def pipewriteCopy (rounds : ℕ) (addr : UInt32) : ℕ → ℕ → Pipe → Syscall Bool
  | 0, _, _ => return true
  | left + 1, i, p => do
      match ← pipewriteWait rounds p with
      | none => return false
      | some p => do
          let b ← load (addr + UInt32.ofNat i)
          pipewriteCopy rounds addr left (i + 1) (p.store b)

def pipewrite (rounds : ℕ) (addr : UInt32) (n : ℤ) : Syscall ℤ := do
  if ← pipewriteCopy rounds addr n.toNat 0 (← lockPipe) then return n else return -1

/-! ### The console -/

/-- The loop of `consoleread` around `sleep`. -/
def consolereadWait : ℕ → Input → Syscall (Option Input)
  | 0, _ => asleep
  | rounds + 1, input =>
      if input.r = input.w then do
        if ← killed then return none
        else consolereadWait rounds (← lockInput)
      else return some input

/-- The loop of `consoleread`, with `n` bytes to go. The two characters that end it are
`C('D')` and newline. -/
def consolereadLoop (rounds : ℕ) (target : ℤ) : ℕ → UInt32 → Input → Syscall ℤ
  | 0, _, _ => return target
  | n + 1, dst, input => do
      match ← consolereadWait rounds input with
      | none => return -1
      | some input =>
          let c := input.buf (Fin.ofNat INPUT_BUF input.r.toNat)
          if c = 4 then return target - (n + 1)
          else do
            store dst c
            if c = 10 then return target - n
            else consolereadLoop rounds target n (dst + 1) { input with r := input.r + 1 }

def consoleread (rounds : ℕ) (dst : UInt32) (n : ℤ) : Syscall ℤ := do
  if n > 0 then consolereadLoop rounds n n.toNat dst (← lockInput) else return 0

def consolewrite (buf : UInt32) (n : ℤ) : Syscall ℤ := do
  memread n.toNat buf
  return n

/-- `devsw`: `consoleinit` makes the only entry, for `CONSOLE`. -/
def hasDev (major : ℤ) : Bool := major = 1

/-! ### Inodes -/

/-- `min(n - tot, BSIZE - off%BSIZE)`, with `n` bytes to go. -/
def chunk (n off : UInt32) : UInt32 :=
  let m := UInt32.ofNat BSIZE - off % UInt32.ofNat BSIZE
  if n < m then n else m

/-- The loop of `readi`, with `n` bytes to go; each round reads at least one byte, so
`fuel = n` suffices. -/
def readiLoop : ℕ → UInt32 → UInt32 → UInt32 → Syscall Unit
  | 0, _, _, _ => return ()
  | fuel + 1, dst, off, n =>
      if n = 0 then return ()
      else do
        let data ← bread
        let m := chunk n off
        memmove data m.toNat dst (off.toNat % BSIZE)
        readiLoop fuel (dst + m) (off + m) (n - m)

def readi (rounds : ℕ) (ip : LockedInode) (dst off n : UInt32) : Syscall ℤ :=
  if ip.type = T_DEV then
    if ip.major < 0 ∨ ip.major ≥ NDEV ∨ !hasDev ip.major then return -1
    else consoleread rounds dst (int n)
  else if off > ip.size ∨ off + n < off then return -1
  else do
    let n := if off + n > ip.size then ip.size - off else n
    readiLoop n.toNat dst off n
    return int n

/-- The loop of `writei`, with `n` bytes to go. -/
def writeiLoop : ℕ → UInt32 → UInt32 → UInt32 → Syscall Unit
  | 0, _, _, _ => return ()
  | fuel + 1, src, off, n =>
      if n = 0 then return ()
      else do
        let _ ← bread
        let m := chunk n off
        memread m.toNat src
        writeiLoop fuel (src + m) (off + m) (n - m)

def writei (ip : LockedInode) (src off n : UInt32) : Syscall ℤ :=
  if ip.type = T_DEV then
    if ip.major < 0 ∨ ip.major ≥ NDEV ∨ !hasDev ip.major then return -1
    else consolewrite src (int n)
  else if off > ip.size ∨ off + n < off then return -1
  else if off + n > UInt32.ofNat (MAXFILE * BSIZE) then return -1
  else do
    writeiLoop n.toNat src off n
    return int n

def stati (ip : LockedInode) (st : UInt32) : Syscall Unit := do
  storeWord (st + 4) ip.dev
  storeWord (st + 8) ip.inum
  memmove (fun k => UInt8.ofNat (ip.type / 2 ^ (8 * k))) 2 st 0
  memmove (fun k => UInt8.ofNat (ip.nlink.toNat / 2 ^ (8 * k))) 2 (st + 12) 0
  storeWord (st + 16) ip.size

def sizeofStat : UInt32 := 20

/-! ### Files -/

def filestat (f : OpenFile) (st : UInt32) : Syscall ℤ :=
  if f.type = .inode then do
    let found ← ilock
    stati found.1 st
    return 0
  else return -1

def fileread (rounds : ℕ) (f : OpenFile) (addr n : UInt32) : Syscall ℤ :=
  if !f.readable then return -1
  else
    match f.type with
    | .pipe => piperead rounds addr (int n)
    | .inode => do
        let found ← ilock
        readi rounds found.1 addr found.2 n
    | .none => panic .fileread

/-- Most bytes that `filewrite` writes in one transaction. -/
def filewriteMax : ℕ := (LOGSIZE - 1 - 1 - 2) / 2 * 512

/-- The loop of `filewrite`, at byte `i`; each round that goes on writes at least one byte,
so `fuel = n` suffices. -/
def filewriteLoop (addr : UInt32) (n : ℕ) : ℕ → ℕ → Syscall ℕ
  | 0, i => return i
  | fuel + 1, i =>
      if i < n then do
        let n1 := min (n - i) filewriteMax
        let found ← ilock
        let r ← writei found.1 (addr + UInt32.ofNat i) found.2 (UInt32.ofNat n1)
        if r < 0 then return i
        else if r ≠ n1 then panic .shortFilewrite
        else filewriteLoop addr n fuel (i + n1)
      else return i

def filewrite (rounds : ℕ) (f : OpenFile) (addr n : UInt32) : Syscall ℤ :=
  if !f.writable then return -1
  else
    match f.type with
    | .pipe => pipewrite rounds addr (int n)
    | .inode => do
        let i ← filewriteLoop addr (int n).toNat (int n).toNat 0
        if (i : ℤ) = int n then return int n else return -1
    | .none => panic .filewrite

end Syscall

namespace UserProc

open Syscall

variable (u : UserProc)

def fdalloc (ofile : Fin NOFILE → Option OpenFile) : Option (Fin NOFILE) :=
  (List.finRange NOFILE).find? fun fd => (ofile fd).isNone

def sysRead (rounds : ℕ) : Syscall ℤ := do
  match ← u.argfd 0 with
  | none => return -1
  | some f =>
      match ← u.argint 2 with
      | none => return -1
      | some n =>
          match ← u.argptr 1 n with
          | none => return -1
          | some p => fileread rounds f p n

def sysWrite (rounds : ℕ) : Syscall ℤ := do
  match ← u.argfd 0 with
  | none => return -1
  | some f =>
      match ← u.argint 2 with
      | none => return -1
      | some n =>
          match ← u.argptr 1 n with
          | none => return -1
          | some p => filewrite rounds f p n

def sysFstat : Syscall ℤ := do
  match ← u.argfd 0 with
  | none => return -1
  | some f =>
      match ← u.argptr 1 sizeofStat with
      | none => return -1
      | some st => filestat f st

def pipeEnd (writable : Bool) : OpenFile where
  type := .pipe
  readable := !writable
  writable := writable

def sysPipe : Syscall ℤ := do
  match ← u.argptr 0 8 with
  | none => return -1
  | some fd =>
      if ← pipealloc then
        match fdalloc u.ofile with
        | none => return -1
        | some fd0 =>
            match fdalloc (Function.update u.ofile fd0 (some (pipeEnd false))) with
            | none => return -1
            | some fd1 => do
                storeWord fd (UInt32.ofNat fd0.val)
                storeWord (fd + 4) (UInt32.ofNat fd1.val)
                return 0
      else return -1

end UserProc

end Xv6
