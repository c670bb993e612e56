import Xv6.Foundation.Program
import Xv6.Fs.State
import Xv6.Pipe.Protocol
import Xv6.Vm.Layout

/-!
# System-call arguments

What a system call does to the memory of the process that made it, as a program whose
calls are the loads and stores through user addresses. What the kernel has to ask for in
between is a call too: the state in which an inode, a pipe or the input of the console is
found once its lock is held, a disk block, `proc->killed`. A panic and a sleep that does
not end have no answer.

`fetchint`, `fetchstr`, `argint`, `argptr` (`syscall.c`) and `argfd` (`sysfile.c`) are
here. A result of `-1` is `none`.
-/

namespace Xv6

/-- Size of the line buffer of the console (`console.c`). -/
def INPUT_BUF : ℕ := 128

instance : NeZero INPUT_BUF := ⟨by decide⟩

/-- The input of the console (`console.c`), without its lock. -/
structure Input where
  buf : Fin INPUT_BUF → UInt8
  /-- read index -/
  r : UInt32
  /-- write index -/
  w : UInt32

/-- The fields of a locked `struct inode` that `readi`, `writei` and `stati` use. -/
structure LockedInode where
  dev : UInt32
  inum : UInt32
  type : ℕ
  major : ℤ
  nlink : UInt16
  size : UInt32

/-- An open file: the fields that do not change while it is open. -/
structure OpenFile where
  type : FdType
  readable : Bool
  writable : Bool
  deriving DecidableEq

structure UserProc where
  /-- size of process memory (bytes) -/
  sz : UInt32
  /-- the saved user `%esp` -/
  esp : UInt32
  /-- open files -/
  ofile : Fin NOFILE → Option OpenFile

/-- What the kernel does to user memory, and what it asks for. -/
inductive UserOp where
  | load (a : UInt32)
  | store (a : UInt32) (b : UInt8)
  /-- `ilock(f->ip)`: the inode and `f->off` -/
  | ilock
  /-- `bread` of a block of the inode -/
  | bread
  /-- `acquire(&p->lock)`, or a `sleep` that ends -/
  | lockPipe
  /-- `acquire(&input.lock)`, or a `sleep` that ends -/
  | lockInput
  /-- `proc->killed` -/
  | killed
  /-- `pipealloc`: does it succeed? -/
  | pipealloc
  | panic (e : Panic)
  /-- asleep at the end of the run -/
  | asleep

@[reducible] def UserOp.Resp : UserOp → Type
  | .load _ => UInt8
  | .store _ _ => Unit
  | .ilock => LockedInode × UInt32
  | .bread => ℕ → UInt8
  | .lockPipe => Pipe
  | .lockInput => Input
  | .killed => Bool
  | .pipealloc => Bool
  | .panic _ => Empty
  | .asleep => Empty

abbrev Syscall := Foundation.Program UserOp UserOp.Resp

/-- The value of a word as an `int`. -/
def int (w : UInt32) : ℤ := if w.toNat < 2 ^ 31 then w.toNat else w.toNat - 2 ^ 32

/-- The word with these bytes, the lowest first. -/
def wordOf (b₀ b₁ b₂ b₃ : UInt8) : UInt32 :=
  UInt32.ofNat (b₀.toNat + b₁.toNat * 2 ^ 8 + b₂.toNat * 2 ^ 16 + b₃.toNat * 2 ^ 24)

namespace Syscall

def load (a : UInt32) : Syscall UInt8 := .call (.load a) .done

def store (a : UInt32) (b : UInt8) : Syscall Unit := .call (.store a b) .done

def ilock : Syscall (LockedInode × UInt32) := .call .ilock .done

def bread : Syscall (ℕ → UInt8) := .call .bread .done

def lockPipe : Syscall Pipe := .call .lockPipe .done

def lockInput : Syscall Input := .call .lockInput .done

def killed : Syscall Bool := .call .killed .done

def pipealloc : Syscall Bool := .call .pipealloc .done

def panic {α : Type} (e : Panic) : Syscall α := .call (.panic e) Empty.elim

def asleep {α : Type} : Syscall α := .call .asleep Empty.elim

def loadWord (a : UInt32) : Syscall UInt32 := do
  let b₀ ← load a
  let b₁ ← load (a + 1)
  let b₂ ← load (a + 2)
  let b₃ ← load (a + 3)
  return wordOf b₀ b₁ b₂ b₃

def memmove (src : ℕ → UInt8) : ℕ → UInt32 → ℕ → Syscall Unit
  | 0, _, _ => return ()
  | m + 1, dst, k => do
      store dst (src k)
      memmove src m (dst + 1) (k + 1)

/-- `memmove(..., src, m)` from user memory. -/
def memread : ℕ → UInt32 → Syscall Unit
  | 0, _ => return ()
  | m + 1, src => do
      let _ ← load src
      memread m (src + 1)

def storeWord (a w : UInt32) : Syscall Unit :=
  memmove (fun k => UInt8.ofNat (w.toNat / 2 ^ (8 * k))) 4 a 0

end Syscall

namespace UserProc

open Syscall

variable (u : UserProc)

def fetchint (addr : UInt32) : Syscall (Option UInt32) :=
  if addr ≥ u.sz ∨ addr + 4 > u.sz then return none
  else do return some (← loadWord addr)

/-- The loop of `fetchstr`, with `ep - s` rounds to go and `s - *pp = i`. -/
def fetchstrLoop : ℕ → UInt32 → ℕ → Syscall (Option ℕ)
  | 0, _, _ => return none
  | rounds + 1, s, i => do
      if (← load s) = 0 then return some i
      else fetchstrLoop rounds (s + 1) (i + 1)

def fetchstr (addr : UInt32) : Syscall (Option ℕ) :=
  if addr ≥ u.sz then return none
  else fetchstrLoop (u.sz.toNat - addr.toNat) addr 0

def argint (n : UInt32) : Syscall (Option UInt32) := u.fetchint (u.esp + 4 + 4 * n)

def argptr (n size : UInt32) : Syscall (Option UInt32) := do
  match ← u.argint n with
  | none => return none
  | some i =>
      if i ≥ u.sz ∨ i + size > u.sz then return none
      else return some i

def argstr (n : UInt32) : Syscall (Option ℕ) := do
  match ← u.argint n with
  | none => return none
  | some addr => u.fetchstr addr

def fdFile (fd : UInt32) : Option OpenFile :=
  if int fd < 0 ∨ int fd ≥ NOFILE then none
  else u.ofile (Fin.ofNat NOFILE fd.toNat)

def argfd (n : UInt32) : Syscall (Option OpenFile) := do
  match ← u.argint n with
  | none => return none
  | some fd => return u.fdFile fd

end UserProc

end Xv6
