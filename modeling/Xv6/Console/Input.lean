import Xv6.Foundation.Run
import Xv6.Syscall.User

/-!
# The console input

`consoleintr` and `consoleread` of `console.c`, and the line editor that they are to be: a list of
characters that a reader can have, and the line that is being edited. What is done under
`input.lock` is one step: a call of `consoleintr` with all the characters that `getc` gives, and
a `consoleread` up to where it sleeps or returns. The echo and the listing of processes are left
out.
-/

namespace Xv6

structure Reading where
  target : ℕ
  /-- bytes to go -/
  n : ℕ
  /-- what is in `dst` -/
  dst : List UInt8
  /-- it sleeps on `&input.r` -/
  asleep : Bool
  deriving DecidableEq

def Reading.wakeup (r : Reading) : Reading := { r with asleep := false }

def ctrlD : UInt8 := 4

def ctrlH : UInt8 := 8

def ctrlP : UInt8 := 16

def ctrlU : UInt8 := 21

/-- `'\x7f'` -/
def del : UInt8 := 127

def lineFeed : UInt8 := 10

def carriageReturn : UInt8 := 13

structure Console extends Input where
  /-- edit index -/
  e : UInt32
  reader : Option Reading
  /-- `proc->killed` of the reader -/
  killed : Bool
  /-- what the calls of `consoleread` have returned; nothing is `-1` -/
  results : List (Option (List UInt8))

inductive ConsoleLabel where
  /-- `consoleintr` with these characters -/
  | intr (cs : List UInt8)
  /-- a call of `consoleread` -/
  | read (n : ℕ)
  /-- the reader goes on after `sleep` -/
  | resume
  /-- the reader is killed -/
  | kill

namespace Console

def init (k : UInt32) : Console where
  buf := fun _ => 0
  r := k
  w := k
  e := k
  reader := none
  killed := false
  results := []

/-- `input.buf[i % INPUT_BUF]` -/
def char (s : Console) (i : UInt32) : UInt8 := s.buf (Fin.ofNat INPUT_BUF i.toNat)

/-- The loop for `C('U')`, which ends after `input.e - input.w` rounds at the latest. -/
def killLine (s : Console) : ℕ → Console
  | 0 => s
  | k + 1 =>
      if s.e ≠ s.w ∧ s.char (s.e - 1) ≠ lineFeed then killLine { s with e := s.e - 1 } k else s

/-- `input.buf[input.e++ % INPUT_BUF] = c` -/
def store (s : Console) (c : UInt8) : Console :=
  { s with buf := Function.update s.buf (Fin.ofNat INPUT_BUF s.e.toNat) c, e := s.e + 1 }

/-- `input.w = input.e; wakeup(&input.r);` -/
def commit (s : Console) : Console :=
  { s with w := s.e, reader := s.reader.map Reading.wakeup }

def intrChar (s : Console) (c : UInt8) : Console :=
  if c = ctrlP then s
  else if c = ctrlU then s.killLine (s.e - s.w).toNat
  else if c = ctrlH ∨ c = del then if s.e ≠ s.w then { s with e := s.e - 1 } else s
  else if c ≠ 0 ∧ s.e - s.r < UInt32.ofNat INPUT_BUF then
    let c := if c = carriageReturn then lineFeed else c
    let s := s.store c
    if c = lineFeed ∨ c = ctrlD ∨ s.e = s.r + UInt32.ofNat INPUT_BUF then s.commit else s
  else s

def consoleintr (s : Console) (cs : List UInt8) : Console := cs.foldl intrChar s

def ret (s : Console) (result : Option (List UInt8)) : Console :=
  { s with reader := none, results := s.results ++ [result] }

def sleep (s : Console) (target n : ℕ) (dst : List UInt8) : Console :=
  { s with reader := some ⟨target, n, dst, true⟩ }

/-- The loop of `consoleread`, with `n` bytes to go. -/
def readLoop (target : ℕ) : ℕ → List UInt8 → Console → Console
  | 0, dst, s => s.ret (some dst)
  | n + 1, dst, s =>
      if s.r = s.w then if s.killed then s.ret none else s.sleep target (n + 1) dst
      else
        let c := s.char s.r
        let t := { s with r := s.r + 1 }
        if c = ctrlD then
          -- before the first byte it is consumed, and the call returns 0
          (if n + 1 < target then { t with r := t.r - 1 } else t).ret (some dst)
        else if c = lineFeed then t.ret (some (dst ++ [c]))
        else readLoop target n (dst ++ [c]) t

/-- A step. One process at a time is in `consoleread`. -/
def step (s : Console) : ConsoleLabel → Option Console
  | .intr cs => some (s.consoleintr cs)
  | .read n =>
      match s.reader with
      | none => some (readLoop n n [] { s with killed := false })
      | some _ => none
  | .resume =>
      match s.reader with
      | none => none
      | some x => if x.asleep then none else some (readLoop x.target x.n x.dst s)
  | .kill =>
      match s.reader with
      | none => none
      | some x => some { s with killed := true, reader := some x.wakeup }

end Console

structure Editor where
  /-- characters of lines that are finished, and not yet read -/
  committed : List UInt8
  /-- the line that is being edited -/
  line : List UInt8
  reader : Option Reading
  killed : Bool
  results : List (Option (List UInt8))

namespace Editor

def init : Editor where
  committed := []
  line := []
  reader := none
  killed := false
  results := []

def commit (s : Editor) : Editor :=
  { s with
    committed := s.committed ++ s.line, line := [], reader := s.reader.map Reading.wakeup }

def full (s : Editor) : Bool := s.committed.length + s.line.length = INPUT_BUF

/-- A character is added to the line. -/
def append (s : Editor) (c : UInt8) : Editor := { s with line := s.line ++ [c] }

def type (s : Editor) (c : UInt8) : Editor :=
  if c = 0 ∨ c = ctrlP then s
  else if c = ctrlU then { s with line := [] }
  else if c = ctrlH ∨ c = del then { s with line := s.line.dropLast }
  else if s.full then s
  else
    let c := if c = carriageReturn then lineFeed else c
    let s := s.append c
    if c = lineFeed ∨ c = ctrlD ∨ s.full then s.commit else s

/-- A read returns, and leaves `rest` for the next one. -/
def ret (s : Editor) (rest : List UInt8) (result : Option (List UInt8)) : Editor :=
  { s with committed := rest, reader := none, results := s.results ++ [result] }

/-- A read of `target` bytes with `n` bytes to go, from the characters of finished lines. -/
def read (s : Editor) (target : ℕ) : ℕ → List UInt8 → List UInt8 → Editor
  | 0, dst, cs => s.ret cs (some dst)
  | n + 1, dst, [] =>
      if s.killed then s.ret [] none
      else { s with committed := [], reader := some ⟨target, n + 1, dst, true⟩ }
  | n + 1, dst, c :: cs =>
      if c = ctrlD then s.ret (if n + 1 < target then c :: cs else cs) (some dst)
      else if c = lineFeed then s.ret cs (some (dst ++ [c]))
      else read s target n (dst ++ [c]) cs

def step (s : Editor) : ConsoleLabel → Option Editor
  | .intr cs => some (cs.foldl type s)
  | .read n =>
      match s.reader with
      | none => some (read { s with killed := false } n n [] s.committed)
      | some _ => none
  | .resume =>
      match s.reader with
      | none => none
      | some x => if x.asleep then none else some (s.read x.target x.n x.dst s.committed)
  | .kill =>
      match s.reader with
      | none => none
      | some x => some { s with killed := true, reader := some x.wakeup }

end Editor

end Xv6
