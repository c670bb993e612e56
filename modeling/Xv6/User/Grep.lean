import Xv6.Foundation.Hoare
import Xv6.Foundation.Lines

/-!
# `grep`

The program of `grep.c`, with `strchr` and `memmove` of `ulib.c`. A pattern is a string
without its `NUL`; so is a line, once `grep` has put a `NUL` in the place of its newline. A
pointer into `buf` is a position, and a load or store outside of `buf` stops the program.
What `read` can give is a list of parts, none of which is given in one call with the next.
-/

namespace Xv6

open Foundation

def newline : UInt8 := 10

/-! ### Regular expressions

In these `42` is `'*'`, `36` is `'$'`, `46` is `'.'` and `94` is `'^'`.
-/

/-- `matchstar(c, re, text)`, where `here` is `matchhere(re, ..)`. -/
def matchstar (here : List UInt8 → Bool) (c : UInt8) : List UInt8 → Bool
  | [] => here []
  | x :: text => here (x :: text) || ((x = c || c = 46) && matchstar here c text)

def matchhere : List UInt8 → List UInt8 → Bool
  | [], _ => true
  | c :: 42 :: re, text => matchstar (matchhere re) c text
  | [36], text => text.isEmpty
  | c :: re, text =>
      match text with
      | [] => false
      | x :: text => (c = 46 || c = x) && matchhere re text

/-- The loop of `match` over the places where a match may begin. -/
def matchLoop (re : List UInt8) : List UInt8 → Bool
  | [] => matchhere re []
  | x :: text => matchhere re (x :: text) || matchLoop re text

def «match» (re text : List UInt8) : Bool :=
  match re with
  | 94 :: re => matchhere re text
  | _ => matchLoop re text

/-! ### The loop over the input -/

def GREPBUF : ℕ := 1024

structure Grep where
  buf : List UInt8
  /-- what `read` will give -/
  input : List (List UInt8)
  /-- what has been written to descriptor 1 -/
  output : List UInt8

/-- Why `grep` stops before its end. -/
inductive GrepStop where
  /-- a load or store outside of `buf` -/
  | outside
  /-- a loop has not come to its end -/
  | running
  deriving DecidableEq

abbrev GrepM := StateT Grep (Except GrepStop)

/-- The loop of `strchr`, over what lies between `s` and the end of `buf`. -/
def strchrFrom (c : UInt8) : List UInt8 → Option (Option ℕ)
  | [] => none
  | x :: s =>
      if x = 0 then some none
      else if x = c then some (some 0)
      else (strchrFrom c s).map (Option.map (· + 1))

/-- The string at the front, up to its `NUL`. -/
def stringFrom : List UInt8 → Option (List UInt8)
  | [] => none
  | x :: s => if x = 0 then some [] else (stringFrom s).map (x :: ·)

namespace GrepM

/-- An access that may be outside of `buf`. -/
def inside {α : Type} : Option α → GrepM α
  | none => throw .outside
  | some a => return a

def store (i : ℕ) (x : UInt8) : GrepM Unit := do
  let s ← get
  if i < s.buf.length then set { s with buf := s.buf.set i x } else throw .outside

/-- `strchr(p, c)`; the result is the position in `buf`. -/
def strchr (p : ℕ) (c : UInt8) : GrepM (Option ℕ) := do
  let s ← get
  let r ← inside (strchrFrom c (s.buf.drop p))
  return r.map (p + ·)

def string (p : ℕ) : GrepM (List UInt8) := do
  let s ← get
  inside (stringFrom (s.buf.drop p))

def write (p n : ℕ) : GrepM Unit := do
  let s ← get
  if p + n ≤ s.buf.length then
    set { s with output := s.output ++ (s.buf.drop p).take n }
  else throw .outside

/-- `read(fd, buf+m, sizeof(buf)-m)`; at the end of the input it gives 0. -/
def read (m : ℤ) : GrepM ℕ := do
  let s ← get
  match s.input with
  | [] => return 0
  | c :: rest =>
      let n := min (GREPBUF - m).toNat c.length
      if n = 0 then return 0
      else if 0 ≤ m ∧ m.toNat + n ≤ s.buf.length then
        set { s with
          buf := s.buf.take m.toNat ++ c.take n ++ s.buf.drop (m.toNat + n)
          input := if n = c.length then rest else c.drop n :: rest }
        return n
      else throw .outside

def memmove : ℕ → ℕ → ℕ → GrepM Unit
  | _, _, 0 => return ()
  | dst, src, n + 1 => do
      let s ← get
      let x ← inside s.buf[src]?
      store dst x
      memmove (dst + 1) (src + 1) n

/-- The inner loop: it gives `p` in the end. -/
def grepLines (pattern : List UInt8) : ℕ → ℕ → GrepM ℕ
  | 0, _ => throw .running
  | rounds + 1, p => do
      match ← strchr p newline with
      | none => return p
      | some q =>
          store q 0
          let line ← string p
          if «match» pattern line then
            store q newline
            write p (q + 1 - p)
          grepLines pattern rounds (q + 1)

/-- What is left behind `p` goes to the front of `buf`; the result is the new `m`. -/
def keepRest (m : ℤ) (p : ℕ) : GrepM ℤ := do
  if p = 0 then return 0
  else if m > 0 then
    memmove 0 p (m - p).toNat
    return m - p
  else return m

/-- The outer loop, with `m` as it is before `read`. -/
def grepLoop (pattern : List UInt8) : ℕ → ℤ → GrepM Unit
  | 0, _ => throw .running
  | rounds + 1, m => do
      let n ← read m
      if n = 0 then return ()
      else
        let p ← grepLines pattern (GREPBUF + 1) 0
        let m ← keepRest (m + n) p
        grepLoop pattern rounds m

/-- `grep`; every round of its loop takes at least a byte. -/
def grep (pattern : List UInt8) : GrepM Unit := do
  let s ← get
  grepLoop pattern (s.input.flatten.length + 1) 0

end GrepM

end Xv6
