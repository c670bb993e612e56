import Xv6.Lib.Memory

/-!
# String functions

The functions of `string.c` in the kernel, and `memset` and `memmove` of `ulib.c` in the
user library. A `char` is a byte; a pointer is a word. A loop that counts its counter down
is a recursion on the counter, which for an `int` that is negative is 0. `rep stosb` and
`rep stosl` take their count as an unsigned word.
-/

namespace Xv6

/-- `stosb(addr, data, cnt)` (`x86.h`): only the low byte of `data` is used. -/
def stosb (addr data : UInt32) : ℕ → Memory → Memory
  | 0, m => m
  | cnt + 1, m => stosb (addr + 1) data cnt (Function.update m addr data.toUInt8)

/-- A word is stored, the low byte first. -/
def Memory.storeWord (addr data : UInt32) (m : Memory) : Memory :=
  Function.update (Function.update (Function.update (Function.update m
    addr data.toUInt8) (addr + 1) (data >>> 8).toUInt8)
    (addr + 2) (data >>> 16).toUInt8) (addr + 3) (data >>> 24).toUInt8

def stosl (addr data : UInt32) : ℕ → Memory → Memory
  | 0, m => m
  | cnt + 1, m => stosl (addr + 4) data cnt (Memory.storeWord addr data m)

namespace StringC

/-- `(c<<24)|(c<<16)|(c<<8)|c` -/
def splat (c : UInt32) : UInt32 := (c <<< 24) ||| (c <<< 16) ||| (c <<< 8) ||| c

def memset (dst c n : UInt32) (m : Memory) : Memory :=
  if dst.toInt32 % 4 = 0 ∧ n % 4 = 0 then
    let c := c &&& 0xFF
    stosl dst (splat c) (n / 4).toNat m
  else stosb dst c n.toNat m

/-- `while(n-- > 0) *d++ = *s++;` -/
def moveUp (d s : UInt32) : ℕ → Memory → Memory
  | 0, m => m
  | n + 1, m => moveUp (d + 1) (s + 1) n (Function.update m d (m s))

/-- `while(n-- > 0) *--d = *--s;` -/
def moveDown (d s : UInt32) : ℕ → Memory → Memory
  | 0, m => m
  | n + 1, m => moveDown (d - 1) (s - 1) n (Function.update m (d - 1) (m (s - 1)))

def memmove (dst src n : UInt32) (m : Memory) : Memory :=
  if src < dst ∧ src + n > dst then moveDown (dst + n) (src + n) n.toNat m
  else moveUp dst src n.toNat m

/-- The loop of `strncmp`: `n`, `p` and `q` at its end. -/
def strncmpLoop (m : Memory) : ℕ → UInt32 → UInt32 → ℕ × UInt32 × UInt32
  | 0, p, q => (0, p, q)
  | n + 1, p, q =>
      if m p ≠ 0 ∧ m p = m q then strncmpLoop m n (p + 1) (q + 1) else (n + 1, p, q)

def strncmp (p q n : UInt32) (m : Memory) : ℤ :=
  let (n, p, q) := strncmpLoop m n.toNat p q
  if n = 0 then 0 else (m p).toNat - (m q).toNat

/-- `while(n-- > 0 && (*s++ = *t++) != 0);` with `s`, `n` and the memory at its end. -/
def strncpyCopy (s t : UInt32) : ℕ → Memory → UInt32 × ℤ × Memory
  | 0, m => (s, -1, m)
  | n + 1, m =>
      let m' := Function.update m s (m t)
      if m t ≠ 0 then strncpyCopy (s + 1) (t + 1) n m' else (s + 1, n, m')

/-- `while(n-- > 0) *s++ = 0;` -/
def strncpyPad (s : UInt32) : ℕ → Memory → Memory
  | 0, m => m
  | n + 1, m => strncpyPad (s + 1) n (Function.update m s 0)

def strncpy (s t : UInt32) (n : Int32) (m : Memory) : Memory :=
  let (s, n, m) := strncpyCopy s t n.toNatClampNeg m
  strncpyPad s n.toNat m

/-- `while(--n > 0 && (*s++ = *t++) != 0);` with `s` and the memory at its end; the
recursion is on `n - 1`. -/
def safestrcpyCopy (s t : UInt32) : ℕ → Memory → UInt32 × Memory
  | 0, m => (s, m)
  | n + 1, m =>
      let m' := Function.update m s (m t)
      if m t ≠ 0 then safestrcpyCopy (s + 1) (t + 1) n m' else (s + 1, m')

def safestrcpy (s t : UInt32) (n : Int32) (m : Memory) : Memory :=
  if n ≤ 0 then m
  else
    let (s, m) := safestrcpyCopy s t (n.toNatClampNeg - 1) m
    Function.update m s 0

end StringC

namespace UlibC

def memset (dst c n : UInt32) (m : Memory) : Memory := stosb dst c n.toNat m

/-- `while(n-- > 0) *dst++ = *src++;` -/
def memmoveLoop (dst src : UInt32) : ℕ → Memory → Memory
  | 0, m => m
  | n + 1, m => memmoveLoop (dst + 1) (src + 1) n (Function.update m dst (m src))

def memmove (vdst vsrc : UInt32) (n : Int32) (m : Memory) : Memory :=
  memmoveLoop vdst vsrc n.toNatClampNeg m

end UlibC

end Xv6
