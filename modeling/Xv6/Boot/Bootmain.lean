import Xv6.Lib.String

/-!
# The boot loader

`bootmain.c`. The disk gives 512 bytes for each sector number; the kernel file starts at
sector 1. A loop makes at most `fuel` rounds, and there is no result when they are not
enough.
-/

namespace Xv6

namespace Boot

abbrev Disk := UInt32 → ℕ → UInt8

def SECTSIZE : ℕ := 512

def readsect (disk : Disk) (dst offset : UInt32) (m : Memory) : Memory := fun a =>
  if (a - dst).toNat < SECTSIZE then disk offset (a - dst).toNat else m a

def readsegLoop (disk : Disk) (epa : UInt32) :
    ℕ → UInt32 → UInt32 → Memory → Option Memory
  | 0, _, _, _ => none
  | fuel + 1, pa, offset, m =>
      if pa < epa then
        readsegLoop disk epa fuel (pa + 512) (offset + 1) (readsect disk pa offset m)
      else some m

def readseg (disk : Disk) (fuel : ℕ) (pa count offset : UInt32) (m : Memory) : Option Memory :=
  readsegLoop disk (pa + count) fuel (pa - offset % 512) (offset / 512 + 1) m

/-- `struct proghdr`, as far as it is used. -/
@[ext] structure Proghdr where
  off : UInt32
  paddr : UInt32
  filesz : UInt32
  memsz : UInt32
  deriving DecidableEq

def proghdr (m : Memory) (ph : UInt32) : Proghdr where
  off := m.uint (ph + 4)
  paddr := m.uint (ph + 12)
  filesz := m.uint (ph + 16)
  memsz := m.uint (ph + 20)

/-- The loop of `bootmain` over the program headers. The header is loaded again after
`readseg`. -/
def segLoop (disk : Disk) (fuel : ℕ) (eph : UInt32) : ℕ → UInt32 → Memory → Option Memory
  | 0, _, _ => none
  | n + 1, ph, m =>
      if ph < eph then
        let pa := (proghdr m ph).paddr
        (readseg disk fuel pa (proghdr m ph).filesz (proghdr m ph).off m).bind fun m =>
          let m :=
            if (proghdr m ph).memsz > (proghdr m ph).filesz then
              stosb (pa + (proghdr m ph).filesz) 0
                ((proghdr m ph).memsz - (proghdr m ph).filesz).toNat m
            else m
          segLoop disk fuel eph n (ph + 32) m
      else some m

def ELF_MAGIC : UInt32 := 0x464C457F

/-- The scratch space that the ELF header is read to. -/
def elf : UInt32 := 0x10000

/-- `bootmain()`: the memory in which it calls the entry point, if it does. -/
def bootmain (disk : Disk) (fuel : ℕ) (m : Memory) : Option (Memory × Option UInt32) :=
  (readseg disk fuel elf 4096 0 m).bind fun m =>
    if m.uint elf ≠ ELF_MAGIC then some (m, none)
    else
      let ph := elf + m.uint (elf + 28)
      let eph := ph + m.ushort (elf + 44) * 32
      (segLoop disk fuel eph fuel ph m).map fun m => (m, some (m.uint (elf + 24)))

end Boot

end Xv6
