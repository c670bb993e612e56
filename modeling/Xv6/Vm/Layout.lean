import Xv6.Basic

/-!
# Addresses, page tables and page directories

The layout of memory (`memlayout.h`, `mmu.h`). A page directory is a value: it carries
the physical page that it is kept in, and for each present entry the page table with the
page that this one is kept in. A physical address is given by its page number where it
is page-aligned.
-/

namespace Xv6

def KERNBASE : ℕ := 0x80000000

def EXTMEM : ℕ := 0x100000

def PHYSTOP : ℕ := 0xE000000

/-- Other devices are at high addresses (`memlayout.h`). -/
def DEVSPACE : ℕ := 0xFE000000

/-- Address where the kernel is linked (`memlayout.h`). -/
def KERNLINK : ℕ := KERNBASE + EXTMEM

def PGSIZE : ℕ := 4096

def NPDENTRIES : ℕ := 1024

def NPTENTRIES : ℕ := 1024

instance : NeZero NPDENTRIES := ⟨by decide⟩
instance : NeZero NPTENTRIES := ⟨by decide⟩

def uint (z : ℤ) : ℕ := (z % 2 ^ 32).toNat

def PGROUNDUP (sz : ℕ) : ℕ := uint (sz + PGSIZE - 1) / PGSIZE * PGSIZE

def PGROUNDDOWN (a : ℕ) : ℕ := a / PGSIZE * PGSIZE

def PDX (va : ℕ) : Fin NPDENTRIES := Fin.ofNat NPDENTRIES (va / (NPTENTRIES * PGSIZE))

def PTX (va : ℕ) : Fin NPTENTRIES := Fin.ofNat NPTENTRIES (va / PGSIZE)

@[irreducible] def userPages : ℕ := KERNBASE / PGSIZE

abbrev Frame := ℕ

/-- A page table entry: `PTE_ADDR` and the flags that the kernel uses. -/
structure Pte where
  frame : Frame
  /-- `PTE_P` -/
  p : Bool
  /-- `PTE_W` -/
  w : Bool
  /-- `PTE_U` -/
  u : Bool
  deriving DecidableEq

/-- The entry `0`. -/
def Pte.zero : Pte := ⟨0, false, false, false⟩

structure Table where
  frame : Frame
  pte : Fin NPTENTRIES → Pte

/-- A page table just after `memset(pgtab, 0, PGSIZE)`. -/
def Table.empty (f : Frame) : Table := ⟨f, fun _ => .zero⟩

structure Pgdir where
  frame : Frame
  pde : Fin NPDENTRIES → Option Table

namespace Pgdir

/-- A page directory just after `memset(pgdir, 0, PGSIZE)`. -/
def empty (f : Frame) : Pgdir := ⟨f, fun _ => none⟩

/-- The entry for an address; `0` where there is no page table. -/
def pte (d : Pgdir) (va : ℕ) : Pte :=
  match d.pde (PDX va) with
  | some t => t.pte (PTX va)
  | none => .zero

/-- `*pde = v2p(pgtab) | PTE_P | PTE_W | PTE_U`. -/
def setPde (d : Pgdir) (i : Fin NPDENTRIES) (t : Table) : Pgdir :=
  { d with pde := Function.update d.pde i (some t) }

/-- `*pte = x`, for the entry for an address. -/
def setPte (d : Pgdir) (va : ℕ) (x : Pte) : Pgdir :=
  match d.pde (PDX va) with
  | some t => d.setPde (PDX va) { t with pte := Function.update t.pte (PTX va) x }
  | none => d

def hasTable (d : Pgdir) (va : ℕ) : Bool := (d.pde (PDX va)).isSome

end Pgdir

end Xv6
