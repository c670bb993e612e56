import Xv6.Vm.Layout

/-!
# Physical pages and page tables

`kalloc`, `kfree` (`kalloc.c`) and the functions of `vm.c` that build, copy and free
address spaces, as computations that return a value unless they stop. A function that
changes a page directory returns it.

`kalloc` fails when the free list is empty, and wherever the list `fails` says so: what
another CPU holds at the moment is not free. The fields `taken`, `stray` and `unread`
are ghosts: the pages that the call has been given, those to whose contents it stored
without having been given them, and whether it used an ELF header that it has not read.
-/

namespace Xv6

abbrev Page := Fin PGSIZE → UInt8

/-- The symbols of the linker, as physical addresses. -/
structure Linker where
  /-- `V2P(data)` -/
  data : ℕ
  /-- `V2P(end)` -/
  kend : ℕ
  aligned : data % PGSIZE = 0
  above : EXTMEM < data
  below : data < PHYSTOP
  order : data ≤ kend

structure Vm where
  freelist : List Frame
  /-- which of the next calls of `kalloc` fail for want of memory elsewhere in use -/
  fails : List Bool
  page : Frame → Page
  link : Linker
  /-- number of calls of `readi` so far -/
  nread : ℕ
  taken : List Frame
  stray : List Frame
  unread : Bool

inductive VmStop where
  | panic (e : Panic)
  /-- a null pointer is used -/
  | nullPtr
  deriving DecidableEq

abbrev VmM := StateT Vm (Except VmStop)

namespace Vm

/-- The page is given to the call. -/
def give (s : Vm) (f : Frame) (free : List Frame) : Vm :=
  { s with freelist := free, fails := s.fails.tail, taken := f :: s.taken }

/-- A call of `kalloc` has failed. -/
def refuse (s : Vm) : Vm := { s with fails := s.fails.tail }

def store (s : Vm) (f : Frame) (x : Page) : Vm :=
  { s with
    page := Function.update s.page f x,
    stray := if f ∈ s.taken then s.stray else f :: s.stray }

/-- The page goes to the head of the free list, filled with junk. -/
def putFree (s : Vm) (f : Frame) : Vm :=
  { s with freelist := f :: s.freelist, page := Function.update s.page f fun _ => 1 }

end Vm

def Page.write (x : Page) (o : ℕ) (bs : List UInt8) : Page := fun j =>
  if o ≤ j.val ∧ j.val < o + bs.length then bs.getD (j.val - o) 0 else x j

namespace VmM

def panic {α : Type} (e : Panic) : VmM α := throw (.panic e)

def kalloc : VmM (Option Frame) := do
  let s ← get
  match s.freelist with
  | f :: free =>
      if s.fails.headD false then do
        set s.refuse
        return none
      else do
        set (s.give f free)
        return some f
  | [] => do
      set s.refuse
      return none

def kfree (f : Frame) : VmM Unit := do
  let s ← get
  if f * PGSIZE < s.link.kend ∨ f * PGSIZE ≥ PHYSTOP then panic .kfree
  else set (s.putFree f)

def store (f : Frame) (x : Page) : VmM Unit := modify (·.store f x)

def clear (f : Frame) : VmM Unit := store f fun _ => 0

/-- `walkpgdir`: the page directory, where there is an entry for the address. -/
def walkpgdir (d : Pgdir) (va : ℕ) (alloc : Bool) : VmM (Option Pgdir) :=
  match d.pde (PDX va) with
  | some _ => return some d
  | none =>
      if alloc then do
        match ← kalloc with
        | none => return none
        | some f => do
            clear f
            return some (d.setPde (PDX va) (.empty f))
      else return none

/-- Permissions of a mapping: `PTE_W` and `PTE_U`. -/
structure Perm where
  w : Bool
  u : Bool
  deriving DecidableEq

/-- `pa += PGSIZE`, for the page number of a physical address. -/
def nextFrame (pa : Frame) : Frame := uint (pa * PGSIZE + PGSIZE) / PGSIZE

/-- The loop of `mappages`, with the number of pages to go; does it get to its end? -/
def mappagesLoop (perm : Perm) : ℕ → ℕ → Frame → Pgdir → VmM (Pgdir × Bool)
  | 0, _, _, d => return (d, true)
  | n + 1, a, pa, d => do
      match ← walkpgdir d a true with
      | none => return (d, false)
      | some d =>
          if (d.pte a).p then panic .remap
          else
            mappagesLoop perm n (uint (a + PGSIZE)) (nextFrame pa)
              (d.setPte a ⟨pa, true, perm.w, perm.u⟩)

/-- `mappages`. The loop ends at `last`, `last - a` bytes after its start. -/
def mappages (d : Pgdir) (va size : ℕ) (pa : Frame) (perm : Perm) : VmM (Pgdir × Bool) :=
  let a := PGROUNDDOWN va
  let last := PGROUNDDOWN (uint (va + size - 1))
  mappagesLoop perm (uint (last - a) / PGSIZE + 1) a pa d

structure Kmap where
  virt : ℕ
  physStart : ℕ
  physEnd : ℕ
  perm : Perm

/-- `kmap`, for `V2P(data)`. -/
def kmap (data : ℕ) : List Kmap :=
  [⟨KERNBASE, 0, EXTMEM, ⟨true, false⟩⟩,
   ⟨KERNLINK, KERNLINK - KERNBASE, data, ⟨false, false⟩⟩,
   ⟨KERNBASE + data, data, PHYSTOP, ⟨true, false⟩⟩,
   ⟨DEVSPACE, DEVSPACE, 0, ⟨true, false⟩⟩]

def mapKernel : List Kmap → Pgdir → VmM (Option Pgdir)
  | [], d => return some d
  | k :: ks, d => do
      let (d, ok) ← mappages d k.virt (uint (k.physEnd - k.physStart)) (k.physStart / PGSIZE) k.perm
      if ok then mapKernel ks d else return none

def setupkvm : VmM (Option Pgdir) := do
  match ← kalloc with
  | none => return none
  | some f => do
      clear f
      if KERNBASE + PHYSTOP > DEVSPACE then panic .phystopTooHigh
      else mapKernel (kmap (← get).link.data) (.empty f)

/-- The loop of `deallocuvm`; each round goes on by at least a page. -/
def deallocuvmLoop (oldsz : ℕ) : ℕ → ℕ → Pgdir → VmM Pgdir
  | 0, _, d => return d
  | rounds + 1, a, d =>
      if a < oldsz then do
        match ← walkpgdir d a false with
        | none => deallocuvmLoop oldsz rounds (uint (a + (NPTENTRIES - 1) * PGSIZE + PGSIZE)) d
        | some d =>
            if (d.pte a).p then do
              if (d.pte a).frame = 0 then panic .kfree
              else do
                kfree (d.pte a).frame
                deallocuvmLoop oldsz rounds (uint (a + PGSIZE)) (d.setPte a .zero)
            else deallocuvmLoop oldsz rounds (uint (a + PGSIZE)) d
      else return d

def deallocuvm (d : Pgdir) (oldsz newsz : ℕ) : VmM (Pgdir × ℕ) :=
  if newsz ≥ oldsz then return (d, oldsz)
  else do
    let d ← deallocuvmLoop oldsz ((oldsz + PGSIZE - 1) / PGSIZE) (PGROUNDUP newsz) d
    return (d, newsz)

/-- The loop of `allocuvm`, with the number of pages to go. -/
def allocuvmLoop (oldsz newsz : ℕ) : ℕ → ℕ → Pgdir → VmM (Pgdir × ℕ)
  | 0, _, d => return (d, newsz)
  | n + 1, a, d => do
      match ← kalloc with
      | none => do
          let (d, _) ← deallocuvm d newsz oldsz
          return (d, 0)
      | some mem => do
          clear mem
          -- the result of `mappages` is not looked at
          let (d, _) ← mappages d a PGSIZE mem ⟨true, true⟩
          allocuvmLoop oldsz newsz n (uint (a + PGSIZE)) d

def allocuvm (d : Pgdir) (oldsz newsz : ℕ) : VmM (Pgdir × ℕ) :=
  if newsz ≥ KERNBASE then return (d, 0)
  else if newsz < oldsz then return (d, oldsz)
  else
    let a := PGROUNDUP oldsz
    allocuvmLoop oldsz newsz ((newsz - a + PGSIZE - 1) / PGSIZE) a d

/-- The loop of `freevm` over the page tables. -/
def freeTables (d : Pgdir) : List (Fin NPDENTRIES) → VmM Unit
  | [] => return ()
  | i :: is =>
      match d.pde i with
      | some t => do
          kfree t.frame
          freeTables d is
      | none => freeTables d is

/-- `freevm`, for a page directory that is not null. -/
def freevm (d : Pgdir) : VmM Unit := do
  let (d, _) ← deallocuvm d KERNBASE 0
  freeTables d (List.finRange NPDENTRIES)
  kfree d.frame

def clearpteu (d : Pgdir) (uva : ℕ) : VmM Pgdir := do
  match ← walkpgdir d uva false with
  | none => panic .clearpteu
  | some d => return d.setPte uva { d.pte uva with u := false }

/-- The loop of `copyuvm`, with the number of pages to go. -/
def copyuvmLoop (pgdir : Pgdir) : ℕ → ℕ → Pgdir → VmM (Pgdir × Bool)
  | 0, _, d => return (d, true)
  | n + 1, i, d => do
      match ← walkpgdir pgdir i false with
      | none => panic .copyuvmPte
      | some _ =>
          if !(pgdir.pte i).p then panic .copyuvmPage
          else do
            match ← kalloc with
            | none => return (d, false)
            | some mem => do
                store mem ((← get).page (pgdir.pte i).frame)
                let (d, ok) ← mappages d i PGSIZE mem ⟨(pgdir.pte i).w, (pgdir.pte i).u⟩
                if ok then copyuvmLoop pgdir n (uint (i + PGSIZE)) d else return (d, false)

def copyuvm (pgdir : Pgdir) (sz : ℕ) : VmM (Option Pgdir) := do
  match ← setupkvm with
  | none => return none
  | some d => do
      let (d, ok) ← copyuvmLoop pgdir ((sz + PGSIZE - 1) / PGSIZE) 0 d
      if ok then return some d
      else do
        freevm d
        return none

/-- `uva2ka`: the page. Where there is no page table, the entry is read through the null
pointer that `walkpgdir` returns. -/
def uva2ka (d : Pgdir) (uva : ℕ) : VmM (Option Frame) := do
  match ← walkpgdir d uva false with
  | none => throw .nullPtr
  | some d =>
      if (d.pte uva).p && (d.pte uva).u then return some (d.pte uva).frame else return none

/-- The loop of `copyout`; each round copies at least one byte, so `fuel = len` suffices. -/
def copyoutLoop (d : Pgdir) : ℕ → ℕ → List UInt8 → VmM Bool
  | 0, _, _ => return true
  | fuel + 1, va, buf =>
      if buf = [] then return true
      else do
        let va0 := PGROUNDDOWN va
        match ← uva2ka d va0 with
        | none => return false
        | some pa0 => do
            let n := min (PGSIZE - (va - va0)) buf.length
            store pa0 (((← get).page pa0).write (va - va0) (buf.take n))
            copyoutLoop d fuel (uint (va0 + PGSIZE)) (buf.drop n)

/-- `copyout`, of all the bytes of `buf`. -/
def copyout (d : Pgdir) (va : ℕ) (buf : List UInt8) : VmM Bool := copyoutLoop d buf.length va buf

end VmM

end Xv6
