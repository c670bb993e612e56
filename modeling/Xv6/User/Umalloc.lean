import Xv6.Foundation.Hoare
import Xv6.Foundation.Run
import Xv6.Lib.String
import Xv6.Syscall.User

/-!
# The allocator

`umalloc.c`, and `sbrk` as `sys_sbrk` of `sysproc.c` and `growproc` of `proc.c` do it, with
the sizes of `allocuvm` and `deallocuvm` (`vm.c`). The memory is that of the process: a load
or a store behind its last page stops it. `Header` has 8 bytes, the pointer first. How many
times a loop goes round at most is given as fuel.
-/

namespace Xv6

namespace Umalloc

open Foundation

/-- The memory of the process with what the allocator and the kernel keep about it. -/
structure Heap where
  mem : Memory
  /-- `freep` -/
  freep : UInt32
  /-- `proc->sz` -/
  sz : UInt32
  /-- whether no page is left when `sbrk` is called, call after call; there are pages for
  the calls that come then -/
  full : List Bool

/-- Why a call does not return. -/
inductive Stop where
  /-- the process is killed for an access outside of its memory -/
  | fault
  /-- a loop has not come to its end -/
  | running
  deriving DecidableEq

abbrev UmallocM := StateT Heap (Except Stop)

namespace UmallocM

def load (a : UInt32) : UmallocM UInt32 := do
  let h ← get
  if a.toNat + 4 ≤ PGROUNDUP h.sz.toNat then return h.mem.uint a else throw .fault

def store (a x : UInt32) : UmallocM Unit := do
  let h ← get
  if a.toNat + 4 ≤ PGROUNDUP h.sz.toNat then set { h with mem := h.mem.storeWord a x }
  else throw .fault

def ptr (p : UInt32) : UmallocM UInt32 := load p

def size (p : UInt32) : UmallocM UInt32 := load (p + 4)

def setPtr (p x : UInt32) : UmallocM Unit := store p x

def setSize (p x : UInt32) : UmallocM Unit := store (p + 4) x

def setFreep (p : UInt32) : UmallocM Unit := modify fun h => { h with freep := p }

/-! ### `sbrk` -/

/-- `allocuvm(pgdir, oldsz, newsz)`: when no page is left it fails, if it needs one. -/
def allocuvm (full : Bool) (oldsz newsz : UInt32) : UInt32 :=
  if KERNBASE ≤ newsz.toNat then 0
  else if newsz < oldsz then oldsz
  else if full ∧ PGROUNDUP oldsz.toNat < newsz.toNat then 0
  else newsz

def deallocuvm (oldsz newsz : UInt32) : UInt32 := if oldsz ≤ newsz then oldsz else newsz

/-- `growproc(n)`; says whether it does not fail. If it gives back all the memory, it fails,
and the process is not there any more to be told. -/
def growproc (n : UInt32) : UmallocM Bool := do
  let h ← get
  if 0 < int n then
    let sz := allocuvm (h.full.headD false) h.sz (h.sz + n)
    if sz = 0 then
      set { h with full := h.full.tail }
      return false
    else
      set { h with sz := sz, full := h.full.tail }
      return true
  else if int n < 0 then
    let sz := deallocuvm h.sz (h.sz + n)
    if sz = 0 then throw .fault
    else
      set { h with sz := sz }
      return true
  else return true

def sbrk (n : UInt32) : UmallocM UInt32 := do
  let h ← get
  let ok ← growproc n
  return if ok then h.sz else 0xFFFFFFFF

/-! ### The calls -/

/-- `p + n` for a `Header*`. -/
def plus (p n : UInt32) : UInt32 := p + n * 8

/-- The loop of `free`; it gives `p`. -/
def freeLoop (bp : UInt32) : ℕ → UInt32 → UmallocM UInt32
  | 0, _ => throw .running
  | fuel + 1, p => do
      let next ← ptr p
      if p < bp ∧ bp < next then return p
      else if next ≤ p ∧ (p < bp ∨ bp < next) then return p
      else freeLoop bp fuel next

/-- `if(bp + bp->s.size == p->s.ptr){ ... } else bp->s.ptr = p->s.ptr;` -/
def joinNext (p bp : UInt32) : UmallocM Unit := do
  let n ← size bp
  let next ← ptr p
  if plus bp n = next then
    let m ← size next
    setSize bp (n + m)
    let after ← ptr next
    setPtr bp after
  else setPtr bp next

/-- `if(p + p->s.size == bp){ ... } else p->s.ptr = bp;` -/
def joinPrev (p bp : UInt32) : UmallocM Unit := do
  let n ← size p
  if plus p n = bp then
    let m ← size bp
    setSize p (n + m)
    let after ← ptr bp
    setPtr p after
  else setPtr p bp

def free (fuel : ℕ) (ap : UInt32) : UmallocM Unit := do
  let bp := ap - 8
  let h ← get
  let p ← freeLoop bp fuel h.freep
  joinNext p bp
  joinPrev p bp
  setFreep p

def morecore (fuel : ℕ) (nu : UInt32) : UmallocM UInt32 := do
  let nu := if nu < 4096 then 4096 else nu
  let p ← sbrk (nu * 8)
  if p = 0xFFFFFFFF then return 0
  else
    setSize p nu
    free fuel (p + 8)
    let h ← get
    return h.freep

/-- What `malloc` does with a free block that is large enough. -/
def take (nunits prevp p size : UInt32) : UmallocM UInt32 := do
  if size = nunits then
    let next ← ptr p
    setPtr prevp next
    setFreep prevp
    return p + 8
  else
    setSize p (size - nunits)
    setSize (plus p (size - nunits)) nunits
    setFreep prevp
    return plus p (size - nunits) + 8

def mallocLoop (nunits : UInt32) : ℕ → UInt32 → UInt32 → UmallocM UInt32
  | 0, _, _ => throw .running
  | fuel + 1, prevp, p => do
      let n ← size p
      if nunits ≤ n then take nunits prevp p n
      else
        let h ← get
        if p = h.freep then
          let p ← morecore fuel nunits
          if p = 0 then return 0
          else
            let next ← ptr p
            mallocLoop nunits fuel p next
        else
          let next ← ptr p
          mallocLoop nunits fuel p next

/-- `(nbytes + sizeof(Header) - 1)/sizeof(Header) + 1` -/
def units (nbytes : UInt32) : UInt32 := (nbytes + 8 - 1) / 8 + 1

/-- `malloc(nbytes)`, with `base` for `&base`. -/
def malloc (base : UInt32) (fuel : ℕ) (nbytes : UInt32) : UmallocM UInt32 := do
  let h ← get
  if h.freep = 0 then
    setFreep base
    setPtr base base
    setSize base 0
    let p ← ptr base
    mallocLoop (units nbytes) fuel base p
  else
    let p ← ptr h.freep
    mallocLoop (units nbytes) fuel h.freep p

end UmallocM

/-! ### A program -/

structure Alloc where
  ptr : UInt32
  nbytes : UInt32
  deriving DecidableEq

/-- The memory, and what has been allocated and is not free again. -/
structure System where
  heap : Heap
  live : List Alloc

/-- What a program does; the kernel says for a `malloc` when the pages run out. -/
inductive Op where
  | malloc (nbytes : UInt32) (full : List Bool) (fuel : ℕ)
  | free (q : Alloc) (fuel : ℕ)
  /-- a store in what has been allocated -/
  | write (q : Alloc) (i : UInt32) (x : UInt8)

/-- One step. A program gives back what it has got, and stores only there. -/
def step (base : UInt32) (s : System) : Op → Option System
  | .malloc nbytes full fuel =>
      match UmallocM.malloc base fuel nbytes { s.heap with full := full } with
      | .ok (p, h) => some ⟨h, if p = 0 then s.live else ⟨p, nbytes⟩ :: s.live⟩
      | .error _ => none
  | .free q fuel =>
      if q ∈ s.live then
        match UmallocM.free fuel q.ptr s.heap with
        | .ok (_, h) => some ⟨h, s.live.erase q⟩
        | .error _ => none
      else none
  | .write q i x =>
      if q ∈ s.live ∧ i < q.nbytes then
        some { s with heap := { s.heap with mem := Function.update s.heap.mem (q.ptr + i) x } }
      else none

def loaded (m : Memory) (sz : UInt32) : System := ⟨⟨m, 0, sz, []⟩, []⟩

end Umalloc

end Xv6
