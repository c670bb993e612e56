import Xv6.Foundation.Hoare
import Xv6.Foundation.Loop
import Xv6.Lib.Memory
import Xv6.Vm.Layout

/-!
# Multiprocessor support

`mp.c`: the search for the configuration table that the BIOS has left in memory, and
`mpinit`, which reads the processors from it. Addresses are kernel addresses. A store
outside of `cpus` stops the kernel; what is printed is left out.
-/

namespace Xv6

open Foundation

def NCPU : ℕ := 8

def p2v (a : UInt32) : UInt32 := a + UInt32.ofNat KERNBASE

namespace Mp

def sum (m : Memory) (addr : UInt32) (len : ℕ) : UInt8 :=
  UInt8.ofNat ((m.bytes addr len).map UInt8.toNat).sum

/-! ### The search -/

def MPSIZE : ℕ := 16

def mpSignature : List UInt8 := [95, 77, 80, 95]

/-- `"PCMP"` -/
def confSignature : List UInt8 := [80, 67, 77, 80]

/-- The loop of `mpsearch1`, with at most the given number of rounds. -/
def mpsearch1Loop (m : Memory) (e : UInt32) : ℕ → UInt32 → Option UInt32
  | 0, _ => none
  | n + 1, p =>
      if p < e then
        if m.bytes p 4 = mpSignature ∧ sum m p MPSIZE = 0 then some p
        else mpsearch1Loop m e n (p + UInt32.ofNat MPSIZE)
      else none

def mpsearch1 (m : Memory) (a : UInt32) (len : ℕ) : Option UInt32 :=
  mpsearch1Loop m (p2v a + UInt32.ofNat len) (len / MPSIZE) (p2v a)

def mpsearch (m : Memory) : Option UInt32 :=
  let bda := p2v 0x400
  let ebda := m.ushort (bda + 0x0E) <<< 4
  let first :=
    if ebda ≠ 0 then mpsearch1 m ebda 1024
    else mpsearch1 m (m.ushort (bda + 0x13) * 1024 - 1024) 1024
  first <|> mpsearch1 m 0xF0000 0x10000

def length (m : Memory) (conf : UInt32) : UInt32 := m.ushort (conf + 4)

/-- `mpconfig(&mp)`: the floating pointer and the configuration table. -/
def mpconfig (m : Memory) : Option (UInt32 × UInt32) :=
  (mpsearch m).bind fun mp =>
    let physaddr := m.uint (mp + 4)
    let conf := p2v physaddr
    if physaddr = 0 then none
    else if m.bytes conf 4 ≠ confSignature then none
    else if m (conf + 6) ≠ 1 ∧ m (conf + 6) ≠ 4 then none
    else if sum m conf (length m conf).toNat ≠ 0 then none
    else some (mp, conf)

/-! ### `mpinit` -/

/-- One per processor. -/
def MPPROC : UInt8 := 0

/-- One per bus. -/
def MPBUS : UInt8 := 1

/-- One per I/O APIC. -/
def MPIOAPIC : UInt8 := 2

/-- One per bus interrupt source. -/
def MPIOINTR : UInt8 := 3

/-- One per system interrupt source. -/
def MPLINTR : UInt8 := 4

/-- This processor is the bootstrap processor. -/
def MPBOOT : UInt8 := 2

structure Cpus where
  ismp : Bool
  ncpu : ℕ
  /-- index of the bootstrap processor in `cpus` -/
  bcpu : ℕ
  ioapicid : UInt8
  lapic : UInt32
  /-- `cpus[i].id` -/
  id : Fin NCPU → UInt8
  /-- the interrupt mode register has been written -/
  imcr : Bool

/-- Before `mpinit`. -/
def Cpus.zero : Cpus where
  ismp := false
  ncpu := 0
  bcpu := 0
  ioapicid := 0
  lapic := 0
  id := fun _ => 0
  imcr := false

/-- How `mpinit` can go wrong. -/
inductive Fault where
  /-- `cpus[ncpu]` is outside of `cpus` -/
  | outside
  deriving DecidableEq

/-- A step of `mpinit`. -/
abbrev MpM : Type → Type := StateT Cpus (Except Fault)

def mpproc (m : Memory) (proc : UInt32) : MpM Unit := do
  let s ← get
  let ismp := s.ismp && s.ncpu = (m (proc + 1)).toNat
  let bcpu := if m (proc + 3) &&& MPBOOT ≠ 0 then s.ncpu else s.bcpu
  if h : s.ncpu < NCPU then
    set { s with
      ismp := ismp
      bcpu := bcpu
      id := Function.update s.id ⟨s.ncpu, h⟩ (UInt8.ofNat s.ncpu)
      ncpu := s.ncpu + 1 }
  else throw .outside

/-- A round of the loop of `mpinit`. -/
def mpentry (m : Memory) (e p : UInt32) : MpM (UInt32 ⊕ Unit) :=
  if p < e then
    if m p = MPPROC then do
      mpproc m p
      return .inl (p + 20)
    else if m p = MPIOAPIC then do
      modify fun s => { s with ioapicid := m (p + 1) }
      return .inl (p + 8)
    else if m p = MPBUS ∨ m p = MPIOINTR ∨ m p = MPLINTR then
      return .inl (p + 8)
    else do
      -- `default`: nothing moves `p` on
      modify fun s => { s with ismp := false }
      return .inl p
  else return .inr ()

def mpend (m : Memory) (mp : UInt32) : MpM Unit :=
  modify fun s =>
    if s.ismp then { s with imcr := m (mp + 12) ≠ 0 }
    else { s with ncpu := 1, lapic := 0, ioapicid := 0 }

/-- `mpinit()`, for at most `fuel` rounds of its loop. -/
def mpinit (m : Memory) (fuel : ℕ) : MpM (Option Unit) := do
  modify fun s => { s with bcpu := 0 }
  match mpconfig m with
  | none => return some ()
  | some (mp, conf) =>
      modify fun s => { s with ismp := true, lapic := m.uint (conf + 36) }
      match ← loop (mpentry m (conf + length m conf)) fuel (conf + 44) with
      | none => return none
      | some () =>
          mpend m mp
          return some ()

end Mp

end Xv6
