import Xv6.Fs.State
import Xv6.Proc.Protocol
import Xv6.Vm.Grow

/-!
# The calls that use memory

The functions of `proc.c`, `pipe.c`, `file.c`, `sysfile.c` and `main.c` that take pages and
give them back, one call at a time, as computations on the state of the kernel. What they
do beside memory and open files (the contents of a kernel stack, `pid`, `cwd`, `tf`, the
inode of a file, who is woken up) is left out.
-/

namespace Xv6

open Foundation

/-- `struct proc` (`proc.h`): what concerns memory and open files. -/
structure MemProc where
  state : Procstate
  /-- size of process memory (bytes) -/
  sz : ℕ
  /-- page table -/
  pgdir : Option Pgdir
  /-- bottom of kernel stack for this process -/
  kstack : Option Frame
  parent : Option Slot
  /-- open files -/
  ofile : Fin NOFILE → Option (Fin NFILE)

/-- A slot of `ptable` before its first use. -/
def MemProc.zero : MemProc := ⟨.UNUSED, 0, none, none, none, fun _ => none⟩

structure PipeEnds where
  /-- read fd is still open -/
  readopen : Bool
  /-- write fd is still open -/
  writeopen : Bool

/-- An entry of `ftable` before its first use. -/
def File.zero : File := ⟨.none, 0, false, false, 0, 0, 0⟩

/-- The state of the kernel. A pipe is known by the page that it is kept in. -/
structure Kernel where
  vm : Vm
  kpgdir : Option Pgdir
  proc : Slot → MemProc
  ftable : Fin NFILE → File
  pipe : Frame → PipeEnds

abbrev KernelM := StateT Kernel (Except VmStop)

namespace Kernel

def setVm (w : Kernel) (s : Vm) : Kernel := { w with vm := s }

def setProc (w : Kernel) (p : Slot) (x : MemProc) : Kernel :=
  { w with proc := Function.update w.proc p x }

def setFile (w : Kernel) (f : Fin NFILE) (x : File) : Kernel :=
  { w with ftable := Function.update w.ftable f x }

def setPipe (w : Kernel) (p : Frame) (x : PipeEnds) : Kernel :=
  { w with pipe := Function.update w.pipe p x }

def passChildren (w : Kernel) (p : Slot) : Kernel :=
  { w with
    proc := fun q =>
      if (w.proc q).parent = some p then { w.proc q with parent := some initproc }
      else w.proc q }

end Kernel

namespace KernelM

def onVm {α : Type} (m : VmM α) : KernelM α := fun w =>
  match m w.vm with
  | .ok (a, s) => .ok (a, w.setVm s)
  | .error e => .error e

def panic {α : Type} (e : Panic) : KernelM α := throw (.panic e)

def proc (p : Slot) : KernelM MemProc := do return (← get).proc p

def setProc (p : Slot) (x : MemProc) : KernelM Unit := modify (·.setProc p x)

def setFile (f : Fin NFILE) (x : File) : KernelM Unit := modify (·.setFile f x)

def setPipe (p : Frame) (x : PipeEnds) : KernelM Unit := modify (·.setPipe p x)

def pgdir (p : Slot) : KernelM Pgdir := do
  match (← proc p).pgdir with
  | some d => return d
  | none => throw .nullPtr

def freevm : Option Pgdir → KernelM Unit
  | none => panic .freevmNoPgdir
  | some d => onVm (VmM.freevm d)

/-- `kfree` of a pointer that may be null. -/
def kfree : Option Frame → KernelM Unit
  | none => panic .kfree
  | some f => onVm (VmM.kfree f)

/-! ### Files and pipes -/

def filealloc : KernelM (Option (Fin NFILE)) := do
  let w ← get
  match (List.finRange NFILE).find? fun f => (w.ftable f).ref = 0 with
  | none => return none
  | some f => do
      setFile f { w.ftable f with ref := 1 }
      return some f

def filedup (f : Fin NFILE) : KernelM Unit := do
  let x := (← get).ftable f
  if x.ref < 1 then panic .filedup
  else setFile f { x with ref := x.ref + 1 }

def pipeclose (p : Frame) (writable : Bool) : KernelM Unit := do
  let x := (← get).pipe p
  let x := if writable then { x with writeopen := false } else { x with readopen := false }
  setPipe p x
  if !x.readopen && !x.writeopen then onVm (VmM.kfree p)

def fileclose (f : Fin NFILE) : KernelM Unit := do
  let ff := (← get).ftable f
  if ff.ref < 1 then panic .fileclose
  else if ff.ref - 1 > 0 then setFile f { ff with ref := ff.ref - 1 }
  else do
    setFile f { ff with ref := 0, type := .none }
    if ff.type = .pipe then pipeclose ff.pipe ff.writable

/-- The two files of `pipealloc` when it has got everything. -/
def openPipe (f0 f1 : Fin NFILE) (p : Frame) : KernelM Unit := do
  setPipe p ⟨true, true⟩
  setFile f0 { (← get).ftable f0 with type := .pipe, readable := true, writable := false, pipe := p }
  setFile f1 { (← get).ftable f1 with type := .pipe, readable := false, writable := true, pipe := p }

/-- `pipealloc`. At `bad` there is never a pipe to free. -/
def pipealloc : KernelM (Option (Fin NFILE × Fin NFILE)) := do
  match ← filealloc with
  | none => return none
  | some f0 => do
      match ← filealloc with
      | none => do
          fileclose f0
          return none
      | some f1 => do
          match ← onVm VmM.kalloc with
          | none => do
              fileclose f0
              fileclose f1
              return none
          | some p => do
              openPipe f0 f1 p
              return some (f0, f1)

def fdalloc (p : Slot) (f : Fin NFILE) : KernelM (Option (Fin NOFILE)) := do
  let x ← proc p
  match (List.finRange NOFILE).find? fun fd => x.ofile fd = none with
  | none => return none
  | some fd => do
      setProc p { x with ofile := Function.update x.ofile fd (some f) }
      return some fd

def clearFd (p : Slot) (fd : Fin NOFILE) : KernelM Unit := do
  let x ← proc p
  setProc p { x with ofile := Function.update x.ofile fd none }

/-- `sys_pipe`, once its argument has been fetched. -/
def sys_pipe (p : Slot) : KernelM (Option (Fin NOFILE × Fin NOFILE)) := do
  match ← pipealloc with
  | none => return none
  | some (rf, wf) => do
      match ← fdalloc p rf with
      | none => do
          fileclose rf
          fileclose wf
          return none
      | some fd0 => do
          match ← fdalloc p wf with
          | none => do
              clearFd p fd0
              fileclose rf
              fileclose wf
              return none
          | some fd1 => return some (fd0, fd1)

/-- `sys_dup`, for a descriptor in range. -/
def sys_dup (p : Slot) (fd : Fin NOFILE) : KernelM (Option (Fin NOFILE)) := do
  match (← proc p).ofile fd with
  | none => return none
  | some f => do
      match ← fdalloc p f with
      | none => return none
      | some fd => do
          filedup f
          return some fd

/-- `sys_open`, once the inode has been found or created; there is none if that fails. -/
def sys_open (p : Slot) (ip : Option (Fin NINODE)) (readable writable : Bool) :
    KernelM (Option (Fin NOFILE)) := do
  match ip with
  | none => return none
  | some ip => do
      match ← filealloc with
      | none => return none
      | some f => do
          match ← fdalloc p f with
          | none => do
              fileclose f
              return none
          | some fd => do
              setFile f { (← get).ftable f with
                type := .inode, ip := ip, off := 0, readable := readable, writable := writable }
              return some fd

/-- `sys_close`, for a descriptor in range; does it succeed? -/
def sys_close (p : Slot) (fd : Fin NOFILE) : KernelM Bool := do
  match (← proc p).ofile fd with
  | none => return false
  | some f => do
      clearFd p fd
      fileclose f
      return true

/-! ### Processes -/

def allocproc : KernelM (Option Slot) := do
  let w ← get
  match (List.finRange NPROC).find? fun p => (w.proc p).state = .UNUSED with
  | none => return none
  | some p => do
      match ← onVm VmM.kalloc with
      | none => do
          setProc p { w.proc p with state := .UNUSED, kstack := none }
          return none
      | some f => do
          setProc p { w.proc p with state := .EMBRYO, kstack := some f }
          return some p

/-- The loop of `fork` over the open files. -/
def dupFiles (p np : Slot) : List (Fin NOFILE) → KernelM Unit
  | [] => return ()
  | fd :: fds => do
      match (← proc p).ofile fd with
      | none => dupFiles p np fds
      | some f => do
          filedup f
          let x ← proc np
          setProc np { x with ofile := Function.update x.ofile fd (some f) }
          dupFiles p np fds

def fork (p : Slot) : KernelM (Option Slot) := do
  match ← allocproc with
  | none => return none
  | some np => do
      match ← onVm (VmM.copyuvm (← pgdir p) (← proc p).sz) with
      | none => do
          kfree (← proc np).kstack
          setProc np { ← proc np with pgdir := none, kstack := none, state := .UNUSED }
          return none
      | some d => do
          setProc np { ← proc np with pgdir := some d, sz := (← proc p).sz, parent := some p }
          dupFiles p np (List.finRange NOFILE)
          setProc np { ← proc np with state := .RUNNABLE }
          return some np

/-- The loop of `exit` over the open files. -/
def closeFiles (p : Slot) : List (Fin NOFILE) → KernelM Unit
  | [] => return ()
  | fd :: fds => do
      match (← proc p).ofile fd with
      | none => closeFiles p fds
      | some f => do
          fileclose f
          clearFd p fd
          closeFiles p fds

def exit (p : Slot) : KernelM Unit := do
  if p = initproc then panic .initExiting
  else do
    closeFiles p (List.finRange NOFILE)
    modify fun w => w.passChildren p
    setProc p { ← proc p with state := .ZOMBIE }

/-- `wait`, as far as it gets before it sleeps: the slot of the child. -/
def wait (p : Slot) : KernelM (Option Slot) := do
  let w ← get
  match (List.finRange NPROC).find? fun q =>
      (w.proc q).parent = some p ∧ (w.proc q).state = .ZOMBIE with
  | none => return none
  | some q => do
      kfree (w.proc q).kstack
      freevm (w.proc q).pgdir
      setProc q { w.proc q with kstack := none, state := .UNUSED, parent := none }
      return some q

/-- `growproc`; does it succeed? -/
def growproc (p : Slot) (n : ℤ) : KernelM Bool := do
  let x ← proc p
  if n > 0 then do
    let (d, sz) ← onVm (VmM.allocuvm (← pgdir p) x.sz (uint (x.sz + n)))
    if sz = 0 then do
      setProc p { x with pgdir := some d }
      return false
    else do
      setProc p { x with pgdir := some d, sz := sz }
      return true
  else if n < 0 then do
    let (d, sz) ← onVm (VmM.deallocuvm (← pgdir p) x.sz (uint (x.sz + n)))
    if sz = 0 then do
      setProc p { x with pgdir := some d }
      return false
    else do
      setProc p { x with pgdir := some d, sz := sz }
      return true
  else return true

def exec (p : Slot) (file : Option Reader) (stack path : List UInt8) (argv : List (List UInt8)) :
    KernelM (Option Image) := do
  match ← onVm (VmM.exec file stack path argv (← pgdir p)) with
  | none => return none
  | some image => do
      setProc p { ← proc p with pgdir := some image.pgdir, sz := image.sz }
      return some image

/-! ### Start of the kernel -/

/-- The loop of `freerange`, with the number of pages to go. -/
def freerangeLoop : ℕ → Frame → VmM Unit
  | 0, _ => return ()
  | n + 1, f => do
      VmM.kfree f
      freerangeLoop n (f + 1)

/-- `freerange`, from one physical address to another. -/
def freerange (vstart vend : ℕ) : VmM Unit :=
  freerangeLoop (vend / PGSIZE - PGROUNDUP vstart / PGSIZE) (PGROUNDUP vstart / PGSIZE)

def inituvm (d : Pgdir) (init : List UInt8) : VmM Pgdir :=
  if init.length ≥ PGSIZE then VmM.panic .inituvmSize
  else do
    match ← VmM.kalloc with
    | none => throw .nullPtr
    | some mem => do
        VmM.clear mem
        let (d, _) ← VmM.mappages d 0 PGSIZE mem ⟨true, true⟩
        VmM.store mem (((← get).page mem).write 0 init)
        return d

/-- `userinit`, with the first program. -/
def userinit (initcode : List UInt8) : KernelM Unit := do
  match ← allocproc with
  | none => throw .nullPtr
  | some p => do
      match ← onVm VmM.setupkvm with
      | none => panic .userinitMemory
      | some d => do
          let d ← onVm (inituvm d initcode)
          setProc p { ← proc p with pgdir := some d, sz := PGSIZE, state := .RUNNABLE }

def kvmalloc : KernelM Unit := do
  match ← onVm VmM.setupkvm with
  | none => throw .nullPtr
  | some d => modify fun w => { w with kpgdir := some d }

/-- `main`, on a machine with one CPU. -/
def main (initcode : List UInt8) : KernelM Unit := do
  let link := (← get).vm.link
  onVm (freerange link.kend (4 * 1024 * 1024))
  kvmalloc
  onVm (freerange (4 * 1024 * 1024) PHYSTOP)
  userinit initcode

end KernelM

namespace Kernel

/-- The machine before `main`, with what is in memory. -/
def reset (link : Linker) (page : Frame → Page) : Kernel where
  vm := ⟨[], [], page, link, 0, [], [], false⟩
  kpgdir := none
  proc := fun _ => .zero
  ftable := fun _ => .zero
  pipe := fun _ => ⟨false, false⟩

end Kernel

end Xv6
