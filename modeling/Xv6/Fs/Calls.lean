import Xv6.Fs.Names
import Xv6.Vm.Exec

/-!
# The system calls on files and directories

Open files (`file.c`), the calls of `sysfile.c` that make, link, remove and open files, and what
`exec` and `exit` do with files. The arguments are what `argstr` and `argint` have fetched, or
nothing when they fail. A pipe has no state here.
-/

namespace Xv6

/-! Modes of `open` (`fcntl.h`). -/

def O_RDONLY : UInt32 := 0x000
def O_WRONLY : UInt32 := 0x001
def O_RDWR : UInt32 := 0x002
def O_CREATE : UInt32 := 0x200

namespace FsM

/-! ### Open files -/

def filealloc : FsM (Option (Fin NFILE)) := do
  let s ← get
  match (List.finRange NFILE).find? fun f => (s.user.ftable f).ref = 0 with
  | some f => do
      set (s.setFile f { s.user.ftable f with ref := 1 })
      return some f
  | none => return none

def fileclose (f : Fin NFILE) : FsM Unit := do
  let s ← get
  let ff := s.user.ftable f
  if ff.ref < 1 then panic .fileclose
  else if ff.ref - 1 > 0 then set (s.setFile f { ff with ref := ff.ref - 1 })
  else do
    set (s.setFile f { ff with ref := 0, type := .none })
    when (ff.type = .inode) do
      beginOp
      iput ff.ip
      endOp

def fdalloc (p : Fin NPROC) (f : Fin NFILE) : FsM (Option (Fin NOFILE)) := do
  let s ← get
  let x := s.user.proc p
  match (List.finRange NOFILE).find? fun fd => (x.ofile fd).isNone with
  | some fd => do
      set (s.setProc p { x with ofile := Function.update x.ofile fd (some f) })
      return some fd
  | none => return none

def argfd (p : Fin NPROC) (fd : Option ℤ) : FsM (Option (Fin NOFILE × Fin NFILE)) := do
  let s ← get
  match fd with
  | none => return none
  | some fd =>
      if h : 0 ≤ fd ∧ fd < NOFILE then
        let k : Fin NOFILE := ⟨fd.toNat, by omega⟩
        return ((s.user.proc p).ofile k).map fun f => (k, f)
      else return none

def clearFd (p : Fin NPROC) (fd : Fin NOFILE) : FsM Unit :=
  modify fun s => s.setProc p
    { s.user.proc p with ofile := Function.update (s.user.proc p).ofile fd none }

def sysClose (p : Fin NPROC) (fd : Option ℤ) : FsM ℤ := do
  match ← argfd p fd with
  | none => return -1
  | some (fd, f) => do
      clearFd p fd
      fileclose f
      return 0

def closeFiles (p : Fin NPROC) : List (Fin NOFILE) → FsM Unit
  | [] => pure ()
  | fd :: fds => do
      let s ← get
      match (s.user.proc p).ofile fd with
      | none => closeFiles p fds
      | some f => do
          fileclose f
          clearFd p fd
          closeFiles p fds

def exit (p : Fin NPROC) : FsM Unit := do
  closeFiles p (List.finRange NOFILE)
  beginOp
  let s ← get
  iput (s.user.proc p).cwd
  endOp
  modify fun s => s.setProc p { s.user.proc p with cwd := 0, state := .zombie }

/-! ### Links -/

/-- The links of the inode are counted anew: `ip->nlink` is a `short`. -/
def setNlink (i : Fin NINODE) (f : ℤ → ℤ) : FsM Unit := do
  let x ← ip i
  setIp i { x with d := { x.d with nlink := short (f x.d.nlink) } }
  iupdate i

/-- `sys_link`, from `nameiparent` to `iunlockput` of the directory. Without a link it is `bad`. -/
def linkName (p : Fin NPROC) (i : Fin NINODE) (new : List UInt8) : FsM Bool := do
  match ← nameiparent p new with
  | none => return false
  | some (dp, name) => do
      ilock dp
      let x ← ip i
      let y ← ip dp
      if y.dev ≠ x.dev then do
        iunlockput dp
        return false
      else do
        let r ← dirlink dp name x.inum
        iunlockput dp
        return decide (0 ≤ r)

def sysLink (p : Fin NPROC) (old new : Option (List UInt8)) : FsM ℤ := do
  match old, new with
  | some old, some new => do
      beginOp
      match ← namei p old with
      | none => do
          endOp
          return -1
      | some i => do
          ilock i
          let x ← ip i
          if x.d.type = T_DIR then do
            iunlockput i
            endOp
            return -1
          else do
            setNlink i (· + 1)
            iunlock i
            if ← linkName p i new then do
              iput i
              endOp
              return 0
            else do
              ilock i
              setNlink i (· - 1)
              iunlockput i
              endOp
              return -1
  | _, _ => return -1

def isdirempty (dp : Fin NINODE) : FsM Bool := do
  let found ← scanFrom .isdiremptyReadi dp (fun de => de.inum ≠ 0) (2 * Dirent.size)
  return found.isNone

/-- `ip->type == T_DIR && !isdirempty(ip)`. -/
def hasEntries (i : Fin NINODE) : FsM Bool := do
  let x ← ip i
  if x.d.type = T_DIR then do
    let empty ← isdirempty i
    return !empty
  else return false

/-- `sys_unlink`, from the zeroing of the entry on. -/
def unlinkEntry (dp i : Fin NINODE) (off : ℕ) : FsM Unit := do
  let r ← writei dp (Dirent.bytes .zero) off
  if r ≠ Dirent.size then panic .unlinkWritei
  else do
    let x ← ip i
    when (x.d.type = T_DIR) (setNlink dp (· - 1))
    iunlockput dp
    setNlink i (· - 1)
    iunlockput i

/-- `sys_unlink`, in the locked directory. What is not removed is `bad`. -/
def unlinkName (dp : Fin NINODE) (name : List UInt8) : FsM Bool := do
  if namecmp name dot ∨ namecmp name dotdot then return false
  else do
    match ← dirlookup dp name with
    | none => return false
    | some (i, off) => do
        ilock i
        let x ← ip i
        if x.d.nlink < 1 then panic .unlinkNlink
        else if ← hasEntries i then do
          iunlockput i
          return false
        else do
          unlinkEntry dp i off
          return true

def sysUnlink (p : Fin NPROC) (path : Option (List UInt8)) : FsM ℤ := do
  match path with
  | none => return -1
  | some path => do
      beginOp
      match ← nameiparent p path with
      | none => do
          endOp
          return -1
      | some (dp, name) => do
          ilock dp
          if ← unlinkName dp name then do
            endOp
            return 0
          else do
            iunlockput dp
            endOp
            return -1

/-! ### New files -/

/-- `create`, the entries `.` and `..`. -/
def createDots (dp i : Fin NINODE) : FsM Unit := do
  setNlink dp (· + 1)
  let x ← ip i
  let r ← dirlink i dot x.inum
  if r < 0 then panic .createDots
  else do
    let y ← ip dp
    let r ← dirlink i dotdot y.inum
    if r < 0 then panic .createDots else pure ()

/-- `create`, from `ialloc` on. -/
def createNew (dp : Fin NINODE) (name : List UInt8) (type : ℕ) (major minor : ℤ) :
    FsM (Fin NINODE) := do
  let y ← ip dp
  let i ← ialloc y.dev type
  ilock i
  let x ← ip i
  setIp i { x with d := { x.d with major := major, minor := minor, nlink := 1 } }
  iupdate i
  when (type = T_DIR) (createDots dp i)
  let x ← ip i
  let r ← dirlink dp name x.inum
  if r < 0 then panic .createDirlink
  else do
    iunlockput dp
    return i

def create (p : Fin NPROC) (path : List UInt8) (type : ℕ) (major minor : ℤ) :
    FsM (Option (Fin NINODE)) := do
  match ← nameiparent p path with
  | none => return none
  | some (dp, name) => do
      ilock dp
      match ← dirlookup dp name with
      | some (i, _) => do
          iunlockput dp
          ilock i
          let x ← ip i
          if type = T_FILE ∧ x.d.type = T_FILE then return some i
          else do
            iunlockput i
            return none
      | none => do
          let i ← createNew dp name type major minor
          return some i

/-- `sys_mkdir` and `sys_mknod`, once the inode has been made or not. -/
def created (i : Option (Fin NINODE)) : FsM ℤ := do
  match i with
  | none => do
      endOp
      return -1
  | some i => do
      iunlockput i
      endOp
      return 0

def sysMkdir (p : Fin NPROC) (path : Option (List UInt8)) : FsM ℤ := do
  beginOp
  match path with
  | none => created none
  | some path => do
      let i ← create p path T_DIR 0 0
      created i

/-- `sys_mknod`: `create` takes `short`s. -/
def sysMknod (p : Fin NPROC) (path : Option (List UInt8)) (major minor : Option ℤ) : FsM ℤ := do
  beginOp
  match path, major, minor with
  | some path, some major, some minor => do
      let i ← create p path T_DEV (short major) (short minor)
      created i
  | _, _, _ => created none

/-! ### `open` and `chdir` -/

def openInode (p : Fin NPROC) (path : List UInt8) (omode : UInt32) :
    FsM (Option (Fin NINODE)) := do
  if omode &&& O_CREATE ≠ 0 then create p path T_FILE 0 0
  else do
    match ← namei p path with
    | none => return none
    | some i => do
        ilock i
        let x ← ip i
        if x.d.type = T_DIR ∧ omode ≠ O_RDONLY then do
          iunlockput i
          return none
        else return some i

def openFile (p : Fin NPROC) : FsM (Option (Fin NFILE × Fin NOFILE)) := do
  match ← filealloc with
  | none => return none
  | some f => do
      match ← fdalloc p f with
      | none => do
          fileclose f
          return none
      | some fd => return some (f, fd)

def sysOpen (p : Fin NPROC) (path : Option (List UInt8)) (omode : Option UInt32) : FsM ℤ := do
  match path, omode with
  | some path, some omode => do
      beginOp
      match ← openInode p path omode with
      | none => do
          endOp
          return -1
      | some i => do
          match ← openFile p with
          | none => do
              iunlockput i
              endOp
              return -1
          | some (f, fd) => do
              iunlock i
              endOp
              modify fun s => s.setFile f
                { s.user.ftable f with
                  type := .inode, ip := i, off := 0
                  readable := omode &&& O_WRONLY = 0
                  writable := omode &&& O_WRONLY ≠ 0 ∨ omode &&& O_RDWR ≠ 0 }
              return fd.val
  | _, _ => return -1

def sysChdir (p : Fin NPROC) (path : Option (List UInt8)) : FsM ℤ := do
  beginOp
  match path with
  | none => do
      endOp
      return -1
  | some path => do
      match ← namei p path with
      | none => do
          endOp
          return -1
      | some i => do
          ilock i
          let x ← ip i
          if x.d.type ≠ T_DIR then do
            iunlockput i
            endOp
            return -1
          else do
            iunlock i
            let s ← get
            iput (s.user.proc p).cwd
            endOp
            modify fun s => s.setProc p { s.user.proc p with cwd := i }
            return 0

/-! ### `exec` -/

/-- What `exec` gets from the memory of the kernel, by the number of the call. -/
structure Paging where
  setupkvm : Bool
  allocuvm : ℕ → ℕ → ℕ → ℕ
  mapped : ℕ → ℕ → Bool

/-- The loop of `loaduvm`, with the number of pages to go. -/
def loaduvmLoop (m : Paging) (call addr : ℕ) (i : Fin NINODE) (offset sz : ℕ) :
    ℕ → ℕ → FsM Bool
  | 0, _ => return true
  | rounds + 1, k =>
      if !m.mapped call (uint (addr + k)) then panic .loaduvmAddress
      else do
        let n := if sz - k < PGSIZE then sz - k else PGSIZE
        let r ← readi i (uint (offset + k)) n
        if r.1 ≠ n then return false
        else loaduvmLoop m call addr i offset sz rounds (k + PGSIZE)

def loaduvm (m : Paging) (call addr : ℕ) (i : Fin NINODE) (offset sz : ℕ) : FsM Bool :=
  if addr % PGSIZE ≠ 0 then panic .loaduvmAligned
  else loaduvmLoop m call addr i offset sz ((sz + PGSIZE - 1) / PGSIZE) 0

/-- The loop of `exec` over the program headers, with the number of headers to go. -/
def loadSegments (m : Paging) (i : Fin NINODE) : ℕ → ℕ → ℕ → FsM Bool
  | 0, _, _ => return true
  | n + 1, off, sz => do
      let r ← readi i off sizeofProghdr
      if r.1 ≠ sizeofProghdr then return false
      else do
        let ph := Proghdr.ofBytes r.2
        if ph.type ≠ ELF_PROG_LOAD then loadSegments m i n (uint (off + sizeofProghdr)) sz
        else if ph.memsz < ph.filesz then return false
        else do
          let sz := m.allocuvm n sz (uint (ph.vaddr + ph.memsz))
          if sz = 0 then return false
          else if ← loaduvm m n ph.vaddr i ph.off ph.filesz then
            loadSegments m i n (uint (off + sizeofProghdr)) sz
          else return false

/-- `exec`, between `ilock` and `iunlockput`. The header `elf` holds `stack` before it is read. -/
def loadImage (m : Paging) (stack : List UInt8) (i : Fin NINODE) : FsM Bool := do
  let r ← readi i 0 sizeofElfhdr
  if uint r.1 < sizeofElfhdr then return false
  else do
    let elf := Elfhdr.ofBytes (r.2 ++ stack.drop r.2.length)
    if elf.magic ≠ ELF_MAGIC then return false
    else if !m.setupkvm then return false
    else loadSegments m i elf.phnum elf.phoff 0

/-- `exec`, up to `end_op`: is the file loaded? -/
def exec (m : Paging) (stack : List UInt8) (p : Fin NPROC) (path : List UInt8) : FsM Bool := do
  beginOp
  match ← namei p path with
  | none => do
      endOp
      return false
  | some i => do
      ilock i
      let loaded ← loadImage m stack i
      iunlockput i
      endOp
      return loaded

end FsM

end Xv6
