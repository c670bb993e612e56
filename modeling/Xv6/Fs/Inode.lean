import Xv6.Fs.State

/-!
# Blocks and inodes

`balloc`, `bfree`, the inode cache and the contents of inodes (`fs.c`), as computations
on the state of the file system. A pointer to an inode is the number of its entry in
the cache.
-/

namespace Xv6

def short (z : ℤ) : ℤ := z.bmod 65536

namespace Dinode

def addr (d : Dinode) (k : ℕ) : ℕ := if h : k < NDIRECT + 1 then d.addrs ⟨k, h⟩ else 0

def setAddr (d : Dinode) (k b : ℕ) : Dinode :=
  { d with addrs := fun j => if j.val = k then b else d.addrs j }

end Dinode

namespace Block

def read (b : Block) (o m : ℕ) : List UInt8 := (List.range m).map fun k => UInt8.ofNat (b.byte (o + k))

def write (b : Block) (o : ℕ) (bs : List UInt8) : Block := fun j =>
  if o ≤ j.val ∧ j.val < o + bs.length then bs.getD (j.val - o) 0 else b j

end Block

namespace FsM

def when (c : Prop) [Decidable c] (m : FsM Unit) : FsM Unit := if c then m else pure ()

/-! ### Blocks -/

def bzero (b : ℕ) : FsM Unit := do
  modify (·.setData b Block.zero)
  logWrite b

/-- `balloc`. The two loops visit the blocks of the image in increasing order. -/
def balloc : FsM ℕ := do
  let s ← get
  match (List.range s.disk.sb.size).find? fun b => !s.disk.bitmap b with
  | some b => do
      set (s.setBit b true)
      logWrite (BBLOCK b s.disk.sb.ninodes)
      bzero b
      return b
  | none => panic .ballocOutOfBlocks

def bfree (b : ℕ) : FsM Unit := do
  let s ← get
  if s.disk.bitmap b = false then panic .freeingFree
  else do
    set (s.setBit b false)
    logWrite (BBLOCK b s.disk.sb.ninodes)

/-! ### Inodes -/

def iupdate (i : Fin NINODE) : FsM Unit := do
  let x ← ip i
  modify (·.setDinode x.inum x.d)
  logWrite (IBLOCK x.inum)

def iget (dev inum : ℕ) : FsM (Fin NINODE) := do
  let s ← get
  match s.icache.iget dev inum with
  | some (i, icache) => do
      set { s with icache := icache }
      return i
  | none => panic .igetNoInodes

def ialloc (dev type : ℕ) : FsM (Fin NINODE) := do
  let s ← get
  match (List.range s.disk.sb.ninodes).find? fun inum =>
    1 ≤ inum ∧ (s.disk.dinode inum).type = 0 with
  | some inum => do
      set (s.setDinode inum (Dinode.fresh type))
      logWrite (IBLOCK inum)
      iget dev inum
  | none => panic .iallocNoInodes

def idup (i : Fin NINODE) : FsM Unit := do
  let x ← ip i
  setIp i { x with ref := x.ref + 1 }

/-- `ilock`. A process that has locked the inode itself is never woken. -/
def ilock (i : Fin NINODE) : FsM Unit := do
  let x ← ip i
  if x.ref < 1 then panic .ilock
  else if x.busy then asleep
  else do
    setIp i { x with busy := true }
    when (!x.valid) do
      let s ← get
      setIp i { x with busy := true, d := s.disk.dinode x.inum, valid := true }
      when ((s.disk.dinode x.inum).type = 0) (panic .ilockNoType)

def iunlock (i : Fin NINODE) : FsM Unit := do
  let x ← ip i
  if !x.busy ∨ x.ref < 1 then panic .iunlock
  else setIp i { x with busy := false }

/-! ### Inode content -/

def bmapTable (i : Fin NINODE) : FsM ℕ := do
  let x ← ip i
  if x.d.addr NDIRECT = 0 then do
    let addr ← balloc
    let x ← ip i
    setIp i { x with d := x.d.setAddr NDIRECT addr }
    return addr
  else return x.d.addr NDIRECT

def bmap (i : Fin NINODE) (bn : ℕ) : FsM ℕ := do
  let x ← ip i
  if bn < NDIRECT then
    if x.d.addr bn = 0 then do
      let addr ← balloc
      let x ← ip i
      setIp i { x with d := x.d.setAddr bn addr }
      return addr
    else return x.d.addr bn
  else if bn - NDIRECT < NINDIRECT then do
    let table ← bmapTable i
    let s ← get
    if (s.disk.data table).word (bn - NDIRECT) = 0 then do
      let addr ← balloc
      modify fun s => s.setData table ((s.disk.data table).setWord (bn - NDIRECT) addr)
      logWrite table
      return addr
    else return (s.disk.data table).word (bn - NDIRECT)
  else panic .bmapOutOfRange

def itruncDirect (i : Fin NINODE) : List ℕ → FsM Unit
  | [] => pure ()
  | j :: js => do
      let x ← ip i
      when (x.d.addr j ≠ 0) do
        bfree (x.d.addr j)
        setIp i { x with d := x.d.setAddr j 0 }
      itruncDirect i js

/-- The second loop of `itrunc`, over the entries of the indirect block. -/
def itruncEntries : List ℕ → FsM Unit
  | [] => pure ()
  | b :: bs => do
      when (b ≠ 0) (bfree b)
      itruncEntries bs

def itruncTable (i : Fin NINODE) : FsM Unit := do
  let x ← ip i
  when (x.d.addr NDIRECT ≠ 0) do
    let s ← get
    itruncEntries ((List.range NINDIRECT).map (s.disk.data (x.d.addr NDIRECT)).word)
    bfree (x.d.addr NDIRECT)
    setIp i { x with d := x.d.setAddr NDIRECT 0 }

def itrunc (i : Fin NINODE) : FsM Unit := do
  itruncDirect i (List.range NDIRECT)
  itruncTable i
  let x ← ip i
  setIp i { x with d := { x.d with size := 0 } }
  iupdate i

/-- The branch of `iput` that frees the inode. -/
def ifree (i : Fin NINODE) : FsM Unit := do
  let x ← ip i
  if x.busy then panic .iputBusy
  else do
    setIp i { x with busy := true }
    itrunc i
    let x ← ip i
    setIp i { x with d := { x.d with type := 0 } }
    iupdate i
    let x ← ip i
    setIp i { x with busy := false, valid := false }

def iput (i : Fin NINODE) : FsM Unit := do
  let x ← ip i
  when (x.ref = 1 ∧ x.valid ∧ x.d.nlink = 0) (ifree i)
  let x ← ip i
  setIp i { x with ref := x.ref - 1 }

def iunlockput (i : Fin NINODE) : FsM Unit := do
  iunlock i
  iput i

/-- The loop of `readi`; each round reads at least one byte, so `fuel = n` suffices. -/
def readBlocks (i : Fin NINODE) : ℕ → ℕ → ℕ → FsM (List UInt8)
  | 0, _, _ => return []
  | fuel + 1, off, n =>
      if n = 0 then return []
      else do
        let b ← bmap i (off / BSIZE)
        let m := min n (BSIZE - off % BSIZE)
        let s ← get
        let rest ← readBlocks i fuel (off + m) (n - m)
        return (s.disk.data b).read (off % BSIZE) m ++ rest

/-- `readi`: the result, and the bytes it stores. -/
def readi (i : Fin NINODE) (off n : ℕ) : FsM (ℤ × List UInt8) := do
  let x ← ip i
  if x.d.type = T_DEV then
    if x.d.major < 0 ∨ x.d.major ≥ NDEV then return (-1, [])
    else do
      let s ← get
      match s.io.devread x.d.major with
      | some read => return read n
      | none => return (-1, [])
  else if off > x.d.size ∨ (off + n) % 2 ^ 32 < off then return (-1, [])
  else do
    let n := if off + n > x.d.size then x.d.size - off else n
    let bs ← readBlocks i n off n
    return (n, bs)

/-- The loop of `writei`; it returns the offset it ends at. -/
def writeBlocks (i : Fin NINODE) : ℕ → ℕ → List UInt8 → FsM ℕ
  | 0, off, _ => return off
  | fuel + 1, off, src =>
      if src = [] then return off
      else do
        let b ← bmap i (off / BSIZE)
        let m := min src.length (BSIZE - off % BSIZE)
        modify fun s => s.setData b ((s.disk.data b).write (off % BSIZE) (src.take m))
        logWrite b
        writeBlocks i fuel (off + m) (src.drop m)

/-- `writei`, of all the bytes of `src`. -/
def writei (i : Fin NINODE) (src : List UInt8) (off : ℕ) : FsM ℤ := do
  let x ← ip i
  if x.d.type = T_DEV then
    if x.d.major < 0 ∨ x.d.major ≥ NDEV then return -1
    else do
      let s ← get
      match s.io.devwrite x.d.major with
      | some write => return write src
      | none => return -1
  else if off > x.d.size ∨ (off + src.length) % 2 ^ 32 < off then return -1
  else if (off + src.length) % 2 ^ 32 > MAXFILE * BSIZE then return -1
  else do
    let off ← writeBlocks i src.length off src
    let x ← ip i
    when (src.length > 0 ∧ off > x.d.size) do
      setIp i { x with d := { x.d with size := off } }
      iupdate i
    return src.length

end FsM

end Xv6
