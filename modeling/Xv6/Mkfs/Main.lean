import Xv6.Foundation.Hoare
import Xv6.Fs.Names
import Xv6.Mkfs.Sectors

/-!
# `mkfs`

The program that builds the image of a file system (`mkfs.c`). The image is a file of sectors that
grows when it is written behind its end; a read behind its end fails. The calls of `open` and
`write` succeed. A file is given by its name and by what the calls of `read` return of it, one after
the other.
-/

namespace Xv6

namespace Mkfs

inductive Fault where
  /-- an `assert` fails -/
  | assertion
  /-- `perror`, and status 1 -/
  | perror
  deriving DecidableEq

/-- The image file and the variables of `mkfs`. -/
structure State where
  img : ℕ → Block
  /-- how many sectors the image file has -/
  sectors : ℕ
  freeblock : ℕ
  usedblocks : ℕ
  freeinode : ℕ

abbrev M := StateT State (Except Fault)

structure Input where
  name : List UInt8
  nul : 0 ∉ name
  chunks : List (List UInt8)
  /-- `(cc = read(fd, buf, sizeof(buf))) > 0` -/
  read : ∀ c ∈ chunks, c ≠ [] ∧ c.length ≤ BSIZE

def nblocks : ℕ := 995 - LOGSIZE
def nlog : ℕ := LOGSIZE
def ninodes : ℕ := 200
def size : ℕ := 1024
def bitblocks : ℕ := size / (512 * 8) + 1

def assert (c : Prop) [Decidable c] : M Unit := if c then pure () else throw .assertion

def wsect (sec : ℕ) (buf : Block) : M Unit :=
  modify fun s =>
    { s with img := Function.update s.img sec buf, sectors := max s.sectors (sec + 1) }

def rsect (sec : ℕ) : M Block := do
  let s ← get
  if sec < s.sectors then return s.img sec else throw .perror

def i2b (inum : ℕ) : ℕ := inum / IPB + 2

def winode (inum : ℕ) (ip : Dinode) : M Unit := do
  let buf ← rsect (i2b inum)
  wsect (i2b inum) (buf.setDinode (inum % IPB) ip)

def rinode (inum : ℕ) : M Dinode := do
  let buf ← rsect (i2b inum)
  return buf.dinode (inum % IPB)

def ialloc (type : ℕ) : M ℕ := do
  let s ← get
  set { s with freeinode := s.freeinode + 1 }
  winode s.freeinode { Dinode.zero with type := type, nlink := 1, size := 0 }
  return s.freeinode

/-- `freeblock++; usedblocks++;` -/
def newblock : M ℕ := do
  let s ← get
  set { s with freeblock := s.freeblock + 1, usedblocks := s.usedblocks + 1 }
  return s.freeblock

def indirectBlock (din : Dinode) : M Dinode :=
  if din.addr NDIRECT = 0 then do
    let b ← newblock
    return din.setAddr NDIRECT b
  else return din

def sector (din : Dinode) (fbn : ℕ) : M (Dinode × ℕ) := do
  if fbn < NDIRECT then
    if din.addr fbn = 0 then do
      let b ← newblock
      return (din.setAddr fbn b, b)
    else return (din, din.addr fbn)
  else do
    let din ← indirectBlock din
    let indirect ← rsect (din.addr NDIRECT)
    if indirect.word (fbn - NDIRECT) = 0 then do
      let b ← newblock
      wsect (din.addr NDIRECT) (indirect.setWord (fbn - NDIRECT) b)
      return (din, b)
    else return (din, indirect.word (fbn - NDIRECT))

/-- The loop of `iappend`; each round appends at least one byte, so `fuel = p.length` suffices. -/
def appendLoop : ℕ → Dinode → ℕ → List UInt8 → M (Dinode × ℕ)
  | 0, din, off, _ => return (din, off)
  | fuel + 1, din, off, p =>
      if p = [] then return (din, off)
      else do
        assert (off / 512 < MAXFILE)
        let (din, x) ← sector din (off / 512)
        let n1 := min p.length ((off / 512 + 1) * 512 - off)
        let buf ← rsect x
        wsect x (buf.write (off - off / 512 * 512) (p.take n1))
        appendLoop fuel din (off + n1) (p.drop n1)

def iappend (inum : ℕ) (p : List UInt8) : M Unit := do
  let din ← rinode inum
  let (din, off) ← appendLoop p.length din din.size p
  winode inum { din with size := off }

def balloc (used : ℕ) : M Unit := do
  assert (used < 512 * 8)
  wsect (ninodes / IPB + 3) ((List.range used).foldl Block.mark Block.zero)

/-- A leading `_` of a name is skipped. -/
def skipUnderscore (name : List UInt8) : List UInt8 :=
  if name.head? = some 95 then name.tail else name

def copy (inum : ℕ) : List (List UInt8) → M Unit
  | [] => pure ()
  | buf :: chunks => do
      iappend inum buf
      copy inum chunks

def addFiles : List Input → M Unit
  | [] => pure ()
  | file :: files => do
      assert (slash ∉ file.name)
      let inum ← ialloc T_FILE
      iappend ROOTINO (Dirent.bytes ⟨inum, skipUnderscore file.name⟩)
      copy inum file.chunks
      addFiles files

/-- `for(i = 0; i < nblocks + usedblocks + nlog; i++) wsect(i, zeroes);` -/
def wipe : List ℕ → M Unit
  | [] => pure ()
  | i :: is => do
      wsect i Block.zero
      wipe is

def fixRoot : M Unit := do
  let din ← rinode ROOTINO
  winode ROOTINO { din with size := (din.size / BSIZE + 1) * BSIZE }

def main (files : List Input) : M Unit := do
  let s ← get
  assert (nblocks + s.usedblocks + nlog = size)
  wipe (List.range (nblocks + s.usedblocks + nlog))
  wsect 1 ((((Block.zero.setWord 0 size).setWord 1 nblocks).setWord 2 ninodes).setWord 3 nlog)
  let rootino ← ialloc T_DIR
  assert (rootino = ROOTINO)
  iappend ROOTINO (Dirent.bytes ⟨rootino, dot⟩)
  iappend ROOTINO (Dirent.bytes ⟨rootino, dotdot⟩)
  addFiles files
  fixRoot
  let s ← get
  balloc s.usedblocks

/-- The variables before `main` writes to the image; the file has no sectors yet. -/
def start : State where
  img _ := Block.zero
  sectors := 0
  freeblock := ninodes / IPB + 3 + bitblocks
  usedblocks := ninodes / IPB + 3 + bitblocks
  freeinode := 1

/-- What `mkfs` has built when it exits with status 0. -/
def mkfs (files : List Input) : Except Fault State := (main files start).map Prod.snd

def disk (img : ℕ → Block) : FsDisk where
  sb := (img 1).superblock
  dinode n := (img (IBLOCK n)).dinode (n % IPB)
  bitmap b := (img (BBLOCK b (img 1).superblock.ninodes)).bit (b % BPB)
  data := img

end Mkfs

end Xv6
