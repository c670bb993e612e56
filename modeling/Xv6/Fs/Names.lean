import Xv6.Fs.Inode

/-!
# Directories and paths

Directory entries, `dirlookup`, `dirlink` and the lookup of paths (`fs.c`). A string is
the list of its characters without the final NUL; a buffer of `DIRSIZ` characters for a
name is the string in it.
-/

namespace Xv6

def DIRSIZ : ℕ := 14

def cstr (s : List UInt8) : List UInt8 := s.takeWhile (· ≠ 0)

/-- `namecmp` returns 0: `strncmp` finds no difference in `DIRSIZ` characters. -/
def namecmp (s t : List UInt8) : Bool := cstr (s.take DIRSIZ) = cstr (t.take DIRSIZ)

def strncpy (t : List UInt8) (n : ℕ) : List UInt8 :=
  let s := cstr (t.take n)
  s ++ List.replicate (n - s.length) 0

structure Dirent where
  inum : ℕ
  name : List UInt8
  deriving DecidableEq

namespace Dirent

def size : ℕ := 16

/-- The bytes of an entry: `inum` is a `ushort`. -/
def bytes (de : Dirent) : List UInt8 :=
  [UInt8.ofNat de.inum, UInt8.ofNat (de.inum / 256)] ++ strncpy de.name DIRSIZ

def ofBytes (bs : List UInt8) : Dirent where
  inum := (bs.getD 0 0).toNat + 256 * (bs.getD 1 0).toNat
  name := cstr ((bs.drop 2).take DIRSIZ)

/-- `memset(&de, 0, sizeof(de))`. -/
def zero : Dirent := ⟨0, []⟩

end Dirent

def slash : UInt8 := 47

def dot : List UInt8 := [46]

def dotdot : List UInt8 := [46, 46]

def skipelem (path : List UInt8) : Option (List UInt8 × List UInt8) :=
  match path.dropWhile (· = slash) with
  | [] => none
  | s => some ((s.takeWhile (· ≠ slash)).take DIRSIZ,
      (s.dropWhile (· ≠ slash)).dropWhile (· = slash))

namespace FsM

/-- The loops over the entries of a directory: the first entry from `off` on with the
property, and its offset. `e` is the panic of the loop. -/
def scanDir (e : Panic) (i : Fin NINODE) (p : Dirent → Bool) :
    ℕ → ℕ → FsM (Option (ℕ × Dirent))
  | 0, _ => return none
  | fuel + 1, off => do
      let x ← ip i
      if off < x.d.size then do
        let (r, bs) ← readi i off Dirent.size
        if r ≠ Dirent.size then panic e
        else if p (Dirent.ofBytes bs) then return some (off, Dirent.ofBytes bs)
        else scanDir e i p fuel (off + Dirent.size)
      else return none

/-- A scan of the whole directory from an offset. -/
def scanFrom (e : Panic) (i : Fin NINODE) (p : Dirent → Bool) (off : ℕ) :
    FsM (Option (ℕ × Dirent)) := do
  let x ← ip i
  scanDir e i p (x.d.size / Dirent.size + 1) off

/-- `dirlookup`: the inode of the entry, and the offset of the entry. -/
def dirlookup (dp : Fin NINODE) (name : List UInt8) : FsM (Option (Fin NINODE × ℕ)) := do
  let x ← ip dp
  if x.d.type ≠ T_DIR then panic .dirlookupNotDir
  else do
    match ← scanFrom .dirlinkRead dp (fun de => de.inum ≠ 0 ∧ namecmp name de.name) 0 with
    | none => return none
    | some (off, de) => do
        let i ← iget x.dev de.inum
        return some (i, off)

/-- `dirlink`, once the name is known not to be present. -/
def dirlinkNew (dp : Fin NINODE) (name : List UInt8) (inum : ℕ) : FsM ℤ := do
  let x ← ip dp
  let found ← scanFrom .dirlinkRead dp (fun de => de.inum = 0) 0
  -- without a free entry the loop ends at the first multiple of the size past the end
  let off := match found with
    | some (off, _) => off
    | none => (x.d.size + (Dirent.size - 1)) / Dirent.size * Dirent.size
  let r ← writei dp (Dirent.bytes ⟨inum, name⟩) off
  if r ≠ Dirent.size then panic .dirlink
  else return 0

def dirlink (dp : Fin NINODE) (name : List UInt8) (inum : ℕ) : FsM ℤ := do
  match ← dirlookup dp name with
  | some (i, _) => do
      iput i
      return -1
  | none => dirlinkNew dp name inum

def namexLoop (parent : Bool) : ℕ → Fin NINODE → List UInt8 → List UInt8 →
    FsM (Option (Fin NINODE × List UInt8))
  | 0, i, _, name => return some (i, name)
  | fuel + 1, i, path, name =>
      match skipelem path with
      | none =>
          if parent then do
            iput i
            return none
          else return some (i, name)
      | some (name, path) => do
          ilock i
          let x ← ip i
          if x.d.type ≠ T_DIR then do
            iunlockput i
            return none
          else if parent ∧ path = [] then do
            iunlock i
            return some (i, name)
          else do
            match ← dirlookup i name with
            | none => do
                iunlockput i
                return none
            | some (next, _) => do
                iunlockput i
                namexLoop parent fuel next path name

def namexStart (p : Fin NPROC) (path : List UInt8) : FsM (Fin NINODE) := do
  if path.head? = some slash then iget ROOTDEV ROOTINO
  else do
    let s ← get
    idup (s.user.proc p).cwd
    return (s.user.proc p).cwd

/-- `namex`, for the process `p`. -/
def namex (p : Fin NPROC) (path : List UInt8) (parent : Bool) :
    FsM (Option (Fin NINODE × List UInt8)) := do
  let i ← namexStart p path
  namexLoop parent (path.length + 1) i path []

def namei (p : Fin NPROC) (path : List UInt8) : FsM (Option (Fin NINODE)) := do
  let r ← namex p path false
  return r.map Prod.fst

def nameiparent (p : Fin NPROC) (path : List UInt8) :
    FsM (Option (Fin NINODE × List UInt8)) :=
  namex p path true

end FsM

end Xv6
