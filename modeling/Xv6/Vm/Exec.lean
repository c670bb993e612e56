import Xv6.Vm.Paging

/-!
# `exec`

`exec` (`exec.c`) and `loaduvm` (`vm.c`). The file is seen through `readi`, whose answer
can be a different one in each call; `-1` is `none`. The header `elf` is on the stack of
the kernel and holds whatever was there before it is read.
-/

namespace Xv6

/-- Maximum number of arguments of `exec` (`param.h`). -/
def MAXARG : ℕ := 32

def ELF_MAGIC : ℕ := 0x464C457F

def ELF_PROG_LOAD : ℕ := 1

def sizeofElfhdr : ℕ := 52

def sizeofProghdr : ℕ := 32

/-- The answers of `readi`: by the number of the call, the offset and the count. -/
abbrev Reader := ℕ → ℕ → ℕ → Option (List UInt8)

def uintAt (bs : List UInt8) (o : ℕ) : ℕ :=
  (bs.getD o 0).toNat + (bs.getD (o + 1) 0).toNat * 2 ^ 8 +
    (bs.getD (o + 2) 0).toNat * 2 ^ 16 + (bs.getD (o + 3) 0).toNat * 2 ^ 24

def ushortAt (bs : List UInt8) (o : ℕ) : ℕ :=
  (bs.getD o 0).toNat + (bs.getD (o + 1) 0).toNat * 2 ^ 8

def uintBytes (w : ℕ) : List UInt8 := (List.range 4).map fun k => UInt8.ofNat (w / 2 ^ (8 * k))

/-- File header: the fields that `exec` uses (`elf.h`). -/
structure Elfhdr where
  magic : ℕ
  entry : ℕ
  phoff : ℕ
  phnum : ℕ

def Elfhdr.ofBytes (bs : List UInt8) : Elfhdr where
  magic := uintAt bs 0
  entry := uintAt bs 24
  phoff := uintAt bs 28
  phnum := ushortAt bs 44

/-- Program section header: the fields that `exec` uses (`elf.h`). -/
structure Proghdr where
  type : ℕ
  off : ℕ
  vaddr : ℕ
  filesz : ℕ
  memsz : ℕ

def Proghdr.ofBytes (bs : List UInt8) : Proghdr where
  type := uintAt bs 0
  off := uintAt bs 4
  vaddr := uintAt bs 8
  filesz := uintAt bs 16
  memsz := uintAt bs 20

structure Image where
  pgdir : Pgdir
  sz : ℕ
  eip : ℕ
  esp : ℕ
  name : List UInt8

/-- The result of `readi` as an `int`. -/
def readResult : Option (List UInt8) → ℤ
  | none => -1
  | some bs => bs.length

/-- What is in a buffer after `readi`. -/
def readInto (old : List UInt8) : Option (List UInt8) → List UInt8
  | none => old
  | some bs => bs ++ old.drop bs.length

namespace VmM

def readi (file : Reader) (off n : ℕ) : VmM (Option (List UInt8)) := do
  let s ← get
  set { s with nread := s.nread + 1 }
  return (file s.nread off n).map (·.take n)

/-- `readi` to the contents of a page. -/
def readPage (file : Reader) (f : Frame) (off n : ℕ) : VmM (Option (List UInt8)) := do
  match ← readi file off n with
  | none => return none
  | some [] => return some []
  | some bs => do
      store f (((← get).page f).write 0 bs)
      return some bs

/-- The loop of `loaduvm`, with the number of pages to go. -/
def loaduvmLoop (d : Pgdir) (addr : ℕ) (file : Reader) (offset sz : ℕ) : ℕ → ℕ → VmM Bool
  | 0, _ => return true
  | rounds + 1, i => do
      match ← walkpgdir d (uint (addr + i)) false with
      | none => panic .loaduvmAddress
      | some d => do
          let n := if sz - i < PGSIZE then sz - i else PGSIZE
          let r ← readPage file (d.pte (uint (addr + i))).frame (uint (offset + i)) n
          if readResult r ≠ n then return false
          else loaduvmLoop d addr file offset sz rounds (i + PGSIZE)

def loaduvm (d : Pgdir) (addr : ℕ) (file : Reader) (offset sz : ℕ) : VmM Bool :=
  if addr % PGSIZE ≠ 0 then panic .loaduvmAligned
  else loaduvmLoop d addr file offset sz ((sz + PGSIZE - 1) / PGSIZE) 0

/-- The loop of `exec` over the program headers, with the number of headers to go. No
size is `goto bad`. -/
def loadSegments (file : Reader) : ℕ → ℕ → Pgdir → ℕ → VmM (Pgdir × Option ℕ)
  | 0, _, d, sz => return (d, some sz)
  | n + 1, off, d, sz => do
      let r ← readi file off sizeofProghdr
      if readResult r ≠ sizeofProghdr then return (d, none)
      else do
        let ph := Proghdr.ofBytes (readInto [] r)
        if ph.type ≠ ELF_PROG_LOAD then loadSegments file n (uint (off + sizeofProghdr)) d sz
        else if ph.memsz < ph.filesz then return (d, none)
        else do
          let (d, sz) ← allocuvm d sz (uint (ph.vaddr + ph.memsz))
          if sz = 0 then return (d, none)
          else if ← loaduvm d ph.vaddr file ph.off ph.filesz then
            loadSegments file n (uint (off + sizeofProghdr)) d sz
          else return (d, none)

/-- The loop of `exec` over the argument strings: the stack pointer and the addresses of
the strings. Nothing is `goto bad`. -/
def pushArgs (d : Pgdir) : List (List UInt8) → ℕ → ℕ → List ℕ → VmM (Option (ℕ × List ℕ))
  | [], _, sp, ustack => return some (sp, ustack)
  | s :: argv, argc, sp, ustack => do
      if argc ≥ MAXARG then return none
      else do
        let sp := uint (sp - (s.length + 1)) / 4 * 4
        if ← copyout d sp (s ++ [0]) then pushArgs d argv (argc + 1) sp (ustack ++ [sp])
        else return none

/-- The stack of `exec`, from the top of the two pages: the new stack pointer. -/
def pushStack (d : Pgdir) (argv : List (List UInt8)) (sz : ℕ) : VmM (Option ℕ) := do
  match ← pushArgs d argv 0 sz [] with
  | none => return none
  | some (sp, args) => do
      let argc := args.length
      let ustack := [0xffffffff, argc, uint (sp - (argc + 1) * 4)] ++ args ++ [0]
      let sp := uint (sp - (3 + argc + 1) * 4)
      if ← copyout d sp (ustack.flatMap uintBytes) then return some sp else return none

/-- What `exec` does with its page directory: the image, or `goto bad`. -/
def buildImage (file : Reader) (elf : Elfhdr) (argv : List (List UInt8)) (d : Pgdir) :
    VmM (Pgdir × Option (ℕ × ℕ)) := do
  match ← loadSegments file elf.phnum elf.phoff d 0 with
  | (d, none) => return (d, none)
  | (d, some sz) => do
      let sz := PGROUNDUP sz
      let (d, sz) ← allocuvm d sz (uint (sz + 2 * PGSIZE))
      if sz = 0 then return (d, none)
      else do
        let d ← clearpteu d (uint (sz - 2 * PGSIZE))
        match ← pushStack d argv sz with
        | none => return (d, none)
        | some sp => return (d, some (sz, sp))

/-- `elf.magic` is used, after a `readi` of the header with this result. -/
def useHeader (r : Option (List UInt8)) : VmM Unit :=
  modify fun s => { s with unread := s.unread || readResult r ≠ sizeofElfhdr }

def begin : VmM Unit := modify fun s => { s with taken := [], stray := [], unread := false }

/-- The name that `exec` saves: the last element of the path. -/
def lastElem (path : List UInt8) : List UInt8 :=
  (path.reverse.takeWhile (· ≠ 47)).reverse.take 15

/-- `exec`, in a process with this page directory. The file is what `namei` finds; `stack`
is what `elf` holds before it is read. -/
def exec (file : Option Reader) (stack path : List UInt8) (argv : List (List UInt8))
    (oldpgdir : Pgdir) : VmM (Option Image) := do
  begin
  match file with
  | none => return none
  | some file => do
      let r ← readi file 0 sizeofElfhdr
      -- the comparison with `sizeof(elf)` is one of `uint`s
      if uint (readResult r) < sizeofElfhdr then return none
      else do
        useHeader r
        let elf := Elfhdr.ofBytes (readInto stack r)
        if elf.magic ≠ ELF_MAGIC then return none
        else do
          match ← setupkvm with
          | none => return none
          | some d => do
              match ← buildImage file elf argv d with
              | (d, none) => do
                  freevm d
                  return none
              | (d, some (sz, sp)) => do
                  freevm oldpgdir
                  return some ⟨d, sz, elf.entry, sp, lastElem path⟩

end VmM

end Xv6
