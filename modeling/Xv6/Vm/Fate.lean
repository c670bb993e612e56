import Xv6.Vm.Grow

/-!
# What `exec` comes to

What `exec` asks for and how it ends are read off the answers of `readi` and the number of
pages that are granted, without any memory: `segmentNeeds` and `segmentFate` follow the program
headers in the way in which `loadSegments` does, and `pushFate` the arguments. A page table
that is refused or a segment that is out of place counts only once `exec` gets there.
-/

namespace Xv6

open Foundation

variable {file : Reader}

/-- What `readi` returns in call `k`. -/
def answer (file : Reader) (k off n : ℕ) : Option (List UInt8) := (file k off n).map (·.take n)

/-! ### Program headers -/

def chunk (sz i : ℕ) : ℕ := if sz - i < PGSIZE then sz - i else PGSIZE

/-- Whether the loop of `loaduvm` reads everything, and the number of the next `readi`. -/
def loadReads (file : Reader) (offset sz : ℕ) : ℕ → ℕ → ℕ → Bool × ℕ
  | 0, _, k => (true, k)
  | rounds + 1, i, k =>
      if readResult (answer file k (uint (offset + i)) (chunk sz i)) ≠ chunk sz i then (false, k + 1)
      else loadReads file offset sz rounds (i + PGSIZE) (k + 1)

def segmentPages (filesz : ℕ) : ℕ := (filesz + PGSIZE - 1) / PGSIZE

/-- The program header that is read with the `k`-th `readi`. -/
def headerAt (file : Reader) (k off : ℕ) : Proghdr :=
  Proghdr.ofBytes (readInto [] (answer file k off sizeofProghdr))

abbrev HeaderRead (file : Reader) (k off : ℕ) : Prop :=
  readResult (answer file k off sizeofProghdr) = sizeofProghdr

/-- It is the header of a segment to be loaded. -/
structure IsLoad (file : Reader) (k off : ℕ) : Prop where
  read : HeaderRead file k off
  type : (headerAt file k off).type = ELF_PROG_LOAD
  size : (headerAt file k off).filesz ≤ (headerAt file k off).memsz

def segmentEnd (ph : Proghdr) : ℕ := uint (ph.vaddr + ph.memsz)

/-- Whether the segment is read as a whole, and the number of the next `readi`. -/
def segmentReads (file : Reader) (k : ℕ) (ph : Proghdr) : Bool × ℕ :=
  loadReads file ph.off ph.filesz (segmentPages ph.filesz) 0 (k + 1)

def stackNeeds (has : Fin NPDENTRIES → Bool) (sz : ℕ) : List Need :=
  allocNeeds has (PGROUNDUP sz) (uint (PGROUNDUP sz + 2 * PGSIZE))

/-- What `exec` asks for from a program header on, the `n`-th from the last, which it reads
with the `k`-th `readi`. -/
def segmentNeeds (file : Reader) : ℕ → ℕ → (Fin NPDENTRIES → Bool) → ℕ → ℕ → List Need
  | 0, _, has, sz, _ => stackNeeds has sz
  | n + 1, off, has, sz, k =>
      let r := answer file k off sizeofProghdr
      let ph := Proghdr.ofBytes (readInto [] r)
      let newsz := uint (ph.vaddr + ph.memsz)
      let loaded := loadReads file ph.off ph.filesz (segmentPages ph.filesz) 0 (k + 1)
      if readResult r ≠ sizeofProghdr then []
      else if ph.type ≠ ELF_PROG_LOAD then
        segmentNeeds file n (uint (off + sizeofProghdr)) has sz (k + 1)
      else if ph.memsz < ph.filesz then []
      else
        allocNeeds has sz newsz ++
          if allocSize sz newsz ≠ 0 ∧ loaded.1 = true then
            segmentNeeds file n (uint (off + sizeofProghdr)) (allocHas has sz newsz)
              (allocSize sz newsz) loaded.2
          else []

/-! ### How `exec` ends -/

/-- How `exec` ends. It is fatal if it panics or uses a null pointer or a header that it could
not read. It is astray once it works in an address space that is not what it takes it to be:
`allocuvm` has passed over a page table that was refused, or `loaduvm` has written outside of
the size that `allocuvm` returned. -/
inductive Fate where
  | safe
  | fatal
  | astray
deriving DecidableEq

namespace Fate

/-- Unless this is the end, what comes next is. -/
def andThen : Fate → Fate → Fate
  | safe, next => next
  | fate, _ => fate

/-- What comes of `allocuvm` when this is refused: it fails for want of a page, and passes over
a page table. -/
def afterAlloc : Option Need → Fate → Fate
  | none, next => next
  | some .page, _ => safe
  | some .table, _ => astray

theorem afterAlloc_some (need : Need) (next : Fate) :
    afterAlloc (some need) next = afterAlloc (some need) safe := by
  cases need <;> rfl

theorem afterAlloc_ne_fatal (need : Need) (next : Fate) : afterAlloc (some need) next ≠ fatal := by
  cases need <;> simp [afterAlloc]

end Fate

/-- The page tables, the size and the pages that are still granted: the end from there on. -/
abbrev Continuation := (Fin NPDENTRIES → Bool) → ℕ → ℕ → Fate

/-- How the loop of `loaduvm` ends in an address space of this size. -/
def loadFate (file : Reader) (has : Fin NPDENTRIES → Bool) (size addr offset sz : ℕ) :
    ℕ → ℕ → ℕ → Fate
  | 0, _, _ => .safe
  | rounds + 1, i, k =>
      let va := uint (addr + i)
      let r := readResult (answer file k (uint (offset + i)) (chunk sz i))
      if size ≤ va ∧ has (PDX va) = false then .fatal
      else if size ≤ va ∧ 0 < r then .astray
      else if r ≠ chunk sz i then .safe
      else loadFate file has size addr offset sz rounds (i + PGSIZE) (k + 1)

/-- How `loaduvm` ends for a segment. -/
def segmentLoad (file : Reader) (k : ℕ) (has : Fin NPDENTRIES → Bool) (size : ℕ) (ph : Proghdr) :
    Fate :=
  if ph.vaddr % PGSIZE ≠ 0 then .fatal
  else loadFate file has size ph.vaddr ph.off ph.filesz (segmentPages ph.filesz) 0 (k + 1)

/-- How `exec` ends from a program header on. -/
def segmentFate (file : Reader) (cont : Continuation) :
    ℕ → ℕ → (Fin NPDENTRIES → Bool) → ℕ → ℕ → ℕ → Fate
  | 0, _, has, sz, _, g => cont has sz g
  | n + 1, off, has, sz, k, g =>
      let ph := headerAt file k off
      let needs := allocNeeds has sz (segmentEnd ph)
      let size := allocSize sz (segmentEnd ph)
      if ¬ HeaderRead file k off then .safe
      else if ph.type ≠ ELF_PROG_LOAD then
        segmentFate file cont n (uint (off + sizeofProghdr)) has sz (k + 1) g
      else if ph.memsz < ph.filesz then .safe
      else .afterAlloc needs[g]? <|
        if size = 0 then .safe
        else (segmentLoad file k (allocHas has sz (segmentEnd ph)) size ph).andThen <|
          if (segmentReads file k ph).1 = true then
            segmentFate file cont n (uint (off + sizeofProghdr)) (allocHas has sz (segmentEnd ph))
              size (segmentReads file k ph).2 (g - needs.length)
          else .safe

/-- What `copyout` returns in an address space of this size, which ends with a guard page and a
page for the stack; nothing if it uses a null pointer. -/
def copied (has : Fin NPDENTRIES → Bool) (size : ℕ) : ℕ → ℕ → ℕ → Option Bool
  | 0, _, _ => some true
  | fuel + 1, va, len =>
      let va0 := PGROUNDDOWN va
      if len = 0 then some true
      else if size ≤ va0 ∧ has (PDX va0) = false then none
      else if size ≤ va0 ∨ va0 = size - 2 * PGSIZE then some false
      else copied has size fuel (uint (va0 + PGSIZE)) (len - min (PGSIZE - (va - va0)) len)

/-- The stack pointer after a string has been pushed. -/
def pushed (sp len : ℕ) : ℕ := uint (sp - (len + 1)) / 4 * 4

/-- The stack pointer after the array of pointers has been pushed. -/
def pushedLast (sp argc : ℕ) : ℕ := uint (sp - (3 + argc + 1) * 4)

/-- How `exec` ends once it has the stack, from an argument on. -/
def pushFate (has : Fin NPDENTRIES → Bool) (size : ℕ) : List (List UInt8) → ℕ → ℕ → Fate
  | [], argc, sp =>
      if copied has size ((3 + argc + 1) * 4) (pushedLast sp argc) ((3 + argc + 1) * 4) = none then
        .fatal
      else .safe
  | arg :: argv, argc, sp =>
      if argc ≥ MAXARG then .safe
      else
        match copied has size (arg.length + 1) (pushed sp arg.length) (arg.length + 1) with
        | none => .fatal
        | some false => .safe
        | some true => pushFate has size argv (argc + 1) (pushed sp arg.length)

def stackEnd (sz : ℕ) : ℕ := uint (PGROUNDUP sz + 2 * PGSIZE)

/-- How `exec` ends once it has loaded the segments. -/
def stackFate (argv : List (List UInt8)) : Continuation := fun has sz g =>
  let size := allocSize (PGROUNDUP sz) (stackEnd sz)
  .afterAlloc (stackNeeds has sz)[g]? <|
    if size = 0 then .safe
    else pushFate (allocHas has (PGROUNDUP sz) (stackEnd sz)) size argv 0 size

/-- The file header, with what is on the stack where it cannot be read. -/
def elfAt (file : Reader) (stack : List UInt8) (k : ℕ) : Elfhdr :=
  Elfhdr.ofBytes (readInto stack (answer file k 0 sizeofElfhdr))

/-- How `exec` ends once it has the file header, when it reads the next header with the `k`-th
`readi` and `g` pages are granted before one is refused. -/
def imageFate (cont : Continuation) (file : Reader) (elf : Elfhdr) (k g : ℕ) : Fate :=
  if g < kernelNeeds.length then .safe
  else segmentFate file cont elf.phnum elf.phoff kernelHas 0 k (g - kernelNeeds.length)

/-- How `exec` ends, whether or not the file header can be read. -/
def fileFate (cont : Continuation) (file : Option Reader) (stack : List UInt8) (k g : ℕ) : Fate :=
  match file with
  | none => .safe
  | some file =>
      let elf := elfAt file stack k
      if uint (readResult (answer file k 0 sizeofElfhdr)) < sizeofElfhdr ∨ elf.magic ≠ ELF_MAGIC
      then .safe
      else imageFate cont file elf (k + 1) g

/-- The file header can be read, if there is a file. -/
def headerRead (file : Option Reader) (k : ℕ) : Bool :=
  file.all fun f => (answer f k 0 sizeofElfhdr).isSome

/-- How `exec` ends that reads the file header with the `k`-th `readi`, when `g` pages are granted
before one is refused. -/
def execFate (file : Option Reader) (stack : List UInt8) (argv : List (List UInt8)) (k g : ℕ) :
    Fate :=
  if headerRead file k = false then .fatal else fileFate (stackFate argv) file stack k g

/-! ### One header after the other -/

section Header

variable {n off sz k g : ℕ} {has : Fin NPDENTRIES → Bool} {cont cont' : Continuation}

theorem segmentNeeds_other (hread : HeaderRead file k off)
    (htype : (headerAt file k off).type ≠ ELF_PROG_LOAD) :
    segmentNeeds file (n + 1) off has sz k =
      segmentNeeds file n (uint (off + sizeofProghdr)) has sz (k + 1) := by
  rw [segmentNeeds]
  exact (if_neg (not_not.mpr hread)).trans (if_pos htype)

theorem segmentNeeds_load (h : IsLoad file k off) :
    segmentNeeds file (n + 1) off has sz k =
      allocNeeds has sz (segmentEnd (headerAt file k off)) ++
        if allocSize sz (segmentEnd (headerAt file k off)) ≠ 0 ∧
            (segmentReads file k (headerAt file k off)).1 = true then
          segmentNeeds file n (uint (off + sizeofProghdr))
            (allocHas has sz (segmentEnd (headerAt file k off)))
            (allocSize sz (segmentEnd (headerAt file k off)))
            (segmentReads file k (headerAt file k off)).2
        else [] := by
  rw [segmentNeeds]
  exact (if_neg (not_not.mpr h.read)).trans
    ((if_neg (not_not.mpr h.type)).trans (if_neg (Nat.not_lt.mpr h.size)))

theorem segmentNeeds_bad (h : ¬ HeaderRead file k off) :
    segmentNeeds file (n + 1) off has sz k = [] := by
  rw [segmentNeeds]
  exact if_pos h

theorem segmentNeeds_small (hread : HeaderRead file k off)
    (htype : ¬ (headerAt file k off).type ≠ ELF_PROG_LOAD)
    (hsize : (headerAt file k off).memsz < (headerAt file k off).filesz) :
    segmentNeeds file (n + 1) off has sz k = [] := by
  rw [segmentNeeds]
  exact (if_neg (not_not.mpr hread)).trans ((if_neg htype).trans (if_pos hsize))

theorem segmentFate_bad (h : ¬ HeaderRead file k off) :
    segmentFate file cont (n + 1) off has sz k g = .safe := by
  rw [segmentFate]
  exact if_pos h

theorem segmentFate_other (hread : HeaderRead file k off)
    (htype : (headerAt file k off).type ≠ ELF_PROG_LOAD) :
    segmentFate file cont (n + 1) off has sz k g =
      segmentFate file cont n (uint (off + sizeofProghdr)) has sz (k + 1) g := by
  rw [segmentFate]
  exact (if_neg (not_not.mpr hread)).trans (if_pos htype)

theorem segmentFate_small (hread : HeaderRead file k off)
    (htype : ¬ (headerAt file k off).type ≠ ELF_PROG_LOAD)
    (hsize : (headerAt file k off).memsz < (headerAt file k off).filesz) :
    segmentFate file cont (n + 1) off has sz k g = .safe := by
  rw [segmentFate]
  exact (if_neg (not_not.mpr hread)).trans ((if_neg htype).trans (if_pos hsize))

theorem segmentFate_load (h : IsLoad file k off) :
    segmentFate file cont (n + 1) off has sz k g =
      .afterAlloc (allocNeeds has sz (segmentEnd (headerAt file k off)))[g]?
        (if allocSize sz (segmentEnd (headerAt file k off)) = 0 then .safe
        else (segmentLoad file k (allocHas has sz (segmentEnd (headerAt file k off)))
            (allocSize sz (segmentEnd (headerAt file k off))) (headerAt file k off)).andThen <|
          if (segmentReads file k (headerAt file k off)).1 = true then
            segmentFate file cont n (uint (off + sizeofProghdr))
              (allocHas has sz (segmentEnd (headerAt file k off)))
              (allocSize sz (segmentEnd (headerAt file k off)))
              (segmentReads file k (headerAt file k off)).2
              (g - (allocNeeds has sz (segmentEnd (headerAt file k off))).length)
          else .safe) := by
  rw [segmentFate]
  exact (if_neg (not_not.mpr h.read)).trans
    ((if_neg (not_not.mpr h.type)).trans (if_neg (Nat.not_lt.mpr h.size)))

/-- What is safe stays so with a safer end. -/
theorem segmentFate_mono (hcont : ∀ has sz g, cont has sz g = .safe → cont' has sz g = .safe)
    (h : segmentFate file cont n off has sz k g = .safe) :
    segmentFate file cont' n off has sz k g = .safe := by
  induction n generalizing off has sz k g with
  | zero => exact hcont has sz g h
  | succ n ih =>
      by_cases hread : HeaderRead file k off
      swap
      · exact segmentFate_bad hread
      by_cases htype : (headerAt file k off).type ≠ ELF_PROG_LOAD
      · rw [segmentFate_other hread htype] at h ⊢
        exact ih h
      rcases Nat.lt_or_ge (headerAt file k off).memsz (headerAt file k off).filesz with hsize | hsize
      · exact segmentFate_small hread htype hsize
      have hl : IsLoad file k off := ⟨hread, not_not.mp htype, hsize⟩
      rw [segmentFate_load hl] at h ⊢
      cases hneed : (allocNeeds has sz (segmentEnd (headerAt file k off)))[g]? with
      | some need =>
          rw [hneed] at h
          cases need with
          | page => rfl
          | table => cases h
      | none =>
          rw [hneed, Fate.afterAlloc] at h
          rw [Fate.afterAlloc]
          by_cases hsz : allocSize sz (segmentEnd (headerAt file k off)) = 0
          · exact if_pos hsz
          rw [if_neg hsz] at h ⊢
          generalize segmentLoad file k _ _ _ = fate at h ⊢
          cases fate with
          | fatal => cases h
          | astray => cases h
          | safe =>
              rw [Fate.andThen] at h ⊢
              split at h
              · rename_i hloaded
                rw [if_pos hloaded]
                exact ih h
              · rename_i hloaded
                exact if_neg hloaded

/-- Where `exec` does not go astray before or at its stack, no page table is refused. -/
theorem needs_of_fate
    (h : segmentFate file (fun has sz g => .afterAlloc (stackNeeds has sz)[g]? .safe) n off has sz
      k g = .safe) : (segmentNeeds file n off has sz k)[g]? ≠ some .table := fun htable => by
  induction n generalizing off has sz k g with
  | zero =>
      have htable' : (stackNeeds has sz)[g]? = some .table := htable
      rw [segmentFate, htable'] at h
      cases h
  | succ n ih =>
      by_cases hread : HeaderRead file k off
      swap
      · rw [segmentNeeds_bad hread] at htable
        simp at htable
      by_cases htype : (headerAt file k off).type ≠ ELF_PROG_LOAD
      · rw [segmentFate_other hread htype] at h
        rw [segmentNeeds_other hread htype] at htable
        exact ih h htable
      rcases Nat.lt_or_ge (headerAt file k off).memsz (headerAt file k off).filesz with hsize | hsize
      · rw [segmentNeeds_small hread htype hsize] at htable
        simp at htable
      have hl : IsLoad file k off := ⟨hread, not_not.mp htype, hsize⟩
      rw [segmentFate_load hl] at h
      rw [segmentNeeds_load hl] at htable
      cases hneed : (allocNeeds has sz (segmentEnd (headerAt file k off)))[g]? with
      | some need =>
          rw [List.getElem?_append_left (List.getElem?_eq_some_iff.mp hneed).1, hneed] at htable
          rw [hneed, Option.some_inj.mp htable] at h
          cases h
      | none =>
          rw [List.getElem?_append_right (List.getElem?_eq_none_iff.mp hneed)] at htable
          rw [hneed, Fate.afterAlloc] at h
          split at htable
          · rename_i hgo
            rw [if_neg hgo.1] at h
            generalize segmentLoad file k _ _ _ = fate at h
            cases fate with
            | fatal => cases h
            | astray => cases h
            | safe =>
                rw [Fate.andThen, if_pos hgo.2] at h
                exact ih h htable
          · simp at htable

def execNeeds (file : Option Reader) (stack : List UInt8) (k : ℕ) : List Need :=
  match file with
  | none => []
  | some file =>
      let r := answer file k 0 sizeofElfhdr
      let elf := Elfhdr.ofBytes (readInto stack r)
      if uint (readResult r) < sizeofElfhdr ∨ elf.magic ≠ ELF_MAGIC then []
      else kernelNeeds ++ segmentNeeds file elf.phnum elf.phoff kernelHas 0 (k + 1)

/-- What is known before the last end is known of the whole file. -/
theorem fileFate_mono {f : Option Reader} {stack : List UInt8}
    (hcont : ∀ has sz g, cont has sz g = .safe → cont' has sz g = .safe)
    (h : fileFate cont f stack k g = .safe) : fileFate cont' f stack k g = .safe := by
  cases f with
  | none => rfl
  | some file =>
      rw [fileFate] at h ⊢
      split
      · rfl
      rename_i hgood
      rw [if_neg hgood, imageFate] at h
      rw [imageFate]
      split
      · rfl
      rename_i hroom
      rw [if_neg hroom] at h
      exact segmentFate_mono hcont h

/-- Once the kernel part is there, no page table is refused where the end is safe. -/
theorem needs_of_fileFate {f : Option Reader} {stack : List UInt8} {argv : List (List UInt8)}
    (h : fileFate (stackFate argv) f stack k g = .safe) (hroom : kernelNeeds.length ≤ g) :
    (execNeeds f stack k)[g]? ≠ some .table := by
  cases f with
  | none => simp [execNeeds]
  | some file =>
      rw [fileFate] at h
      change (if _ then _ else _ : List Need)[g]? ≠ _
      split
      · simp
      rename_i hgood
      have hgood' : ¬ (uint (readResult (answer file k 0 sizeofElfhdr)) < sizeofElfhdr ∨
          (elfAt file stack k).magic ≠ ELF_MAGIC) := hgood
      rw [if_neg hgood', imageFate, if_neg (Nat.not_lt.mpr hroom)] at h
      rw [List.getElem?_append_right hroom]
      refine needs_of_fate (segmentFate_mono (fun has sz g' hsafe => ?_) h)
      rw [stackFate] at hsafe
      cases hneed : (stackNeeds has sz)[g']? with
      | none => rfl
      | some need =>
          rw [hneed, Fate.afterAlloc_some] at hsafe
          exact hsafe

/-! ### Segments that fit -/

/-- The segments from a program header on are page-aligned and do not wrap around. -/
def SegmentsFit (file : Reader) : ℕ → ℕ → ℕ → ℕ → Prop
  | 0, _, _, _ => True
  | n + 1, off, sz, k =>
      let r := answer file k off sizeofProghdr
      let ph := Proghdr.ofBytes (readInto [] r)
      let newsz := uint (ph.vaddr + ph.memsz)
      let loaded := loadReads file ph.off ph.filesz (segmentPages ph.filesz) 0 (k + 1)
      readResult r = sizeofProghdr →
        if ph.type ≠ ELF_PROG_LOAD then SegmentsFit file n (uint (off + sizeofProghdr)) sz (k + 1)
        else ph.filesz ≤ ph.memsz → allocSize sz newsz ≠ 0 →
          (ph.vaddr % PGSIZE = 0 ∧ ph.vaddr + ph.memsz < 2 ^ 32) ∧
            (loaded.1 = true →
              SegmentsFit file n (uint (off + sizeofProghdr)) (allocSize sz newsz) loaded.2)

theorem SegmentsFit.other (h : SegmentsFit file (n + 1) off sz k)
    (hread : HeaderRead file k off) (htype : (headerAt file k off).type ≠ ELF_PROG_LOAD) :
    SegmentsFit file n (uint (off + sizeofProghdr)) sz (k + 1) :=
  (if_pos htype).mp (h hread)

theorem SegmentsFit.load (h : SegmentsFit file (n + 1) off sz k) (hl : IsLoad file k off)
    (hne : allocSize sz (segmentEnd (headerAt file k off)) ≠ 0) :
    ((headerAt file k off).vaddr % PGSIZE = 0 ∧
        (headerAt file k off).vaddr + (headerAt file k off).memsz < 2 ^ 32) ∧
      ((segmentReads file k (headerAt file k off)).1 = true →
        SegmentsFit file n (uint (off + sizeofProghdr))
          (allocSize sz (segmentEnd (headerAt file k off)))
          (segmentReads file k (headerAt file k off)).2) :=
  (if_neg (not_not.mpr hl.type)).mp (h hl.read) hl.size hne

/-- A segment that fits lies in memory once `allocuvm` has succeeded. -/
theorem segment_page {vaddr memsz filesz sz j : ℕ} (hwrap : vaddr + memsz < 2 ^ 32)
    (hsize : filesz ≤ memsz)
    (hne : allocSize sz (uint (vaddr + memsz)) ≠ 0) (hj : j < segmentPages filesz) :
    uint (vaddr + (j * PGSIZE : ℕ)) < allocSize sz (uint (vaddr + memsz)) := by
  have hnew : uint (vaddr + memsz) = vaddr + memsz := by
    rw [uint]
    omega
  rw [hnew] at hne ⊢
  have hle : vaddr + memsz ≤ allocSize sz (vaddr + memsz) := by
    rw [allocSize] at hne ⊢
    split_ifs at hne ⊢ <;> omega
  have hpage : j * PGSIZE < filesz := by
    rw [segmentPages, PGSIZE_eq] at hj
    rw [PGSIZE_eq]
    omega
  rw [uint]
  omega

/-- In memory a segment is loaded. -/
theorem loadFate_safe {size addr offset filesz rounds i : ℕ}
    (h : ∀ j < rounds, uint (addr + (i + j * PGSIZE : ℕ)) < size) :
    loadFate file has size addr offset filesz rounds i k = .safe := by
  induction rounds generalizing i k with
  | zero => rfl
  | succ rounds ih =>
      have hfirst : ¬ size ≤ uint (addr + i) := by simpa using h 0 (Nat.succ_pos rounds)
      rw [loadFate, if_neg fun hle => hfirst hle.1, if_neg fun hle => hfirst hle.1]
      split
      · rfl
      refine ih fun j hj => ?_
      have hnext := h (j + 1) (by omega)
      rwa [show i + (j + 1) * PGSIZE = i + PGSIZE + j * PGSIZE by ring] at hnext

/-- Nothing goes wrong with segments that fit. -/
theorem SegmentsFit.fate (h : SegmentsFit file n off sz k)
    (hneed : (segmentNeeds file n off has sz k)[g]? ≠ some .table) :
    segmentFate file (fun _ _ _ => .safe) n off has sz k g = .safe := by
  induction n generalizing off has sz k g with
  | zero => rfl
  | succ n ih =>
      by_cases hread : HeaderRead file k off
      swap
      · exact segmentFate_bad hread
      by_cases htype : (headerAt file k off).type ≠ ELF_PROG_LOAD
      · rw [segmentFate_other hread htype]
        rw [segmentNeeds_other hread htype] at hneed
        exact ih (h.other hread htype) hneed
      rcases Nat.lt_or_ge (headerAt file k off).memsz (headerAt file k off).filesz with hsize | hsize
      · exact segmentFate_small hread htype hsize
      have hl : IsLoad file k off := ⟨hread, not_not.mp htype, hsize⟩
      rw [segmentFate_load hl]
      rw [segmentNeeds_load hl] at hneed
      cases hn : (allocNeeds has sz (segmentEnd (headerAt file k off)))[g]? with
      | some need =>
          rw [List.getElem?_append_left (List.getElem?_eq_some_iff.mp hn).1, hn] at hneed
          cases need with
          | page => rfl
          | table => exact absurd rfl hneed
      | none =>
          rw [List.getElem?_append_right (List.getElem?_eq_none_iff.mp hn)] at hneed
          rw [Fate.afterAlloc]
          split
          · rfl
          rename_i hne
          obtain ⟨⟨haligned, hwrap⟩, hrest⟩ := h.load hl hne
          have hload : segmentLoad file k (allocHas has sz (segmentEnd (headerAt file k off)))
              (allocSize sz (segmentEnd (headerAt file k off))) (headerAt file k off) = .safe := by
            rw [segmentLoad, if_neg (not_not.mpr haligned)]
            refine loadFate_safe fun j hj => ?_
            rw [Nat.zero_add]
            exact segment_page hwrap hl.size hne hj
          rw [hload, Fate.andThen]
          split
          · rename_i hloaded
            rw [if_pos ⟨hne, hloaded⟩] at hneed
            exact ih (hrest hloaded) hneed
          · rfl

end Header

/-! ### Short arguments -/

section Arguments

variable {has : Fin NPDENTRIES → Bool} {size va len fuel : ℕ}

/-- No argument is so long that the stack pointer gets between the kernel and the devices. -/
def ArgsShort (argv : List (List UInt8)) : Prop := ∀ arg ∈ argv, arg.length < 2 ^ 25

theorem uint_lt (z : ℤ) : uint z < 2 ^ 32 := by
  rw [uint]
  omega

/-- `copyout` below the size gets to no address without a page table. -/
theorem copied_below (hsize : size ≤ KERNBASE) (hva : len ≠ 0 → va + len ≤ size) :
    copied has size fuel va len ≠ none := by
  induction fuel generalizing va len with
  | zero => simp [copied]
  | succ fuel ih =>
      rw [copied]
      split
      · simp
      rename_i hlen
      have hend := hva hlen
      rw [KERNBASE] at hsize
      have hlow : ¬ size ≤ PGROUNDDOWN va := by
        rw [PGROUNDDOWN, PGSIZE_eq]
        omega
      rw [if_neg fun h => hlow h.1]
      split
      · simp
      refine ih fun hrest => ?_
      rw [PGROUNDDOWN, PGSIZE_eq] at hrest ⊢
      rw [uint]
      omega

/-- `copyout` to the devices fails. -/
theorem copied_dev (hhas : ∀ i, kernelHas i = true → has i = true) (hsize : size ≤ KERNBASE)
    (hva : DEVSPACE ≤ va) (hlt : va < 2 ^ 32) (hlen : len ≠ 0) :
    copied has size (fuel + 1) va len = some false := by
  have hdown : DEVSPACE ≤ PGROUNDDOWN va := by
    rw [DEVSPACE] at hva ⊢
    rw [PGROUNDDOWN, PGSIZE_eq]
    omega
  have hm : va / PGSIZE < numPages := by
    rw [numPages_eq, PGSIZE_eq]
    omega
  have htable : has (PDX (PGROUNDDOWN va)) = true := by
    refine hhas _ ?_
    rw [PGROUNDDOWN, kernelHas, PDX_val hm]
    rw [DEVSPACE] at hva
    have hidx : 1016 ≤ va / PGSIZE / NPTENTRIES := by
      rw [NPTENTRIES_eq, PGSIZE_eq]
      omega
    simp [hidx]
  have hle : size ≤ PGROUNDDOWN va := by
    rw [KERNBASE] at hsize
    rw [DEVSPACE] at hdown
    omega
  rw [copied, if_neg hlen, if_neg (by simp [htable]), if_pos (.inl hle)]

/-- The stack pointer after a push stays in user memory or gets to the devices. -/
theorem sub_cases {sp : ℕ} (len : ℕ) (hsp : sp ≤ KERNBASE) (hlen : len ≤ 2 ^ 25) :
    len ≤ sp ∧ uint (sp - len) = sp - len ∨ sp < len ∧ DEVSPACE ≤ uint (sp - len) := by
  rw [KERNBASE] at hsp
  rw [uint, DEVSPACE]
  omega

/-- Short arguments lead to no null pointer. -/
theorem pushFate_ne_fatal (hhas : ∀ i, kernelHas i = true → has i = true) (hsize : size ≤ KERNBASE)
    {argv : List (List UInt8)} {argc sp : ℕ} (hsp : sp ≤ size) (hargc : argc ≤ MAXARG)
    (hargv : ArgsShort argv) : pushFate has size argv argc sp ≠ .fatal := by
  induction argv generalizing argc sp with
  | nil =>
      rw [MAXARG] at hargc
      have hcast : ((sp : ℤ) - (3 + argc + 1) * 4) = sp - ((3 + argc + 1) * 4 : ℕ) := by
        push_cast
        ring
      have hcopied : copied has size ((3 + argc + 1) * 4) (pushedLast sp argc)
          ((3 + argc + 1) * 4) ≠ none := by
        rw [pushedLast, hcast]
        rcases sub_cases ((3 + argc + 1) * 4) (hsp.trans hsize) (by omega) with
          ⟨hle, heq⟩ | ⟨-, hdev⟩
        · exact copied_below hsize fun _ => by omega
        · rw [show (3 + argc + 1) * 4 = (15 + argc * 4) + 1 by ring] at hdev ⊢
          rw [copied_dev hhas hsize hdev (uint_lt _) (by omega)]
          simp
      rw [pushFate, if_neg hcopied]
      simp
  | cons arg argv ih =>
      rw [pushFate]
      split
      · simp
      rename_i hlt
      have hlen := hargv arg List.mem_cons_self
      have hcast : ((sp : ℤ) - (arg.length + 1)) = sp - (arg.length + 1 : ℕ) := by push_cast; ring
      have hpushed : pushed sp arg.length = uint (sp - (arg.length + 1 : ℕ)) / 4 * 4 := by
        rw [pushed, hcast]
      rcases sub_cases (arg.length + 1) (hsp.trans hsize) (by omega) with ⟨hle, heq⟩ | ⟨-, hdev⟩
      · rw [heq] at hpushed
        have hend : pushed sp arg.length + (arg.length + 1) ≤ sp := by omega
        have hnone : copied has size (arg.length + 1) (pushed sp arg.length) (arg.length + 1) ≠
          none := copied_below hsize fun _ => hend.trans hsp
        cases hcopied : copied has size (arg.length + 1) (pushed sp arg.length) (arg.length + 1) with
        | none => exact absurd hcopied hnone
        | some b =>
            cases b with
            | false => simp
            | true =>
                exact ih (by omega) (by omega) fun a ha => hargv a (List.mem_cons_of_mem _ ha)
      · have hdev' : DEVSPACE ≤ pushed sp arg.length := by
          rw [DEVSPACE] at hdev ⊢
          omega
        have hva : pushed sp arg.length < 2 ^ 32 :=
          hpushed.trans_lt ((Nat.div_mul_le_self _ _).trans_lt (uint_lt _))
        rw [copied_dev hhas hsize hdev' hva (Nat.succ_ne_zero _)]
        simp

end Arguments

end Xv6
