import Xv6.Basic

/-!
# Inodes and the inode cache

The on-disk inode, its in-memory copy, and the table `icache` with what `iget` does
under `icache.lock`.
-/

namespace Xv6

/-- Number of block addresses in an inode besides the indirect one (`fs.h`). -/
def NDIRECT : ℕ := 12

/-- Block addresses in the indirect block (`fs.h`). -/
def NINDIRECT : ℕ := BSIZE / 4

def MAXFILE : ℕ := NDIRECT + NINDIRECT

def NINODE : ℕ := 50

instance : NeZero NINODE := ⟨by decide⟩

def T_DIR : ℕ := 1

def T_FILE : ℕ := 2

def T_DEV : ℕ := 3

/-- On-disk inode structure (`fs.h`). The inode is free when its type is `0`. -/
structure Dinode where
  type : ℕ
  major : ℤ
  minor : ℤ
  /-- Number of links to inode in file system -/
  nlink : ℤ
  /-- Size of file (bytes) -/
  size : ℕ
  /-- Data block addresses; the last one is that of the indirect block -/
  addrs : Fin (NDIRECT + 1) → ℕ
  deriving DecidableEq

/-- `memset(dip, 0, sizeof(*dip))`. -/
def Dinode.zero : Dinode := ⟨0, 0, 0, 0, 0, fun _ => 0⟩

def Dinode.fresh (type : ℕ) : Dinode := { Dinode.zero with type := type }

/-- In-memory copy of an inode (`file.h`); `d` holds the fields that are copies of the
on-disk inode. -/
structure Inode where
  dev : ℕ
  inum : ℕ
  /-- Reference count -/
  ref : ℤ
  /-- `I_BUSY` -/
  busy : Bool
  /-- `I_VALID` -/
  valid : Bool
  d : Dinode
  deriving DecidableEq

namespace Inode

/-- The entry is in use for this inode. -/
def Names (ip : Inode) (dev inum : ℕ) : Prop := ip.ref > 0 ∧ ip.dev = dev ∧ ip.inum = inum

instance (ip : Inode) (dev inum : ℕ) : Decidable (ip.Names dev inum) :=
  inferInstanceAs (Decidable (_ ∧ _))

end Inode

abbrev Icache := Fin NINODE → Inode

namespace Icache

/-- What `iget` does under `icache.lock`: find the entry of the inode, or take the
first entry with `ref == 0`; `none` when there is neither. -/
def iget (c : Icache) (dev inum : ℕ) : Option (Fin NINODE × Icache) :=
  match (List.finRange NINODE).find? fun i => (c i).Names dev inum with
  | some i => some (i, Function.update c i { c i with ref := (c i).ref + 1 })
  | none =>
      match (List.finRange NINODE).find? fun i => (c i).ref = 0 with
      | some i =>
          some (i, Function.update c i
            { c i with dev := dev, inum := inum, ref := 1, busy := false, valid := false })
      | none => none

/-- Everything an `iget` that returns does. -/
theorem iget_cases {c c' : Icache} {dev inum : ℕ} {i : Fin NINODE}
    (h : c.iget dev inum = some (i, c')) :
    ((c i).Names dev inum ∧ c' = Function.update c i { c i with ref := (c i).ref + 1 }) ∨
    ((∀ j, ¬ (c j).Names dev inum) ∧ (c i).ref = 0 ∧
      c' = Function.update c i
        { c i with dev := dev, inum := inum, ref := 1, busy := false, valid := false }) := by
  unfold iget at h
  split at h
  · rename_i j hfind
    simp only [Option.some.injEq, Prod.mk.injEq] at h
    obtain ⟨rfl, rfl⟩ := h
    exact .inl ⟨by simpa using List.find?_some hfind, rfl⟩
  · rename_i hnone
    split at h
    · rename_i j hfind
      simp only [Option.some.injEq, Prod.mk.injEq] at h
      obtain ⟨rfl, rfl⟩ := h
      refine .inr ⟨fun k => ?_, by simpa using List.find?_some hfind, rfl⟩
      simpa using List.find?_eq_none.mp hnone k (List.mem_finRange k)
    · cases h

/-- `iget` has an entry to give. -/
theorem iget_isSome {c : Icache} {dev inum : ℕ} {i : Fin NINODE} (h : (c i).ref = 0) :
    (c.iget dev inum).isSome = true := by
  unfold iget
  cases (List.finRange NINODE).find? fun i => (c i).Names dev inum with
  | some j => rfl
  | none =>
      cases hfree : (List.finRange NINODE).find? fun i => (c i).ref = 0 with
      | some j => rfl
      | none => exact absurd h (by simpa using List.find?_eq_none.mp hfree i (List.mem_finRange i))

/-- `iget` has no entry to give. -/
theorem iget_eq_none {c : Icache} {dev inum : ℕ} (hnot : ∀ j, ¬ (c j).Names dev inum)
    (hused : ∀ j, (c j).ref ≠ 0) : c.iget dev inum = none := by
  have hnames : (List.finRange NINODE).find? (fun i => (c i).Names dev inum) = none :=
    List.find?_eq_none.mpr fun j _ hj => hnot j (of_decide_eq_true hj)
  have hfree : (List.finRange NINODE).find? (fun i => (c i).ref = 0) = none :=
    List.find?_eq_none.mpr fun j _ hj => hused j (of_decide_eq_true hj)
  unfold iget
  rw [hnames]
  simp only [hfree]

end Icache

end Xv6
