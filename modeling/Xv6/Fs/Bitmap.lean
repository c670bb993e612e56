import Xv6.Foundation.Run
import Xv6.Fs.Inode

/-!
# The bitmap and the layout of the disk

`mkfs` puts the boot block, the superblock, the inode blocks and the bitmap blocks at the front
of the image and the log at its end; what lies between are the data blocks. The bitmap that it
writes marks the blocks at the front and those that it has given to files. The blocks of the log
are not marked, and the loops of `balloc` run to `sb.size`, so they find a data block as long as
one is free, and then a block of the log.
-/

namespace Xv6

open Foundation

namespace Superblock

/-- `usedblocks` of `mkfs` before it writes files: the first data block. -/
def dataStart (sb : Superblock) : ℕ := sb.ninodes / IPB + 3 + (sb.size / BPB + 1)

/-- `log.start` of `initlog`. -/
def logStart (sb : Superblock) : ℕ := sb.size - sb.nlog

/-- The layout on which `mkfs` insists: `nblocks + usedblocks + nlog == size`. -/
def IsMkfs (sb : Superblock) : Prop := sb.nblocks + sb.dataStart + sb.nlog = sb.size

/-- A data block: behind the blocks of the metadata and before the log. -/
def IsData (sb : Superblock) (b : ℕ) : Prop := sb.dataStart ≤ b ∧ b < sb.logStart

instance (sb : Superblock) (b : ℕ) : Decidable (sb.IsData b) :=
  inferInstanceAs (Decidable (_ ∧ _))

variable {sb : Superblock} {b : ℕ}

theorem isMkfs_mkfsSuperblock : mkfsSuperblock.IsMkfs := by
  unfold IsMkfs
  decide

/-- There are `nblocks` data blocks. -/
theorem IsMkfs.logStart (h : sb.IsMkfs) : sb.logStart = sb.dataStart + sb.nblocks := by
  unfold IsMkfs at h
  unfold Superblock.logStart
  omega

/-- A data block is none of the blocks that have another use. -/
theorem IsData.other (h : sb.IsData b) :
    b ≠ 0 ∧ b ≠ 1 ∧ (∀ i, i < sb.ninodes → b ≠ IBLOCK i) ∧
      (∀ c, c < sb.size → b ≠ BBLOCK c sb.ninodes) ∧ b < sb.size ∧ ¬ sb.logStart ≤ b := by
  obtain ⟨hlow, hhigh⟩ := h
  have hinodes := Nat.zero_le (sb.ninodes / IPB)
  have hbits := Nat.zero_le (sb.size / BPB)
  unfold dataStart at hlow
  unfold Superblock.logStart at hhigh ⊢
  refine ⟨by omega, by omega, ?_, ?_, by omega, by omega⟩
  · intro i hi
    have hle : i / IPB ≤ sb.ninodes / IPB := Nat.div_le_div_right hi.le
    have hpos := Nat.zero_le (i / IPB)
    unfold IBLOCK
    omega
  · intro c hc
    have hle : c / BPB ≤ sb.size / BPB := Nat.div_le_div_right hc.le
    have hpos := Nat.zero_le (c / BPB)
    unfold BBLOCK
    omega

end Superblock

/-- The bitmap on the disk, and the blocks that belong to files. -/
structure BlockMap where
  sb : Superblock
  bit : ℕ → Bool
  /-- what `mkfs` or `balloc` has given out and `bfree` has not got back -/
  held : ℕ → Bool

namespace BlockMap

/-- What `mkfs` leaves when it has used the first `used` blocks. -/
def mkfs (sb : Superblock) (used : ℕ) : BlockMap where
  sb := sb
  bit := fun b => b < used
  held := fun b => sb.dataStart ≤ b ∧ b < used

/-- The block that `balloc` finds; nothing where it panics. -/
def balloc (s : BlockMap) : Option ℕ := (List.range s.sb.size).find? fun b => !s.bit b

inductive Label where
  | balloc
  | bfree (b : ℕ)

/-- A call. `bfree` is called with the block of a file, and panics if it is free. -/
def step (s : BlockMap) : Label → Option BlockMap
  | .balloc => s.balloc.map fun b =>
      { s with bit := Function.update s.bit b true, held := Function.update s.held b true }
  | .bfree b =>
      if s.held b ∧ s.bit b then
        some { s with
          bit := Function.update s.bit b false, held := Function.update s.held b false }
      else none

/-- A call of `balloc` now returns a data block, or there is none and it panics. -/
def AllocOk (s : BlockMap) : Prop :=
  (∀ b, s.balloc = some b → s.sb.IsData b) ∧
    ((∀ b, s.sb.IsData b → s.bit b = true) → s.balloc = none)

/-- The blocks of the metadata stay marked, and belong to no file. -/
structure Inv (sb : Superblock) (s : BlockMap) : Prop where
  same : s.sb = sb
  marked : ∀ b, b < sb.dataStart → s.bit b = true
  notHeld : ∀ b, b < sb.dataStart → s.held b = false

section Steps

variable {sb : Superblock} {s t : BlockMap} {b used : ℕ}

theorem balloc_eq_some_iff : s.balloc = some b ↔
    b < s.sb.size ∧ s.bit b = false ∧ ∀ c, c < b → s.bit c = true := by
  rw [balloc, List.find?_range_eq_some]
  simp [and_left_comm]

theorem balloc_eq_none_iff : s.balloc = none ↔ ∀ b, b < s.sb.size → s.bit b = true := by
  simp [balloc, List.find?_eq_none]

theorem Inv.start (h : sb.dataStart ≤ used) : Inv sb (mkfs sb used) where
  same := rfl
  marked := fun _ hb => decide_eq_true (hb.trans_le h)
  notHeld := fun _ hb => decide_eq_false fun hheld => absurd hheld.1 (Nat.not_le.mpr hb)

theorem Inv.step (h : Inv sb s) {l : Label} (hl : s.step l = some t) : Inv sb t := by
  cases l with
  | balloc =>
      obtain ⟨b, hb, rfl⟩ := Option.map_eq_some_iff.mp hl
      obtain ⟨-, hfree, -⟩ := balloc_eq_some_iff.mp hb
      have hlow : ∀ c, c < sb.dataStart → c ≠ b := by
        rintro c hc rfl
        cases hfree.symm.trans (h.marked c hc)
      refine ⟨h.same, fun c hc => ?_, fun c hc => ?_⟩
      · exact (Function.update_of_ne (hlow c hc) _ _).trans (h.marked c hc)
      · exact (Function.update_of_ne (hlow c hc) _ _).trans (h.notHeld c hc)
  | bfree b =>
      simp only [BlockMap.step] at hl
      split at hl
      · obtain ⟨hheld, -⟩ := ‹_ ∧ _›
        rw [← Option.some.inj hl]
        have hlow : ∀ c, c < sb.dataStart → c ≠ b := by
          rintro c hc rfl
          cases hheld.symm.trans (h.notHeld c hc)
        refine ⟨h.same, fun c hc => ?_, fun c hc => ?_⟩
        · exact (Function.update_of_ne (hlow c hc) _ _).trans (h.marked c hc)
        · exact (Function.update_of_ne (hlow c hc) _ _).trans (h.notHeld c hc)
      · cases hl

/-- `balloc` gives a data block as long as there is one, and panics when every bit is set. -/
theorem Inv.allocOk_iff (h : Inv sb s) :
    s.AllocOk ↔ (∃ b, sb.IsData b ∧ s.bit b = false) ∨ ∀ b, b < sb.size → s.bit b = true := by
  have hsb := h.same
  constructor
  · rintro ⟨hdata, -⟩
    cases hb : s.balloc with
    | none => exact .inr (by rw [← hsb]; exact balloc_eq_none_iff.mp hb)
    | some b =>
        obtain ⟨-, hfree, -⟩ := balloc_eq_some_iff.mp hb
        exact .inl ⟨b, hsb ▸ hdata b hb, hfree⟩
  · rintro (⟨d, hd, hfree⟩ | hfull)
    · refine ⟨fun b hb => ?_, fun hnone => ?_⟩
      · obtain ⟨-, hbit, hleast⟩ := balloc_eq_some_iff.mp hb
        rw [hsb]
        refine ⟨?_, ?_⟩
        · by_contra hlt
          cases hbit.symm.trans (h.marked b (Nat.not_le.mp hlt))
        · refine lt_of_le_of_lt ?_ hd.2
          by_contra hlt
          cases hfree.symm.trans (hleast d (Nat.not_le.mp hlt))
      · cases hfree.symm.trans (hnone d (hsb ▸ hd))
    · have hnone : s.balloc = none := balloc_eq_none_iff.mpr (by rw [hsb]; exact hfull)
      refine ⟨fun b hb => ?_, fun _ => hnone⟩
      cases hnone.symm.trans hb

end Steps

end BlockMap

/-- `balloc` of the file system takes the block that `BlockMap.balloc` finds. -/
theorem FsM.balloc_eq : FsM.balloc = (do
    let s ← get
    match (BlockMap.mk s.disk.sb s.disk.bitmap fun _ => false).balloc with
    | some b => do
        set (s.setBit b true)
        FsM.logWrite (BBLOCK b s.disk.sb.ninodes)
        FsM.bzero b
        return b
    | none => FsM.panic .ballocOutOfBlocks) := rfl

/-- From an image of `mkfs` on, `balloc` does not leave the data area exactly as long as a data
block is free, or when all bits are set. -/
theorem balloc_stays {sb : Superblock} {used : ℕ} {ls : List BlockMap.Label} {s : BlockMap}
    (hused : sb.dataStart ≤ used)
    (h : run BlockMap.step (BlockMap.mkfs sb used) ls = some s) :
    s.AllocOk ↔ (∃ b, sb.IsData b ∧ s.bit b = false) ∨ ∀ b, b < sb.size → s.bit b = true :=
  (run_invariant (BlockMap.Inv sb) (fun _ _ _ hs hl => hs.step hl) (BlockMap.Inv.start hused)
    h).allocOk_iff

/-- On a small disk a block is allocated and freed. -/
theorem balloc_stays_one :
    ∃ s, run BlockMap.step (BlockMap.mkfs ⟨8, 1, 8, 2⟩ 5) [.balloc, .bfree 5] = some s ∧
      (s.AllocOk ↔ (∃ b, (⟨8, 1, 8, 2⟩ : Superblock).IsData b ∧ s.bit b = false) ∨
        ∀ b, b < 8 → s.bit b = true) :=
  ⟨_, rfl, @balloc_stays ⟨8, 1, 8, 2⟩ 5 [.balloc, .bfree 5] _ (by decide) rfl⟩

/-- When `mkfs` has filled the data area, `balloc` returns the block of the log header. -/
theorem balloc_leaves :
    (BlockMap.mkfs mkfsSuperblock 994).balloc = some 994 ∧ mkfsSuperblock.logStart = 994 ∧
      ¬ (BlockMap.mkfs mkfsSuperblock 994).AllocOk := by
  have hfound : (BlockMap.mkfs mkfsSuperblock 994).balloc = some 994 := by
    rw [BlockMap.balloc_eq_some_iff]
    exact ⟨by decide, rfl, fun c hc => decide_eq_true hc⟩
  refine ⟨hfound, rfl, fun hok => ?_⟩
  exact absurd (hok.1 994 hfound) (by decide)

end Xv6
