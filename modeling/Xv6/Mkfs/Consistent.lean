import Xv6.Fs.Dirents
import Xv6.Mkfs.Finished

/-!
# When the image is consistent

What the kernel takes for granted of an image holds of one that `mkfs` has built, unless there are
more files than inodes, more blocks than `nblocks`, or exactly as many files that the entries of the
root directory fill their last block; then the size of the root directory is rounded up to a block
that it does not have.
-/

namespace Xv6

namespace Mkfs

open Foundation

/-- What the kernel assumes of an image. -/
structure Consistent (s : State) : Prop where
  super : (disk s.img).sb = mkfsSuperblock
  /-- no inode has been written behind the sectors of the inodes -/
  inodes : ∀ n < s.freeinode, IBLOCK n < BBLOCK 0 ninodes
  files : ∀ n, IBLOCK n < BBLOCK 0 ninodes → ((disk s.img).dinode n).WellFormed (disk s.img)
  apart : ∀ m n, IBLOCK m < BBLOCK 0 ninodes → IBLOCK n < BBLOCK 0 ninodes → m ≠ n →
    ((disk s.img).dinode m).Apart (disk s.img) ((disk s.img).dinode n)
  bitmap : ∀ b < size, (disk s.img).bitmap b = true ↔ b < mkfsSuperblock.dataStart ∨
    ∃ n, IBLOCK n < BBLOCK 0 ninodes ∧ ((disk s.img).dinode n).Has (disk s.img) b
  log : s.img mkfsSuperblock.logStart = Block.zero

/-! ### How many inodes are given out -/

/-- `freeinode` is not touched. -/
def Keeps {α : Type} (m : M α) : Prop :=
  ∀ s, wp m (fun _ t => t.freeinode = s.freeinode) (fun _ => True) s

section Keeps

variable {α β : Type} {n : ℕ}

theorem Keeps.bind {m : M α} {f : α → M β} (h : Keeps m) (h' : ∀ a, Keeps (f a)) :
    Keeps (m >>= f) := fun s => by
  rw [wp_bind]
  refine wp_mono (h s) (fun a t ht => ?_) fun _ he => he
  exact wp_mono (h' a t) (fun _ u hu => hu.trans ht) fun _ he => he

theorem Keeps.pure {a : α} : Keeps (pure a : M α) := fun _ => wp_pure.mpr rfl

theorem Keeps.ite {c : Prop} [Decidable c] {m m' : M α} (h : Keeps m) (h' : Keeps m') :
    Keeps (if c then m else m') := fun s => wp_ite.mpr ⟨fun _ => h s, fun _ => h' s⟩

theorem Keeps.assert {c : Prop} [Decidable c] : Keeps (assert c) := fun _ => wp_assert fun _ => rfl

theorem keeps_wsect {sec : ℕ} {buf : Block} : Keeps (wsect sec buf) := fun _ => wp_wsect.mpr rfl

theorem keeps_rsect {sec : ℕ} : Keeps (rsect sec) := fun _ => wp_rsect fun _ => rfl

theorem keeps_newblock : Keeps newblock := fun _ => wp_newblock.mpr rfl

theorem keeps_winode {d : Dinode} : Keeps (winode n d) := keeps_rsect.bind fun _ => keeps_wsect

theorem keeps_rinode : Keeps (rinode n) := keeps_rsect.bind fun _ => .pure

theorem keeps_indirectBlock {d : Dinode} : Keeps (indirectBlock d) :=
  .ite (keeps_newblock.bind fun _ => .pure) .pure

theorem keeps_sector {d : Dinode} {fbn : ℕ} : Keeps (sector d fbn) := by
  refine .ite (.ite (keeps_newblock.bind fun _ => .pure) .pure) ?_
  refine keeps_indirectBlock.bind fun _ => keeps_rsect.bind fun _ => .ite ?_ .pure
  exact keeps_newblock.bind fun _ => keeps_wsect.bind fun _ => .pure

theorem keeps_appendLoop {fuel off : ℕ} {d : Dinode} {p : List UInt8} :
    Keeps (appendLoop fuel d off p) := by
  induction fuel generalizing d off p with
  | zero => exact .pure
  | succ fuel ih =>
      refine .ite .pure ?_
      refine Keeps.assert.bind fun _ => keeps_sector.bind fun x => ?_
      exact keeps_rsect.bind fun _ => keeps_wsect.bind fun _ => ih

theorem keeps_iappend {p : List UInt8} : Keeps (iappend n p) :=
  keeps_rinode.bind fun _ => keeps_appendLoop.bind fun _ => keeps_winode

theorem keeps_copy {chunks : List (List UInt8)} : Keeps (copy n chunks) := by
  induction chunks with
  | nil => exact .pure
  | cons buf chunks ih => exact keeps_iappend.bind fun _ => ih

theorem keeps_wipe {is : List ℕ} : Keeps (wipe is) := by
  induction is with
  | nil => exact .pure
  | cons i is ih => exact keeps_wsect.bind fun _ => ih

theorem keeps_fixRoot : Keeps fixRoot := keeps_rinode.bind fun _ => keeps_winode

theorem keeps_balloc {used : ℕ} : Keeps (balloc used) := Keeps.assert.bind fun _ => keeps_wsect

end Keeps

section Freeinode

variable {s : State} {files : List Input}

theorem holds_of_wp {P : State → Prop} (h : mkfs files = .ok s)
    (hwp : wp (main files) (fun _ t => P t) (fun _ => True) start) : P s := by
  unfold mkfs at h
  cases hm : main files start with
  | error e =>
      rw [hm] at h
      cases h
  | ok r =>
      rw [hm] at h
      cases h
      exact (wp_of_ok hm).mp hwp

theorem ialloc_freeinode {type : ℕ} : wp (ialloc type)
    (fun _ t => t.freeinode = s.freeinode + 1) (fun _ => True) s := by
  unfold ialloc
  rw [wp_bind, wp_get, wp_bind, wp_set, wp_bind]
  exact wp_mono (keeps_winode _) (fun _ t ht => wp_pure.mpr ht) fun _ he => he

theorem addFiles_freeinode : wp (addFiles files)
    (fun _ t => t.freeinode = s.freeinode + files.length) (fun _ => True) s := by
  induction files generalizing s with
  | nil => exact wp_pure.mpr rfl
  | cons f files ih =>
      rw [addFiles, wp_bind]
      refine wp_assert fun _ => ?_
      rw [wp_bind]
      refine wp_mono ialloc_freeinode (fun n s₁ h₁ => ?_) fun _ he => he
      rw [wp_bind]
      refine wp_mono (keeps_iappend s₁) (fun _ s₂ h₂ => ?_) fun _ he => he
      rw [wp_bind]
      refine wp_mono (keeps_copy s₂) (fun _ s₃ h₃ => ?_) fun _ he => he
      refine wp_mono ih (fun _ t ht => ?_) fun _ he => he
      rw [List.length_cons]
      omega

/-- One inode is given out for the root and for each file. -/
theorem mkfs_freeinode (h : mkfs files = .ok s) : s.freeinode = files.length + 2 := by
  refine holds_of_wp (P := fun t => t.freeinode = files.length + 2) h ?_
  unfold main
  rw [wp_bind, wp_get, wp_bind]
  refine wp_assert fun _ => ?_
  rw [wp_bind]
  refine wp_mono (keeps_wipe start) (fun _ s₁ h₁ => ?_) fun _ he => he
  rw [wp_bind]
  refine wp_mono (keeps_wsect s₁) (fun _ s₂ h₂ => ?_) fun _ he => he
  rw [wp_bind]
  refine wp_mono ialloc_freeinode (fun n s₃ h₃ => ?_) fun _ he => he
  rw [wp_bind]
  refine wp_assert fun _ => ?_
  rw [wp_bind]
  refine wp_mono (keeps_iappend s₃) (fun _ s₄ h₄ => ?_) fun _ he => he
  rw [wp_bind]
  refine wp_mono (keeps_iappend s₄) (fun _ s₅ h₅ => ?_) fun _ he => he
  rw [wp_bind]
  refine wp_mono addFiles_freeinode (fun _ s₆ h₆ => ?_) fun _ he => he
  rw [wp_bind]
  refine wp_mono (keeps_fixRoot s₆) (fun _ s₇ h₇ => ?_) fun _ he => he
  rw [wp_bind, wp_get]
  have hstart : start.freeinode = 1 := rfl
  exact wp_mono (keeps_balloc s₇) (fun _ t ht => by omega) fun _ he => he

end Freeinode

/-! ### The image -/

section Image

variable {s t : State} {files : List Input} {m n b : ℕ}

theorem front_iff : IBLOCK n < BBLOCK 0 ninodes ↔ n < inodes := by
  have hipb : IPB = 8 := rfl
  have hbitmap : BBLOCK 0 ninodes = 28 := rfl
  rw [IBLOCK, inodes_eq, hipb, hbitmap]
  omega

theorem super_eq : superSector.superblock = mkfsSuperblock := by decide +kernel

theorem length_entries {k : ℕ} : (entries k files).length = 16 * files.length := by
  induction files generalizing k with
  | nil => rfl
  | cons f files ih =>
      rw [entries, List.length_append, ih, Dirent.length_bytes, List.length_cons, Dirent.size_eq]
      omega

theorem length_rootBytes : (rootBytes files).length = 16 * (files.length + 2) := by
  rw [rootBytes, List.length_append, List.length_append, length_entries, Dirent.length_bytes,
    Dirent.length_bytes, Dirent.size_eq]
  omega

/-- The image when `main` is done. -/
structure Final (files : List Input) (t s : State) : Prop extends Done files t where
  few : files.length + 2 ≤ inodes
  small : t.freeblock < BPB
  eq : s = t.marked

/-- What an inode says of its file. -/
theorem mkfs_final (h : mkfs files = .ok s) (hfew : files.length + 2 ≤ inodes) :
    ∃ t, Final files t s := by
  refine holds_of_wp (P := fun s => ∃ t, Final files t s) h ?_
  refine wp_main hfew fun t ht hused => ⟨t, ht, hfew, ?_, rfl⟩
  rw [← ht.used]
  exact hused

namespace Final

variable (h : Final files t s)

include h

theorem img (hb : b ≠ 28) : s.img b = t.img b := by
  rw [h.eq]
  exact Function.update_of_ne hb _ _

theorem sb : (disk s.img).sb = mkfsSuperblock := by
  change (s.img 1).superblock = _
  rw [h.img (by decide), h.super, super_eq]

theorem dinode (hn : n < inodes) : (disk s.img).dinode n = t.work.dinode n := by
  have hblock := inodes_lt hn
  change (s.img (IBLOCK n)).dinode _ = _
  rw [h.img (by omega)]
  rfl

theorem data (hn : n < inodes) (hb : (t.work.dinode n).Has t.work b) :
    (disk s.img).data b = t.work.data b := by
  have hin := (h.shows n hn).inside b hb
  rw [dataStart_eq] at hin
  exact h.img (by omega)

theorem has (hn : n < inodes) : ((disk s.img).dinode n).Has (disk s.img) b ↔
    (t.work.dinode n).Has t.work b := by
  rw [h.dinode hn]
  exact Dinode.has_congr (fun b hb => h.data hn hb) b

theorem block (hn : n < inodes) : ((disk s.img).dinode n).block (disk s.img) =
    (t.work.dinode n).block t.work := by
  rw [h.dinode hn]
  exact Dinode.block_congr fun b hb => h.data hn hb

theorem byteAt (hn : n < inodes) : ((disk s.img).dinode n).byteAt (disk s.img) =
    fun k => (contents files n).getD k 0 := by
  rw [h.dinode hn, Dinode.byteAt_congr fun b hb => h.data hn hb]
  exact funext (h.shows n hn).bytes

theorem bitmap (hb : b < BPB) : (disk s.img).bitmap b = decide (b < t.freeblock) := by
  have hsb : (s.img 1).superblock.ninodes = ninodes := congrArg Superblock.ninodes h.sb
  have hzero : b / BPB = 0 := Nat.div_eq_of_lt hb
  have hsector : BBLOCK b ninodes = BBLOCK 0 ninodes := by
    rw [BBLOCK, BBLOCK, hzero, Nat.zero_div]
  change (s.img (BBLOCK b (s.img 1).superblock.ninodes)).bit (b % BPB) = _
  have hmarks : t.marked.img (BBLOCK 0 ninodes) =
      (List.range t.usedblocks).foldl Block.mark Block.zero := by
    change Function.update t.img (BBLOCK 0 ninodes)
      ((List.range t.usedblocks).foldl Block.mark Block.zero) (BBLOCK 0 ninodes) = _
    rw [Function.update_self]
  rw [hsb, hsector, h.eq, Nat.mod_eq_of_lt hb, hmarks, Block.bit_marks hb, h.used]

theorem size_of_ne (hn : n < inodes) (hne : n ≠ ROOTINO) :
    ((disk s.img).dinode n).size = (contents files n).length := by
  rw [h.dinode hn]
  exact h.size n hn hne

theorem root_size : ((disk s.img).dinode ROOTINO).size =
    (16 * (files.length + 2) / BSIZE + 1) * BSIZE := by
  rw [h.dinode (by decide), h.rootSize, length_rootBytes]

/-- The blocks that are there. -/
theorem block_iff {bn : ℕ} (hn : n < inodes) :
    ((disk s.img).dinode n).block (disk s.img) bn ≠ 0 ↔ bn < blocks (contents files n).length := by
  rw [h.block hn]
  exact (h.shows n hn).has bn

theorem wellFormed (hn : n < inodes) (hspace : allCost files ≤ nblocks)
    (hround : (files.length + 2) % 32 ≠ 0) :
    ((disk s.img).dinode n).WellFormed (disk s.img) := by
  have hroot : (contents files ROOTINO).length = 16 * (files.length + 2) := length_rootBytes
  have hle := (h.shows n hn).length_le
  have hcost := h.cost
  have hsize := h.root_size
  rw [BSIZE_eq] at hsize
  rw [MAXFILE_eq, BSIZE_eq] at hle
  exact {
    small := by
      rw [MAXFILE_eq, BSIZE_eq]
      by_cases hne : n = ROOTINO
      · rw [hne] at hle ⊢
        omega
      · rw [h.size_of_ne hn hne]
        exact hle
    mapped := fun bn hbn => by
      rw [h.block_iff hn, blocks, BSIZE_eq]
      rw [BSIZE_eq] at hbn
      by_cases hne : n = ROOTINO
      · rw [hne] at hbn ⊢
        omega
      · rw [h.size_of_ne hn hne] at hbn
        omega
    distinct := by
      rw [h.block hn]
      exact (h.shows n hn).distinct
    notTable := by
      rw [h.block hn, h.dinode hn]
      exact (h.shows n hn).notTable
    used := fun b hb => by
      have hin := (h.shows n hn).inside b ((h.has hn).mp hb)
      have hsmall := h.small
      rw [h.bitmap (by omega)]
      exact decide_eq_true hin.2
    isData := fun b hb => by
      have hin := (h.shows n hn).inside b ((h.has hn).mp hb)
      have hend : mkfsSuperblock.logStart = mkfsSuperblock.dataStart + nblocks := rfl
      rw [h.sb]
      exact ⟨hin.1, by omega⟩ }

/-- The files of the image. -/
theorem consistent (hspace : allCost files ≤ nblocks) (hround : (files.length + 2) % 32 ≠ 0) :
    Consistent s where
  super := h.sb
  inodes := fun n hn => by
    have hfree : s.freeinode = t.freeinode := by
      rw [h.eq]
      rfl
    have hfew := h.few
    rw [hfree, h.freeinode] at hn
    exact front_iff.mpr (by omega)
  files := fun n hn => h.wellFormed (front_iff.mp hn) hspace hround
  apart := fun m n hm hn hne b hb => by
    rw [h.has (front_iff.mp hm)] at hb
    rw [h.has (front_iff.mp hn)]
    exact h.toBase.apart m (front_iff.mp hm) n (front_iff.mp hn) hne b hb
  bitmap := fun b hb => by
    have hsmall : b < BPB := lt_trans hb (by decide)
    rw [h.bitmap hsmall, decide_eq_true_iff]
    constructor
    · intro hlt
      by_cases hlow : b < mkfsSuperblock.dataStart
      · exact .inl hlow
      · obtain ⟨n, hn, hhas⟩ := h.owned b (Nat.not_lt.mp hlow) hlt
        exact .inr ⟨n, front_iff.mpr hn, (h.has hn).mpr hhas⟩
    · rintro (hlow | ⟨n, hn, hhas⟩)
      · exact lt_of_lt_of_le hlow h.low
      · exact ((h.shows n (front_iff.mp hn)).inside b
          ((h.has (front_iff.mp hn)).mp hhas)).2
  log := by
    have hcost := h.cost
    have hend : mkfsSuperblock.logStart = mkfsSuperblock.dataStart + nblocks := rfl
    rw [h.img (by decide)]
    exact h.zero _ (by omega)

end Final

/-- A consistent image is one of few files that are small. -/
theorem Consistent.few (hc : Consistent s) (h : mkfs files = .ok s) :
    files.length + 2 ≤ Mkfs.inodes := by
  by_contra hmany
  have hfree := mkfs_freeinode h
  have hfront := front_iff.mp (hc.inodes (files.length + 1) (by omega))
  omega

theorem Consistent.space (hc : Consistent s) (h : Final files t s) : allCost files ≤ nblocks := by
  by_contra hmany
  have hcost := h.cost
  have hend : mkfsSuperblock.logStart = mkfsSuperblock.dataStart + nblocks := rfl
  have hmarked : (disk s.img).bitmap mkfsSuperblock.logStart = true := by
    rw [h.bitmap (by decide)]
    exact decide_eq_true (by omega)
  rcases (hc.bitmap _ (by decide)).mp hmarked with hlow | ⟨n, hn, hhas⟩
  · exact absurd hlow (by decide)
  · have hdata := (hc.files n hn).isData _ hhas
    rw [hc.super] at hdata
    exact Nat.lt_irrefl _ hdata.2

/-- The size of the root directory is rounded up to one block too many. -/
theorem Consistent.round (hc : Consistent s) (h : Final files t s) :
    (files.length + 2) % 32 ≠ 0 := by
  intro hfull
  have hn : ROOTINO < Mkfs.inodes := by decide
  have hroot : (contents files ROOTINO).length = 16 * (files.length + 2) := length_rootBytes
  have hsize := h.root_size
  rw [BSIZE_eq] at hsize
  have hmapped := (hc.files ROOTINO (front_iff.mpr hn)).mapped (16 * (files.length + 2) / 512)
    (by rw [hsize, BSIZE_eq]; omega)
  rw [h.block_iff hn, hroot, blocks, BSIZE_eq] at hmapped
  omega

/-- When `mkfs` exits with status 0, its image is consistent if and only if there are inodes and
data blocks for all files, and the root directory does not fill its last block. -/
theorem mkfs_consistent (h : mkfs files = .ok s) : Consistent s ↔
    files.length + 2 ≤ inodes ∧ allCost files ≤ nblocks ∧ (files.length + 2) % 32 ≠ 0 := by
  constructor
  · intro hc
    have hfew := hc.few h
    obtain ⟨t, ht⟩ := mkfs_final h hfew
    exact ⟨hfew, hc.space ht, hc.round ht⟩
  · rintro ⟨hfew, hspace, hround⟩
    obtain ⟨t, ht⟩ := mkfs_final h hfew
    exact ht.consistent hspace hround

def oneFile : Input := ⟨[95, 97], by decide, [[104, 105]], by decide⟩

theorem exists_of_isOk (files : List Input) (h : (mkfs files).isOk = true) :
    ∃ s, mkfs files = .ok s := by
  cases hm : mkfs files with
  | error e =>
      rw [hm] at h
      cases h
  | ok s => exact ⟨s, rfl⟩

/-- With 30 files the root directory fills its block. -/
theorem mkfs_consistent_full : (∃ s, mkfs [oneFile] = .ok s ∧ Consistent s) ∧
    ∃ s, mkfs (List.replicate 30 oneFile) = .ok s ∧ ¬ Consistent s := by
  obtain ⟨s, hs⟩ := exists_of_isOk [oneFile] (by decide +kernel)
  obtain ⟨t, ht⟩ := exists_of_isOk (List.replicate 30 oneFile) (by decide +kernel)
  refine ⟨⟨s, hs, (mkfs_consistent hs).mpr (by decide +kernel)⟩, t, ht, fun hc => ?_⟩
  exact ((mkfs_consistent ht).mp hc).2.2 rfl

end Image

end Mkfs

end Xv6
