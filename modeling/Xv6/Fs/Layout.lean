import Xv6.Foundation.Patch
import Xv6.Fs.Bitmap

/-!
# Files as arrays of bytes

What an inode says about the disk: the blocks of its file, the bytes in them, and what has to
hold of them. A file without holes has all the blocks below its size; it may have more. A block
that the file does not have reads as zeroes, which is what `balloc` puts there.
-/

namespace Xv6

open Foundation

/-- The numbers of the blocks that `n` bytes from `off` on lie in. -/
def span (off n : ℕ) : List ℕ :=
  if n = 0 then []
  else List.range' (off / BSIZE) ((off + n - 1) / BSIZE + 1 - off / BSIZE)

section Span

variable {off n bn : ℕ}

theorem NDIRECT_eq : NDIRECT = 12 := rfl

theorem MAXFILE_eq : MAXFILE = 140 := rfl

theorem BSIZE_eq : BSIZE = 512 := rfl

theorem span_zero : span off 0 = [] := rfl

theorem mem_span : bn ∈ span off n ↔ n ≠ 0 ∧ off / BSIZE ≤ bn ∧ bn ≤ (off + n - 1) / BSIZE := by
  unfold span
  by_cases hn : n = 0
  · simp [hn]
  · rw [if_neg hn, List.mem_range'_1, BSIZE_eq]
    omega

theorem nodup_span : (span off n).Nodup := by
  unfold span
  split
  · exact List.nodup_nil
  · exact List.nodup_range'

/-- The first block and the rest. -/
theorem span_cons (h : n ≠ 0) :
    span off n = off / BSIZE ::
      span (off + min n (BSIZE - off % BSIZE)) (n - min n (BSIZE - off % BSIZE)) := by
  unfold span
  rw [if_neg h, BSIZE_eq]
  by_cases hle : n ≤ 512 - off % 512
  · rw [Nat.min_eq_left hle, if_pos (Nat.sub_self n)]
    have hone : (off + n - 1) / 512 + 1 - off / 512 = 1 := by omega
    rw [hone, List.range'_one]
  · rw [Nat.min_eq_right (by omega), if_neg (by omega)]
    have hsucc : (off + n - 1) / 512 + 1 - off / 512 =
        (off + n - 1) / 512 + 1 - (off / 512 + 1) + 1 := by omega
    have hnext : (off + (512 - off % 512)) / 512 = off / 512 + 1 := by omega
    have hend : off + (512 - off % 512) + (n - (512 - off % 512)) = off + n := by omega
    rw [hsucc, List.range'_succ, hnext, hend]

end Span

namespace FsDisk

/-- The free data blocks, in the order in which `balloc` gives them out. -/
def free (disk : FsDisk) : List ℕ :=
  (List.range disk.sb.logStart).filter fun b => !disk.bitmap b

/-- The blocks of the metadata are not free, and block numbers fit in a word. -/
structure Ok (disk : FsDisk) : Prop where
  marked : ∀ b, b < disk.sb.dataStart → disk.bitmap b = true
  small : disk.sb.size ≤ 2 ^ 32

end FsDisk

namespace Dinode

/-- `addrs[NDIRECT]`: the indirect block. -/
def table (d : Dinode) : ℕ := d.addr NDIRECT

/-- The block with the number `bn`; `0` if the file does not have it. -/
def block (d : Dinode) (disk : FsDisk) (bn : ℕ) : ℕ :=
  if bn < NDIRECT then d.addr bn
  else if d.table = 0 then 0
  else (disk.data d.table).word (bn - NDIRECT)

def Has (d : Dinode) (disk : FsDisk) (b : ℕ) : Prop :=
  b ≠ 0 ∧ (b = d.table ∨ ∃ bn, b = d.block disk bn)

def byteAt (d : Dinode) (disk : FsDisk) (k : ℕ) : UInt8 :=
  if d.block disk (k / BSIZE) = 0 then 0
  else UInt8.ofNat ((disk.data (d.block disk (k / BSIZE))).byte (k % BSIZE))

def contents (d : Dinode) (disk : FsDisk) : List UInt8 := window (d.byteAt disk) 0 d.size

/-- The blocks of the file are there, and are its own. -/
structure WellFormed (d : Dinode) (disk : FsDisk) : Prop where
  small : d.size ≤ MAXFILE * BSIZE
  mapped : ∀ bn, bn * BSIZE < d.size → d.block disk bn ≠ 0
  distinct : ∀ m n, d.block disk m ≠ 0 → d.block disk m = d.block disk n → m = n
  notTable : ∀ bn, d.block disk bn ≠ 0 → d.block disk bn ≠ d.table
  used : ∀ b, d.Has disk b → disk.bitmap b = true
  isData : ∀ b, d.Has disk b → disk.sb.IsData b

def Apart (disk : FsDisk) (d e : Dinode) : Prop := ∀ b, d.Has disk b → ¬ e.Has disk b

/-- How many blocks are allocated when the blocks with these numbers are asked for. -/
def need (d : Dinode) (disk : FsDisk) (bns : List ℕ) : ℕ :=
  (bns.filter fun bn => d.block disk bn = 0).length +
    if d.table = 0 ∧ ∃ bn ∈ bns, NDIRECT ≤ bn then 1 else 0

def newBlocks (d : Dinode) (disk : FsDisk) (bns : List ℕ) : List ℕ := disk.free.take (d.need disk bns)

/-- The sectors that are logged when the blocks with these numbers are written. -/
def touched (d : Dinode) (disk : FsDisk) (bns : List ℕ) : Finset ℕ :=
  ((bns.map (d.block disk)).filter (· ≠ 0)).toFinset ∪
    (d.newBlocks disk bns ++ (d.newBlocks disk bns).map fun b => BBLOCK b disk.sb.ninodes).toFinset ∪
    if d.table ≠ 0 ∧ ∃ bn ∈ bns, NDIRECT ≤ bn ∧ d.block disk bn = 0 then {d.table} else ∅

section Blocks

variable {d e : Dinode} {disk disk' : FsDisk} {b bn : ℕ} {bns : List ℕ}

theorem Has.of_block (h : d.block disk bn ≠ 0) : d.Has disk (d.block disk bn) :=
  ⟨h, .inr ⟨bn, rfl⟩⟩

theorem Has.of_table (h : d.table ≠ 0) : d.Has disk d.table := ⟨h, .inl rfl⟩

theorem block_of_lt (h : bn < NDIRECT) : d.block disk bn = d.addr bn := if_pos h

theorem block_of_table (h : NDIRECT ≤ bn) (ht : d.table ≠ 0) :
    d.block disk bn = (disk.data d.table).word (bn - NDIRECT) := by
  rw [block, if_neg (Nat.not_lt.mpr h), if_neg ht]

theorem block_of_not_table (h : NDIRECT ≤ bn) (ht : d.table = 0) : d.block disk bn = 0 := by
  rw [block, if_neg (Nat.not_lt.mpr h), if_pos ht]

/-- A file that has the block `c` and no other. -/
def HasOne (d : Dinode) (c : ℕ) : Prop := ∀ k, d.addrs k = if k.val = 0 then c else 0

theorem HasOne.table {c : ℕ} (h : d.HasOne c) : d.table = 0 := h _

theorem HasOne.block {c : ℕ} (h : d.HasOne c) : d.block disk bn = if bn = 0 then c else 0 := by
  by_cases hn : bn < NDIRECT
  · rw [block_of_lt hn, addr, dif_pos (Nat.lt_succ_of_lt hn), h]
  · rw [block_of_not_table (Nat.not_lt.mp hn) h.table, if_neg]
    rintro rfl
    exact hn (by decide)

theorem HasOne.eq {c : ℕ} (h : d.HasOne c) (hb : d.Has disk b) : b = c := by
  obtain ⟨hne, rfl | ⟨bn, rfl⟩⟩ := hb
  · exact absurd h.table hne
  · rw [h.block] at hne ⊢
    split at hne
    · rename_i hzero
      rw [if_pos hzero]
    · exact absurd rfl hne

/-- Such a file is well formed when its bytes are in the block. -/
theorem HasOne.wellFormed {c : ℕ} (h : d.HasOne c) (hc : c ≠ 0) (hsize : d.size ≤ BSIZE)
    (hused : disk.bitmap c = true) (hdata : disk.sb.IsData c) : d.WellFormed disk where
  small := hsize.trans (by decide)
  mapped := fun bn hbn => by
    rw [BSIZE_eq] at hsize hbn
    rwa [h.block, if_pos (by omega)]
  distinct := fun m n hm heq => by
    rw [h.block] at hm heq
    rw [h.block] at heq
    split at hm
    · by_contra hne
      rw [if_pos (by assumption), if_neg (by omega)] at heq
      exact hc heq
    · exact absurd rfl hm
  notTable := fun bn hne => by rwa [h.table]
  used := fun b hb => by rwa [h.eq hb]
  isData := fun b hb => by rwa [h.eq hb]

theorem mem_touched : b ∈ d.touched disk bns ↔
    (∃ bn ∈ bns, d.block disk bn ≠ 0 ∧ b = d.block disk bn) ∨ b ∈ d.newBlocks disk bns ∨
      (∃ a ∈ d.newBlocks disk bns, b = BBLOCK a disk.sb.ninodes) ∨
      (b = d.table ∧ d.table ≠ 0 ∧ ∃ bn ∈ bns, NDIRECT ≤ bn ∧ d.block disk bn = 0) := by
  have hlast : (b ∈ if d.table ≠ 0 ∧ ∃ bn ∈ bns, NDIRECT ≤ bn ∧ d.block disk bn = 0
      then ({d.table} : Finset ℕ) else ∅) ↔
      (b = d.table ∧ d.table ≠ 0 ∧ ∃ bn ∈ bns, NDIRECT ≤ bn ∧ d.block disk bn = 0) := by
    split
    · rw [Finset.mem_singleton, and_iff_left ‹_›]
    · exact ⟨fun h => absurd h (Finset.notMem_empty b), fun h => absurd h.2 ‹_›⟩
  rw [touched, Finset.mem_union, Finset.mem_union, hlast, List.mem_toFinset, List.mem_toFinset,
    List.mem_append, List.mem_filter, List.mem_map, List.mem_map]
  constructor
  · rintro ((⟨⟨bn, hbn, rfl⟩, hne⟩ | hfresh | ⟨a, ha, rfl⟩) | htable)
    · exact .inl ⟨bn, hbn, of_decide_eq_true hne, rfl⟩
    · exact .inr (.inl hfresh)
    · exact .inr (.inr (.inl ⟨a, ha, rfl⟩))
    · exact .inr (.inr (.inr htable))
  · rintro (⟨bn, hbn, hne, rfl⟩ | hfresh | ⟨a, ha, rfl⟩ | htable)
    · exact .inl (.inl ⟨⟨bn, hbn, rfl⟩, decide_eq_true hne⟩)
    · exact .inl (.inr (.inl hfresh))
    · exact .inl (.inr (.inr ⟨a, ha, rfl⟩))
    · exact .inr htable

theorem need_missing (h : d.block disk bn = 0) :
    d.need disk [bn] = if d.table = 0 ∧ NDIRECT ≤ bn then 2 else 1 := by
  rw [need]
  by_cases ht : d.table = 0 ∧ NDIRECT ≤ bn
  · rw [if_pos ht, if_pos ⟨ht.1, bn, List.mem_singleton_self bn, ht.2⟩]
    simp [h]
  · rw [if_neg ht, if_neg]
    · simp [h]
    · rintro ⟨hzero, m, hm, hle⟩
      rw [List.mem_singleton.mp hm] at hle
      exact ht ⟨hzero, hle⟩

end Blocks

section Others

variable {d e : Dinode} {disk disk' : FsDisk}

theorem block_of_data (h : e.table ≠ 0 → disk'.data e.table = disk.data e.table) :
    e.block disk' = e.block disk := by
  funext bn
  unfold block
  by_cases ht : e.table = 0
  · rw [if_pos ht, if_pos ht]
  · rw [h ht]

/-- A file whose blocks have not changed is the same. -/
theorem block_congr (h : ∀ b, e.Has disk b → disk'.data b = disk.data b) :
    e.block disk' = e.block disk :=
  block_of_data fun ht => h _ (Has.of_table ht)

theorem has_congr (h : ∀ b, e.Has disk b → disk'.data b = disk.data b) (b : ℕ) :
    e.Has disk' b ↔ e.Has disk b := by
  unfold Has
  rw [block_congr h]

theorem byteAt_congr (h : ∀ b, e.Has disk b → disk'.data b = disk.data b) :
    e.byteAt disk' = e.byteAt disk := by
  funext k
  unfold byteAt
  rw [block_congr h]
  by_cases hb : e.block disk (k / BSIZE) = 0
  · rw [if_pos hb, if_pos hb]
  · rw [h _ (Has.of_block hb)]

theorem contents_congr (h : ∀ b, e.Has disk b → disk'.data b = disk.data b) :
    e.contents disk' = e.contents disk := by
  rw [contents, contents, byteAt_congr h]

theorem WellFormed.congr (he : e.WellFormed disk)
    (h : ∀ b, e.Has disk b → disk'.data b = disk.data b)
    (hbit : ∀ b, disk.bitmap b = true → disk'.bitmap b = true) (hsb : disk'.sb = disk.sb) :
    e.WellFormed disk' where
  small := he.small
  mapped := by
    rw [block_congr h]
    exact he.mapped
  distinct := by
    rw [block_congr h]
    exact he.distinct
  notTable := by
    rw [block_congr h]
    exact he.notTable
  used := fun b hb => hbit b (he.used b ((has_congr h b).mp hb))
  isData := fun b hb => by
    rw [hsb]
    exact he.isData b ((has_congr h b).mp hb)

end Others

end Dinode

end Xv6
