import Mathlib.Data.Nat.Bitwise
import Xv6.Fs.Content

/-!
# Inodes and bits in sectors

How the kernel and `mkfs` find their data in the sectors of an image: the superblock, on-disk inodes
of 16 words each, and the bits of the bitmap.
-/

namespace Xv6

namespace Block

def setWords (b : Block) (o n : ℕ) (w : ℕ → ℕ) : Block := fun j =>
  if o ≤ j.val / 4 ∧ j.val / 4 < o + n then
    UInt8.ofNat (w (j.val / 4 - o) / 256 ^ (j.val % 4))
  else b j

def superblock (b : Block) : Superblock where
  size := b.word 0
  nblocks := b.word 1
  ninodes := b.word 2
  nlog := b.word 3

def dinode (b : Block) (j : ℕ) : Dinode where
  type := b.word (16 * j) % 65536
  major := short (b.word (16 * j) / 65536 : ℕ)
  minor := short (b.word (16 * j + 1) % 65536 : ℕ)
  nlink := short (b.word (16 * j + 1) / 65536 : ℕ)
  size := b.word (16 * j + 2)
  addrs k := b.word (16 * j + (k + 3))

/-- `(data[i/8] & (1 << (i%8))) != 0` -/
def bit (b : Block) (i : ℕ) : Bool := decide (b.byte (i / 8) &&& 1 <<< (i % 8) ≠ 0)

/-- `data[i/8] = data[i/8] | (0x1 << (i%8))` -/
def mark (b : Block) (i : ℕ) : Block := fun j =>
  if j.val = i / 8 then UInt8.ofNat ((b j).toNat ||| 1 <<< (i % 8)) else b j

end Block

namespace Dinode

def word (d : Dinode) : ℕ → ℕ
  | 0 => d.type % 65536 + 65536 * (d.major % 65536).toNat
  | 1 => (d.minor % 65536).toNat + 65536 * (d.nlink % 65536).toNat
  | 2 => d.size
  | k + 3 => d.addr k

/-- The fields are in the ranges of their types. -/
structure Fits (d : Dinode) : Prop where
  type : d.type < 65536
  major : -32768 ≤ d.major ∧ d.major < 32768
  minor : -32768 ≤ d.minor ∧ d.minor < 32768
  nlink : -32768 ≤ d.nlink ∧ d.nlink < 32768
  size : d.size < 2 ^ 32
  addr : ∀ k, d.addr k < 2 ^ 32

end Dinode

namespace Block

/-- `*dip = *ip`, for the inode with the number `j` in the sector. -/
def setDinode (b : Block) (j : ℕ) (d : Dinode) : Block := b.setWords (16 * j) 16 d.word

section Words

variable {b : Block} {d : Dinode} {i j k o n : ℕ} {w : ℕ → ℕ}

theorem byte_setWords (hi : i < n) (hk : k < 4) (hn : o + n ≤ 128) :
    (b.setWords o n w).byte (4 * (o + i) + k) = w i / 256 ^ k % 256 := by
  have hlt : 4 * (o + i) + k < BSIZE := by unfold BSIZE; omega
  have hdiv : (4 * (o + i) + k) / 4 = o + i := by omega
  have hmod : (4 * (o + i) + k) % 4 = k := by omega
  rw [byte, dif_pos hlt, setWords, if_pos (by rw [hdiv]; omega), hdiv, hmod,
    Nat.add_sub_cancel_left]
  exact UInt8.toNat_ofNat'

theorem word_setWords (hi : i < n) (hn : o + n ≤ 128) (hw : w i < 2 ^ 32) :
    (b.setWords o n w).word (o + i) = w i := by
  have h0 : (b.setWords o n w).byte (4 * (o + i) + 0) = _ := byte_setWords hi (by norm_num) hn
  have h1 : (b.setWords o n w).byte (4 * (o + i) + 1) = _ := byte_setWords hi (by norm_num) hn
  have h2 : (b.setWords o n w).byte (4 * (o + i) + 2) = _ := byte_setWords hi (by norm_num) hn
  have h3 : (b.setWords o n w).byte (4 * (o + i) + 3) = _ := byte_setWords hi (by norm_num) hn
  rw [Nat.add_zero] at h0
  rw [word, h0, h1, h2, h3]
  omega

theorem word_setWords_ne (h : i < o ∨ o + n ≤ i) : (b.setWords o n w).word i = b.word i := by
  have hbyte : ∀ k < 4, (b.setWords o n w).byte (4 * i + k) = b.byte (4 * i + k) := by
    intro k hk
    by_cases hlt : 4 * i + k < BSIZE
    · rw [byte, dif_pos hlt, byte, dif_pos hlt, setWords, if_neg]
      have hdiv : (4 * i + k) / 4 = i := by omega
      rw [hdiv]
      omega
    · rw [byte, dif_neg hlt, byte, dif_neg hlt]
  have h0 := hbyte 0 (by norm_num)
  rw [Nat.add_zero] at h0
  rw [word, word, h0, hbyte 1 (by norm_num), hbyte 2 (by norm_num), hbyte 3 (by norm_num)]

theorem short_of_mod {z : ℤ} (h : -32768 ≤ z ∧ z < 32768) : short ((z % 65536).toNat : ℕ) = z := by
  unfold short
  have hmod : (z % 65536).bmod 65536 = z.bmod 65536 := Int.emod_bmod z 65536
  rw [Int.toNat_of_nonneg (Int.emod_nonneg z (by decide)), hmod]
  exact Int.bmod_eq_of_le (by omega) (by omega)

/-- An inode that has been written is read. -/
theorem dinode_setDinode (hj : j < 8) (h : d.Fits) : (b.setDinode j d).dinode j = d := by
  have hword : ∀ i < 16, d.word i < 2 ^ 32 → (b.setDinode j d).word (16 * j + i) = d.word i :=
    fun i hi hw => word_setWords hi (by omega) hw
  have hmajor := Int.emod_lt_of_pos d.major (show (0 : ℤ) < 65536 by decide)
  have hminor := Int.emod_lt_of_pos d.minor (show (0 : ℤ) < 65536 by decide)
  have hnlink := Int.emod_lt_of_pos d.nlink (show (0 : ℤ) < 65536 by decide)
  have htype := h.type
  have h0 : (b.setDinode j d).word (16 * j) = d.type + 65536 * (d.major % 65536).toNat := by
    have hzero := hword 0 (by norm_num) (by rw [Dinode.word]; omega)
    rw [Nat.add_zero, Dinode.word, Nat.mod_eq_of_lt htype] at hzero
    exact hzero
  have h1 : (b.setDinode j d).word (16 * j + 1) =
      (d.minor % 65536).toNat + 65536 * (d.nlink % 65536).toNat :=
    hword 1 (by norm_num) (by rw [Dinode.word]; omega)
  have h2 : (b.setDinode j d).word (16 * j + 2) = d.size := hword 2 (by norm_num) h.size
  have haddr : ∀ k : Fin (NDIRECT + 1), (b.setDinode j d).word (16 * j + (k + 3)) = d.addrs k := by
    intro k
    have hk : k.val < 13 := k.isLt
    have haddr := hword (k + 3) (by omega) (h.addr k)
    rw [haddr, Dinode.word, Dinode.addr, dif_pos k.isLt]
  have hlow : ∀ x y : ℕ, x < 65536 → (x + 65536 * y) % 65536 = x := fun x y hx => by omega
  have hhigh : ∀ x y : ℕ, x < 65536 → (x + 65536 * y) / 65536 = y := fun x y hx => by omega
  have hminor' : (d.minor % 65536).toNat < 65536 := by omega
  unfold dinode
  rw [h0, h1, h2, hlow _ _ htype, hhigh _ _ htype, hlow _ _ hminor', hhigh _ _ hminor',
    short_of_mod h.major, short_of_mod h.minor, short_of_mod h.nlink]
  cases d
  congr 1
  exact funext haddr

theorem dinode_setDinode_ne (hj : j ≠ k) : (b.setDinode j d).dinode k = b.dinode k := by
  have hword : ∀ i < 16, (b.setDinode j d).word (16 * k + i) = b.word (16 * k + i) :=
    fun i hi => word_setWords_ne (by omega)
  have h0 := hword 0 (by norm_num)
  rw [Nat.add_zero] at h0
  unfold dinode
  rw [h0, hword 1 (by norm_num), hword 2 (by norm_num)]
  congr 1
  funext i
  exact hword (i + 3) (Nat.add_lt_add_right i.isLt 3)

theorem dinode_zero : zero.dinode j = Dinode.zero := by
  unfold dinode
  simp only [word_zero]
  rfl

end Words

section Bits

variable {b : Block} {i j n : ℕ}

theorem bit_eq : b.bit i = (b.byte (i / 8)).testBit (i % 8) := by
  unfold bit
  rw [Nat.one_shiftLeft, Nat.and_two_pow]
  cases (b.byte (i / 8)).testBit (i % 8) with
  | true => simp
  | false => simp

theorem bit_zero : zero.bit i = false := by
  rw [bit_eq, byte_zero, Nat.zero_testBit]

theorem bit_mark (hj : j < BPB) : (b.mark i).bit j = (b.bit j || decide (j = i)) := by
  have hlt : j / 8 < BSIZE := by unfold BPB BSIZE at *; omega
  rw [bit_eq, bit_eq, byte, dif_pos hlt, byte, dif_pos hlt, mark]
  by_cases hbyte : j / 8 = i / 8
  · have hsmall : ((b ⟨j / 8, hlt⟩).toNat ||| 1 <<< (i % 8)) < 256 := by
      refine Nat.or_lt_two_pow (n := 8) (UInt8.toNat_lt _) ?_
      rw [Nat.one_shiftLeft]
      exact Nat.pow_lt_pow_right (by norm_num) (by omega)
    rw [if_pos hbyte, UInt8.toNat_ofNat', Nat.mod_eq_of_lt hsmall, Nat.testBit_or,
      Nat.one_shiftLeft, Nat.testBit_two_pow]
    congr 1
    exact decide_eq_decide.mpr (by omega)
  · have hne : decide (j = i) = false := decide_eq_false fun hji => hbyte (by rw [hji])
    rw [if_neg hbyte, hne, Bool.or_false]

/-- The first bits are marked. -/
theorem bit_marks (hj : j < BPB) :
    ((List.range n).foldl mark zero).bit j = decide (j < n) := by
  induction n with
  | zero => rw [List.range_zero, List.foldl_nil, bit_zero, decide_eq_false (Nat.not_lt_zero j)]
  | succ n ih =>
      rw [List.range_succ, List.foldl_append, List.foldl_cons, List.foldl_nil, bit_mark hj,
        ih]
      by_cases hlt : j < n
      · rw [decide_eq_true hlt, decide_eq_true (Nat.lt_succ_of_lt hlt), Bool.true_or]
      · rw [decide_eq_false hlt, Bool.false_or]
        exact decide_eq_decide.mpr (by omega)

end Bits

end Block

end Xv6
