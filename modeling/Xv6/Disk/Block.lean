import Xv6.Basic

/-!
# Disk blocks

A block is `BSIZE` bytes. Blocks that hold arrays of 32-bit words (the log header,
the indirect blocks) are read and written through `word` and `setWord`, little
endian as on the machine.
-/

namespace Xv6

abbrev Block := Fin BSIZE → UInt8

namespace Block

def zero : Block := fun _ => 0

def byte (b : Block) (j : ℕ) : ℕ :=
  if h : j < BSIZE then (b ⟨j, h⟩).toNat else 0

def word (b : Block) (i : ℕ) : ℕ :=
  b.byte (4 * i) + 256 * b.byte (4 * i + 1) + 256 ^ 2 * b.byte (4 * i + 2) +
    256 ^ 3 * b.byte (4 * i + 3)

def setWord (b : Block) (i w : ℕ) : Block := fun j =>
  if j.val / 4 = i then UInt8.ofNat (w / 256 ^ (j.val % 4)) else b j

@[simp] theorem byte_zero (j : ℕ) : zero.byte j = 0 := by
  simp [byte, zero]

@[simp] theorem word_zero (i : ℕ) : zero.word i = 0 := by
  simp [word]

theorem byte_setWord_same (b : Block) {i k : ℕ} (w : ℕ) (hi : i < 128) (hk : k < 4) :
    (b.setWord i w).byte (4 * i + k) = w / 256 ^ k % 256 := by
  have hlt : 4 * i + k < BSIZE := by unfold BSIZE; omega
  have hdiv : (4 * i + k) / 4 = i := by omega
  have hmod : (4 * i + k) % 4 = k := by omega
  simp [byte, setWord, hlt, hdiv, hmod]

theorem byte_setWord_ne (b : Block) {i j : ℕ} (w : ℕ) (hj : j / 4 ≠ i) :
    (b.setWord i w).byte j = b.byte j := by
  simp [byte, setWord, hj]

theorem word_setWord_same (b : Block) {i w : ℕ} (hi : i < 128) (hw : w < 2 ^ 32) :
    (b.setWord i w).word i = w := by
  have h0 := b.byte_setWord_same w hi (k := 0) (by norm_num)
  have h1 := b.byte_setWord_same w hi (k := 1) (by norm_num)
  have h2 := b.byte_setWord_same w hi (k := 2) (by norm_num)
  have h3 := b.byte_setWord_same w hi (k := 3) (by norm_num)
  rw [Nat.add_zero] at h0
  rw [word, h0, h1, h2, h3]
  omega

theorem word_setWord_ne (b : Block) {i j : ℕ} (w : ℕ) (hij : i ≠ j) :
    (b.setWord i w).word j = b.word j := by
  unfold word
  rw [byte_setWord_ne b w (by omega), byte_setWord_ne b w (by omega),
    byte_setWord_ne b w (by omega), byte_setWord_ne b w (by omega)]

end Block

end Xv6
