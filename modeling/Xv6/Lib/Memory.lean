import Xv6.Foundation.Moves

/-!
# Memory of bytes

An address space of 32 bits, every address of which holds a byte. Addresses are added and
subtracted as words.
-/

namespace Xv6

open Foundation

abbrev Memory := UInt32 → UInt8

theorem addr_inj {a : UInt32} {i j : ℕ} (hi : i < 2 ^ 32) (hj : j < 2 ^ 32)
    (h : a + UInt32.ofNat i = a + UInt32.ofNat j) : i = j := by
  have hword := congrArg UInt32.toNat ((UInt32.add_right_inj a).mp h)
  rwa [UInt32.toNat_ofNat', UInt32.toNat_ofNat', Nat.mod_eq_of_lt hi,
    Nat.mod_eq_of_lt hj] at hword

theorem addr_succ (a : UInt32) (i : ℕ) :
    a + UInt32.ofNat (i + 1) = a + 1 + UInt32.ofNat i := by
  rw [Nat.add_comm i, UInt32.ofNat_add, ← UInt32.add_assoc]
  rfl

theorem addr_zero (a : UInt32) : a + UInt32.ofNat 0 = a := UInt32.add_zero a

/-- Where the range does not wrap around, its addresses are numbers. -/
theorem toNat_addr {a : UInt32} {i n : ℕ} (h : a.toNat + n ≤ 2 ^ 32) (hi : i < n) :
    (a + UInt32.ofNat i).toNat = a.toNat + i := by
  rw [UInt32.toNat_add, UInt32.toNat_ofNat', Nat.add_mod_mod]
  exact Nat.mod_eq_of_lt (by omega)

theorem toNat_sub_lt_iff {a x : UInt32} {n : ℕ} (h : a.toNat + n ≤ 2 ^ 32) :
    (x - a).toNat < n ↔ a.toNat ≤ x.toNat ∧ x.toNat < a.toNat + n := by
  have ha := a.toNat_lt
  have hx := x.toNat_lt
  rw [UInt32.toNat_sub]
  omega

theorem toNat_sub_of_le {a x : UInt32} (h : a.toNat ≤ x.toNat) :
    (x - a).toNat = x.toNat - a.toNat :=
  UInt32.toNat_sub_of_le _ _ (UInt32.le_iff_toNat_le.mpr h)

namespace Memory

def bytes (m : Memory) (a : UInt32) (n : ℕ) : List UInt8 :=
  (List.range n).map fun i => m (a + UInt32.ofNat i)

def ushort (m : Memory) (a : UInt32) : UInt32 := (m a).toUInt32 + 256 * (m (a + 1)).toUInt32

def uint (m : Memory) (a : UInt32) : UInt32 := m.ushort a + 65536 * m.ushort (a + 2)

variable {m t : Memory} {a x : UInt32} {n k : ℕ} {bs : List UInt8}

@[simp] theorem length_bytes : (m.bytes a n).length = n := by
  rw [bytes, List.length_map, List.length_range]

@[simp] theorem getElem_bytes {i : ℕ} (h : i < (m.bytes a n).length) :
    (m.bytes a n)[i] = m (a + UInt32.ofNat i) := by
  simp [bytes]

theorem bytes_succ : m.bytes a (n + 1) = m a :: m.bytes (a + 1) n := by
  rw [bytes, List.range_succ_eq_map, List.map_cons, List.map_map, addr_zero]
  refine congrArg _ (List.map_congr_left fun i _ => ?_)
  exact congrArg m (addr_succ a i)

theorem bytes_eq_iff : t.bytes x n = m.bytes a n ↔
    ∀ i < n, t (x + UInt32.ofNat i) = m (a + UInt32.ofNat i) := by
  rw [bytes, bytes, List.map_inj_left]
  exact forall_congr' fun i => by rw [List.mem_range]

theorem take_bytes (h : k ≤ n) : (m.bytes a n).take k = m.bytes a k := by
  rw [bytes, ← List.map_take, List.take_range, Nat.min_eq_left h]
  rfl

end Memory

/-- `t` is `m` with `bs` stored from `a` on. -/
structure Stored (m : Memory) (a : UInt32) (bs : List UInt8) (t : Memory) : Prop where
  bytes : t.bytes a bs.length = bs
  frame : ∀ x, (∀ i < bs.length, a + UInt32.ofNat i ≠ x) → t x = m x

end Xv6
