import Xv6.Lib.String

/-!
# Words in memory

A word that is stored is read back, and the words and bytes beside it stay.
-/

namespace Xv6

namespace Memory

variable {m : Memory} {a b x : UInt32}

/-- The bytes of a word make the word. -/
theorem bytes_word (x : UInt32) : x.toUInt8.toUInt32 + (256 : UInt32) * (x >>> 8).toUInt8.toUInt32 +
    (65536 : UInt32) * ((x >>> 16).toUInt8.toUInt32 + (256 : UInt32) * (x >>> 24).toUInt8.toUInt32) = x := by
  have hx := x.toNat_lt
  refine UInt32.toNat_inj.mp ?_
  simp [UInt32.toNat_add, UInt32.toNat_mul, UInt32.toNat_shiftRight, Nat.shiftRight_eq_div_pow]
  omega

theorem uint_eq (m : Memory) (a : UInt32) : m.uint a = (m a).toUInt32 +
    256 * (m (a + 1)).toUInt32 + 65536 * ((m (a + 2)).toUInt32 + 256 * (m (a + 3)).toUInt32) := by
  rw [uint, ushort, ushort, UInt32.add_assoc a]
  rfl

theorem storeWord_apply (c : UInt32) : m.storeWord a x c =
    if c = a + 3 then (x >>> 24).toUInt8 else if c = a + 2 then (x >>> 16).toUInt8
    else if c = a + 1 then (x >>> 8).toUInt8 else if c = a then x.toUInt8 else m c := by
  simp only [storeWord, Function.update_apply]

theorem uint_storeWord : (m.storeWord a x).uint a = x := by
  rw [uint_eq]
  simp [storeWord_apply]
  exact bytes_word x

theorem storeWord_of_outside {c : UInt32} (hb : b.toNat + 4 ≤ 2 ^ 32)
    (h : c.toNat < b.toNat ∨ b.toNat + 4 ≤ c.toNat) : m.storeWord b x c = m c := by
  have hne : ∀ i < 4, c ≠ b + UInt32.ofNat i := by
    intro i hi heq
    have hnat := toNat_addr hb hi
    rw [← heq] at hnat
    omega
  have hzero := hne 0 (by decide)
  have hone : c ≠ b + 1 := hne 1 (by decide)
  have htwo : c ≠ b + 2 := hne 2 (by decide)
  have hthree : c ≠ b + 3 := hne 3 (by decide)
  rw [addr_zero] at hzero
  rw [storeWord_apply, if_neg hthree, if_neg htwo, if_neg hone, if_neg hzero]

theorem uint_congr {t : Memory} (ha : a.toNat + 4 ≤ 2 ^ 32)
    (h : ∀ c : UInt32, a.toNat ≤ c.toNat → c.toNat < a.toNat + 4 → t c = m c) :
    t.uint a = m.uint a := by
  have hone := toNat_addr (i := 1) ha (by decide)
  have htwo := toNat_addr (i := 2) ha (by decide)
  have hthree := toNat_addr (i := 3) ha (by decide)
  change (a + 1).toNat = _ at hone
  change (a + 2).toNat = _ at htwo
  change (a + 3).toNat = _ at hthree
  rw [uint_eq, uint_eq, h a (by omega) (by omega), h (a + 1) (by omega) (by omega),
    h (a + 2) (by omega) (by omega), h (a + 3) (by omega) (by omega)]

theorem uint_storeWord_of_beside (ha : a.toNat + 4 ≤ 2 ^ 32) (hb : b.toNat + 4 ≤ 2 ^ 32)
    (h : a.toNat + 4 ≤ b.toNat ∨ b.toNat + 4 ≤ a.toNat) :
    (m.storeWord b x).uint a = m.uint a :=
  uint_congr ha fun _ hle hlt => storeWord_of_outside hb (by omega)

theorem uint_update_of_outside {y : UInt8} (ha : a.toNat + 4 ≤ 2 ^ 32)
    (h : b.toNat < a.toNat ∨ a.toNat + 4 ≤ b.toNat) :
    Memory.uint (Function.update m b y) a = m.uint a := by
  refine uint_congr ha fun c hle hlt => Function.update_of_ne ?_ _ _
  rintro rfl
  omega

end Memory

end Xv6
