import Xv6.Lib.String

/-!
# The two `memmove`

The kernel's `memmove` copies downwards where the destination begins inside the source, and
upwards otherwise, so that no byte is overwritten before it is read. The `memmove` of the
user library always copies upwards: a destination that begins inside the source gets the
beginning of the source over and over. It is right there only for bytes that repeat so.
-/

namespace Xv6

open Foundation

variable {m : Memory} {dst src d s : UInt32} {n : ℕ}

/-! ### The loops are lists of moves -/

def byteMoves (dst src : UInt32) (n : ℕ) : List (UInt32 × UInt32) :=
  ascending (fun i => dst + UInt32.ofNat i) (fun i => src + UInt32.ofNat i) n

theorem byteMoves_succ :
    byteMoves d s (n + 1) = (d, s) :: byteMoves (d + 1) (s + 1) n := by
  rw [byteMoves, ascending_succ]
  simp only [addr_zero, addr_succ]
  rfl

theorem byteMoves_concat : byteMoves d s (n + 1) =
    byteMoves d s n ++ [(d + UInt32.ofNat n, s + UInt32.ofNat n)] := ascending_concat

theorem moveUp_eq : StringC.moveUp d s n m = moves (byteMoves d s n) m := by
  induction n generalizing d s m with
  | zero => rfl
  | succ n ih => rw [StringC.moveUp, ih, byteMoves_succ, moves_cons]

theorem memmoveLoop_eq : UlibC.memmoveLoop d s n m = moves (byteMoves d s n) m := by
  induction n generalizing d s m with
  | zero => rfl
  | succ n ih => rw [UlibC.memmoveLoop, ih, byteMoves_succ, moves_cons]

theorem addr_pred (a : UInt32) (i : ℕ) :
    a + UInt32.ofNat (i + 1) - 1 = a + UInt32.ofNat i := by
  rw [UInt32.ofNat_add, ← UInt32.add_assoc]
  exact UInt32.add_sub_cancel _ _

theorem moveDown_eq : StringC.moveDown (d + UInt32.ofNat n) (s + UInt32.ofNat n) n m =
    moves (byteMoves d s n).reverse m := by
  induction n generalizing m with
  | zero => rfl
  | succ n ih =>
      rw [StringC.moveDown, addr_pred, addr_pred, ih, byteMoves_concat,
        List.reverse_concat', moves_cons]

/-! ### Copies -/

/-- The ranges do not wrap around the end of the address space. -/
structure NoWrap (dst src : UInt32) (n : ℕ) : Prop where
  dst_le : dst.toNat + n ≤ 2 ^ 32
  src_le : src.toNat + n ≤ 2 ^ 32

/-- Moves within the destination copy the source if each byte of it arrives. -/
theorem stored_moves_iff {ps : List (UInt32 × UInt32)}
    (h : ∀ p ∈ ps, p ∈ byteMoves dst src n) :
    Stored m dst (m.bytes src n) (moves ps m) ↔
      ∀ i < n, moves ps m (dst + UInt32.ofNat i) = m (src + UInt32.ofNat i) := by
  constructor
  · intro hstored
    have hbytes := hstored.bytes
    rwa [Memory.length_bytes, Memory.bytes_eq_iff] at hbytes
  · intro hmoved
    refine ⟨?_, fun x hx => moves_of_ne fun p hp => ?_⟩
    · rwa [Memory.length_bytes, Memory.bytes_eq_iff]
    · obtain ⟨i, hi, rfl⟩ := mem_ascending.mp (h p hp)
      exact hx i (hi.trans_eq Memory.length_bytes.symm)

theorem stored_of_clear {ps : List (UInt32 × UInt32)} (hclear : Clear ps)
    (hmem : ∀ p, p ∈ ps ↔ p ∈ byteMoves dst src n) :
    Stored m dst (m.bytes src n) (moves ps m) := by
  refine (stored_moves_iff fun p hp => (hmem p).mp hp).mpr fun i hi => ?_
  exact hclear.moves ((hmem (_, _)).mpr (mem_ascending.mpr ⟨i, hi, rfl⟩))

theorem NoWrap.dst_ne (h : NoWrap dst src n) {i j : ℕ} (hlt : i < j) (hj : j < n) :
    dst + UInt32.ofNat i ≠ dst + UInt32.ofNat j := by
  intro heq
  have hle := h.dst_le
  exact hlt.ne (addr_inj (by omega) (by omega) heq)

theorem NoWrap.ne_iff (h : NoWrap dst src n) {i j : ℕ} (hi : i < n) (hj : j < n) :
    dst + UInt32.ofNat i ≠ src + UInt32.ofNat j ↔ dst.toNat + i ≠ src.toNat + j := by
  rw [← toNat_addr h.dst_le hi, ← toNat_addr h.src_le hj]
  exact not_congr UInt32.toNat_inj.symm

/-- Upwards is right where the destination does not begin inside the source. -/
theorem NoWrap.stored_up (h : NoWrap dst src n)
    (hout : dst.toNat ≤ src.toNat ∨ src.toNat + n ≤ dst.toNat) :
    Stored m dst (m.bytes src n) (moves (byteMoves dst src n) m) := by
  refine stored_of_clear (clear_ascending (fun i j hlt hj => ?_) fun i j => h.dst_ne)
    fun p => Iff.rfl
  exact (h.ne_iff (hlt.trans hj) hj).mpr (by omega)

/-- Downwards is right where it begins after the source. -/
theorem NoWrap.stored_down (h : NoWrap dst src n) (hlt : src.toNat < dst.toNat) :
    Stored m dst (m.bytes src n) (moves (byteMoves dst src n).reverse m) := by
  refine stored_of_clear (clear_descending (fun i j hij hj => ?_) fun i j => h.dst_ne)
    fun p => List.mem_reverse
  exact (h.ne_iff hj (hij.trans hj)).mpr (by omega)

/-- The kernel takes the right direction. -/
theorem NoWrap.kernel {n : UInt32} (h : NoWrap dst src n.toNat) :
    Stored m dst (m.bytes src n.toNat) (StringC.memmove dst src n m) := by
  rw [StringC.memmove]
  split_ifs with hdir
  · have hdown := h.stored_down (m := m) (UInt32.lt_iff_toNat_lt.mp hdir.1)
    rwa [← moveDown_eq, UInt32.ofNat_toNat] at hdown
  · rw [moveUp_eq]
    refine h.stored_up ?_
    by_contra hin
    obtain ⟨hlt, hin⟩ := not_or.mp hin
    have hle := h.dst_le
    refine hdir ⟨UInt32.lt_iff_toNat_lt.mpr (not_le.mp hlt), UInt32.lt_iff_toNat_lt.mpr ?_⟩
    rw [UInt32.toNat_add, Nat.mod_eq_of_lt (by omega)]
    exact not_le.mp hin

/-- Where the destination begins inside the source, the bytes that the ranges share are
those that lie as far below them as the source lies below the destination. -/
def Repeats (m : Memory) (dst src : UInt32) (n : ℕ) : Prop :=
  src < dst → ∀ i : ℕ, dst.toNat + i < src.toNat + n →
    m (dst + UInt32.ofNat i) = m (src + UInt32.ofNat i)

/-- Copied upwards by fewer bytes than its length, a range repeats its beginning. -/
theorem NoWrap.stored_up_iff (h : NoWrap dst src n) :
    Stored m dst (m.bytes src n) (moves (byteMoves dst src n) m) ↔ Repeats m dst src n := by
  by_cases hlt : src < dst
  · have hlt' := UInt32.lt_iff_toNat_lt.mp hlt
    obtain ⟨k, hk⟩ := Nat.exists_eq_add_of_lt hlt'
    have hdst : ∀ i, dst + UInt32.ofNat i = src + UInt32.ofNat (i + (k + 1)) := by
      intro i
      have hword : dst = src + UInt32.ofNat (k + 1) := by
        rw [← UInt32.ofNat_toNat (x := dst), hk, Nat.add_assoc, UInt32.ofNat_add,
          UInt32.ofNat_toNat]
      rw [hword, UInt32.add_assoc, ← UInt32.ofNat_add, Nat.add_comm]
    have hle := h.dst_le
    have hshift : ∀ i < n, moves (byteMoves dst src n) m (dst + UInt32.ofNat i) =
        m (src + UInt32.ofNat ((i + (k + 1)) % (k + 1))) := by
      intro i hi
      rw [byteMoves, funext hdst, hdst]
      refine moves_shift (a := fun j => src + UInt32.ofNat j) (fun i j hij hj heq => ?_)
        (Nat.succ_pos k) (by omega)
      exact hij.ne (addr_inj (by omega) (by omega) heq)
    have hmod := forall_mod_iff (n := n) (k := k + 1) (f := fun i => m (src + UInt32.ofNat i))
    rw [stored_moves_iff fun _ => id, Repeats, imp_iff_right hlt]
    refine Iff.trans (forall₂_congr fun i hi => by rw [hshift i hi]) (hmod.trans ?_)
    refine forall_congr' fun i => ?_
    rw [← hdst]
    exact imp_congr_left (by omega)
  · refine iff_of_true (h.stored_up (.inl ?_)) fun hlt' => absurd hlt' hlt
    exact not_lt.mp fun hlt' => hlt (UInt32.lt_iff_toNat_lt.mpr hlt')

/-- The kernel's `memmove` copies whatever the overlap; the user library's copies exactly
where the bytes of the overlap repeat. -/
theorem memmove_overlap (m : Memory) (dst src : UInt32) :
    (∀ n : UInt32, NoWrap dst src n.toNat →
      Stored m dst (m.bytes src n.toNat) (StringC.memmove dst src n m)) ∧
    ∀ n : Int32, NoWrap dst src n.toNatClampNeg →
      (Stored m dst (m.bytes src n.toNatClampNeg) (UlibC.memmove dst src n m) ↔
        Repeats m dst src n.toNatClampNeg) := by
  refine ⟨fun n h => h.kernel, fun n h => ?_⟩
  rw [UlibC.memmove, memmoveLoop_eq]
  exact h.stored_up_iff

/-- The bytes 1 and 2 at the addresses 0 and 1. -/
def oneTwo : Memory := fun a => if a = 0 then 1 else if a = 1 then 2 else 0

theorem noWrap_oneTwo : NoWrap 1 0 2 := ⟨by decide, by decide⟩

/-- Moved up by one, the bytes 1 and 2 arrive in the kernel. -/
theorem memmove_overlap_oneTwo :
    Stored oneTwo 1 (oneTwo.bytes 0 2) (StringC.memmove 1 0 2 oneTwo) ∧
    (Stored oneTwo 1 (oneTwo.bytes 0 2) (UlibC.memmove 1 0 2 oneTwo) ↔
      Repeats oneTwo 1 0 2) :=
  ⟨(memmove_overlap oneTwo 1 0).1 2 noWrap_oneTwo,
    (memmove_overlap oneTwo 1 0).2 2 noWrap_oneTwo⟩

/-- In the user library 1 and 1 arrive. -/
theorem ulib_memmove_repeats :
    NoWrap 1 0 2 ∧ (UlibC.memmove 1 0 2 oneTwo).bytes 1 2 = [1, 1] ∧
    ¬ Stored oneTwo 1 (oneTwo.bytes 0 2) (UlibC.memmove 1 0 2 oneTwo) := by
  refine ⟨noWrap_oneTwo, by decide, fun h => ?_⟩
  have hbytes : (UlibC.memmove 1 0 2 oneTwo).bytes 1 2 = oneTwo.bytes 0 2 := h.bytes
  exact absurd hbytes (by decide)

end Xv6
