import Xv6.Fs.Names
import Xv6.Lib.Memmove

/-!
# The bounds of the string functions

`memset` fills the same bytes with words as byte by byte. `strncpy` and `safestrcpy` write
what they promise, and nothing else, as long as they do not overwrite the part of their
source that they have still to read; `strncmp` compares the strings cut to `n` bytes. On
lists of bytes `strncpy` is the function that directory entries are built with.
-/

namespace Xv6

open Foundation

variable {m u v : Memory} {a s t p q : UInt32} {n k : ℕ} {bs cs : List UInt8}

/-! ### Stores -/

theorem Stored.getElem (h : Stored m a bs u) {i : ℕ} (hi : i < bs.length) :
    u (a + UInt32.ofNat i) = bs[i] := by
  have hbytes := List.getElem_of_eq h.bytes (i := i) (Memory.length_bytes.symm ▸ hi)
  rwa [Memory.getElem_bytes] at hbytes

theorem stored_of_getElem
    (hin : ∀ i, (hi : i < bs.length) → u (a + UInt32.ofNat i) = bs[i])
    (hout : ∀ x, (∀ i < bs.length, a + UInt32.ofNat i ≠ x) → u x = m x) :
    Stored m a bs u := by
  refine ⟨List.ext_getElem Memory.length_bytes fun i _ hi => ?_, hout⟩
  rw [Memory.getElem_bytes, hin i hi]

theorem stored_nil : Stored m a [] m := ⟨rfl, fun _ _ => rfl⟩

theorem stored_update {b : UInt8} : Stored m a [b] (Function.update m a b) := by
  refine stored_of_getElem (fun i hi => ?_) fun x hx => ?_
  · have hzero : i = 0 := Nat.lt_one_iff.mp hi
    subst hzero
    rw [addr_zero, Function.update_self]
    rfl
  · have hne := hx 0 (Nat.succ_pos 0)
    rw [addr_zero] at hne
    exact Function.update_of_ne hne.symm _ _

/-- Two stores one behind the other. -/
theorem Stored.append (h : Stored m a bs u) (hlen : bs.length + cs.length ≤ 2 ^ 32)
    (h' : Stored u (a + UInt32.ofNat bs.length) cs v) : Stored m a (bs ++ cs) v := by
  have haddr : ∀ j, a + UInt32.ofNat bs.length + UInt32.ofNat j =
      a + UInt32.ofNat (bs.length + j) := by
    intro j
    rw [UInt32.add_assoc, ← UInt32.ofNat_add]
  refine stored_of_getElem (fun i hi => ?_) fun x hx => ?_
  · rw [List.length_append] at hi
    by_cases hlt : i < bs.length
    · rw [List.getElem_append_left hlt, ← h.getElem hlt]
      refine h'.frame _ fun j hj heq => ?_
      rw [haddr] at heq
      have hij := addr_inj (by omega) (by omega) heq
      omega
    · have hle : bs.length ≤ i := Nat.le_of_not_lt hlt
      have hget := h'.getElem (i := i - bs.length) (by omega)
      rw [haddr, Nat.add_sub_cancel' hle] at hget
      rw [List.getElem_append_right hle, hget]
  · rw [List.length_append] at hx
    rw [h'.frame x fun j hj => ?_, h.frame x fun i hi => hx i (by omega)]
    rw [haddr]
    exact hx (bs.length + j) (by omega)

/-- The first of the bytes stored. -/
theorem Stored.bytes_prefix (h : Stored m a (bs ++ cs) u) : u.bytes a bs.length = bs := by
  have htake := congrArg (List.take bs.length) h.bytes
  rwa [List.length_append, Memory.take_bytes (Nat.le_add_right _ _), List.take_left'] at htake
  rfl

/-! ### `memset` -/

theorem stored_stosb {c : UInt32} (hn : n ≤ 2 ^ 32) :
    Stored m a (List.replicate n c.toUInt8) (stosb a c n m) := by
  induction n generalizing a m with
  | zero => exact stored_nil
  | succ n ih =>
      rw [stosb, List.replicate_succ, ← List.singleton_append]
      refine stored_update.append ?_ (ih (Nat.le_of_succ_le hn))
      rw [List.length_singleton, List.length_replicate, Nat.add_comm]
      exact hn

/-- Each byte of the word is the low byte of `c`. -/
theorem splat_byte (c : UInt32) {k : ℕ} (hk : k < 4) :
    (StringC.splat (c &&& 0xFF) >>> UInt32.ofNat (8 * k)).toUInt8 = c.toUInt8 := by
  refine UInt8.eq_of_toBitVec_eq (BitVec.eq_of_getElem_eq fun i hi => ?_)
  interval_cases k <;> interval_cases i <;> simp [StringC.splat]

theorem storeWord_splat (c : UInt32) :
    stosb (a + 4) c n (Memory.storeWord a (StringC.splat (c &&& 0xFF)) m) =
      stosb a c (n + 4) m := by
  have hzero : (StringC.splat (c &&& 0xFF)).toUInt8 = c.toUInt8 := by
    have hshift := splat_byte c (k := 0) (by decide)
    change (StringC.splat (c &&& 0xFF) >>> 0).toUInt8 = _ at hshift
    rwa [UInt32.shiftRight_zero] at hshift
  have hone := splat_byte c (k := 1) (by decide)
  have htwo := splat_byte c (k := 2) (by decide)
  have hthree := splat_byte c (k := 3) (by decide)
  change (StringC.splat (c &&& 0xFF) >>> 8).toUInt8 = _ at hone
  change (StringC.splat (c &&& 0xFF) >>> 16).toUInt8 = _ at htwo
  change (StringC.splat (c &&& 0xFF) >>> 24).toUInt8 = _ at hthree
  rw [Memory.storeWord, hzero, hone, htwo, hthree]
  simp only [stosb, UInt32.add_assoc]
  rfl

theorem stosl_splat (c : UInt32) :
    stosl a (StringC.splat (c &&& 0xFF)) n m = stosb a c (4 * n) m := by
  induction n generalizing a m with
  | zero => rfl
  | succ n ih => rw [stosl, ih, storeWord_splat, Nat.mul_succ]

/-- The fast path makes no difference. -/
theorem memset_eq (c n : UInt32) : StringC.memset a c n m = UlibC.memset a c n m := by
  rw [StringC.memset, UlibC.memset]
  split_ifs with h
  · have hrem : n.toNat % 4 = 0 := congrArg UInt32.toNat h.2
    have hdiv : (n / 4).toNat = n.toNat / 4 := rfl
    rw [stosl_splat, hdiv, Nat.mul_div_cancel' (Nat.dvd_of_mod_eq_zero hrem)]
  · rfl

theorem stored_memset (c n : UInt32) :
    Stored m a (List.replicate n.toNat c.toUInt8) (UlibC.memset a c n m) :=
  stored_stosb n.toNat_lt.le

/-! ### Strings in memory -/

namespace Memory

/-- The string at `t`, cut to `n` characters. -/
def text (m : Memory) (t : UInt32) (n : ℕ) : List UInt8 := cstr (m.bytes t n)

theorem text_nul (h : m t = 0) : m.text t (n + 1) = [] := by
  rw [text, bytes_succ, cstr, List.takeWhile_cons_of_neg]
  rw [h]
  decide

theorem text_char (h : m t ≠ 0) : m.text t (n + 1) = m t :: m.text (t + 1) n := by
  rw [text, bytes_succ, cstr,
    List.takeWhile_cons_of_pos (p := fun b => decide (b ≠ 0)) (decide_eq_true h)]
  rfl

theorem length_text_le : (m.text t n).length ≤ n :=
  (List.takeWhile_sublist _).length_le.trans_eq length_bytes

/-- How far a copy of the string goes: its NUL is copied too, if that is within `n`. -/
def upto (m : Memory) (t : UInt32) (n : ℕ) : ℕ := min n ((m.text t n).length + 1)

/-- The bytes up to there. -/
theorem bytes_upto : m.bytes t (m.upto t n) =
    m.text t n ++ List.replicate (m.upto t n - (m.text t n).length) 0 := by
  induction n generalizing t with
  | zero => rfl
  | succ n ih =>
      by_cases h : m t = 0
      · rw [upto, text_nul h, List.length_nil, Nat.min_eq_right (Nat.succ_pos n), bytes_succ, h]
        rfl
      · have ih := ih (t := t + 1)
        rw [upto] at ih
        rw [upto, text_char h, List.length_cons, Nat.add_min_add_right, bytes_succ, ih,
          Nat.add_sub_add_right]
        rfl

/-- The string depends on its own characters and its NUL only. -/
theorem text_congr (h : ∀ j < n, j ≤ (m.text t n).length →
    u (t + UInt32.ofNat j) = m (t + UInt32.ofNat j)) : u.text t n = m.text t n := by
  induction n generalizing t with
  | zero => rfl
  | succ n ih =>
      have hfirst := h 0 (Nat.succ_pos n) (Nat.zero_le _)
      rw [addr_zero] at hfirst
      by_cases hnul : m t = 0
      · rw [text_nul hnul, text_nul (hfirst.trans hnul)]
      · rw [text_char hnul, text_char (hfirst.trans_ne hnul), hfirst, ih fun j hj hle => ?_]
        have hnext := h (j + 1) (Nat.succ_lt_succ hj)
        rw [text_char hnul, List.length_cons, addr_succ] at hnext
        exact hnext (Nat.succ_le_succ hle)

end Memory

/-! ### `strncpy` and `safestrcpy` -/

/-- The copy of the string at `t` does not overwrite what it has still to read. -/
def Unread (m : Memory) (s t : UInt32) (n : ℕ) : Prop :=
  ∀ i j, i < j → j < m.upto t n → s + UInt32.ofNat i ≠ t + UInt32.ofNat j

/-- The loop of `strncpy` makes the moves up to the NUL. -/
theorem strncpyCopy_eq (h : Unread m s t n) : StringC.strncpyCopy s t n m =
    (s + UInt32.ofNat (m.upto t n), (n : ℤ) - (m.text t n).length - 1,
      moves (byteMoves s t (m.upto t n)) m) := by
  induction n generalizing s t m with
  | zero =>
      rw [Memory.upto, Nat.zero_min, addr_zero]
      rfl
  | succ n ih =>
      by_cases hnul : m t = 0
      · rw [StringC.strncpyCopy, if_neg (not_not.mpr hnul), Memory.upto, Memory.text_nul hnul,
          List.length_nil, Nat.min_eq_right (Nat.succ_pos n), byteMoves_succ, moves_cons]
        rw [Nat.cast_succ, Nat.cast_zero, sub_zero, add_sub_cancel_right]
        rfl
      · have hupto : m.upto t (n + 1) = m.upto (t + 1) n + 1 := by
          rw [Memory.upto, Memory.text_char hnul, List.length_cons, Nat.add_min_add_right]
          rfl
        rw [Unread, hupto] at h
        have htext : Memory.text (Function.update m s (m t)) (t + 1) n = m.text (t + 1) n := by
          refine Memory.text_congr fun j hj hle => Function.update_of_ne (fun heq => ?_) _ _
          refine h 0 (j + 1) (Nat.succ_pos j) (Nat.succ_lt_succ (lt_min hj ?_)) ?_
          · exact Nat.lt_succ_of_le hle
          · rw [addr_zero, addr_succ, heq]
        have hsame : Memory.upto (Function.update m s (m t)) (t + 1) n = m.upto (t + 1) n := by
          rw [Memory.upto, htext, Memory.upto]
        rw [StringC.strncpyCopy, if_pos hnul, ih fun i j hij hj => ?_, hsame, htext, hupto,
          byteMoves_succ, moves_cons, Memory.text_char hnul, List.length_cons, addr_succ]
        · push_cast
          rw [add_sub_add_right_eq_sub]
        · rw [hsame] at hj
          rw [← addr_succ, ← addr_succ]
          exact h (i + 1) (j + 1) (Nat.succ_lt_succ hij) (Nat.succ_lt_succ hj)

/-- `safestrcpy` copies as `strncpy` does. -/
theorem safestrcpyCopy_eq : StringC.safestrcpyCopy s t n m =
    ((StringC.strncpyCopy s t n m).1, (StringC.strncpyCopy s t n m).2.2) := by
  induction n generalizing s t m with
  | zero => rfl
  | succ n ih =>
      rw [StringC.safestrcpyCopy, StringC.strncpyCopy, ih]
      split_ifs <;> rfl

theorem strncpyPad_eq : StringC.strncpyPad s n m = stosb s 0 n m := by
  induction n generalizing s m with
  | zero => rfl
  | succ n ih =>
      rw [StringC.strncpyPad, ih]
      rfl

/-- What the loop has stored. -/
theorem Unread.stored (h : Unread m s t n) (hn : n ≤ 2 ^ 32) :
    Stored m s (m.bytes t (m.upto t n)) (moves (byteMoves s t (m.upto t n)) m) := by
  have hle : m.upto t n ≤ n := min_le_left ..
  refine stored_of_clear (clear_ascending (fun i j hij hj => h i j hij hj)
    fun i j hij hj heq => ?_) fun p => Iff.rfl
  exact hij.ne (addr_inj (by omega) (by omega) heq)

/-- `strncpy` stores what it stores in a directory entry. -/
theorem Unread.strncpy {n : Int32} (h : Unread m s t n.toNatClampNeg) :
    Stored m s (strncpy (m.bytes t n.toNatClampNeg) n.toNatClampNeg)
      (StringC.strncpy s t n m) := by
  have hn := n.toNatClampNeg_lt
  rw [StringC.strncpy, strncpyCopy_eq h]
  generalize n.toNatClampNeg = k at *
  have hupto : m.upto t k = min k ((m.text t k).length + 1) := rfl
  have hlen : (m.text t k).length ≤ k := Memory.length_text_le
  have hcount : ((k : ℤ) - (m.text t k).length - 1).toNat = k - m.upto t k := by omega
  have hlist : Xv6.strncpy (m.bytes t k) k = m.bytes t (m.upto t k) ++
      List.replicate (k - m.upto t k) (UInt32.toUInt8 0) := by
    rw [Memory.bytes_upto, List.append_assoc, Xv6.strncpy, Memory.take_bytes le_rfl]
    change m.text t k ++ _ = m.text t k ++ (List.replicate _ 0 ++ List.replicate _ 0)
    rw [List.replicate_append_replicate]
    congr 2
    change k - (m.text t k).length = _
    omega
  rw [hlist]
  change Stored m s _ (StringC.strncpyPad _ _ _)
  rw [hcount, strncpyPad_eq]
  refine (h.stored (by omega)).append ?_ ?_
  · rw [Memory.length_bytes, List.length_replicate]
    omega
  · rw [Memory.length_bytes]
    exact stored_stosb (by omega)

/-- `safestrcpy` ends the string that it has copied. -/
theorem Unread.safestrcpy {n : Int32} (hpos : 0 < n)
    (h : Unread m s t (n.toNatClampNeg - 1)) :
    Stored m s (m.bytes t (m.upto t (n.toNatClampNeg - 1)) ++ [0])
      (StringC.safestrcpy s t n m) := by
  have hn := n.toNatClampNeg_lt
  rw [StringC.safestrcpy, if_neg (Int32.not_le.mpr hpos), safestrcpyCopy_eq, strncpyCopy_eq h]
  have hk : n.toNatClampNeg - 1 < 2 ^ 31 := (Nat.sub_le _ _).trans_lt hn
  generalize n.toNatClampNeg - 1 = k at *
  have hle : m.upto t k ≤ k := min_le_left ..
  refine (h.stored (by omega)).append ?_ ?_
  · rw [Memory.length_bytes, List.length_singleton]
    omega
  · rw [Memory.length_bytes]
    exact stored_update

/-! ### `strncmp` -/

theorem strncmpLoop_eq_zero_iff :
    (if (StringC.strncmpLoop m n p q).1 = 0 then 0
      else ((m (StringC.strncmpLoop m n p q).2.1).toNat : ℤ) -
        (m (StringC.strncmpLoop m n p q).2.2).toNat) = 0 ↔ m.text p n = m.text q n := by
  induction n generalizing p q with
  | zero => exact iff_of_true rfl rfl
  | succ n ih =>
      rw [StringC.strncmpLoop]
      by_cases h : m p ≠ 0 ∧ m p = m q
      · rw [if_pos h, Memory.text_char h.1, Memory.text_char (h.2 ▸ h.1), h.2, List.cons_inj_right]
        exact ih
      · rw [if_neg h, if_neg (Nat.succ_ne_zero n)]
        have hsub : ((m p).toNat : ℤ) - (m q).toNat = 0 ↔ m p = m q := by
          rw [sub_eq_zero, Nat.cast_inj, UInt8.toNat_inj]
        rw [hsub]
        by_cases heq : m p = m q
        · have hnul : m p = 0 := not_not.mp fun hne => h ⟨hne, heq⟩
          rw [Memory.text_nul hnul, Memory.text_nul (heq.symm.trans hnul)]
          exact iff_of_true heq rfl
        · refine iff_of_false heq fun htext => ?_
          by_cases hp : m p = 0
          · have hq : m q ≠ 0 := fun hq => heq (hp.trans hq.symm)
            rw [Memory.text_nul hp, Memory.text_char hq] at htext
            exact List.cons_ne_nil _ _ htext.symm
          · by_cases hq : m q = 0
            · rw [Memory.text_char hp, Memory.text_nul hq] at htext
              exact List.cons_ne_nil _ _ htext
            · rw [Memory.text_char hp, Memory.text_char hq] at htext
              exact heq (List.cons.inj htext).1

/-- The string functions keep to their bounds: `memset` fills `n` bytes, with or without the
fast path; `strncpy` stores the string cut to `n` characters and zeros up to `n`;
`safestrcpy` stores the string cut to `n - 1` characters and a NUL, and changes only the `n`
bytes at `s`; `strncmp` compares the strings cut to `n` characters. -/
theorem string_bounds (m : Memory) :
    (∀ dst c n : UInt32,
      Stored m dst (List.replicate n.toNat c.toUInt8) (UlibC.memset dst c n m) ∧
      StringC.memset dst c n m = UlibC.memset dst c n m) ∧
    (∀ (s t : UInt32) (n : Int32), Unread m s t n.toNatClampNeg →
      Stored m s (m.text t n.toNatClampNeg ++
          List.replicate (n.toNatClampNeg - (m.text t n.toNatClampNeg).length) 0)
        (StringC.strncpy s t n m)) ∧
    (∀ (s t : UInt32) (n : Int32), 0 < n → Unread m s t (n.toNatClampNeg - 1) →
      (StringC.safestrcpy s t n m).bytes s ((m.text t (n.toNatClampNeg - 1)).length + 1) =
        m.text t (n.toNatClampNeg - 1) ++ [0] ∧
      ∀ x, (∀ i < n.toNatClampNeg, s + UInt32.ofNat i ≠ x) →
        StringC.safestrcpy s t n m x = m x) ∧
    ∀ p q n : UInt32,
      StringC.strncmp p q n m = 0 ↔ m.text p n.toNat = m.text q n.toNat := by
  refine ⟨fun dst c n => ⟨stored_memset c n, memset_eq c n⟩, fun s t n h => ?_,
    fun s t n hpos h => ⟨?_, fun x hx => ?_⟩, fun p q n => strncmpLoop_eq_zero_iff⟩
  · have hcopy := h.strncpy
    rwa [Xv6.strncpy, Memory.take_bytes le_rfl] at hcopy
  · have hcopy := h.safestrcpy hpos
    have hpad : ∀ k, ∃ cs, m.bytes t (m.upto t k) ++ [0] = m.text t k ++ [0] ++ cs := by
      intro k
      refine ⟨List.replicate (m.upto t k - (m.text t k).length) 0, ?_⟩
      rw [Memory.bytes_upto, List.append_assoc, List.append_assoc,
        ← List.replicate_succ', List.replicate_succ]
      rfl
    obtain ⟨cs, hcs⟩ := hpad (n.toNatClampNeg - 1)
    rw [hcs] at hcopy
    have hbytes := hcopy.bytes_prefix
    rwa [List.length_append] at hbytes
  · have hpos' := (Int32.toNatClampNeg_pos_iff n).mpr hpos
    refine (h.safestrcpy hpos).frame x fun i hi => hx i ?_
    rw [List.length_append, Memory.length_bytes, List.length_singleton] at hi
    have hle : m.upto t (n.toNatClampNeg - 1) ≤ n.toNatClampNeg - 1 := min_le_left ..
    omega

theorem unread_oneTwo (hn : n ≤ 4) : Unread oneTwo 16 0 n := by
  intro i j hij hj heq
  have hle := hj.trans_le (min_le_left ..)
  have hj' : j < 4 := hle.trans_le hn
  have hi' : i < 4 := hij.trans hj'
  interval_cases i <;> interval_cases j <;> exact absurd heq (by decide)

/-- The bytes 1 and 2 copied as a string. -/
theorem string_bounds_oneTwo :
    Stored oneTwo 16 [1, 2, 0, 0] (StringC.strncpy 16 0 4 oneTwo) ∧
    (StringC.safestrcpy 16 0 2 oneTwo).bytes 16 2 = [1, 0] :=
  ⟨(string_bounds oneTwo).2.1 16 0 4 (unread_oneTwo (by decide)),
    ((string_bounds oneTwo).2.2.1 16 0 2 (by decide) (unread_oneTwo (by decide))).1⟩

/-- A string copied onto its own second byte never comes to its NUL: its first byte is
stored in the place of all `n`. -/
theorem strncpy_overwrites : oneTwo.text 0 3 = [1, 2] ∧
    (StringC.strncpy 1 0 3 oneTwo).bytes 1 3 = [1, 1, 1] ∧
    ¬ Stored oneTwo 1 (oneTwo.text 0 3 ++ List.replicate (3 - (oneTwo.text 0 3).length) 0)
      (StringC.strncpy 1 0 3 oneTwo) := by
  have htext : oneTwo.text 0 3 = [1, 2] := by decide
  have hbytes : (StringC.strncpy 1 0 3 oneTwo).bytes 1 3 = [1, 1, 1] := by decide
  refine ⟨htext, hbytes, fun h => ?_⟩
  have hstored := h.bytes
  rw [htext] at hstored
  exact absurd (hbytes.symm.trans hstored) (by decide)

end Xv6
