import Mathlib.Tactic

/-!
# Writing into sequences

A sequence is a function on the natural numbers, of which a list shows a part. `patch` writes a
list into a sequence and `splice` writes it into a list, which grows when the list does not end
inside it.
-/

namespace Foundation

variable {α : Type*} {f g : ℕ → α} {o k m n : ℕ} {xs ys zs : List α}

/-- The sequence with `xs` written from `o` on. -/
def patch (f : ℕ → α) (o : ℕ) (xs : List α) : ℕ → α := fun k =>
  if o ≤ k then xs[k - o]?.getD (f k) else f k

/-- The `n` elements from `o` on. -/
def window (f : ℕ → α) (o n : ℕ) : List α := (List.range n).map fun k => f (o + k)

/-- The part with the number `i`, when the list is cut in parts of `w` elements. -/
def record (w : ℕ) (xs : List α) (i : ℕ) : List α := (xs.drop (w * i)).take w

/-- The list with `ys` written from `o` on. -/
def splice (xs : List α) (o : ℕ) (ys : List α) : List α :=
  xs.take o ++ ys ++ xs.drop (o + ys.length)

section Patch

theorem patch_nil : patch f o [] = f := by
  funext k
  simp [patch]

theorem patch_of_lt (h : k < o) : patch f o xs k = f k := by
  rw [patch, if_neg (Nat.not_le.mpr h)]

theorem patch_of_le (h : o + xs.length ≤ k) : patch f o xs k = f k := by
  have hlen : xs.length ≤ k - o := by omega
  rw [patch, if_pos (by omega), List.getElem?_eq_none hlen, Option.getD_none]

theorem patch_getElem (hk : k < xs.length) : patch f o xs (o + k) = xs[k] := by
  rw [patch, if_pos (Nat.le_add_right o k), Nat.add_sub_cancel_left,
    List.getElem?_eq_getElem hk, Option.getD_some]

/-- What is written in two parts. -/
theorem patch_append :
    patch f o (xs ++ ys) = patch (patch f o xs) (o + xs.length) ys := by
  funext k
  by_cases hlow : k < o + xs.length
  · rw [patch_of_lt hlow]
    by_cases hk : o ≤ k
    · have hlt : k - o < xs.length := by omega
      rw [patch, patch, if_pos hk, if_pos hk, List.getElem?_append_left hlt]
    · rw [patch, patch, if_neg hk, if_neg hk]
  · have hle : xs.length ≤ k - o := by omega
    rw [patch, if_pos (by omega), List.getElem?_append_right hle, patch,
      if_pos (by omega), patch_of_le (by omega), Nat.sub_sub]

end Patch

section Window

theorem length_window : (window f o n).length = n := by
  simp [window]

theorem getElem_window (h : k < (window f o n).length) : (window f o n)[k] = f (o + k) := by
  simp [window]

theorem window_add : window f o (m + n) = window f o m ++ window f (o + m) n := by
  simp [window, List.range_add, Nat.add_assoc, Function.comp_def]

theorem window_congr (h : ∀ k, o ≤ k → k < o + n → f k = g k) : window f o n = window g o n := by
  refine List.map_congr_left fun k hk => h _ (Nat.le_add_right o k) ?_
  rw [List.mem_range] at hk
  omega

/-- A part of a part. -/
theorem window_take_drop (h : o + n ≤ m) : ((window f 0 m).drop o).take n = window f o n := by
  refine List.ext_getElem ?_ fun k hk hk' => ?_
  · simp only [List.length_take, List.length_drop, length_window]
    omega
  · simp only [List.getElem_take, List.getElem_drop, getElem_window, Nat.zero_add]

end Window

section Splice

theorem splice_nil : splice xs o [] = xs := by
  simp [splice]

theorem length_splice (h : o ≤ xs.length) :
    (splice xs o ys).length = max xs.length (o + ys.length) := by
  simp only [splice, List.length_append, List.length_take, List.length_drop]
  omega

/-- A list written in two parts. -/
theorem splice_append (h : o ≤ xs.length) :
    splice xs o (ys ++ zs) = splice (splice xs o ys) (o + ys.length) zs := by
  have htake : (splice xs o ys).take (o + ys.length) = xs.take o ++ ys := by
    rw [splice]
    refine List.take_left' ?_
    rw [List.length_append, List.length_take, Nat.min_eq_left h]
  have hdrop : (splice xs o ys).drop (o + ys.length + zs.length) =
      xs.drop (o + ys.length + zs.length) := by
    rw [← List.drop_drop, splice, List.drop_left', List.drop_drop]
    rw [List.length_append, List.length_take, Nat.min_eq_left h]
  rw [splice, splice, htake, hdrop, List.length_append, ← Nat.add_assoc, List.append_assoc,
    List.append_assoc, List.append_assoc, List.append_assoc]

/-- The list shows what was written into the sequence. -/
theorem window_patch (h : o ≤ n) :
    window (patch f o ys) 0 (max n (o + ys.length)) = splice (window f 0 n) o ys := by
  refine List.ext_getElem ?_ fun k hk hk' => ?_
  · rw [length_window, length_splice (by rw [length_window]; exact h), length_window]
  · rw [length_window] at hk
    rw [getElem_window, Nat.zero_add]
    simp only [splice, List.getElem_append, List.getElem_take, List.getElem_drop,
      List.length_append, List.length_take, length_window, getElem_window, Nat.zero_add]
    by_cases hlow : k < o
    · rw [patch_of_lt hlow, dif_pos (by omega), dif_pos (by omega)]
    · by_cases hmid : k < o + ys.length
      · obtain ⟨j, rfl⟩ := Nat.exists_eq_add_of_le (Nat.not_lt.mp hlow)
        have hj : j < ys.length := by omega
        rw [patch_getElem hj, dif_pos (by omega), dif_neg (by omega)]
        congr 1
        omega
      · rw [patch_of_le (by omega), dif_neg (by omega)]
        congr 1
        omega

theorem getElem?_splice (h : o ≤ xs.length) :
    (splice xs o ys)[k]? = if o ≤ k ∧ k < o + ys.length then ys[k - o]? else xs[k]? := by
  have hlen : (xs.take o).length = o := List.length_take_of_le h
  rw [splice, List.getElem?_append, List.getElem?_append, List.length_append, hlen]
  by_cases hlow : k < o
  · rw [if_pos (by omega), if_pos hlow, if_neg (by omega), List.getElem?_take_of_lt hlow]
  · by_cases hmid : k < o + ys.length
    · rw [if_pos hmid, if_neg hlow, if_pos ⟨Nat.not_lt.mp hlow, hmid⟩]
    · rw [if_neg hmid, if_neg fun hc => hmid hc.2, List.getElem?_drop,
        Nat.add_sub_cancel' (Nat.not_lt.mp hmid)]

/-- A record is written. -/
theorem record_splice {w i j : ℕ} (hlen : ys.length = w) (h : w * j ≤ xs.length) :
    record w (splice xs (w * j) ys) i = if i = j then ys else record w xs i := by
  refine List.ext_getElem? fun k => ?_
  unfold record
  by_cases hk : k < w
  · rw [List.getElem?_take_of_lt hk, List.getElem?_drop, getElem?_splice h, hlen]
    by_cases hij : i = j
    · rw [if_pos hij, hij, if_pos (by omega), Nat.add_sub_cancel_left]
    · have hout : ¬ (w * j ≤ w * i + k ∧ w * i + k < w * j + w) := by
        rcases Nat.lt_or_gt_of_ne hij with hlt | hgt
        · have hle : w * (i + 1) ≤ w * j := Nat.mul_le_mul_left w hlt
          rw [Nat.mul_succ] at hle
          omega
        · have hle : w * (j + 1) ≤ w * i := Nat.mul_le_mul_left w hgt
          rw [Nat.mul_succ] at hle
          omega
      rw [if_neg hij, if_neg hout, List.getElem?_take_of_lt hk, List.getElem?_drop]
  · have hshort : ∀ zs : List α, zs.length ≤ w → zs[k]? = none := fun zs hzs =>
      List.getElem?_eq_none (by omega)
    rw [hshort _ (List.length_take_le ..)]
    split
    · exact (hshort ys hlen.le).symm
    · exact (hshort _ (List.length_take_le ..)).symm

/-- The records of which the list is made up. -/
theorem record_flatten {w i : ℕ} {xss : List (List α)} (h : ∀ xs ∈ xss, xs.length = w)
    (hi : i < xss.length) : record w (xss.flatten ++ ys) i = xss[i] := by
  induction xss generalizing i with
  | nil => exact absurd hi (Nat.not_lt_zero i)
  | cons xs xss ih =>
      obtain ⟨hlen, hrest⟩ := List.forall_mem_cons.mp h
      rw [record, List.flatten_cons, List.append_assoc]
      cases i with
      | zero => exact List.take_left' hlen
      | succ i =>
          have hdrop : (xs ++ (xss.flatten ++ ys)).drop (w * (i + 1)) =
              (xss.flatten ++ ys).drop (w * i) := by
            rw [Nat.mul_succ, Nat.add_comm, ← List.drop_drop, List.drop_left' hlen]
          rw [hdrop]
          exact ih hrest (Nat.lt_of_succ_lt_succ hi)

/-- There is no record past the end. -/
theorem record_of_le {w i : ℕ} (h : xs.length ≤ w * i) : record w xs i = [] := by
  rw [record, List.drop_eq_nil_of_le h, List.take_nil]

end Splice

end Foundation
