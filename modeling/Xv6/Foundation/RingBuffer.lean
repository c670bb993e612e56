import Mathlib.Tactic
import Mathlib.Logic.Function.Basic

/-!
# Ring buffers with free-running counters

An array of `size` elements is used as a ring by a counter that is never reduced: the element
number `k` is at `k % size`. `RingHolds buf r l` says that the elements from number `r` on are
the list `l`. A counter that wraps at a multiple of `size` meets the same places.
-/

namespace Foundation

universe u

variable {α : Type u} {size : ℕ} [NeZero size]

/-- The elements from number `r` on are `l`. -/
def RingHolds (buf : Fin size → α) (r : ℕ) (l : List α) : Prop :=
  ∀ j c, l[j]? = some c → buf (Fin.ofNat size (r + j)) = c

namespace RingHolds

variable {buf : Fin size → α} {r : ℕ} {l m : List α} {c : α}

theorem nil : RingHolds buf r [] := by
  intro j c h
  cases h

theorem congr {r' : ℕ} (h : RingHolds buf r l) (hr : r % size = r' % size) :
    RingHolds buf r' l := by
  intro j c hc
  have hplace : Fin.ofNat size (r' + j) = Fin.ofNat size (r + j) :=
    Fin.ext (Nat.ModEq.add_right j hr.symm)
  rw [hplace]
  exact h j c hc

theorem left (h : RingHolds buf r (l ++ m)) : RingHolds buf r l := by
  intro j c hc
  refine h j c ?_
  rw [List.getElem?_append_left (List.getElem?_eq_some_iff.mp hc).1]
  exact hc

theorem head (h : RingHolds buf r (c :: l)) : buf (Fin.ofNat size r) = c := h 0 c rfl

theorem tail (h : RingHolds buf r (c :: l)) : RingHolds buf (r + 1) l := by
  intro j d hd
  rw [Nat.add_assoc, Nat.add_comm 1 j]
  exact h (j + 1) d hd

/-- The last element. -/
theorem last (h : RingHolds buf r (l ++ [c])) : buf (Fin.ofNat size (r + l.length)) = c :=
  h l.length c List.getElem?_concat_length

/-- As long as the ring is not full, the place of a new element is that of none of the others. -/
theorem push (h : RingHolds buf r l) (hroom : l.length < size) :
    RingHolds (Function.update buf (Fin.ofNat size (r + l.length)) c) r (l ++ [c]) := by
  intro j d hd
  have hlen := (List.getElem?_eq_some_iff.mp hd).1
  rw [List.length_append, List.length_singleton] at hlen
  rcases Nat.lt_succ_iff_lt_or_eq.mp hlen with hlt | rfl
  · have hne : Fin.ofNat size (r + j) ≠ Fin.ofNat size (r + l.length) := by
      intro heq
      have hmod : j % size = l.length % size :=
        Nat.ModEq.add_left_cancel' r (congrArg Fin.val heq)
      rw [Nat.mod_eq_of_lt (hlt.trans hroom), Nat.mod_eq_of_lt hroom] at hmod
      exact absurd hmod (Nat.ne_of_lt hlt)
    rw [Function.update_of_ne hne]
    rw [List.getElem?_append_left hlt] at hd
    exact h j d hd
  · rw [List.getElem?_concat_length] at hd
    rw [Function.update_self]
    exact Option.some.inj hd

end RingHolds

end Foundation
