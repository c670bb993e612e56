import Mathlib.Logic.Function.Basic
import Mathlib.Data.List.Basic
import Mathlib.Order.Interval.Finset.Nat
import Mathlib.Tactic.ByContra

/-!
# Finite maps in slots

A finite map that is kept in a row of slots. A slot is empty, or holds a key and its value. A key is
looked up from the first slot on, an empty slot is filled again, and the row grows at its end.
-/

namespace Foundation

@[ext] structure Slots (κ α : Type*) where
  size : ℕ
  slot : ℕ → Option (κ × α)
  beyond : ∀ i, size ≤ i → slot i = none

namespace Slots

variable {κ α : Type*} {t : Slots κ α} {i j : ℕ} {k l : κ} {v w : α}

def Distinct (t : Slots κ α) : Prop :=
  ∀ i j k v w, t.slot i = some (k, v) → t.slot j = some (k, w) → i = j

def holds [DecidableEq κ] (t : Slots κ α) (k : κ) (i : ℕ) : Bool := (t.slot i).any fun x => x.1 = k

/-- The first slot with the key, and the value in it. -/
def find [DecidableEq κ] (t : Slots κ α) (k : κ) : Option (ℕ × α) :=
  ((List.range t.size).find? (t.holds k)).bind fun i => (t.slot i).map fun x => (i, x.2)

/-- The first empty slot; at the end of the row if there is none. -/
def vacant (t : Slots κ α) : ℕ :=
  ((List.range t.size).find? fun i => (t.slot i).isNone).getD t.size

def put (t : Slots κ α) (j : ℕ) (k : κ) (v : α) : Slots κ α where
  size := max t.size (j + 1)
  slot := Function.update t.slot j (some (k, v))
  beyond := fun i hi => by
    have hne : i ≠ j := by
      rintro rfl
      exact absurd (Nat.le_trans (Nat.le_max_right t.size (i + 1)) hi) (Nat.not_succ_le_self i)
    rw [Function.update_of_ne hne]
    exact t.beyond i (Nat.le_trans (Nat.le_max_left _ _) hi)

def clear (t : Slots κ α) (j : ℕ) : Slots κ α where
  size := t.size
  slot := Function.update t.slot j none
  beyond := fun i hi => by
    by_cases h : i = j
    · rw [h, Function.update_self]
    · rw [Function.update_of_ne h]
      exact t.beyond i hi

theorem lt_size (h : t.slot i = some (k, v)) : i < t.size := by
  by_contra hle
  cases h.symm.trans (t.beyond i (Nat.not_lt.mp hle))

theorem vacant_le : t.vacant ≤ t.size := by
  unfold vacant
  cases h : (List.range t.size).find? fun i => (t.slot i).isNone with
  | none => exact Nat.le_refl _
  | some j => exact Nat.le_of_lt (List.mem_range.mp (List.mem_of_find?_eq_some h))

theorem slot_vacant : t.slot t.vacant = none := by
  unfold vacant
  cases h : (List.range t.size).find? fun i => (t.slot i).isNone with
  | none => exact t.beyond _ (Nat.le_refl _)
  | some j =>
      have hnone := List.find?_some h
      exact Option.isNone_iff_eq_none.mp hnone

/-- The row is full when no slot before its end is empty. -/
theorem vacant_eq_size : t.vacant = t.size ↔ ∀ i < t.size, t.slot i ≠ none := by
  constructor
  · intro h i hi hnone
    unfold vacant at h
    cases hfind : (List.range t.size).find? fun i => (t.slot i).isNone with
    | none =>
        have hsome := List.find?_eq_none.mp hfind i (List.mem_range.mpr hi)
        exact hsome (Option.isNone_iff_eq_none.mpr hnone)
    | some j =>
        rw [hfind, Option.getD_some] at h
        exact absurd h (Nat.ne_of_lt (List.mem_range.mp (List.mem_of_find?_eq_some hfind)))
  · intro h
    refine Nat.le_antisymm vacant_le (Nat.not_lt.mp fun hlt => ?_)
    exact h _ hlt slot_vacant

theorem Distinct.clear (h : t.Distinct) : (t.clear j).Distinct := by
  intro a b l x y ha hb
  change Function.update t.slot j none a = _ at ha
  change Function.update t.slot j none b = _ at hb
  by_cases haj : a = j
  · rw [haj, Function.update_self] at ha
    cases ha
  · by_cases hbj : b = j
    · rw [hbj, Function.update_self] at hb
      cases hb
    · rw [Function.update_of_ne haj] at ha
      rw [Function.update_of_ne hbj] at hb
      exact h _ _ _ _ _ ha hb

/-- What a slot held is put in it again. -/
theorem put_clear (hj : t.slot j = some (k, v)) : (t.clear j).put j k v = t := by
  have hlt : j < t.size := lt_size hj
  refine Slots.ext (Nat.max_eq_left hlt) ?_
  change Function.update (Function.update t.slot j none) j (some (k, v)) = t.slot
  rw [Function.update_idem, ← hj, Function.update_eq_self]

section Find

variable [DecidableEq κ]

theorem holds_iff : t.holds k i = true ↔ ∃ v, t.slot i = some (k, v) := by
  rw [holds, Option.any_eq_true]
  constructor
  · rintro ⟨⟨l, w⟩, hslot, hl⟩
    exact ⟨w, by rw [hslot, ← of_decide_eq_true hl]⟩
  · rintro ⟨v, hslot⟩
    exact ⟨(k, v), hslot, decide_eq_true rfl⟩

theorem slot_of_find (h : t.find k = some (i, v)) : t.slot i = some (k, v) := by
  obtain ⟨j, hfind, hj⟩ := Option.bind_eq_some_iff.mp h
  obtain ⟨w, hslot⟩ := holds_iff.mp (List.find?_some hfind)
  rw [hslot] at hj
  cases hj
  exact hslot

theorem find_eq_none : t.find k = none ↔ ∀ i v, t.slot i ≠ some (k, v) := by
  constructor
  · intro h i v hslot
    cases hfind : (List.range t.size).find? (t.holds k) with
    | none =>
        have hi := List.find?_eq_none.mp hfind i (List.mem_range.mpr (lt_size hslot))
        exact hi (holds_iff.mpr ⟨v, hslot⟩)
    | some j =>
        obtain ⟨w, hj⟩ := holds_iff.mp (List.find?_some hfind)
        unfold find at h
        rw [hfind, Option.bind_some, hj] at h
        cases h
  · intro h
    unfold find
    rw [Option.bind_eq_none_iff]
    intro i hfind
    obtain ⟨w, hi⟩ := holds_iff.mp (List.find?_some hfind)
    exact absurd hi (h i w)

theorem Distinct.find_eq_some (h : t.Distinct) :
    t.find k = some (i, v) ↔ t.slot i = some (k, v) := by
  refine ⟨slot_of_find, fun hslot => ?_⟩
  cases hfind : t.find k with
  | none => exact absurd hslot (find_eq_none.mp hfind i v)
  | some x =>
      have hslot' : t.slot x.1 = some (k, x.2) := slot_of_find hfind
      have hi : x.1 = i := h _ _ _ _ _ hslot' hslot
      rw [hi, hslot] at hslot'
      cases hslot'
      rw [← hi]

/-- What is found determines the search. -/
theorem Distinct.find_eq {f : Option (ℕ × α)} (h : t.Distinct)
    (hf : ∀ i v, f = some (i, v) ↔ t.slot i = some (k, v)) : t.find k = f := by
  refine Option.ext fun x => ?_
  rw [h.find_eq_some, ← hf]

theorem Distinct.put (h : t.Distinct) (hk : t.find k = none) : (t.put j k v).Distinct := by
  have hnew := find_eq_none.mp hk
  intro a b l x y ha hb
  change Function.update t.slot j (some (k, v)) a = _ at ha
  change Function.update t.slot j (some (k, v)) b = _ at hb
  by_cases haj : a = j
  · rw [haj, Function.update_self] at ha
    cases ha
    by_cases hbj : b = j
    · rw [haj, hbj]
    · rw [Function.update_of_ne hbj] at hb
      exact absurd hb (hnew b y)
  · rw [Function.update_of_ne haj] at ha
    by_cases hbj : b = j
    · rw [hbj, Function.update_self] at hb
      cases hb
      exact absurd ha (hnew a x)
    · rw [Function.update_of_ne hbj] at hb
      exact h _ _ _ _ _ ha hb

/-- A key that is put in an empty slot is found there, and every other key where it was. -/
theorem Distinct.find_put (h : t.Distinct) (hj : t.slot j = none) (hk : t.find k = none) :
    (t.put j k v).find = Function.update t.find k (some (j, v)) := by
  funext l
  refine (h.put hk).find_eq fun a x => ?_
  change _ ↔ Function.update t.slot j (some (k, v)) a = _
  by_cases hl : l = k
  · rw [hl, Function.update_self]
    by_cases ha : a = j
    · rw [ha, Function.update_self]
      simp
    · rw [Function.update_of_ne ha]
      refine iff_of_false (fun heq => ?_) (find_eq_none.mp hk a x)
      cases heq
      exact ha rfl
  · rw [Function.update_of_ne hl, h.find_eq_some]
    by_cases ha : a = j
    · rw [ha, Function.update_self, hj]
      refine iff_of_false (fun heq => by cases heq) fun heq => ?_
      cases heq
      exact hl rfl
    · rw [Function.update_of_ne ha]

/-- When its slot is emptied, a key is gone, and every other key is found where it was. -/
theorem Distinct.find_clear (h : t.Distinct) (hk : t.find k = some (j, v)) :
    (t.clear j).find = Function.update t.find k none := by
  have hj := slot_of_find hk
  funext l
  refine h.clear.find_eq fun a x => ?_
  change _ ↔ Function.update t.slot j none a = _
  by_cases ha : a = j
  · rw [ha, Function.update_self]
    refine iff_of_false (fun heq => ?_) fun heq => by cases heq
    by_cases hl : l = k
    · rw [hl, Function.update_self] at heq
      cases heq
    · rw [Function.update_of_ne hl, h.find_eq_some, hj] at heq
      cases heq
      exact hl rfl
  · rw [Function.update_of_ne ha]
    by_cases hl : l = k
    · rw [hl, Function.update_self]
      refine iff_of_false (fun heq => by cases heq) fun heq => ?_
      exact ha (h _ _ _ _ _ heq hj)
    · rw [Function.update_of_ne hl, h.find_eq_some]

end Find

section Leads

variable {P : κ → Prop} [DecidablePred P] [DecidableEq α]

/-- How many keys with the property lead to the value. -/
def leads (P : κ → Prop) [DecidablePred P] (t : Slots κ α) (v : α) : ℕ :=
  ((Finset.range t.size).filter fun i => (t.slot i).any fun x => P x.1 ∧ x.2 = v).card

theorem leads_pos (hslot : t.slot i = some (k, v)) (hk : P k) : 0 < t.leads P v := by
  refine Finset.card_pos.mpr ⟨i, Finset.mem_filter.mpr ⟨Finset.mem_range.mpr (lt_size hslot), ?_⟩⟩
  rw [hslot, Option.any_some]
  exact decide_eq_true ⟨hk, rfl⟩

theorem leads_eq_zero (h : ∀ i k, t.slot i = some (k, v) → ¬ P k) : t.leads P v = 0 := by
  refine Finset.card_eq_zero.mpr (Finset.filter_eq_empty_iff.mpr fun i _ hany => ?_)
  obtain ⟨⟨k, w⟩, hslot, hk⟩ := (Option.any_eq_true _ _).mp hany
  obtain ⟨hP, rfl⟩ := of_decide_eq_true hk
  exact h i k hslot hP

theorem leads_le_one (h : ∀ i j k l, t.slot i = some (k, v) → P k → t.slot j = some (l, v) → P l →
    i = j) : t.leads P v ≤ 1 := by
  refine Finset.card_le_one.mpr fun i hi j hj => ?_
  obtain ⟨⟨k, w⟩, hslot, hk⟩ := (Option.any_eq_true _ _).mp (Finset.mem_filter.mp hi).2
  obtain ⟨⟨l, x⟩, hslot', hl⟩ := (Option.any_eq_true _ _).mp (Finset.mem_filter.mp hj).2
  obtain ⟨hP, rfl⟩ := of_decide_eq_true hk
  obtain ⟨hP', rfl⟩ := of_decide_eq_true hl
  exact h i j k l hslot hP hslot' hP'

/-- The slots behind the end do not count. -/
theorem leads_eq_of_le {n : ℕ} (hn : t.size ≤ n) : t.leads P v =
    ((Finset.range n).filter fun i => (t.slot i).any fun x => P x.1 ∧ x.2 = v).card := by
  refine congrArg Finset.card (Finset.Subset.antisymm ?_ fun i hi => ?_)
  · exact Finset.filter_subset_filter _ (Finset.range_mono hn)
  · obtain ⟨-, hany⟩ := Finset.mem_filter.mp hi
    refine Finset.mem_filter.mpr ⟨Finset.mem_range.mpr ?_, hany⟩
    by_contra hlt
    rw [t.beyond i (Nat.not_lt.mp hlt), Option.any_none] at hany
    exact Bool.false_ne_true hany

/-- An empty slot is filled. -/
theorem leads_put (hj : t.slot j = none) :
    (t.put j k v).leads P w = t.leads P w + if P k ∧ v = w then 1 else 0 := by
  have hsize : t.size ≤ (t.put j k v).size := Nat.le_max_left _ _
  have hin : j ∈ Finset.range (t.put j k v).size :=
    Finset.mem_range.mpr (Nat.le_max_right t.size (j + 1))
  have hself : (t.put j k v).slot j = some (k, v) := Function.update_self ..
  have hother : ∀ i, i ≠ j → (t.put j k v).slot i = t.slot i :=
    fun i hi => Function.update_of_ne hi _ _
  rw [leads_eq_of_le hsize, leads]
  by_cases hkv : P k ∧ v = w
  · rw [if_pos hkv, ← Finset.card_insert_of_notMem (a := j)]
    · congr 1
      ext i
      rw [Finset.mem_insert, Finset.mem_filter, Finset.mem_filter]
      by_cases hi : i = j
      · rw [hi, hself, Option.any_some]
        exact iff_of_true ⟨hin, decide_eq_true hkv⟩ (.inl rfl)
      · rw [hother i hi, or_iff_right hi]
    · rw [Finset.mem_filter, hj]
      exact fun hc => Bool.false_ne_true hc.2
  · rw [if_neg hkv, Nat.add_zero]
    congr 1
    refine Finset.filter_congr fun i _ => ?_
    by_cases hi : i = j
    · rw [hi, hself, hj, Option.any_some, Option.any_none, decide_eq_false hkv]
    · rw [hother i hi]

/-- A slot is emptied. -/
theorem leads_clear (hj : t.slot j = some (k, v)) :
    (t.clear j).leads P w + (if P k ∧ v = w then 1 else 0) = t.leads P w := by
  have hnone : (t.clear j).slot j = none := Function.update_self ..
  rw [← leads_put hnone, put_clear hj]

end Leads

end Slots

end Foundation
