import Mathlib.Tactic
import Mathlib.Logic.Function.Basic

/-!
# Circular doubly linked lists

Nodes of a type `α` and one further node, the head of the list, are linked through
`next` and `prev`; the head is `none`. `Ring L l` says that from the head `next`
meets the nodes `l` in order and comes back, and that `prev` undoes each link.

The two edits are the pointer assignments of a program, in the order in which such
code makes them: `unlink` takes a node out, `pushFront` puts one in after the head.
A walk from the head in either direction reads the list off the links.
-/

namespace Foundation

/-- The link fields of the nodes and of the head. -/
structure Links (α : Type*) where
  next : Option α → Option α
  prev : Option α → Option α

namespace Links

variable {α : Type*}

/-- The list with the head alone: `head.prev = &head; head.next = &head`. -/
def empty : Links α where
  next := fun _ => none
  prev := fun _ => none

section Edit

variable [DecidableEq α]

def setNext (L : Links α) (x y : Option α) : Links α :=
  { L with next := Function.update L.next x y }

def setPrev (L : Links α) (x y : Option α) : Links α :=
  { L with prev := Function.update L.prev x y }

/-- `b->next->prev = b->prev; b->prev->next = b->next`. -/
def unlink (L : Links α) (b : α) : Links α :=
  let L₁ := L.setPrev (L.next (some b)) (L.prev (some b))
  L₁.setNext (L₁.prev (some b)) (L₁.next (some b))

/-- `b->next = head.next; b->prev = &head; head.next->prev = b; head.next = b`. -/
def pushFront (L : Links α) (b : α) : Links α :=
  let L₁ := L.setNext (some b) (L.next none)
  let L₂ := L₁.setPrev (some b) none
  let L₃ := L₂.setPrev (L₂.next none) (some b)
  L₃.setNext none (some b)

end Edit

/-- The nodes met by following `step` from `x` up to the head, in at most `fuel`
steps. -/
def walk (step : Option α → Option α) : ℕ → Option α → List α
  | 0, _ => []
  | fuel + 1, x =>
      match step x with
      | none => []
      | some a => a :: walk step fuel (some a)

/-- From `x` the links lead through `l` to `y`, both ways. -/
def Seg (L : Links α) : Option α → List α → Option α → Prop
  | x, [], y => L.next x = y ∧ L.prev y = x
  | x, a :: l, y => L.next x = some a ∧ L.prev (some a) = x ∧ Seg L (some a) l y

/-- The links form a ring through the head, with the nodes `l` once each. -/
structure Ring (L : Links α) (l : List α) : Prop where
  seg : L.Seg none l none
  nodup : l.Nodup

namespace Seg

variable {L L' : Links α}

theorem nil_iff {x y : Option α} : L.Seg x [] y ↔ L.next x = y ∧ L.prev y = x := Iff.rfl

theorem cons_iff {x y : Option α} {a : α} {l : List α} :
    L.Seg x (a :: l) y ↔ L.next x = some a ∧ L.prev (some a) = x ∧ L.Seg (some a) l y :=
  Iff.rfl

theorem append_iff {x y : Option α} {a : α} {u w : List α} :
    L.Seg x (u ++ a :: w) y ↔ L.Seg x u (some a) ∧ L.Seg (some a) w y := by
  induction u generalizing x with
  | nil => simp [cons_iff, nil_iff, and_assoc]
  | cons c u ih => simp [cons_iff, ih, and_assoc]

/-- A segment reads `next` at all its nodes but the last, `prev` at all but the
first. -/
theorem congr {x y : Option α} {l : List α} (h : L.Seg x l y)
    (hnext : ∀ z ∈ x :: l.map some, L'.next z = L.next z)
    (hprev : ∀ z ∈ l.map some ++ [y], L'.prev z = L.prev z) : L'.Seg x l y := by
  induction l generalizing x with
  | nil =>
      have hx := hnext x (by simp)
      have hy := hprev y (by simp)
      exact ⟨hx.trans h.1, hy.trans h.2⟩
  | cons a l ih =>
      have hx := hnext x (by simp)
      have ha := hprev (some a) (by simp)
      have htail := ih h.2.2 (fun z hz => hnext z (List.mem_cons_of_mem x hz))
        fun z hz => hprev z (List.mem_cons_of_mem (some a) hz)
      exact ⟨hx.trans h.1, ha.trans h.2.1, htail⟩

theorem next_mem {x y : Option α} {w : List α} (h : L.Seg x w y) :
    L.next x ∈ w.map some ++ [y] := by
  cases w with
  | nil => simp [h.1]
  | cons a w => simp [h.1]

theorem prev_mem {x y : Option α} {u : List α} (h : L.Seg x u y) :
    L.prev y ∈ x :: u.map some := by
  induction u generalizing x with
  | nil => simp [h.2]
  | cons a u ih => exact List.mem_cons_of_mem x (ih h.2.2)

variable [DecidableEq α]

theorem unlink {b : α} {x y : Option α} {u w : List α} (h : L.Seg x (u ++ b :: w) y)
    (hx : (x :: (u ++ b :: w).map some).Nodup)
    (hy : ((u ++ b :: w).map some ++ [y]).Nodup) : (L.unlink b).Seg x (u ++ w) y := by
  have hsplit := append_iff.mp h
  have hpb := hsplit.1.prev_mem
  have hnb := hsplit.2.next_mem
  have hb : some b ≠ L.next (some b) := by
    intro heq
    rw [← heq] at hnb
    simp only [List.map_append, List.map_cons, List.append_assoc, List.cons_append] at hy
    exact (List.nodup_cons.mp (List.nodup_append.mp hy).2.1).1 hnb
  have hnext : ∀ z, z ≠ L.prev (some b) → (L.unlink b).next z = L.next z := by
    intro z hz
    simp [Links.unlink, setNext, setPrev, Function.update_of_ne hb, Function.update_of_ne hz]
  have hprev : ∀ z, z ≠ L.next (some b) → (L.unlink b).prev z = L.prev z := by
    intro z hz
    simp [Links.unlink, setNext, setPrev, Function.update_of_ne hz]
  have hjoin₁ : (L.unlink b).next (L.prev (some b)) = L.next (some b) := by
    simp [Links.unlink, setNext, setPrev, Function.update_of_ne hb]
  have hjoin₂ : (L.unlink b).prev (L.next (some b)) = L.prev (some b) := by
    simp [Links.unlink, setNext, setPrev]
  clear hb hsplit
  -- the link across `b` is made at the place where the induction meets `b`
  induction u generalizing x with
  | nil =>
      have hpx : L.prev (some b) = x := h.2.1
      cases w with
      | nil =>
          have hny : L.next (some b) = y := h.2.2.1
          rw [hpx, hny] at hjoin₁ hjoin₂
          exact ⟨hjoin₁, hjoin₂⟩
      | cons c w =>
          have hnc : L.next (some b) = some c := h.2.2.1
          rw [hpx, hnc] at hjoin₁ hjoin₂
          refine ⟨hjoin₁, hjoin₂, h.2.2.2.2.congr ?_ ?_⟩
          · intro z hz
            apply hnext
            rw [hpx]
            rintro rfl
            simp only [List.nil_append, List.map_cons, List.nodup_cons] at hx
            exact hx.1 (List.mem_cons_of_mem _ hz)
          · intro z hz
            apply hprev
            rw [hnc]
            rintro rfl
            simp only [List.nil_append, List.map_cons, List.cons_append,
              List.nodup_cons] at hy
            exact hy.2.1 hz
  | cons a u ih =>
      rw [List.cons_append, cons_iff] at h
      have hsplit := append_iff.mp h.2.2
      have hpa := hsplit.1.prev_mem
      simp only [List.cons_append, List.map_cons, List.nodup_cons] at hx hy
      have hxp : x ≠ L.prev (some b) := by
        rintro heq
        rw [← heq] at hpa
        apply hx.1
        simp only [List.mem_cons, List.map_append, List.mem_append] at hpa ⊢
        tauto
      have han : some a ≠ L.next (some b) := by
        intro heq
        rw [← heq] at hnb
        apply hy.1
        simp only [List.map_append, List.map_cons, List.mem_append, List.mem_cons] at hnb ⊢
        tauto
      refine ⟨(hnext x hxp).trans h.1, (hprev _ han).trans h.2.1, ?_⟩
      exact ih h.2.2 (List.nodup_cons.mpr hx.2) hy.2 hpa

theorem pushFront {b : α} {l : List α} (h : L.Seg none l none) (hb : b ∉ l)
    (hl : l.Nodup) : (L.pushFront b).Seg none (b :: l) none := by
  cases l with
  | nil =>
      obtain ⟨hn, hp⟩ := h
      simp [cons_iff, nil_iff, Links.pushFront, setNext, setPrev, hn]
  | cons c l =>
      obtain ⟨hn, hp, htail⟩ := h
      have hbc : b ≠ c := fun heq => hb (heq ▸ List.mem_cons_self)
      have hcb : (some c : Option α) ≠ some b := by simpa using hbc.symm
      have hseg : (L.pushFront b).Seg (some c) l none := by
        apply htail.congr
        · intro z hz
          have hz0 : z ≠ none := by rintro rfl; simp at hz
          have hzb : z ≠ some b := by rintro rfl; simp_all
          simp [Links.pushFront, setNext, setPrev, hz0, hzb]
        · intro z hz
          have hzc : z ≠ some c := by
            rintro rfl
            simp only [List.mem_append, List.mem_map, List.mem_singleton, reduceCtorEq,
              or_false, Option.some.injEq, exists_eq_right] at hz
            exact (List.nodup_cons.mp hl).1 hz
          have hzb : z ≠ some b := by rintro rfl; simp_all
          simp [Links.pushFront, setNext, setPrev, hn, hzc, hzb]
      refine ⟨?_, ?_, ?_, ?_, hseg⟩
      · simp [Links.pushFront, setNext, setPrev]
      · simp [Links.pushFront, setNext, setPrev, hn, hbc]
      · simp [Links.pushFront, setNext, setPrev, hn]
      · simp [Links.pushFront, setNext, setPrev, hn]

end Seg

namespace Ring

variable {L : Links α} {l : List α}

theorem empty : (empty : Links α).Ring [] := ⟨⟨rfl, rfl⟩, List.nodup_nil⟩

theorem pushFront [DecidableEq α] {b : α} (h : L.Ring l) (hb : b ∉ l) :
    (L.pushFront b).Ring (b :: l) :=
  ⟨h.seg.pushFront hb h.nodup, List.nodup_cons.mpr ⟨hb, h.nodup⟩⟩

theorem unlink [DecidableEq α] {b : α} (h : L.Ring l) (hb : b ∈ l) :
    (L.unlink b).Ring (l.erase b) := by
  obtain ⟨u, w, rfl⟩ := List.append_of_mem hb
  have hbu : b ∉ u := fun hmem => by
    have hdis := (List.nodup_append.mp h.nodup).2.2 b hmem b List.mem_cons_self
    exact hdis rfl
  have herase : (u ++ b :: w).erase b = u ++ w := by
    rw [List.erase_append_right _ hbu, List.erase_cons_head]
  have hmap : ((u ++ b :: w).map some).Nodup :=
    h.nodup.map (Option.some_injective α)
  constructor
  · rw [herase]
    apply h.seg.unlink
    · exact List.nodup_cons.mpr ⟨by simp, hmap⟩
    · refine List.nodup_append.mpr ⟨hmap, List.nodup_singleton none, ?_⟩
      intro z hz z' hz'
      rw [List.mem_singleton] at hz'
      rintro rfl
      simp [hz'] at hz
  · exact h.nodup.erase b

/-- Moving a node to the front. -/
theorem moveFront [DecidableEq α] {b : α} (h : L.Ring l) (hb : b ∈ l) :
    ((L.unlink b).pushFront b).Ring (b :: l.erase b) :=
  (h.unlink hb).pushFront (h.nodup.not_mem_erase)

theorem walk_next_of_seg {x : Option α} {fuel : ℕ} (h : L.Seg x l none)
    (hfuel : l.length ≤ fuel) : walk L.next fuel x = l := by
  induction l generalizing x fuel with
  | nil =>
      cases fuel with
      | zero => rfl
      | succ k => simp [walk, h.1]
  | cons a l ih =>
      cases fuel with
      | zero => simp at hfuel
      | succ k =>
          have htail := ih h.2.2 (by simpa using hfuel)
          simp [walk, h.1, htail]

/-- A walk along `next` meets the nodes in order. -/
theorem walk_next {fuel : ℕ} (h : L.Ring l) (hfuel : l.length ≤ fuel) :
    walk L.next fuel none = l :=
  walk_next_of_seg h.seg hfuel

/-- Turning the links round turns the list round. -/
theorem reverse_of_seg {x y : Option α} (h : L.Seg x l y) :
    (Links.mk L.prev L.next).Seg y l.reverse x := by
  induction l generalizing x with
  | nil => exact ⟨h.2, h.1⟩
  | cons a l ih =>
      rw [List.reverse_cons, Seg.append_iff]
      exact ⟨ih h.2.2, h.2.1, h.1⟩

/-- A walk along `prev` meets the nodes in reverse order. -/
theorem walk_prev {fuel : ℕ} (h : L.Ring l) (hfuel : l.length ≤ fuel) :
    walk L.prev fuel none = l.reverse :=
  walk_next_of_seg (L := ⟨L.prev, L.next⟩) (reverse_of_seg h.seg) (by simpa using hfuel)

end Ring

end Links

end Foundation
