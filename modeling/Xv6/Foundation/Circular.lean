import Mathlib.Tactic

/-!
# Circular lists

`Circular next a l` says that from `a` the links lead through the nodes `l` and back to `a`.
Where the nodes have ascending keys, a new key has one place in the circle: behind the
greatest node below it. A walk around the circle knows this place by the keys of a node and
of its successor.
-/

namespace Foundation

variable {α β : Type*} {f g next : α → α} {a c d z : α} {l s t : List α}

/-- Every node but the last one has its link to the next one. -/
def Linked (next : α → α) (l : List α) : Prop := l.IsChain fun x y => next x = y

def Circular (next : α → α) (a : α) (l : List α) : Prop := Linked next (a :: (l ++ [a]))

namespace Linked

theorem split : Linked next (s ++ c :: t) ↔ Linked next (s ++ [c]) ∧ Linked next (c :: t) :=
  List.isChain_split

theorem cons_cons : Linked next (c :: d :: t) ↔ next c = d ∧ Linked next (d :: t) :=
  List.isChain_cons_cons

theorem singleton : Linked next [c] := List.isChain_singleton c

/-- Only the links of the nodes before the last one matter. -/
theorem congr (h : Linked f (l ++ [z])) (hfg : ∀ x ∈ l, g x = f x) : Linked g (l ++ [z]) := by
  induction l with
  | nil => exact singleton
  | cons x l ih =>
      obtain ⟨hx, hl⟩ := List.forall_mem_cons.mp hfg
      cases l with
      | nil =>
          obtain ⟨hz, -⟩ := cons_cons.mp h
          exact cons_cons.mpr ⟨hx.trans hz, singleton⟩
      | cons y l =>
          obtain ⟨hy, h⟩ := cons_cons.mp h
          exact cons_cons.mpr ⟨hx.trans hy, ih h hl⟩

/-- The first node is replaced by one with the same link. -/
theorem relink (h : Linked f (c :: (l ++ [z]))) (hl : ∀ x ∈ l, g x = f x) (hd : g d = f c) :
    Linked g (d :: (l ++ [z])) := by
  cases l with
  | nil =>
      obtain ⟨hz, -⟩ := cons_cons.mp h
      exact cons_cons.mpr ⟨hd.trans hz, singleton⟩
  | cons x l =>
      obtain ⟨hx, h⟩ := cons_cons.mp h
      exact cons_cons.mpr ⟨hd.trans hx, congr h hl⟩

theorem reaches (h : Linked next (c :: l)) (hd : d ∈ c :: l) :
    ∃ k ≤ l.length, next^[k] c = d := by
  induction l generalizing c with
  | nil => exact ⟨0, le_rfl, (List.mem_singleton.mp hd).symm⟩
  | cons e l ih =>
      obtain ⟨he, h⟩ := cons_cons.mp h
      cases List.mem_cons.mp hd with
      | inl hdc => exact ⟨0, Nat.zero_le _, hdc.symm⟩
      | inr hd =>
          obtain ⟨k, hle, hk⟩ := ih h hd
          exact ⟨k + 1, Nat.succ_le_succ hle, by rw [Function.iterate_succ_apply, he, hk]⟩

theorem map_next (h : Linked next (c :: (l ++ [z]))) : (c :: l).map next = l ++ [z] := by
  induction l generalizing c with
  | nil => exact congrArg (· :: []) (cons_cons.mp h).1
  | cons d l ih =>
      obtain ⟨hd, h⟩ := cons_cons.mp h
      rw [List.map_cons, ih h, hd]
      rfl

end Linked

namespace Circular

theorem of_split (h : Circular next a l) (hl : a :: l = s ++ c :: t) :
    Linked next (s ++ [c]) ∧ Linked next (c :: (t ++ [a])) := by
  rw [Circular, ← List.cons_append, hl, List.append_assoc] at h
  exact Linked.split.mp h

theorem next_mem (h : Circular next a l) (hc : c ∈ a :: l) : next c ∈ a :: l := by
  obtain ⟨s, t, hl⟩ := List.append_of_mem hc
  have hpath := (h.of_split hl).2
  cases t with
  | nil =>
      rw [(Linked.cons_cons.mp hpath).1]
      exact List.mem_cons_self
  | cons d t =>
      rw [(Linked.cons_cons.mp hpath).1, hl]
      exact List.mem_append_right _ (List.mem_cons_of_mem _ List.mem_cons_self)

/-- The links lead from every node to every other one. -/
theorem reaches (h : Circular next a l) (hc : c ∈ a :: l) (hd : d ∈ a :: l) :
    ∃ k ≤ 2 * l.length + 2, next^[k] c = d := by
  obtain ⟨s, t, hl⟩ := List.append_of_mem hc
  have hlen := congrArg List.length hl
  obtain ⟨i, hile, hi⟩ := (h.of_split hl).2.reaches
    (List.mem_cons_of_mem _ (List.mem_append_right t (List.mem_singleton_self a)))
  rw [Circular, ← List.cons_append] at h
  obtain ⟨j, hjle, hj⟩ := Linked.reaches h (List.mem_append_left [a] hd)
  refine ⟨j + i, ?_, by rw [Function.iterate_add_apply, hi, hj]⟩
  change j ≤ (l ++ [a]).length at hjle
  simp only [List.length_append, List.length_cons, List.length_nil] at hlen hile hjle
  omega

/-- From the successor of `d` the links lead to every node, and to `d` itself last. -/
theorem reaches_first (h : Circular next a l) (hc : c ∈ a :: l) (hd : d ∈ a :: l) :
    ∃ k ≤ 2 * l.length + 2, next^[k] (next d) = c ∧ ∀ i < k, next^[i] (next d) ≠ d := by
  classical
  obtain ⟨k, hle, hk⟩ := h.reaches (h.next_mem hd) hc
  have hex : ∃ k, next^[k] (next d) = c := ⟨k, hk⟩
  refine ⟨Nat.find hex, (Nat.find_min' hex hk).trans hle, Nat.find_spec hex, fun i hi hback => ?_⟩
  obtain ⟨j, hj⟩ := Nat.exists_eq_add_of_lt hi
  refine Nat.find_min hex (m := j) (by omega) ?_
  rw [← Nat.find_spec hex, hj, show i + j + 1 = j + 1 + i by omega,
    Function.iterate_add_apply next (j + 1) i, hback, Function.iterate_succ_apply]

/-- Two nodes do not have the same successor. -/
theorem next_inj (h : Circular next a l) (hnodup : (a :: l).Nodup) (hc : c ∈ a :: l)
    (hd : d ∈ a :: l) (heq : next c = next d) : c = d := by
  refine List.inj_on_of_nodup_map ?_ hc hd heq
  rw [Linked.map_next h]
  exact (List.perm_append_singleton a l).nodup_iff.mpr hnodup

theorem congr (h : Circular f a l) (hfg : ∀ x ∈ a :: l, g x = f x) : Circular g a l :=
  Linked.congr (l := a :: l) h hfg

end Circular

/-! ### Ascending keys -/

section Keys

variable [LinearOrder β] {key : α → β} {x : β}

def Ascending (key : α → β) (l : List α) : Prop := l.Pairwise fun x y => key x < key y

theorem Ascending.inj (h : Ascending key l) (hc : c ∈ l) (hd : d ∈ l) (heq : key c = key d) :
    c = d :=
  List.inj_on_of_nodup_map (List.pairwise_map.mpr (h.imp fun hlt => hlt.ne)) hc hd heq

theorem Ascending.nodup (h : Ascending key l) : l.Nodup :=
  h.imp fun hlt heq => hlt.ne (congrArg key heq)

/-- A key between the nodes `s ++ [c]` and the nodes `t`. -/
theorem exists_place (h : Ascending key (a :: l)) (ha : key a < x)
    (hx : ∀ d ∈ a :: l, key d ≠ x) :
    ∃ s c t, a :: l = s ++ c :: t ∧ key c < x ∧ ∀ d ∈ t, x < key d := by
  induction l generalizing a with
  | nil => exact ⟨[], a, [], rfl, ha, fun _ hd => absurd hd List.not_mem_nil⟩
  | cons e l ih =>
      obtain ⟨hae, hl⟩ := List.pairwise_cons.mp h
      obtain ⟨-, hxl⟩ := List.forall_mem_cons.mp hx
      by_cases he : key e < x
      · obtain ⟨s, c, t, hs, hc, ht⟩ := ih hl he hxl
        exact ⟨a :: s, c, t, congrArg (a :: ·) hs, hc, ht⟩
      · have hxe : x < key e := lt_of_le_of_ne (not_lt.mp he) (hxl e List.mem_cons_self).symm
        refine ⟨[], a, e :: l, rfl, ha, List.forall_mem_cons.mpr ⟨hxe, fun d hd => ?_⟩⟩
        exact hxe.trans ((List.pairwise_cons.mp hl).1 d hd)

namespace Circular

/-- The successor of a node is the next greater one, that of the greatest the first one. -/
theorem next_cases (h : Circular next a l) (hkeys : Ascending key (a :: l)) (hc : c ∈ a :: l) :
    (key c < key (next c) ∧ ∀ d ∈ a :: l, key c < key d → key (next c) ≤ key d) ∨
      (next c = a ∧ ∀ d ∈ a :: l, key d ≤ key c) := by
  obtain ⟨s, t, hl⟩ := List.append_of_mem hc
  have hpath := (h.of_split hl).2
  rw [hl] at hkeys ⊢
  obtain ⟨-, hct, hst⟩ := List.pairwise_append.mp hkeys
  cases t with
  | nil =>
      refine .inr ⟨(Linked.cons_cons.mp hpath).1, fun d hd => ?_⟩
      rcases List.mem_append.mp hd with hd | hd
      · exact (hst d hd c List.mem_cons_self).le
      · rw [List.mem_singleton.mp hd]
  | cons e t =>
      obtain ⟨hce, het⟩ := List.pairwise_cons.mp hct
      rw [(Linked.cons_cons.mp hpath).1]
      refine .inl ⟨hce e List.mem_cons_self, fun d hd hlt => ?_⟩
      rcases List.mem_append.mp hd with hd | hd
      · exact absurd (hst d hd c List.mem_cons_self) hlt.asymm
      · rcases List.mem_cons.mp hd with rfl | hd
        · exact absurd hlt (lt_irrefl _)
        · rcases List.mem_cons.mp hd with rfl | hd
          · exact le_rfl
          · exact ((List.pairwise_cons.mp het).1 d hd).le

/-- The place of a key is the one node that is below it and has a successor above it or is
the greatest. -/
theorem place_iff (h : Circular next a l) (hkeys : Ascending key (a :: l)) (ha : key a < x)
    (hl : a :: l = s ++ c :: t) (hc : key c < x) (ht : ∀ e ∈ t, x < key e) (hd : d ∈ a :: l) :
    (key d < x ∧ x < key (next d)) ∨
      (key (next d) ≤ key d ∧ (key d < x ∨ x < key (next d))) ↔ d = c := by
  have hmem : c ∈ a :: l := by
    rw [hl]
    exact List.mem_append_right _ List.mem_cons_self
  have hbelow : ∀ e ∈ a :: l, key e < x → key e ≤ key c := by
    intro e he hlt
    rw [hl] at he hkeys
    rcases List.mem_append.mp he with he | he
    · exact ((List.pairwise_append.mp hkeys).2.2 e he c List.mem_cons_self).le
    · rcases List.mem_cons.mp he with rfl | he
      · exact le_rfl
      · exact absurd (ht e he) hlt.asymm
  have habove : ∀ e ∈ a :: l, key c < key e → x < key e := by
    intro e he hlt
    by_contra hle
    rw [hl] at he hkeys
    rcases List.mem_append.mp he with he | he
    · exact hlt.asymm ((List.pairwise_append.mp hkeys).2.2 e he c List.mem_cons_self)
    · rcases List.mem_cons.mp he with rfl | he
      · exact lt_irrefl _ hlt
      · exact hle (ht e he)
  constructor
  · intro hd'
    refine hkeys.inj hd hmem (le_antisymm ?_ ?_)
    · refine hbelow d hd ?_
      rcases hd' with ⟨hlt, -⟩ | ⟨hback, hlt | hlt⟩
      · exact hlt
      · exact hlt
      · rcases h.next_cases hkeys hd with ⟨hnext, -⟩ | ⟨hnext, -⟩
        · exact absurd hnext hback.not_gt
        · rw [hnext] at hlt
          exact absurd ha hlt.asymm
    · by_contra hlt
      rcases h.next_cases hkeys hd with ⟨hnext, hleast⟩ | ⟨-, hmost⟩
      · have hle := hleast c hmem (not_le.mp hlt)
        rcases hd' with ⟨-, hx⟩ | ⟨hback, -⟩
        · exact (hx.trans_le hle).asymm hc
        · exact absurd hnext hback.not_gt
      · exact hlt (hmost c hmem)
  · rintro rfl
    rcases h.next_cases hkeys hd with ⟨hnext, -⟩ | ⟨hnext, hmost⟩
    · exact .inl ⟨hc, habove _ (h.next_mem hd) hnext⟩
    · refine .inr ⟨?_, .inl hc⟩
      rw [hnext]
      exact hmost a List.mem_cons_self

end Circular

end Keys

end Foundation
