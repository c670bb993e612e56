import Mathlib.Tactic

/-!
# Extents

Half-open intervals that lie in `[lo, hi)` one beside the other, in any order. They may be
joined and split, which does not change what they cover, and new ones may be put behind `hi`.
-/

namespace Foundation

variable {α : Type*} [LinearOrder α] {lo hi x y z : α} {a b : α × α} {bs cs : List (α × α)}

/-- The intervals have no place in common. -/
def Beside (a b : α × α) : Prop := a.2 ≤ b.1 ∨ b.2 ≤ a.1

theorem Beside.symm (h : Beside a b) : Beside b a := Or.symm h

instance : Std.Symm (Beside (α := α)) := ⟨fun _ _ => Beside.symm⟩

/-- The intervals are not empty, lie in `[lo, hi)` and are beside each other. -/
structure Extents (lo hi : α) (bs : List (α × α)) : Prop where
  inside : ∀ b ∈ bs, lo ≤ b.1 ∧ b.1 < b.2 ∧ b.2 ≤ hi
  beside : bs.Pairwise Beside

namespace Extents

theorem cons_iff : Extents lo hi (a :: bs) ↔
    (lo ≤ a.1 ∧ a.1 < a.2 ∧ a.2 ≤ hi) ∧ (∀ b ∈ bs, Beside a b) ∧ Extents lo hi bs := by
  constructor
  · intro h
    obtain ⟨ha, hbs⟩ := List.forall_mem_cons.mp h.inside
    obtain ⟨hab, hpair⟩ := List.pairwise_cons.mp h.beside
    exact ⟨ha, hab, hbs, hpair⟩
  · rintro ⟨ha, hab, hbs⟩
    exact ⟨List.forall_mem_cons.mpr ⟨ha, hbs.inside⟩, List.pairwise_cons.mpr ⟨hab, hbs.beside⟩⟩

theorem nil : Extents lo hi [] := ⟨fun _ hb => absurd hb List.not_mem_nil, List.Pairwise.nil⟩

theorem perm (h : Extents lo hi bs) (hperm : bs.Perm cs) : Extents lo hi cs :=
  ⟨fun b hb => h.inside b (hperm.mem_iff.mpr hb), (hperm.pairwise_iff Beside.symm).mp h.beside⟩

/-- Two intervals that meet become one. -/
theorem join (h : Extents lo hi ((x, y) :: (y, z) :: bs)) : Extents lo hi ((x, z) :: bs) := by
  obtain ⟨⟨hlo, hxy, -⟩, hx, h⟩ := cons_iff.mp h
  obtain ⟨⟨-, hyz, hhi⟩, hy, h⟩ := cons_iff.mp h
  obtain ⟨-, hx⟩ := List.forall_mem_cons.mp hx
  refine cons_iff.mpr ⟨⟨hlo, hxy.trans hyz, hhi⟩, fun b hb => ?_, h⟩
  rcases hx b hb with hbx | hbx
  · rcases hy b hb with hby | hby
    · exact .inl hby
    · exact absurd ((h.inside b hb).2.1.trans_le (hby.trans hbx)) (lt_irrefl _)
  · exact .inr hbx

/-- An interval is cut in two. -/
theorem split (h : Extents lo hi ((x, z) :: bs)) (hxy : x < y) (hyz : y < z) :
    Extents lo hi ((x, y) :: (y, z) :: bs) := by
  obtain ⟨⟨hlo, -, hhi⟩, hx, h⟩ := cons_iff.mp h
  refine cons_iff.mpr ⟨⟨hlo, hxy, hyz.le.trans hhi⟩, List.forall_mem_cons.mpr ⟨.inl le_rfl, ?_⟩,
    cons_iff.mpr ⟨⟨hlo.trans hxy.le, hyz, hhi⟩, ?_, h⟩⟩
  · intro b hb
    exact (hx b hb).imp (fun hle => hyz.le.trans hle) id
  · intro b hb
    exact (hx b hb).imp id fun hle => hle.trans hxy.le

theorem mono (h : Extents lo hi bs) (hle : hi ≤ z) : Extents lo z bs :=
  ⟨fun b hb => ⟨(h.inside b hb).1, (h.inside b hb).2.1, (h.inside b hb).2.2.trans hle⟩, h.beside⟩

/-- A new interval is put behind the end. -/
theorem grow (h : Extents lo hi bs) (hle : lo ≤ hi) (hlt : hi < z) :
    Extents lo z ((hi, z) :: bs) :=
  cons_iff.mpr ⟨⟨hle, hlt, le_rfl⟩, fun b hb => .inr (h.inside b hb).2.2, h.mono hlt.le⟩

end Extents

/-! ### What intervals cover -/

def covered (bs : List (α × α)) : Set α := {x | ∃ b ∈ bs, b.1 ≤ x ∧ x < b.2}

theorem covered_nil : covered ([] : List (α × α)) = ∅ := by
  refine Set.eq_empty_of_forall_notMem fun w hw => ?_
  obtain ⟨b, hb, -⟩ := hw
  exact List.not_mem_nil hb

theorem covered_cons : covered (a :: bs) = Set.Ico a.1 a.2 ∪ covered bs := by
  ext w
  simp only [covered, Set.mem_ofPred_eq, List.exists_mem_cons_iff, Set.mem_union, Set.mem_Ico]

theorem covered_perm (hperm : bs.Perm cs) : covered bs = covered cs := by
  ext w
  simp only [covered, Set.mem_ofPred_eq, hperm.mem_iff]

theorem covered_join (hxy : x ≤ y) (hyz : y ≤ z) :
    covered ((x, y) :: (y, z) :: bs) = covered ((x, z) :: bs) := by
  rw [covered_cons, covered_cons, covered_cons, ← Set.union_assoc,
    Set.Ico_union_Ico_eq_Ico hxy hyz]

theorem covered_append : covered (bs ++ cs) = covered bs ∪ covered cs := by
  ext w
  simp only [covered, Set.mem_ofPred_eq, List.mem_append, or_and_right, exists_or, Set.mem_union]

/-- What some of the intervals cover, the other ones do not. -/
theorem Extents.not_covered {w : α} (h : Extents lo hi (bs ++ cs)) (hw : w ∈ covered bs) :
    w ∉ covered cs := by
  intro hw'
  obtain ⟨a, ha, hale, halt⟩ := hw
  obtain ⟨b, hb, hble, hblt⟩ := hw'
  rcases (List.pairwise_append.mp h.beside).2.2 a ha b hb with hab | hba
  · exact absurd (halt.trans_le hab) hble.not_gt
  · exact absurd (hblt.trans_le hba) hale.not_gt

theorem Extents.covered_subset (h : Extents lo hi bs) : covered bs ⊆ Set.Ico lo hi := by
  intro w hw
  obtain ⟨b, hb, hle, hlt⟩ := hw
  exact ⟨(h.inside b hb).1.trans hle, hlt.trans_le (h.inside b hb).2.2⟩

/-- Intervals beside each other cover as many places as they are long together. -/
theorem Extents.ncard_covered {lo hi : ℕ} {bs : List (ℕ × ℕ)} (h : Extents lo hi bs) :
    (covered bs).ncard = (bs.map fun b => b.2 - b.1).sum := by
  induction bs with
  | nil => rw [covered_nil, Set.ncard_empty, List.map_nil, List.sum_nil]
  | cons a bs ih =>
      have htail := (cons_iff.mp h).2.2
      have hdisjoint : Disjoint (Set.Ico a.1 a.2) (covered bs) := by
        refine Set.disjoint_left.mpr fun w hw => ?_
        have hone : w ∈ covered [a] := ⟨a, List.mem_cons_self, hw.1, hw.2⟩
        exact Extents.not_covered h hone
      have hfinite := (Set.finite_Ico lo hi).subset htail.covered_subset
      rw [covered_cons, Set.ncard_union_eq hdisjoint (Set.finite_Ico _ _) hfinite, ih htail,
        List.map_cons, List.sum_cons, Set.ncard_eq_toFinset_card', Set.toFinset_Ico, Nat.card_Ico]

end Foundation
