import Mathlib.Tactic
import Mathlib.Data.List.Nodup
import Mathlib.Logic.Function.Basic

/-!
# Numbered resources

Resources get numbers in the order in which they are allocated, so that a number stands
for one allocation for good. A ledger says which holder has which resource and which ones
have been freed. It is balanced when no resource has two holders, a freed one has none,
and none has been freed twice.
-/

namespace Foundation

variable {α : Type*}

/-- `next` resources have been allocated. -/
@[ext]
structure Ledger (α : Type*) where
  next : ℕ
  held : α → Option ℕ
  freed : List ℕ

namespace Ledger

variable [DecidableEq α] {l : Ledger α} {a b : α} {k : ℕ}

def alloc (l : Ledger α) (a : α) : Ledger α :=
  { l with next := l.next + 1, held := Function.update l.held a (some l.next) }

def free (l : Ledger α) (a : α) : Ledger α :=
  { l with held := Function.update l.held a none, freed := l.freed ++ (l.held a).toList }

theorem held_alloc (l : Ledger α) (a b : α) :
    (l.alloc a).held b = if b = a then some l.next else l.held b := by
  simp [alloc, Function.update_apply]

theorem held_free (l : Ledger α) (a b : α) :
    (l.free a).held b = if b = a then none else l.held b := by
  simp [free, Function.update_apply]

/-- No resource has two holders or has been freed twice, and a freed one has none. -/
structure Balanced (l : Ledger α) : Prop where
  held : ∀ a k, l.held a = some k → k < l.next ∧ k ∉ l.freed
  one : ∀ a b k, l.held a = some k → l.held b = some k → a = b
  freed : ∀ k ∈ l.freed, k < l.next
  nodup : l.freed.Nodup

theorem Balanced.alloc (h : Balanced l) (a : α) : Balanced (l.alloc a) := by
  have hnew : ∀ b k, (l.alloc a).held b = some k →
      b = a ∧ k = l.next ∨ b ≠ a ∧ l.held b = some k := by
    intro b k hb
    rw [held_alloc] at hb
    split at hb
    · rename_i hba
      exact .inl ⟨hba, (Option.some.inj hb).symm⟩
    · rename_i hba
      exact .inr ⟨hba, hb⟩
  refine ⟨fun b k hb => ?_, fun b c k hb hc => ?_, fun k hk => ?_, h.nodup⟩
  · rcases hnew b k hb with ⟨-, rfl⟩ | ⟨-, hb⟩
    · exact ⟨Nat.lt_succ_self _, fun hf => lt_irrefl _ (h.freed _ hf)⟩
    · exact ⟨Nat.lt_succ_of_lt (h.held b k hb).1, (h.held b k hb).2⟩
  · rcases hnew b k hb with ⟨rfl, rfl⟩ | ⟨-, hb⟩ <;> rcases hnew c _ hc with ⟨hc, hk⟩ | ⟨-, hc⟩
    · exact hc.symm
    · exact absurd (h.held c _ hc).1 (lt_irrefl _)
    · exact absurd (h.held b k hb).1 (hk ▸ lt_irrefl _)
    · exact h.one b c k hb hc
  · exact Nat.lt_succ_of_lt (h.freed k hk)

theorem Balanced.free (h : Balanced l) (a : α) : Balanced (l.free a) := by
  have hold : ∀ b k, (l.free a).held b = some k → b ≠ a ∧ l.held b = some k := by
    intro b k hb
    rw [held_free] at hb
    split at hb
    · simp at hb
    · rename_i hba
      exact ⟨hba, hb⟩
  have hmem : ∀ k, k ∈ (l.free a).freed ↔ k ∈ l.freed ∨ l.held a = some k := by
    intro k
    simp [Ledger.free]
  refine ⟨fun b k hb => ?_, fun b c k hb hc => ?_, fun k hk => ?_, ?_⟩
  · obtain ⟨hba, hb⟩ := hold b k hb
    refine ⟨(h.held b k hb).1, fun hk => ?_⟩
    rcases (hmem k).mp hk with hk | hk
    · exact (h.held b k hb).2 hk
    · exact hba (h.one b a k hb hk)
  · exact h.one b c k (hold b k hb).2 (hold c k hc).2
  · rcases (hmem k).mp hk with hk | hk
    · exact h.freed k hk
    · exact (h.held a k hk).1
  · rw [Ledger.free]
    cases ha : l.held a with
    | none => simpa using h.nodup
    | some k =>
        rw [Option.toList_some]
        refine List.nodup_append.mpr ⟨h.nodup, List.nodup_singleton k, ?_⟩
        intro x hx y hy hxy
        rw [List.mem_singleton] at hy
        exact (h.held a k ha).2 (hy ▸ hxy ▸ hx)

end Ledger

end Foundation
