import Mathlib.Data.Finset.Dedup
import Mathlib.Data.List.Dedup
import Xv6.Log.GroupCommit

/-!
# Log space

`begin_op` admits an operation when `MAXOPBLOCKS` sectors for it and for every
operation in progress still fit in `LOGSIZE` sectors. The log that `mkfs` builds
has `LOGSIZE` blocks, one of them for the header, and `log_write` accepts a
sector only while fewer than `log.size - 1` sectors are logged, a test that it
makes before it looks for a sector that is already there. So three operations
that each use their quota do not fit.

The panic is characterised by the labels alone: it is reached exactly when some
`log_write` finds `LOGSIZE - 1` distinct sectors logged since the last commit.
-/

namespace Xv6

namespace Protocol

def logged (ls : List Label) : Finset ℕ :=
  ((history ls).writes.map fun w => w.2.2).toFinset

/-- The distinct sectors that the current operation of `p` has logged. -/
def History.opSectors (h : History) (p : Pid) : List ℕ :=
  ((h.writes.filter fun w => w.1 = p ∧ w.2.1 = h.ended p).map fun w => w.2.2).dedup

/-- Each operation logs at most `MAXOPBLOCKS` distinct sectors. -/
def withinQuota : History → List Label → Bool
  | _, [] => true
  | h, .logWrite p x :: ls =>
      let h' := h.record (.logWrite p x)
      decide ((h'.opSectors p).length ≤ MAXOPBLOCKS) && withinQuota h' ls
  | h, l :: ls => withinQuota (h.record l) ls

/-- As long as nothing panicked, `lh.n` counts the distinct logged sectors. -/
theorem HistoryInv.card_logged {ls : List Label} {s : Protocol}
    (h : HistoryInv (history ls) s) : (logged ls).card = s.log.lh.n := by
  have hset : logged ls = s.log.lh.sector.toFinset := by
    ext x
    simp [logged, h.sectors x]
  rw [hset, List.toFinset_card_of_nodup h.nodup]
  rfl

/-- The size of the log never changes. -/
theorem size_run {sb : Superblock} {ls : List Label} {s : Protocol}
    (h : Foundation.run step (init sb) ls = some s) : s.log.size = sb.nlog := by
  refine Foundation.run_invariant (fun s => s.log.size = sb.nlog) ?_ rfl h
  intro s l t hs hl
  rw [← hs]
  cases l with
  | beginOp p =>
      obtain ⟨-, rfl⟩ := step_beginOp hl
      unfold beginOp
      split
      · rfl
      · split <;> rfl
  | logWrite p x =>
      obtain ⟨-, rfl⟩ := step_logWrite hl
      unfold logWrite
      split
      · rename_i log hlog
        obtain ⟨-, -, -, rfl⟩ := Log.logWrite_eq_ok hlog
        rfl
      · rfl
  | endOp p =>
      obtain ⟨-, rfl⟩ := step_endOp hl
      unfold endOp
      dsimp only
      split
      · rfl
      · split <;> rfl
  | commit p =>
      obtain ⟨-, rfl⟩ := step_commit hl
      unfold commit
      dsimp only
      split <;> rfl
  | finish p =>
      obtain ⟨-, rfl⟩ := step_finish hl
      rfl
  | kill p =>
      obtain ⟨-, rfl⟩ := step_kill hl
      rfl

/-- With the log of `mkfs` a `log_write` panics exactly when `LOGSIZE - 1`
sectors are logged. -/
theorem logWrite_tooBig_iff {log : Log} {x : ℕ} (hsize : log.size = LOGSIZE) :
    log.logWrite x = .error .tooBig ↔ LOGSIZE - 1 ≤ log.lh.n := by
  rw [Log.logWrite_eq_tooBig_iff, hsize]
  omega

/-- With the log that `mkfs` builds, a run does not reach the panic "too big a
transaction" if and only if every `log_write` of the run finds fewer than
`LOGSIZE - 1` distinct sectors logged since the last commit. -/
theorem not_tooBig_iff {ls : List Label} {s : Protocol}
    (h : Foundation.run step (init mkfsSuperblock) ls = some s) :
    s.panicked ≠ some .tooBig ↔
      ∀ ls₁ p x ls₂, ls = ls₁ ++ .logWrite p x :: ls₂ →
        (logged ls₁).card < LOGSIZE - 1 := by
  constructor
  · rintro hs ls₁ p x ls₂ rfl
    obtain ⟨u, hu, hrest⟩ := Foundation.run_append_eq_some.mp h
    obtain ⟨v, hv, hrest⟩ := Foundation.run_cons_eq_some.mp hrest
    have hsize : u.log.size = LOGSIZE := size_run hu
    rw [(historyInv_run hu (panicked_of_step hv)).card_logged]
    by_contra hn
    -- the `log_write` panics, so nothing follows it and the run ends there
    have hpanic : u.log.logWrite x = .error .tooBig :=
      (logWrite_tooBig_iff hsize).mpr (by omega)
    obtain ⟨-, rfl⟩ := step_logWrite hv
    have hstop : (u.logWrite x).panicked = some .tooBig := by
      simp [logWrite, hpanic]
    cases ls₂ with
    | nil =>
        rw [Foundation.run_nil, Option.some.injEq] at hrest
        exact hs (hrest ▸ hstop)
    | cons l ls₂ =>
        obtain ⟨w, hw, -⟩ := Foundation.run_cons_eq_some.mp hrest
        rw [panicked_of_step hw] at hstop
        cases hstop
  · intro hall hs
    rcases ls.eq_nil_or_concat with rfl | ⟨ls₁, l, rfl⟩
    · rw [Foundation.run_nil, Option.some.injEq] at h
      subst h
      simp [init] at hs
    · rw [List.concat_eq_append] at h hall
      obtain ⟨u, hu, hl⟩ := Foundation.run_concat_eq_some.mp h
      obtain ⟨p, x, rfl, hpanic, -⟩ := (inv_run hu).panic_step hl (by simp [hs])
      have hlt := hall ls₁ p x [] rfl
      rw [(historyInv_run hu (panicked_of_step hl)).card_logged] at hlt
      have hge := (logWrite_tooBig_iff (size_run hu)).mp hpanic
      omega

/-- Three operations, each with its quota of ten sectors. -/
def threeFullOps : List Label :=
  [.beginOp 0, .beginOp 1, .beginOp 2] ++
    (List.range 10).map (fun i => .logWrite 0 (100 + i)) ++
    (List.range 10).map (fun i => .logWrite 1 (200 + i)) ++
    (List.range 10).map (fun i => .logWrite 2 (300 + i))

/-- The admission control is not sufficient: operations that `begin_op` let in and
that keep their quota reach the panic. -/
theorem tooBig_reached :
    withinQuota (history []) threeFullOps = true ∧
      (Foundation.run step (init mkfsSuperblock) threeFullOps).map (·.panicked) =
        some (some .tooBig) := by
  constructor <;> decide

/-- Two operations with their full quota fit. -/
theorem not_tooBig_two :
    ∃ s, Foundation.run step (init mkfsSuperblock)
        ([.beginOp 0, .beginOp 1] ++ (List.range 10).map (fun i => .logWrite 0 (100 + i))) =
          some s ∧
      (s.panicked ≠ some .tooBig ↔
        ∀ ls₁ p x ls₂, [.beginOp 0, .beginOp 1] ++
          (List.range 10).map (fun i => .logWrite 0 (100 + i)) =
            ls₁ ++ .logWrite p x :: ls₂ → (logged ls₁).card < LOGSIZE - 1) := by
  obtain ⟨s, hs⟩ := Option.isSome_iff_exists.mp (show (Foundation.run step
    (init mkfsSuperblock) ([.beginOp 0, .beginOp 1] ++
      (List.range 10).map (fun i => .logWrite 0 (100 + i)))).isSome = true by decide)
  exact ⟨s, hs, not_tooBig_iff hs⟩

end Protocol

end Xv6
