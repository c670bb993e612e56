import Xv6.Basic

/-!
# The in-memory log

`struct log` and the functions of `log.c` that touch nothing else. The array
`lh.sector` is modelled by the list of its first `n` entries, so that `n` is the
length of the list: entries from `n` on are never read before they are written
again.
-/

namespace Xv6

/-- `struct logheader`: the sectors of the current transaction, `sector[0..n)`. -/
structure LogHeader where
  sector : List ℕ
  deriving DecidableEq

namespace LogHeader

def n (lh : LogHeader) : ℕ := lh.sector.length

def empty : LogHeader := ⟨[]⟩

@[simp] theorem n_mk (l : List ℕ) : (LogHeader.mk l).n = l.length := rfl

@[simp] theorem empty_sector : empty.sector = [] := rfl

@[simp] theorem n_empty : empty.n = 0 := rfl

/-- `lh.sector[i] = sector; if (i == lh.n) lh.n++`. -/
def store (lh : LogHeader) (i sector : ℕ) : LogHeader :=
  if i = lh.n then ⟨lh.sector ++ [sector]⟩ else ⟨lh.sector.set i sector⟩

/-- The scan of `log_write` stops at the first entry equal to `sector`, or at `n`.
Storing there adds the sector when it is new and changes nothing otherwise. -/
theorem store_idxOf (lh : LogHeader) (sector : ℕ) :
    lh.store (lh.sector.idxOf sector) sector =
      if sector ∈ lh.sector then lh else ⟨lh.sector ++ [sector]⟩ := by
  by_cases h : sector ∈ lh.sector
  · have hlt : lh.sector.idxOf sector < lh.sector.length := List.idxOf_lt_length_iff.mpr h
    have hne : lh.sector.idxOf sector ≠ lh.n := Nat.ne_of_lt hlt
    rw [store, if_neg hne, if_pos h]
    have hset : lh.sector.set (lh.sector.idxOf sector) sector = lh.sector := by
      have hself := List.set_getElem_self hlt
      rwa [List.getElem_idxOf hlt] at hself
    rw [hset]
  · have heq : lh.sector.idxOf sector = lh.n := List.idxOf_eq_length_iff.mpr h
    rw [store, if_pos heq, if_neg h]

end LogHeader

/-- `struct log`, without its spinlock: the critical sections of `log.lock` are
the atomic steps of the models. -/
structure Log where
  start : ℕ
  size : ℕ
  /-- how many file-system calls are executing -/
  outstanding : ℤ
  /-- in `commit()`, please wait -/
  committing : Bool
  lh : LogHeader
  deriving DecidableEq

/-- `initlog` up to the recovery: the log area is the last `sb.nlog` blocks. -/
def initlog (sb : Superblock) : Log where
  start := sb.size - sb.nlog
  size := sb.nlog
  outstanding := 0
  committing := false
  lh := LogHeader.empty

namespace Log

/-- The test with which `begin_op` decides that the operation might exhaust the
log space. -/
def full (log : Log) : Prop :=
  (log.lh.n : ℤ) + (log.outstanding + 1) * MAXOPBLOCKS > LOGSIZE

instance (log : Log) : Decidable log.full :=
  inferInstanceAs (Decidable (_ > _))

/-- `log_write`, on the fields of `struct log`: record the sector of the buffer,
absorbing a sector that is already logged. -/
def logWrite (log : Log) (sector : ℕ) : Except Panic Log :=
  if log.lh.n ≥ LOGSIZE ∨ log.lh.n ≥ log.size - 1 then
    .error .tooBig
  else if log.outstanding < 1 then
    .error .outsideTrans
  else
    .ok { log with lh := log.lh.store (log.lh.sector.idxOf sector) sector }

/-- Everything a `log_write` that returns does. -/
theorem logWrite_eq_ok {log log' : Log} {sector : ℕ} (h : log.logWrite sector = .ok log') :
    log.lh.n < LOGSIZE ∧ log.lh.n < log.size - 1 ∧ 1 ≤ log.outstanding ∧
      log' = { log with
        lh := if sector ∈ log.lh.sector then log.lh else ⟨log.lh.sector ++ [sector]⟩ } := by
  unfold logWrite at h
  split at h
  · cases h
  · rename_i hroom
    split at h
    · cases h
    · rename_i hout
      rw [LogHeader.store_idxOf] at h
      cases h
      exact ⟨by omega, by omega, by omega, rfl⟩

theorem mem_of_logWrite {log log' : Log} {sector x : ℕ} (h : log.logWrite sector = .ok log') :
    x ∈ log'.lh.sector ↔ x ∈ log.lh.sector ∨ x = sector := by
  obtain ⟨-, -, -, rfl⟩ := logWrite_eq_ok h
  dsimp only
  split
  · rename_i hin
    exact ⟨.inl, fun hx => hx.elim id fun heq => heq ▸ hin⟩
  · simp

theorem nodup_of_logWrite {log log' : Log} {sector : ℕ} (h : log.logWrite sector = .ok log')
    (hnodup : log.lh.sector.Nodup) : log'.lh.sector.Nodup := by
  obtain ⟨-, -, -, rfl⟩ := logWrite_eq_ok h
  dsimp only
  split
  · exact hnodup
  · rename_i hnew
    refine List.nodup_append.mpr ⟨hnodup, List.nodup_singleton _, fun x hx y hy heq => hnew ?_⟩
    rwa [heq, List.mem_singleton.mp hy] at hx

theorem n_of_logWrite {log log' : Log} {sector : ℕ} (h : log.logWrite sector = .ok log') :
    log.lh.n ≤ log'.lh.n ∧ log'.lh.n ≤ log.lh.n + 1 := by
  obtain ⟨-, -, -, rfl⟩ := logWrite_eq_ok h
  dsimp only
  split
  · exact ⟨le_rfl, Nat.le_succ _⟩
  · simp [LogHeader.n]

theorem logWrite_eq_tooBig_iff {log : Log} {sector : ℕ} :
    log.logWrite sector = .error .tooBig ↔ log.lh.n ≥ LOGSIZE ∨ log.lh.n ≥ log.size - 1 := by
  unfold logWrite
  split
  · rename_i hfull
    exact iff_of_true rfl hfull
  · rename_i hroom
    split <;> exact iff_of_false (by simp) hroom

end Log

end Xv6
