import Xv6.Foundation.Run
import Xv6.Log.Commit

/-!
# Crash atomicity of the redo log

The disk is a map from block numbers to blocks whose single-block writes are
atomic. The buffer cache is the map `cache` of what `bread` returns: the contents
that the last holder of a block left, or the disk's own. Both it and `log.lh` are
lost in a crash.

A transaction is the list of its `log_write` calls. A run commits transactions
with `commit()`; it can crash before any call of `commit()` or of
`recover_from_log()`, hence between any two disk writes, and then boots and
recovers, possibly crashing again.

`Recoverable` says what recovery makes of a disk: `Consistent`, that this is the
state after some prefix of the transactions, is the crash condition of every
program below.
-/

namespace Xv6

open Foundation

abbrev Disk := ℕ → Block

/-- The `log_write` calls of a transaction: sector and new contents. -/
abbrev Transaction := List (ℕ × Block)

def applyTx (d : Disk) (tx : Transaction) : Disk :=
  tx.foldl (fun d w => Function.update d w.1 w.2) d

def contents (base : Disk) (txs : List Transaction) : Disk :=
  txs.foldl applyTx base

theorem contents_concat (base : Disk) (txs : List Transaction) (tx : Transaction) :
    contents base (txs ++ [tx]) = applyTx (contents base txs) tx := by
  simp [contents]

/-- The machine: the disk, and in memory the buffer cache and `log.lh`. The last
three fields are the history of the run since it started or since the last
completed recovery. -/
structure Machine where
  disk : Disk
  cache : Disk
  lh : LogHeader
  /-- the disk when the history starts -/
  base : Disk
  /-- the transactions handed to `commit()` -/
  txs : List Transaction
  /-- the committing `write_head` of the transaction before this index has completed -/
  durable : ℕ

/-- The calls of the log code on the machine. A buffer is named by its sector. The
history notes the `write_head` that commits: the header is written while the log is
not empty. -/
def Machine.handle (start : ℕ) : (o : LogOp ℕ) → Machine → o.Resp × Machine
  | .bread sector, m => (sector, m)
  | .getData b, m => (m.cache b, m)
  | .setData b data, m => (⟨⟩, { m with cache := Function.update m.cache b data })
  | .bwrite b, m =>
      (⟨⟩, { m with
        disk := Function.update m.disk b (m.cache b)
        durable := if b = start ∧ 0 < m.lh.n then m.txs.length else m.durable })
  | .brelse _, m => (⟨⟩, m)
  | .getLh, m => (m.lh, m)
  | .setLh lh, m => (⟨⟩, { m with lh := lh })

/-- One write of a transaction: change the buffer and `log_write` it, inside an
operation. -/
def Machine.logWrite (start size : ℕ) (m : Machine) (w : ℕ × Block) : Option Machine :=
  match (Log.mk start size 1 false m.lh).logWrite w.1 with
  | .ok log => some { m with lh := log.lh, cache := Function.update m.cache w.1 w.2 }
  | .error _ => none

/-- The writes of a transaction; `none` when `log_write` panics. -/
def Machine.logTx (start size : ℕ) : Machine → Transaction → Option Machine
  | m, [] => some m
  | m, w :: tx => (m.logWrite start size w).bind fun m' => m'.logTx start size tx

/-- The memory after a crash: an empty cache, which reads from the disk, and a zero
`log.lh`. -/
def Machine.reboot (m : Machine) : Machine :=
  { m with cache := m.disk, lh := LogHeader.empty }

inductive Mode where
  /-- between commits -/
  | running
  /-- inside `commit()` -/
  | committing (p : LogProgram ℕ PUnit)
  /-- inside `recover_from_log()` -/
  | recovering (p : LogProgram ℕ PUnit)
  /-- `recover_from_log()` has completed -/
  | recovered

/-- The machine and what it is doing. -/
structure Sys where
  m : Machine
  mode : Mode

/-- Block `b` belongs to the log area `[start, start + size)`. -/
def InLog (start size b : ℕ) : Prop := start ≤ b ∧ b < start + size

instance (start size b : ℕ) : Decidable (InLog start size b) :=
  inferInstanceAs (Decidable (_ ∧ _))

namespace Sys

inductive Label where
  /-- hand a transaction to `commit()` -/
  | transaction (tx : Transaction)
  /-- the next call of the running function -/
  | exec
  | crash
  /-- start a new sequence of transactions on the recovered disk -/
  | resume

def step (start size : ℕ) : Sys → Label → Option Sys
  | ⟨m, .running⟩, .transaction tx =>
      if ∀ w ∈ tx, ¬ InLog start size w.1 ∧ w.1 < 2 ^ 32 then
        (m.logTx start size tx).map fun m' =>
          ⟨{ m' with txs := m.txs ++ [tx] }, .committing (LogProgram.commit start)⟩
      else none
  | ⟨m, .committing (.done _)⟩, .exec => some ⟨m, .running⟩
  | ⟨m, .committing (.call o k)⟩, .exec =>
      some ⟨(m.handle start o).2, .committing (k (m.handle start o).1)⟩
  | ⟨m, .recovering (.done _)⟩, .exec => some ⟨m, .recovered⟩
  | ⟨m, .recovering (.call o k)⟩, .exec =>
      some ⟨(m.handle start o).2, .recovering (k (m.handle start o).1)⟩
  | ⟨m, _⟩, .crash => some ⟨m.reboot, .recovering (LogProgram.recoverFromLog start)⟩
  | ⟨m, .recovered⟩, .resume =>
      some ⟨{ m with base := m.disk, txs := [], durable := 0 }, .running⟩
  | _, _ => none

/-- A machine that starts on a disk. -/
def init (d : Disk) : Sys :=
  ⟨⟨d, d, LogHeader.empty, d, [], 0⟩, .running⟩

end Sys

end Xv6
