import Mathlib.Data.Finset.Card
import Xv6.Foundation.Run
import Xv6.Log.Header

/-!
# The group-commit protocol

The critical sections of `log.lock` in `begin_op` and `end_op`, the `log_write`
calls made between them and `commit()`, interleaved by any number of processes.
`commit()` runs with `log.lock` released, so it is a step of its own between the
two critical sections of the `end_op` that calls it; what it does to the disk is
modelled in `Xv6.Log.Commit`.

The invariant `Inv` counts the processes inside an operation, keeps a committing
process alone, and says what a sleeping process waits for.
-/

namespace Xv6

/-- Where a process is with respect to `begin_op` and `end_op`. -/
inductive OpStatus where
  /-- outside any operation -/
  | idle
  /-- in `begin_op`, SLEEPING on `&log` -/
  | sleeping
  /-- in `begin_op`, woken and about to test again -/
  | runnable
  /-- between `begin_op` and `end_op` -/
  | inOp
  /-- in `end_op`, running `commit()` -/
  | inCommit
  /-- in `end_op`, `commit()` has returned -/
  | committed
  deriving DecidableEq

/-- The log, the processes, and the panic that stopped the kernel, if any. -/
structure Protocol where
  log : Log
  status : Pid → OpStatus
  panicked : Option Panic

namespace Protocol

/-- The state that `initlog` leaves. -/
def init (sb : Superblock) : Protocol where
  log := initlog sb
  status := fun _ => .idle
  panicked := none

def wakeup (status : Pid → OpStatus) : Pid → OpStatus :=
  fun q => if status q = .sleeping then .runnable else status q

/-- One round of the loop of `begin_op`, from acquiring `log.lock` to releasing
it, in `sleep` or before returning. -/
def beginOp (s : Protocol) (p : Pid) : Protocol :=
  if s.log.committing then
    { s with status := Function.update s.status p .sleeping }
  else if s.log.full then
    { s with status := Function.update s.status p .sleeping }
  else
    { s with
      log := { s.log with outstanding := s.log.outstanding + 1 }
      status := Function.update s.status p .inOp }

/-- The first critical section of `end_op`. -/
def endOp (s : Protocol) (p : Pid) : Protocol :=
  let log := { s.log with outstanding := s.log.outstanding - 1 }
  if log.committing then
    { s with log := log, panicked := some .logCommitting }
  else if log.outstanding = 0 then
    { s with
      log := { log with committing := true }
      status := Function.update s.status p .inCommit }
  else
    { s with log := log, status := Function.update (wakeup s.status) p .idle }

def logWrite (s : Protocol) (sector : ℕ) : Protocol :=
  match s.log.logWrite sector with
  | .ok log => { s with log := log }
  | .error e => { s with panicked := some e }

def commit (s : Protocol) (p : Pid) : Protocol where
  log := if s.log.lh.n > 0 then { s.log with lh := LogHeader.empty } else s.log
  status := Function.update s.status p .committed
  panicked := s.panicked

/-- The second critical section of `end_op`, after `commit()`. -/
def finish (s : Protocol) (p : Pid) : Protocol :=
  { s with
    log := { s.log with committing := false }
    status := Function.update (wakeup s.status) p .idle }

inductive Label where
  | beginOp (p : Pid)
  | logWrite (p : Pid) (sector : ℕ)
  | endOp (p : Pid)
  | commit (p : Pid)
  | finish (p : Pid)
  /-- `kill` makes a sleeping process runnable -/
  | kill (p : Pid)
  deriving DecidableEq

/-- A step is enabled when the process is at the point of its code where it takes
it; nothing is enabled after a panic. -/
def step (s : Protocol) (l : Label) : Option Protocol :=
  if s.panicked.isSome then none else
  match l with
  | .beginOp p =>
      if s.status p = .idle ∨ s.status p = .runnable then some (s.beginOp p) else none
  | .logWrite p sector =>
      if s.status p = .inOp then some (s.logWrite sector) else none
  | .endOp p => if s.status p = .inOp then some (s.endOp p) else none
  | .commit p => if s.status p = .inCommit then some (s.commit p) else none
  | .finish p => if s.status p = .committed then some (s.finish p) else none
  | .kill p =>
      if s.status p = .sleeping then
        some { s with status := Function.update s.status p .runnable }
      else none

/-! ### What one step can do -/

theorem wakeup_eq_iff {status : Pid → OpStatus} {q : Pid} {o : OpStatus}
    (h₁ : o ≠ .sleeping) (h₂ : o ≠ .runnable) : wakeup status q = o ↔ status q = o := by
  unfold wakeup
  split
  · rename_i h
    rw [h]
    exact ⟨fun h' => absurd h'.symm h₂, fun h' => absurd h'.symm h₁⟩
  · rfl

theorem wakeup_ne_sleeping (status : Pid → OpStatus) (q : Pid) :
    wakeup status q ≠ .sleeping := by
  unfold wakeup
  split
  · simp
  · assumption

theorem panicked_of_step {s t : Protocol} {l : Label} (h : step s l = some t) :
    s.panicked = none := by
  unfold step at h
  split at h
  · cases h
  · rename_i hp
    simpa using hp

theorem step_beginOp {s t : Protocol} {p : Pid} (h : step s (.beginOp p) = some t) :
    (s.status p = .idle ∨ s.status p = .runnable) ∧ t = s.beginOp p := by
  have hp := panicked_of_step h
  simpa [step, hp, eq_comm] using h

theorem step_logWrite {s t : Protocol} {p : Pid} {x : ℕ}
    (h : step s (.logWrite p x) = some t) : s.status p = .inOp ∧ t = s.logWrite x := by
  have hp := panicked_of_step h
  simpa [step, hp, eq_comm] using h

theorem step_endOp {s t : Protocol} {p : Pid} (h : step s (.endOp p) = some t) :
    s.status p = .inOp ∧ t = s.endOp p := by
  have hp := panicked_of_step h
  simpa [step, hp, eq_comm] using h

theorem step_commit {s t : Protocol} {p : Pid} (h : step s (.commit p) = some t) :
    s.status p = .inCommit ∧ t = s.commit p := by
  have hp := panicked_of_step h
  simpa [step, hp, eq_comm] using h

theorem step_finish {s t : Protocol} {p : Pid} (h : step s (.finish p) = some t) :
    s.status p = .committed ∧ t = s.finish p := by
  have hp := panicked_of_step h
  simpa [step, hp, eq_comm] using h

theorem step_kill {s t : Protocol} {p : Pid} (h : step s (.kill p) = some t) :
    s.status p = .sleeping ∧
      t = { s with status := Function.update s.status p .runnable } := by
  have hp := panicked_of_step h
  simpa [step, hp, eq_comm] using h

/-! ### The invariant -/

def InOps (s : Protocol) (S : Finset Pid) : Prop :=
  ∀ q, q ∈ S ↔ s.status q = .inOp

/-- `p` is in `end_op`, in or after the commit. -/
def Committer (s : Protocol) (p : Pid) : Prop :=
  s.status p = .inCommit ∨ s.status p = .committed

structure Inv (s : Protocol) : Prop where
  /-- `outstanding` counts the processes inside an operation -/
  count : ∃ S : Finset Pid, InOps s S ∧ s.log.outstanding = S.card
  /-- `committing` is set exactly while some process is in a commit -/
  committing : s.log.committing = true ↔ ∃ p, Committer s p
  /-- no operation is executing during a commit -/
  quiet : s.log.committing = true → s.log.outstanding = 0
  /-- one commit at a time -/
  alone : ∀ p q, Committer s p → Committer s q → p = q
  /-- a log that nobody is using is empty -/
  idleEmpty : s.log.outstanding = 0 → s.log.committing = false → s.log.lh.n = 0
  /-- after its commit the log is empty -/
  committedEmpty : ∀ p, s.status p = .committed → s.log.lh.n = 0
  /-- a sleeping process has something to wait for -/
  sleepers : ∀ p, s.status p = .sleeping → s.log.committing = true ∨ s.log.full
  /-- the only panic is that of a full log -/
  panics : s.panicked = none ∨ s.panicked = some .tooBig

namespace Inv

variable {s : Protocol}

theorem outstanding_nonneg (h : Inv s) : 0 ≤ s.log.outstanding := by
  obtain ⟨S, -, hS⟩ := h.count
  omega

theorem outstanding_pos (h : Inv s) {p : Pid} (hp : s.status p = .inOp) :
    1 ≤ s.log.outstanding := by
  obtain ⟨S, hops, hS⟩ := h.count
  have hpos : 0 < S.card := Finset.card_pos.mpr ⟨p, (hops p).mpr hp⟩
  omega

/-- While a process is inside an operation nobody commits. -/
theorem not_committing (h : Inv s) {p : Pid} (hp : s.status p = .inOp) :
    s.log.committing = false := by
  by_contra hc
  have h0 := h.quiet (by simpa using hc)
  have h1 := h.outstanding_pos hp
  omega

theorem not_committer (h : Inv s) {p q : Pid} (hp : s.status p = .inOp) :
    ¬ Committer s q := by
  intro hq
  have hc := h.committing.mpr ⟨q, hq⟩
  rw [h.not_committing hp] at hc
  cases hc

theorem not_inOp (h : Inv s) (h0 : s.log.outstanding = 0) (q : Pid) :
    s.status q ≠ .inOp := by
  intro hq
  have := h.outstanding_pos hq
  omega

end Inv

theorem inv_init (sb : Superblock) : Inv (init sb) where
  count := ⟨∅, by simp [InOps, init], by simp [init, initlog]⟩
  committing := by simp [init, initlog, Committer]
  quiet := by simp [init, initlog]
  alone := by simp [init, Committer]
  idleEmpty := by simp [init, initlog]
  committedEmpty := by simp [init]
  sleepers := by simp [init]
  panics := .inl rfl

/-! ### Each step keeps the invariant -/

/-- Going to sleep changes only the status of the process, and it is justified by
the test that was made in the same critical section. -/
theorem Inv.sleep {s : Protocol} (h : Inv s) {p : Pid}
    (hp : s.status p = .idle ∨ s.status p = .runnable)
    (hwait : s.log.committing = true ∨ s.log.full) :
    Inv { s with status := Function.update s.status p .sleeping } := by
  have hother : ∀ q o, o ≠ .sleeping → o ≠ .idle → o ≠ .runnable →
      (Function.update s.status p .sleeping q = o ↔ s.status q = o) := by
    intro q o h₁ h₂ h₃
    by_cases hq : q = p
    · subst hq
      rw [Function.update_self]
      rcases hp with hp | hp <;> rw [hp] <;> simp [h₁.symm, h₂.symm, h₃.symm]
    · rw [Function.update_of_ne hq]
  have hcommitter : ∀ q, Committer { s with
      status := Function.update s.status p .sleeping } q ↔ Committer s q := by
    intro q
    simp only [Committer]
    rw [hother q .inCommit (by simp) (by simp) (by simp),
      hother q .committed (by simp) (by simp) (by simp)]
  obtain ⟨S, hops, hS⟩ := h.count
  refine ⟨⟨S, ?_, hS⟩, ?_, h.quiet, ?_, h.idleEmpty, ?_, ?_, h.panics⟩
  · intro q
    rw [hops q, ← hother q .inOp (by simp) (by simp) (by simp)]
  · rw [h.committing]
    exact exists_congr fun q => (hcommitter q).symm
  · intro q r hq hr
    exact h.alone q r ((hcommitter q).mp hq) ((hcommitter r).mp hr)
  · intro q hq
    exact h.committedEmpty q ((hother q .committed (by simp) (by simp) (by simp)).mp hq)
  · intro q hq
    by_cases hqp : q = p
    · exact hwait
    · simp only [Function.update_of_ne hqp] at hq
      exact h.sleepers q hq

/-- `begin_op` lets the operation in. -/
theorem Inv.admit {s : Protocol} (h : Inv s) {p : Pid}
    (hp : s.status p = .idle ∨ s.status p = .runnable)
    (hc : s.log.committing = false) :
    Inv { s with
      log := { s.log with outstanding := s.log.outstanding + 1 }
      status := Function.update s.status p .inOp } := by
  have hno : ∀ q, ¬ Committer s q := by
    intro q hq
    have := h.committing.mpr ⟨q, hq⟩
    rw [hc] at this
    cases this
  have hno' : ∀ q, ¬ Committer { s with
      log := { s.log with outstanding := s.log.outstanding + 1 }
      status := Function.update s.status p .inOp } q := by
    intro q hq
    by_cases hqp : q = p
    · subst hqp
      simp [Committer] at hq
    · simp only [Committer, Function.update_of_ne hqp] at hq
      exact hno q hq
  have hnonneg := h.outstanding_nonneg
  obtain ⟨S, hops, hS⟩ := h.count
  have hpS : p ∉ S := by
    rw [hops p]
    rcases hp with hp | hp <;> rw [hp] <;> simp
  refine ⟨⟨insert p S, ?_, ?_⟩, ?_, ?_, ?_, ?_, ?_, ?_, h.panics⟩
  · intro q
    by_cases hqp : q = p
    · subst hqp
      simp
    · simp [hqp, hops q]
  · simp [Finset.card_insert_of_notMem hpS, hS]
  · exact ⟨fun hcm => absurd hcm (by simp [hc]), fun ⟨q, hq⟩ => absurd hq (hno' q)⟩
  · exact fun hcm => absurd hcm (by simp [hc])
  · exact fun q r hq _ => absurd hq (hno' q)
  · intro h0
    simp only at h0
    omega
  · intro q hq
    exact absurd (Or.inr hq) (hno' q)
  · intro q hq
    by_cases hqp : q = p
    · subst hqp
      simp at hq
    · simp only [Function.update_of_ne hqp] at hq
      rcases h.sleepers q hq with hs | hs
      · rw [hc] at hs
        cases hs
      · right
        unfold Log.full at hs ⊢
        simp only [LogHeader.n, MAXOPBLOCKS, LOGSIZE] at hs ⊢
        push_cast at hs ⊢
        omega

theorem Inv.beginOp {s : Protocol} (h : Inv s) {p : Pid}
    (hp : s.status p = .idle ∨ s.status p = .runnable) : Inv (s.beginOp p) := by
  unfold Protocol.beginOp
  by_cases hc : s.log.committing = true
  · rw [if_pos hc]
    exact h.sleep hp (.inl hc)
  · rw [if_neg hc]
    by_cases hf : s.log.full
    · rw [if_pos hf]
      exact h.sleep hp (.inr hf)
    · rw [if_neg hf]
      exact h.admit hp (by simpa using hc)

/-- `log_write` only adds to the log. -/
theorem Inv.logWrite {s : Protocol} (h : Inv s) {p : Pid} {x : ℕ}
    (hp : s.status p = .inOp) : Inv (s.logWrite x) := by
  unfold Protocol.logWrite
  split
  · rename_i log hlog
    obtain ⟨-, -, hout, rfl⟩ := Log.logWrite_eq_ok hlog
    have hc := h.not_committing hp
    refine ⟨h.count, h.committing, h.quiet, h.alone, ?_, ?_, ?_, h.panics⟩
    · intro h0 _
      simp only at h0
      omega
    · intro q hq
      exact absurd (Or.inr hq) (h.not_committer hp)
    · intro q hq
      rcases h.sleepers q hq with hs | hs
      · exact .inl hs
      · right
        have hle : s.log.lh.n ≤ LogHeader.n
            (if x ∈ s.log.lh.sector then s.log.lh else ⟨s.log.lh.sector ++ [x]⟩) :=
          (Log.n_of_logWrite hlog).1
        unfold Log.full at hs ⊢
        simp only at hs ⊢
        omega
  · rename_i e he
    refine ⟨h.count, h.committing, h.quiet, h.alone, h.idleEmpty, h.committedEmpty,
      h.sleepers, .inr ?_⟩
    have hout := h.outstanding_pos hp
    unfold Log.logWrite at he
    split at he
    · cases he
      rfl
    · rw [if_neg (by omega)] at he
      cases he

/-- The last operation ends: its process starts the commit. -/
theorem Inv.startCommit {s : Protocol} (h : Inv s) {p : Pid} (hp : s.status p = .inOp)
    (h0 : s.log.outstanding - 1 = 0) :
    Inv { s with
      log := { s.log with outstanding := s.log.outstanding - 1, committing := true }
      status := Function.update s.status p .inCommit } := by
  obtain ⟨S, hops, hS⟩ := h.count
  have hpS : p ∈ S := (hops p).mpr hp
  have hcard : (S.erase p).card = 0 := by
    rw [Finset.card_erase_of_mem hpS]
    omega
  have hcommitter : ∀ q, Committer { s with
      log := { s.log with outstanding := s.log.outstanding - 1, committing := true }
      status := Function.update s.status p .inCommit } q → q = p := by
    intro q hq
    by_contra hqp
    simp only [Committer, Function.update_of_ne hqp] at hq
    exact h.not_committer hp hq
  refine ⟨⟨S.erase p, ?_, ?_⟩, ?_, ?_, ?_, ?_, ?_, ?_, h.panics⟩
  · intro q
    by_cases hqp : q = p
    · subst hqp
      simp
    · simp [hqp, hops q]
  · simp [h0, hcard]
  · exact ⟨fun _ => ⟨p, by simp [Committer]⟩, fun _ => rfl⟩
  · exact fun _ => h0
  · intro q r hq hr
    rw [hcommitter q hq, hcommitter r hr]
  · intro _ hcm
    cases hcm
  · intro q hq
    have hqp := hcommitter q (.inr hq)
    subst hqp
    simp at hq
  · exact fun _ _ => .inl rfl

/-- An operation ends while others go on: everybody waiting is woken. -/
theorem Inv.leave {s : Protocol} (h : Inv s) {p : Pid} (hp : s.status p = .inOp)
    (h0 : s.log.outstanding - 1 ≠ 0) :
    Inv { s with
      log := { s.log with outstanding := s.log.outstanding - 1 }
      status := Function.update (wakeup s.status) p .idle } := by
  have hc := h.not_committing hp
  obtain ⟨S, hops, hS⟩ := h.count
  have hpS : p ∈ S := (hops p).mpr hp
  have hother : ∀ q, q ≠ p → ∀ o, o ≠ .sleeping → o ≠ .runnable →
      (Function.update (wakeup s.status) p .idle q = o ↔ s.status q = o) := by
    intro q hqp o h₁ h₂
    rw [Function.update_of_ne hqp, wakeup_eq_iff h₁ h₂]
  have hno : ∀ q, ¬ Committer { s with
      log := { s.log with outstanding := s.log.outstanding - 1 }
      status := Function.update (wakeup s.status) p .idle } q := by
    intro q hq
    by_cases hqp : q = p
    · subst hqp
      simp [Committer] at hq
    · simp only [Committer] at hq
      rw [hother q hqp _ (by simp) (by simp), hother q hqp _ (by simp) (by simp)] at hq
      exact h.not_committer hp hq
  refine ⟨⟨S.erase p, ?_, ?_⟩, ?_, ?_, ?_, ?_, ?_, ?_, h.panics⟩
  · intro q
    by_cases hqp : q = p
    · subst hqp
      simp
    · rw [Finset.mem_erase, hother q hqp _ (by simp) (by simp), hops q]
      simp [hqp]
  · rw [Finset.card_erase_of_mem hpS]
    have := Finset.card_pos.mpr ⟨p, hpS⟩
    simp only
    omega
  · exact ⟨fun hcm => absurd hcm (by simp [hc]), fun ⟨q, hq⟩ => absurd hq (hno q)⟩
  · exact fun hcm => absurd hcm (by simp [hc])
  · exact fun q r hq _ => absurd hq (hno q)
  · exact fun h0' => absurd h0' h0
  · exact fun q hq => absurd (Or.inr hq) (hno q)
  · intro q hq
    by_cases hqp : q = p
    · subst hqp
      simp at hq
    · simp only [Function.update_of_ne hqp] at hq
      exact absurd hq (wakeup_ne_sleeping _ _)

theorem Inv.endOp {s : Protocol} (h : Inv s) {p : Pid} (hp : s.status p = .inOp) :
    Inv (s.endOp p) := by
  have hc : ¬ s.log.committing = true := by simp [h.not_committing hp]
  unfold Protocol.endOp
  dsimp only
  rw [if_neg hc]
  by_cases h0 : s.log.outstanding - 1 = 0
  · rw [if_pos h0]
    exact h.startCommit hp h0
  · rw [if_neg h0]
    exact h.leave hp h0

theorem Inv.commit {s : Protocol} (h : Inv s) {p : Pid} (hp : s.status p = .inCommit) :
    Inv (s.commit p) := by
  have hcm : s.log.committing = true := h.committing.mpr ⟨p, .inl hp⟩
  have hout := h.quiet hcm
  have hn : (s.commit p).log.lh.n = 0 := by
    unfold Protocol.commit
    by_cases hn : s.log.lh.n > 0
    · simp [hn]
    · simp only [hn, if_false]
      omega
  have hlog : (s.commit p).log.committing = true ∧ (s.commit p).log.outstanding = 0 := by
    unfold Protocol.commit
    simp only
    split <;> exact ⟨hcm, hout⟩
  have hcommitter : ∀ q, Committer (s.commit p) q ↔ q = p := by
    intro q
    unfold Protocol.commit
    by_cases hqp : q = p
    · subst hqp
      simp [Committer]
    · simp only [Committer, Function.update_of_ne hqp, hqp, iff_false]
      exact fun hq => hqp (h.alone q p hq (.inl hp))
  refine ⟨⟨∅, ?_, by simp [hlog.2]⟩, ?_, fun _ => hlog.2, ?_, fun _ _ => hn,
    fun _ _ => hn, fun _ _ => .inl hlog.1, h.panics⟩
  · intro q
    have hq := h.not_inOp hout q
    unfold Protocol.commit
    by_cases hqp : q = p
    · subst hqp
      simp
    · simp [Function.update_of_ne hqp, hq]
  · exact ⟨fun _ => ⟨p, (hcommitter p).mpr rfl⟩, fun _ => hlog.1⟩
  · intro q r hq hr
    rw [(hcommitter q).mp hq, (hcommitter r).mp hr]

theorem Inv.finish {s : Protocol} (h : Inv s) {p : Pid} (hp : s.status p = .committed) :
    Inv (s.finish p) := by
  have hcm : s.log.committing = true := h.committing.mpr ⟨p, .inr hp⟩
  have hout := h.quiet hcm
  have hother : ∀ q, q ≠ p → ∀ o, o ≠ .sleeping → o ≠ .runnable →
      (Function.update (wakeup s.status) p .idle q = o ↔ s.status q = o) := by
    intro q hqp o h₁ h₂
    rw [Function.update_of_ne hqp, wakeup_eq_iff h₁ h₂]
  have hno : ∀ q, ¬ Committer (s.finish p) q := by
    intro q hq
    by_cases hqp : q = p
    · subst hqp
      simp [Committer, Protocol.finish] at hq
    · simp only [Committer, Protocol.finish] at hq
      rw [hother q hqp _ (by simp) (by simp), hother q hqp _ (by simp) (by simp)] at hq
      exact hqp (h.alone q p hq (.inr hp))
  refine ⟨⟨∅, ?_, by simp [Protocol.finish, hout]⟩, ?_, ?_, ?_, ?_, ?_, ?_, h.panics⟩
  · intro q
    have hq := h.not_inOp hout q
    by_cases hqp : q = p
    · subst hqp
      simp [Protocol.finish]
    · simp only [Protocol.finish, Finset.notMem_empty, false_iff]
      rw [hother q hqp _ (by simp) (by simp)]
      exact hq
  · exact ⟨fun hf => by simp [Protocol.finish] at hf, fun ⟨q, hq⟩ => absurd hq (hno q)⟩
  · exact fun hf => by simp [Protocol.finish] at hf
  · exact fun q r hq _ => absurd hq (hno q)
  · exact fun _ _ => h.committedEmpty p hp
  · exact fun q hq => absurd (Or.inr hq) (hno q)
  · intro q hq
    by_cases hqp : q = p
    · subst hqp
      simp [Protocol.finish] at hq
    · simp only [Protocol.finish, Function.update_of_ne hqp] at hq
      exact absurd hq (wakeup_ne_sleeping _ _)

/-- A process that is made runnable is no longer asleep and nothing else changes. -/
theorem Inv.kill {s : Protocol} (h : Inv s) {p : Pid} (hp : s.status p = .sleeping) :
    Inv { s with status := Function.update s.status p .runnable } := by
  have hother : ∀ q o, o ≠ .sleeping → o ≠ .runnable →
      (Function.update s.status p .runnable q = o ↔ s.status q = o) := by
    intro q o h₁ h₂
    by_cases hq : q = p
    · subst hq
      rw [Function.update_self, hp]
      simp [h₁.symm, h₂.symm]
    · rw [Function.update_of_ne hq]
  have hcommitter : ∀ q, Committer { s with
      status := Function.update s.status p .runnable } q ↔ Committer s q := by
    intro q
    simp only [Committer]
    rw [hother q .inCommit (by simp) (by simp), hother q .committed (by simp) (by simp)]
  obtain ⟨S, hops, hS⟩ := h.count
  refine ⟨⟨S, ?_, hS⟩, ?_, h.quiet, ?_, h.idleEmpty, ?_, ?_, h.panics⟩
  · intro q
    rw [hops q, ← hother q .inOp (by simp) (by simp)]
  · rw [h.committing]
    exact exists_congr fun q => (hcommitter q).symm
  · intro q r hq hr
    exact h.alone q r ((hcommitter q).mp hq) ((hcommitter r).mp hr)
  · intro q hq
    exact h.committedEmpty q ((hother q .committed (by simp) (by simp)).mp hq)
  · intro q hq
    by_cases hqp : q = p
    · subst hqp
      simp at hq
    · simp only [Function.update_of_ne hqp] at hq
      exact h.sleepers q hq

theorem Inv.step {s t : Protocol} {l : Label} (h : Inv s) (hl : step s l = some t) :
    Inv t := by
  cases l with
  | beginOp p =>
      obtain ⟨hp, rfl⟩ := step_beginOp hl
      exact h.beginOp hp
  | logWrite p x =>
      obtain ⟨hp, rfl⟩ := step_logWrite hl
      exact h.logWrite hp
  | endOp p =>
      obtain ⟨hp, rfl⟩ := step_endOp hl
      exact h.endOp hp
  | commit p =>
      obtain ⟨hp, rfl⟩ := step_commit hl
      exact h.commit hp
  | finish p =>
      obtain ⟨hp, rfl⟩ := step_finish hl
      exact h.finish hp
  | kill p =>
      obtain ⟨hp, rfl⟩ := step_kill hl
      exact h.kill hp

/-- The invariant holds in every reachable state. -/
theorem inv_run {sb : Superblock} {ls : List Label} {s : Protocol}
    (h : Foundation.run step (init sb) ls = some s) : Inv s :=
  Foundation.run_invariant Inv (fun _ _ _ hs hl => hs.step hl) (inv_init sb) h

end Protocol

end Xv6
