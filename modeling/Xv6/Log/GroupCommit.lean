import Xv6.Log.Protocol

/-!
# What a group commit contains

The history of a run is read off its labels alone: how many operations each
process has ended, and which operation passed which sector to `log_write` since
the last commit. An operation is named by its process and by how many operations
the process had ended before it.

The header that a commit finds is the set of the sectors of that history, and
every operation in it has ended.
-/

namespace Xv6

namespace Protocol

/-- What the labels of a run say about operations. -/
structure History where
  /-- how many operations the process has ended -/
  ended : Pid → ℕ
  /-- process, operation of that process, and sector of each `log_write` since
  the last commit -/
  writes : List (Pid × ℕ × ℕ)

def History.record (h : History) : Label → History
  | .logWrite p x => { h with writes := h.writes ++ [(p, h.ended p, x)] }
  | .endOp p => { h with ended := Function.update h.ended p (h.ended p + 1) }
  | .commit _ => { h with writes := [] }
  | _ => h

/-- The history of a list of labels. -/
def history (ls : List Label) : History :=
  ls.foldl History.record ⟨fun _ => 0, []⟩

theorem history_concat (ls : List Label) (l : Label) :
    history (ls ++ [l]) = (history ls).record l := by
  simp [history]

/-- Only a `log_write` can stop the kernel, and it changes nothing else. -/
theorem Inv.panic_step {s t : Protocol} {l : Label} (h : Inv s)
    (hl : Protocol.step s l = some t)
    (ht : t.panicked ≠ none) :
    ∃ p x, l = .logWrite p x ∧ s.log.logWrite x = .error .tooBig ∧
      t = { s with panicked := some .tooBig } := by
  have hs := panicked_of_step hl
  cases l with
  | beginOp p =>
      obtain ⟨-, rfl⟩ := step_beginOp hl
      unfold Protocol.beginOp at ht
      split at ht
      · exact absurd hs ht
      · split at ht <;> exact absurd hs ht
  | logWrite p x =>
      obtain ⟨hp, rfl⟩ := step_logWrite hl
      have hinv := (h.logWrite (x := x) hp).panics
      unfold Protocol.logWrite at ht hinv ⊢
      split at ht
      · exact absurd hs ht
      · rename_i e he
        rw [he] at hinv
        obtain rfl : e = .tooBig := by simpa using hinv
        exact ⟨p, x, rfl, he, rfl⟩
  | endOp p =>
      obtain ⟨hp, rfl⟩ := step_endOp hl
      have hc : ¬ s.log.committing = true := by simp [h.not_committing hp]
      unfold Protocol.endOp at ht
      dsimp only at ht
      rw [if_neg hc] at ht
      split at ht <;> exact absurd hs ht
  | commit p =>
      obtain ⟨-, rfl⟩ := step_commit hl
      exact absurd hs ht
  | finish p =>
      obtain ⟨-, rfl⟩ := step_finish hl
      exact absurd hs ht
  | kill p =>
      obtain ⟨-, rfl⟩ := step_kill hl
      exact absurd hs ht

/-- The logged sectors are those of the history, each once, and an operation of
the history has ended unless it is the current one of its process. -/
structure HistoryInv (h : History) (s : Protocol) : Prop where
  nodup : s.log.lh.sector.Nodup
  sectors : ∀ x, x ∈ s.log.lh.sector ↔ ∃ p k, (p, k, x) ∈ h.writes
  ended : ∀ p k x, (p, k, x) ∈ h.writes →
    k < h.ended p ∨ k = h.ended p ∧ s.status p = .inOp

theorem HistoryInv.of_status {h : History} {s t : Protocol} (hs : HistoryInv h s)
    (hlh : t.log.lh = s.log.lh)
    (hst : ∀ p, s.status p = .inOp → t.status p = .inOp) : HistoryInv h t where
  nodup := by
    rw [hlh]
    exact hs.nodup
  sectors := by
    rw [hlh]
    exact hs.sectors
  ended := by
    intro p k x hw
    rcases hs.ended p k x hw with hk | ⟨hk, hp⟩
    · exact .inl hk
    · exact .inr ⟨hk, hst p hp⟩

theorem HistoryInv.logWrite {h : History} {s : Protocol} (hs : HistoryInv h s)
    {p : Pid} {x : ℕ} (hp : s.status p = .inOp)
    (hok : (s.logWrite x).panicked = none) : HistoryInv (h.record (.logWrite p x)) (s.logWrite x) := by
  unfold Protocol.logWrite at hok ⊢
  split at hok
  · rename_i log hlog
    refine ⟨Log.nodup_of_logWrite hlog hs.nodup, ?_, ?_⟩
    · intro y
      simp only [Log.mem_of_logWrite hlog, hs.sectors y, History.record, List.mem_append, List.mem_singleton,
        Prod.mk.injEq]
      constructor
      · rintro (⟨q, k, hw⟩ | rfl)
        · exact ⟨q, k, .inl hw⟩
        · exact ⟨p, h.ended p, .inr ⟨rfl, rfl, rfl⟩⟩
      · rintro ⟨q, k, hw | ⟨-, -, rfl⟩⟩
        · exact .inl ⟨q, k, hw⟩
        · exact .inr rfl
    · intro q k y hw
      simp only [History.record, List.mem_append, List.mem_singleton, Prod.mk.injEq] at hw
      rcases hw with hw | ⟨rfl, rfl, rfl⟩
      · exact hs.ended q k y hw
      · exact .inr ⟨rfl, hp⟩
  · simp at hok

theorem HistoryInv.endOp {h : History} {s : Protocol} (hs : HistoryInv h s) {p : Pid}
    (hlh : (s.endOp p).log.lh = s.log.lh)
    (hst : ∀ q, q ≠ p → s.status q = .inOp → (s.endOp p).status q = .inOp) :
    HistoryInv (h.record (.endOp p)) (s.endOp p) where
  nodup := by
    rw [hlh]
    exact hs.nodup
  sectors := by
    rw [hlh]
    exact hs.sectors
  ended := by
    intro q k x hw
    by_cases hqp : q = p
    · subst hqp
      simp only [History.record, Function.update_self]
      rcases hs.ended q k x hw with hk | ⟨hk, -⟩ <;> omega
    · simp only [History.record, Function.update_of_ne hqp]
      rcases hs.ended q k x hw with hk | ⟨hk, hq⟩
      · exact .inl hk
      · exact .inr ⟨hk, hst q hqp hq⟩

theorem HistoryInv.commit {h : History} {s : Protocol} (p : Pid)
    (hn : (s.commit p).log.lh.n = 0) :
    HistoryInv (h.record (.commit p)) (s.commit p) where
  nodup := by
    rw [List.length_eq_zero_iff.mp hn]
    exact List.nodup_nil
  sectors := by
    intro x
    simp [List.length_eq_zero_iff.mp hn, History.record]
  ended := by simp [History.record]

theorem lh_endOp (s : Protocol) (p : Pid) : (s.endOp p).log.lh = s.log.lh := by
  unfold Protocol.endOp
  dsimp only
  split
  · rfl
  · split <;> rfl

/-- A process in an operation stays there when another process takes a step. -/
theorem status_endOp {s : Protocol} {p q : Pid} (hqp : q ≠ p) (hq : s.status q = .inOp) :
    (s.endOp p).status q = .inOp := by
  unfold Protocol.endOp
  dsimp only
  split
  · exact hq
  · split
    · simpa only [Function.update_of_ne hqp] using hq
    · simpa only [Function.update_of_ne hqp, wakeup_eq_iff (o := .inOp) (by simp) (by simp)]
        using hq

theorem HistoryInv.step {h : History} {s t : Protocol} {l : Label} (hs : HistoryInv h s)
    (hinv : Inv s) (hl : step s l = some t) (ht : t.panicked = none) :
    HistoryInv (h.record l) t := by
  cases l with
  | beginOp p =>
      obtain ⟨hp, rfl⟩ := step_beginOp hl
      have hne : ∀ q, s.status q = .inOp → q ≠ p := by
        rintro q hq rfl
        rcases hp with hp | hp <;> rw [hp] at hq <;> cases hq
      refine hs.of_status ?_ ?_
      · unfold Protocol.beginOp
        split
        · rfl
        · split <;> rfl
      · intro q hq
        unfold Protocol.beginOp
        split
        · simpa only [Function.update_of_ne (hne q hq)] using hq
        · split <;> simpa only [Function.update_of_ne (hne q hq)] using hq
  | logWrite p x =>
      obtain ⟨hp, rfl⟩ := step_logWrite hl
      exact hs.logWrite hp ht
  | endOp p =>
      obtain ⟨-, rfl⟩ := step_endOp hl
      exact hs.endOp (lh_endOp s p) fun q hqp hq => status_endOp hqp hq
  | commit p =>
      obtain ⟨hp, rfl⟩ := step_commit hl
      have hst : (s.commit p).status p = .committed := by simp [Protocol.commit]
      exact HistoryInv.commit p ((hinv.commit hp).committedEmpty p hst)
  | finish p =>
      obtain ⟨hp, rfl⟩ := step_finish hl
      have hout := hinv.quiet (hinv.committing.mpr ⟨p, .inr hp⟩)
      exact hs.of_status rfl fun q hq => absurd hq (hinv.not_inOp hout q)
  | kill p =>
      obtain ⟨hp, rfl⟩ := step_kill hl
      refine hs.of_status rfl ?_
      intro q hq
      have hqp : q ≠ p := by
        rintro rfl
        rw [hp] at hq
        cases hq
      simpa only [Function.update_of_ne hqp] using hq

/-- In every run that has not panicked the log agrees with the history. -/
theorem historyInv_run {sb : Superblock} {ls : List Label} {s : Protocol}
    (h : Foundation.run step (init sb) ls = some s) (hs : s.panicked = none) :
    HistoryInv (history ls) s := by
  have hall : Inv s ∧ (s.panicked = none → HistoryInv (history ls) s) := by
    refine Foundation.run_history (fun ls s =>
      Inv s ∧ (s.panicked = none → HistoryInv (history ls) s)) ?_ ?_ h
    · refine ⟨inv_init sb, fun _ => ⟨?_, ?_, ?_⟩⟩ <;> simp [history, init, initlog]
    · rintro ls s l t ⟨hinv, hh⟩ hl
      refine ⟨hinv.step hl, fun ht => ?_⟩
      rw [history_concat]
      exact (hh (panicked_of_step hl)).step hinv hl ht
  exact hall.2 hs

/-- A commit starts exactly when the last operation ends. -/
theorem Inv.inCommit_iff {s t : Protocol} {l : Label} {p : Pid} (h : Inv s)
    (hl : Protocol.step s l = some t) :
    s.status p ≠ .inCommit ∧ t.status p = .inCommit ↔
      l = .endOp p ∧ ∀ q, s.status q = .inOp ↔ q = p := by
  have hone : ∀ r, s.status r = .inOp →
      (s.log.outstanding - 1 = 0 ↔ ∀ q, s.status q = .inOp ↔ q = r) := by
    intro r hr
    obtain ⟨S, hops, hS⟩ := h.count
    have hcard : s.log.outstanding - 1 = 0 ↔ S.card = 1 := by omega
    rw [hcard, Finset.card_eq_one]
    constructor
    · rintro ⟨a, ha⟩ q
      have hmem : ∀ q, q = a ↔ s.status q = .inOp := by
        intro q
        rw [← hops q, ha, Finset.mem_singleton]
      rw [← hmem q, ← (hmem r).mpr hr]
    · intro hq
      refine ⟨r, ?_⟩
      ext q
      rw [hops q, hq q, Finset.mem_singleton]
  constructor
  · rintro ⟨hs, ht⟩
    cases l with
    | beginOp q =>
        obtain ⟨-, rfl⟩ := step_beginOp hl
        refine absurd ?_ hs
        unfold Protocol.beginOp at ht
        by_cases hpq : p = q
        · subst hpq
          split at ht
          · simp at ht
          · split at ht <;> simp at ht
        · split at ht
          · simpa only [Function.update_of_ne hpq] using ht
          · split at ht <;> simpa only [Function.update_of_ne hpq] using ht
    | logWrite q x =>
        obtain ⟨-, rfl⟩ := step_logWrite hl
        refine absurd ?_ hs
        unfold Protocol.logWrite at ht
        split at ht <;> exact ht
    | endOp q =>
        obtain ⟨hq, rfl⟩ := step_endOp hl
        have hc : ¬ s.log.committing = true := by simp [h.not_committing hq]
        unfold Protocol.endOp at ht
        dsimp only at ht
        rw [if_neg hc] at ht
        by_cases hpq : p = q
        · subst hpq
          split at ht
          · rename_i h0
            exact ⟨rfl, (hone p hq).mp h0⟩
          · simp at ht
        · refine absurd ?_ hs
          split at ht
          · simpa only [Function.update_of_ne hpq] using ht
          · simpa only [Function.update_of_ne hpq,
              wakeup_eq_iff (o := .inCommit) (by simp) (by simp)] using ht
    | commit q =>
        obtain ⟨-, rfl⟩ := step_commit hl
        by_cases hpq : p = q
        · subst hpq
          simp [Protocol.commit] at ht
        · refine absurd ?_ hs
          simpa only [Protocol.commit, Function.update_of_ne hpq] using ht
    | finish q =>
        obtain ⟨-, rfl⟩ := step_finish hl
        by_cases hpq : p = q
        · subst hpq
          simp [Protocol.finish] at ht
        · refine absurd ?_ hs
          simpa only [Protocol.finish, Function.update_of_ne hpq,
            wakeup_eq_iff (o := .inCommit) (by simp) (by simp)] using ht
    | kill q =>
        obtain ⟨-, rfl⟩ := step_kill hl
        by_cases hpq : p = q
        · subst hpq
          simp at ht
        · refine absurd ?_ hs
          simpa only [Function.update_of_ne hpq] using ht
  · rintro ⟨rfl, hq⟩
    obtain ⟨hp, rfl⟩ := step_endOp hl
    have hc : ¬ s.log.committing = true := by simp [h.not_committing hp]
    refine ⟨by rw [hp]; simp, ?_⟩
    unfold Protocol.endOp
    dsimp only
    rw [if_neg hc, if_pos ((hone p hp).mpr hq)]
    simp

/-- The group-commit protocol. In every state that any interleaving reaches:
committing excludes operations, so `end_op` does not panic and no `log_write` runs
during a commit; a commit starts exactly when the last operation ends, and it
finds in the header exactly the sectors logged since the last commit, all by
operations that have ended; an idle log is empty; and a process asleep on `&log`
still has something to wait for. -/
theorem group_commit {sb : Superblock} {ls : List Label} {s : Protocol}
    (h : Foundation.run step (init sb) ls = some s) :
    (s.log.committing = true → s.log.outstanding = 0 ∧ ∀ q, s.status q ≠ .inOp) ∧
    s.panicked ≠ some .logCommitting ∧
    (∀ p x t, step s (.logWrite p x) = some t →
      s.log.committing = false ∧ ∀ q, ¬ Committer s q) ∧
    (∀ p l t, step s l = some t →
      (s.status p ≠ .inCommit ∧ t.status p = .inCommit ↔
        l = .endOp p ∧ ∀ q, s.status q = .inOp ↔ q = p)) ∧
    (∀ p, s.status p = .inCommit →
      (∀ x, x ∈ s.log.lh.sector ↔ ∃ q k, (q, k, x) ∈ (history ls).writes) ∧
      ∀ q k x, (q, k, x) ∈ (history ls).writes → k < (history ls).ended q) ∧
    (s.log.outstanding = 0 → s.log.committing = false → s.log.lh.n = 0) ∧
    (∀ p, s.status p = .sleeping → s.log.committing = true ∨
      (s.log.lh.n : ℤ) + (s.log.outstanding + 1) * MAXOPBLOCKS > LOGSIZE) := by
  have hinv := inv_run h
  refine ⟨?_, ?_, ?_, ?_, ?_, hinv.idleEmpty, hinv.sleepers⟩
  · intro hc
    exact ⟨hinv.quiet hc, hinv.not_inOp (hinv.quiet hc)⟩
  · rcases hinv.panics with hp | hp <;> simp [hp]
  · intro p x t ht
    obtain ⟨hp, -⟩ := step_logWrite ht
    exact ⟨hinv.not_committing hp, fun q => hinv.not_committer hp⟩
  · exact fun p l t hl => hinv.inCommit_iff hl
  · intro p hp
    have hc := hinv.committing.mpr ⟨p, .inl hp⟩
    have hns : s.panicked = none := by
      by_contra hne
      -- the run ended in a panic: its last step was a `log_write`
      rcases ls.eq_nil_or_concat with rfl | ⟨ls', l, rfl⟩
      · rw [Foundation.run_nil, Option.some.injEq] at h
        subst h
        simp [init] at hp
      · rw [List.concat_eq_append] at h
        obtain ⟨u, hu, hl⟩ := Foundation.run_concat_eq_some.mp h
        obtain ⟨q, x, rfl, -, rfl⟩ := (inv_run hu).panic_step hl hne
        have hq := (inv_run hu).not_committing (step_logWrite hl).1
        simp only at hc
        rw [hq] at hc
        cases hc
    have hh := historyInv_run h hns
    refine ⟨hh.sectors, ?_⟩
    intro q k x hw
    rcases hh.ended q k x hw with hk | ⟨-, hq⟩
    · exact hk
    · exact absurd hq (hinv.not_inOp (hinv.quiet hc) q)

/-- A run in which two operations share a commit while a third process waits. -/
theorem group_commit_run :
    ∃ s, Foundation.run step (init mkfsSuperblock)
        [.beginOp 0, .beginOp 1, .logWrite 0 40, .logWrite 1 41, .endOp 0, .endOp 1,
          .beginOp 2] = some s ∧
      (s.log.committing = true → s.log.outstanding = 0 ∧ ∀ q, s.status q ≠ .inOp) := by
  obtain ⟨s, hs⟩ : ∃ s, Foundation.run step (init mkfsSuperblock)
      [.beginOp 0, .beginOp 1, .logWrite 0 40, .logWrite 1 41, .endOp 0, .endOp 1,
        .beginOp 2] = some s := Option.isSome_iff_exists.mp (by decide)
  exact ⟨s, hs, (group_commit hs).1⟩

end Protocol

end Xv6
