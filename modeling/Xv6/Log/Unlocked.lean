import Xv6.Foundation.Run
import Xv6.Log.Header

/-!
# `log_write` without a lock

`log_write` reads and writes `log.lh` without `log.lock`, so the calls of several processes are
interleaved. A call is three steps: the two tests and the scan, the store, and the test with the
increment. Two calls that both add their sector take the same place of `lh.sector` when the
second one scans before the first one has incremented `lh.n`, and one sector is lost. In a run
in which no call adds a sector while another one does, all sectors are kept.
-/

namespace Xv6

open Foundation

/-- Where a process is in `log_write`, with the sector of its buffer. -/
inductive LogWriteAt where
  | idle
  /-- before the tests and the scan -/
  | scan (b : ℕ)
  /-- before `log.lh.sector[i] = b->sector` -/
  | store (b i : ℕ)
  /-- before `if (i == log.lh.n)` -/
  | test (b i : ℕ)
  deriving DecidableEq

namespace LogWriteAt

def sector : LogWriteAt → Option ℕ
  | idle => none
  | scan b => some b
  | store b _ => some b
  | test b _ => some b

/-- The place that the scan has found. -/
def place : LogWriteAt → Option ℕ
  | idle => none
  | scan _ => none
  | store _ i => some i
  | test _ i => some i

end LogWriteAt

/-- `struct log`, with the array of its header, and the processes. -/
structure UnlockedLog where
  size : ℕ
  outstanding : ℤ
  /-- `lh.n` -/
  n : ℕ
  /-- `lh.sector` -/
  sector : ℕ → ℕ
  status : Pid → LogWriteAt
  /-- the process that is in a call with the buffer of a sector -/
  owner : ℕ → Option Pid
  /-- the sectors with which `log_write` has been called -/
  called : List ℕ

namespace UnlockedLog

/-- No process is in `log_write`. -/
def init (size : ℕ) (outstanding : ℤ) (n : ℕ) (sector : ℕ → ℕ) : UnlockedLog where
  size := size
  outstanding := outstanding
  n := n
  sector := sector
  status := fun _ => .idle
  owner := fun _ => none
  called := []

/-- `lh.sector[0..n)` -/
def entries (s : UnlockedLog) : List ℕ := (List.range s.n).map s.sector

def setStatus (s : UnlockedLog) (p : Pid) (a : LogWriteAt) : UnlockedLog :=
  { s with status := Function.update s.status p a }

/-- The next step of a process in `log_write`; none where it panics. -/
def go (s : UnlockedLog) (p : Pid) : LogWriteAt → Option UnlockedLog
  | .idle => none
  | .scan b =>
      if s.n ≥ LOGSIZE ∨ s.n ≥ s.size - 1 then none
      else if s.outstanding < 1 then none
      else some (s.setStatus p (.store b (s.entries.idxOf b)))
  | .store b i => some ({ s with sector := Function.update s.sector i b }.setStatus p (.test b i))
  | .test b i =>
      some ({ s with
        n := if i = s.n then s.n + 1 else s.n
        owner := Function.update s.owner b none }.setStatus p .idle)

inductive Label where
  /-- a process calls `log_write` with its buffer of the sector `b` -/
  | call (p : Pid) (b : ℕ)
  /-- the next step of a process -/
  | go (p : Pid)

/-- A step. A buffer is busy for one process. -/
def step (s : UnlockedLog) : Label → Option UnlockedLog
  | .call p b =>
      if s.status p = .idle ∧ s.owner b = none then
        some ({ s with
          owner := Function.update s.owner b (some p), called := s.called ++ [b] }.setStatus p
            (.scan b))
      else none
  | .go p => s.go p (s.status p)

/-- A process has found the end of the entries and has not incremented `lh.n`. -/
def Adding (s : UnlockedLog) (q : Pid) : Prop := (s.status q).place = some s.n

/-- A call that will add its sector scans while no other call adds one. -/
def Alone (s : UnlockedLog) : Label → Prop
  | .call _ _ => True
  | .go p => ∀ b, s.status p = .scan b → b ∉ s.entries → ∀ q, ¬ s.Adding q

/-- All sectors of calls, and those that were there before, are there once. -/
def Kept (before : List ℕ) (s : UnlockedLog) : Prop :=
  s.entries.Nodup ∧ ∀ b, b ∈ s.entries ↔ b ∈ before ∨ b ∈ s.called

/-- What is true of a process that has found a place. -/
def PlaceOk (s : UnlockedLog) (b i : ℕ) : Prop :=
  (i < s.n ∧ s.sector i = b) ∨ (i = s.n ∧ b ∉ s.entries)

structure Inv (before : List ℕ) (s : UnlockedLog) : Prop where
  owned : ∀ p b, (s.status p).sector = some b → s.owner b = some p
  nodup : s.entries.Nodup
  added : ∀ b ∈ s.entries, b ∈ before ∨ b ∈ s.called
  old : ∀ b ∈ before, b ∈ s.entries
  kept : ∀ b ∈ s.called, b ∈ s.entries ∨ ∃ p, (s.status p).sector = some b
  mine : ∀ p b, (s.status p).sector = some b → b ∈ s.called
  store : ∀ p b i, s.status p = .store b i → s.PlaceOk b i
  test : ∀ p b i, s.status p = .test b i → s.PlaceOk b i ∧ s.sector i = b
  one : ∀ p q, s.Adding p → s.Adding q → p = q

section Entries

variable {s : UnlockedLog} {b i : ℕ} {p q : Pid}

theorem mem_entries : b ∈ s.entries ↔ ∃ i, i < s.n ∧ s.sector i = b := by
  simp [entries]

theorem entries_succ :
    (List.range (s.n + 1)).map s.sector = s.entries ++ [s.sector s.n] := by
  rw [List.range_succ, List.map_append]
  rfl

/-- What the scan finds. -/
theorem placeOk_scan (s : UnlockedLog) (b : ℕ) : s.PlaceOk b (s.entries.idxOf b) := by
  have hlen : s.entries.length = s.n := by rw [entries, List.length_map, List.length_range]
  by_cases hb : b ∈ s.entries
  · have hlt : s.entries.idxOf b < s.entries.length := List.idxOf_lt_length_iff.mpr hb
    refine .inl ⟨hlen ▸ hlt, ?_⟩
    have hget := List.getElem_idxOf hlt
    simp only [entries, List.getElem_map, List.getElem_range] at hget
    exact hget
  · refine .inr ⟨?_, hb⟩
    rw [← hlen]
    exact List.idxOf_eq_length_iff.mpr hb

end Entries

namespace Inv

variable {before : List ℕ} {s t : UnlockedLog} {b i : ℕ} {p q : Pid}

theorem start {size n : ℕ} {outstanding : ℤ} {sector : ℕ → ℕ}
    (hnodup : (init size outstanding n sector).entries.Nodup) :
    Inv (init size outstanding n sector).entries (init size outstanding n sector) where
  owned := fun p b h => by cases h
  nodup := hnodup
  added := fun b hb => .inl hb
  old := fun b hb => hb
  kept := fun b hb => by cases hb
  mine := fun p b h => by cases h
  store := fun p b i h => by cases h
  test := fun p b i h => by cases h
  one := fun p q h => by cases h

/-- Two calls have different sectors. -/
theorem distinct (h : Inv before s) (hp : (s.status p).sector = some b)
    (hq : (s.status q).sector = some b) : p = q :=
  Option.some.inj ((h.owned p b hp).symm.trans (h.owned q b hq))

/-- The process that has moved is not meant by what does not hold where it is now. -/
theorem of_moved {P : LogWriteAt → Prop} {a : LogWriteAt} (ha : ¬ P a)
    (h : P (Function.update s.status p a q)) : q ≠ p ∧ P (s.status q) := by
  by_cases hq : q = p
  · rw [hq, Function.update_self] at h
    exact absurd h ha
  · rw [Function.update_of_ne hq] at h
    exact ⟨hq, h⟩

/-- `log_write` is called. -/
theorem call (h : Inv before s) (hp : s.status p = .idle) (hb : s.owner b = none) :
    Inv before ({ s with
      owner := Function.update s.owner b (some p), called := s.called ++ [b] }.setStatus p
        (.scan b)) := by
  have hother : ∀ q, q ≠ p → Function.update s.status p (.scan b) q = s.status q :=
    fun q hq => Function.update_of_ne hq _ _
  refine ⟨?_, h.nodup, ?_, h.old, ?_, ?_, ?_, ?_, ?_⟩
  · intro q c hc
    simp only [setStatus] at hc ⊢
    by_cases hq : q = p
    · subst hq
      rw [Function.update_self] at hc
      rw [← Option.some.inj hc, Function.update_self]
    · rw [hother q hq] at hc
      have hcb : c ≠ b := by
        rintro rfl
        cases hb.symm.trans (h.owned q c hc)
      rw [Function.update_of_ne hcb]
      exact h.owned q c hc
  · intro c hc
    rcases h.added c hc with hc | hc
    · exact .inl hc
    · exact .inr (List.mem_append_left _ hc)
  · intro c hc
    rcases List.mem_append.mp hc with hc | hc
    · rcases h.kept c hc with hc | ⟨q, hq⟩
      · exact .inl hc
      · refine .inr ⟨q, ?_⟩
        have hqp : q ≠ p := by
          rintro rfl
          rw [hp] at hq
          cases hq
        simp only [setStatus, hother q hqp]
        exact hq
    · refine .inr ⟨p, ?_⟩
      rw [List.mem_singleton.mp hc]
      simp only [setStatus, Function.update_self]
      rfl
  · intro q c hc
    simp only [setStatus] at hc
    by_cases hq : q = p
    · subst hq
      rw [Function.update_self] at hc
      rw [← Option.some.inj hc]
      exact List.mem_append_right _ (List.mem_singleton_self _)
    · rw [hother q hq] at hc
      exact List.mem_append_left _ (h.mine q c hc)
  · intro q c j hq
    exact h.store q c j (of_moved (P := fun st => st = .store c j) (fun hc => by cases hc) hq).2
  · intro q c j hq
    exact h.test q c j (of_moved (P := fun st => st = .test c j) (fun hc => by cases hc) hq).2
  · have hadding : ∀ q, (Function.update s.status p (.scan b) q).place = some s.n →
        s.Adding q := fun q hq =>
      (of_moved (P := fun st => st.place = some s.n) (fun hc => by cases hc) hq).2
    intro q r hq hr
    exact h.one q r (hadding q hq) (hadding r hr)

/-- A process goes on in its call, and the entries stay as they are. -/
theorem move (h : Inv before s) {a : LogWriteAt} {f : ℕ → ℕ}
    (hb : (s.status p).sector = some b) (ha : a.sector = some b)
    (hsame : ∀ i, i < s.n → f i = s.sector i)
    (htest : ∀ q c i, q ≠ p → s.status q = .test c i → f i = s.sector i)
    (hplace : ∀ i, a.place = some i → s.PlaceOk b i)
    (hstored : ∀ i, a = .test b i → f i = b)
    (halone : a.place = some s.n → ∀ q, q ≠ p → ¬ s.Adding q) :
    Inv before ({ s with sector := f }.setStatus p a) := by
  have hother : ∀ q, q ≠ p → Function.update s.status p a q = s.status q :=
    fun q hq => Function.update_of_ne hq _ _
  have hsector : ∀ q, (Function.update s.status p a q).sector = (s.status q).sector := by
    intro q
    by_cases hq : q = p
    · subst hq
      rw [Function.update_self, ha, hb]
    · rw [hother q hq]
  have hentries : ({ s with sector := f }.setStatus p a).entries = s.entries :=
    List.map_congr_left fun i hi => hsame i (List.mem_range.mp hi)
  have hplaceOk : ∀ c i, s.PlaceOk c i → ({ s with sector := f }.setStatus p a).PlaceOk c i := by
    rintro c i (⟨hi, hc⟩ | ⟨hi, hc⟩)
    · exact .inl ⟨hi, (hsame i hi).trans hc⟩
    · exact .inr ⟨hi, by rw [hentries]; exact hc⟩
  refine ⟨?_, ?_, ?_, ?_, ?_, ?_, ?_, ?_, ?_⟩
  · intro q c hc
    exact h.owned q c ((hsector q).symm.trans hc)
  · rw [hentries]
    exact h.nodup
  · rw [hentries]
    exact h.added
  · rw [hentries]
    exact h.old
  · intro c hc
    rw [hentries]
    rcases h.kept c hc with hc | ⟨q, hq⟩
    · exact .inl hc
    · exact .inr ⟨q, (hsector q).trans hq⟩
  · intro q c hc
    exact h.mine q c ((hsector q).symm.trans hc)
  · intro q c i hq
    simp only [setStatus] at hq
    by_cases hqp : q = p
    · subst hqp
      rw [Function.update_self] at hq
      rw [hq] at ha hplace
      obtain rfl : c = b := Option.some.inj ha
      exact hplaceOk c i (hplace i rfl)
    · rw [hother q hqp] at hq
      exact hplaceOk c i (h.store q c i hq)
  · intro q c i hq
    simp only [setStatus] at hq
    by_cases hqp : q = p
    · subst hqp
      rw [Function.update_self] at hq
      rw [hq] at ha hplace hstored
      obtain rfl : c = b := Option.some.inj ha
      exact ⟨hplaceOk c i (hplace i rfl), hstored i rfl⟩
    · rw [hother q hqp] at hq
      obtain ⟨hok, hc⟩ := h.test q c i hq
      exact ⟨hplaceOk c i hok, (htest q c i hqp hq).trans hc⟩
  · intro q r hq hr
    unfold Adding at hq hr
    simp only [setStatus] at hq hr
    by_cases hqp : q = p
    · by_cases hrp : r = p
      · exact hqp.trans hrp.symm
      · rw [hqp, Function.update_self] at hq
        rw [hother r hrp] at hr
        exact absurd hr (halone hq r hrp)
    · rw [hother q hqp] at hq
      by_cases hrp : r = p
      · rw [hrp, Function.update_self] at hr
        exact absurd hq (halone hr q hqp)
      · rw [hother r hrp] at hr
        exact h.one q r hq hr

theorem scan (h : Inv before s) (hp : s.status p = .scan b)
    (halone : b ∉ s.entries → ∀ q, ¬ s.Adding q) :
    Inv before (s.setStatus p (.store b (s.entries.idxOf b))) := by
  refine h.move (f := s.sector) (by rw [hp]; rfl) rfl (fun _ _ => rfl) (fun _ _ _ _ _ => rfl)
    ?_ ?_ ?_
  · intro i hi
    rw [← Option.some.inj hi]
    exact s.placeOk_scan b
  · intro i hi
    cases hi
  · intro hplace q hq
    rcases s.placeOk_scan b with ⟨hlt, -⟩ | ⟨-, hb⟩
    · exact absurd (Option.some.inj hplace) (Nat.ne_of_lt hlt)
    · exact halone hb q

theorem store_place (h : Inv before s) (hp : s.status p = .store b i) :
    Inv before ({ s with sector := Function.update s.sector i b }.setStatus p (.test b i)) := by
  have hok := h.store p b i hp
  have hadding : i = s.n → s.Adding p := by
    rintro rfl
    rw [Adding, hp]
    rfl
  refine h.move (by rw [hp]; rfl) rfl ?_ ?_ ?_ ?_ ?_
  · intro j hj
    by_cases hji : j = i
    · subst hji
      rw [Function.update_self]
      rcases hok with ⟨-, hb⟩ | ⟨hn, -⟩
      · exact hb.symm
      · exact absurd hn (Nat.ne_of_lt hj)
    · exact Function.update_of_ne hji _ _
  · intro q c j hqp hq
    obtain ⟨hplace, hc⟩ := h.test q c j hq
    by_cases hji : j = i
    · subst hji
      rw [Function.update_self]
      rcases hok with ⟨-, hb⟩ | ⟨hn, -⟩
      · exact hb.symm
      · refine absurd (h.one q p ?_ (hadding hn)) hqp
        rw [Adding, hq, hn]
        rfl
    · exact Function.update_of_ne hji _ _
  · intro j hj
    rw [← Option.some.inj hj]
    exact hok
  · intro j hj
    obtain rfl : i = j := (LogWriteAt.test.inj hj).2
    exact Function.update_self _ _ _
  · intro hplace q hqp hq
    exact hqp (h.one q p hq (hadding (Option.some.inj hplace)))

/-- The place of a process is that of an entry, or the next free one. -/
theorem place_le (h : Inv before s) (hq : (s.status q).place = some i) : i ≤ s.n := by
  have hok : ∃ c, s.PlaceOk c i := by
    cases hs : s.status q with
    | idle =>
        rw [hs] at hq
        cases hq
    | scan c =>
        rw [hs] at hq
        cases hq
    | store c j =>
        rw [hs] at hq
        obtain rfl : j = i := Option.some.inj hq
        exact ⟨c, h.store q c j hs⟩
    | test c j =>
        rw [hs] at hq
        obtain rfl : j = i := Option.some.inj hq
        exact ⟨c, (h.test q c j hs).1⟩
  obtain ⟨c, ⟨hlt, -⟩ | ⟨heq, -⟩⟩ := hok
  · exact hlt.le
  · exact heq.le

/-- What the entries are after a call has returned. -/
theorem entries_leave (h : Inv before s) (hp : s.status p = .test b i) {k : ℕ}
    (hk : k = if i = s.n then s.n + 1 else s.n) :
    ((List.range k).map s.sector).Nodup ∧
      ∀ c, c ∈ (List.range k).map s.sector ↔ c ∈ s.entries ∨ c = b := by
  obtain ⟨hok, hb⟩ := h.test p b i hp
  by_cases hi : i = s.n
  · have hnot : b ∉ s.entries := by
      rcases hok with ⟨hlt, -⟩ | ⟨-, hnot⟩
      · exact absurd hi (Nat.ne_of_lt hlt)
      · exact hnot
    rw [hk, if_pos hi, entries_succ, ← hi, hb]
    refine ⟨?_, fun c => by rw [List.mem_append, List.mem_singleton]⟩
    refine List.nodup_append.mpr ⟨h.nodup, List.nodup_singleton b, ?_⟩
    rintro c hc d hd rfl
    exact hnot (List.mem_singleton.mp hd ▸ hc)
  · have hmem : b ∈ s.entries := by
      rcases hok with ⟨hlt, hb⟩ | ⟨heq, -⟩
      · exact mem_entries.mpr ⟨i, hlt, hb⟩
      · exact absurd heq hi
    rw [hk, if_neg hi]
    refine ⟨h.nodup, fun c => ⟨.inl, ?_⟩⟩
    rintro (hc | rfl)
    · exact hc
    · exact hmem

/-- The place of another process is right after the return, too. -/
theorem placeOk_leave (h : Inv before s) (hp : s.status p = .test b i) {k : ℕ}
    (hk : k = if i = s.n then s.n + 1 else s.n) {q : Pid} {c j : ℕ} (hq : q ≠ p)
    (hc : (s.status q).sector = some c) (hj : (s.status q).place = some j)
    (hok : s.PlaceOk c j) :
    ({ s with n := k, owner := Function.update s.owner b none }.setStatus p .idle).PlaceOk c j := by
  rcases hok with ⟨hlt, hsec⟩ | ⟨heq, hnot⟩
  · refine .inl ⟨hlt.trans_le ?_, hsec⟩
    change s.n ≤ k
    rw [hk]
    split
    · exact Nat.le_succ _
    · exact Nat.le_refl _
  · have hi : i ≠ s.n := by
      rintro rfl
      refine hq (h.one q p ?_ ?_)
      · rw [Adding, hj, heq]
      · rw [Adding, hp]
        rfl
    refine .inr ⟨?_, ?_⟩
    · change j = k
      rw [hk, if_neg hi, heq]
    · change c ∉ (List.range k).map s.sector
      rw [(h.entries_leave hp hk).2]
      rintro (hc' | rfl)
      · exact hnot hc'
      · exact hq (h.distinct hc (by rw [hp]; rfl))

/-- Who adds an entry after the return has added one before. -/
theorem adding_leave (h : Inv before s) {k : ℕ} (hk : k = if i = s.n then s.n + 1 else s.n)
    {q : Pid} (hq : (Function.update s.status p .idle q).place = some k) : s.Adding q := by
  obtain ⟨-, hq⟩ := of_moved (P := fun st => st.place = some k) (fun hc => by cases hc) hq
  have hle := h.place_le hq
  rw [hk] at hq hle
  split at hle
  · exact absurd hle (Nat.not_succ_le_self _)
  · rw [if_neg ‹_›] at hq
    exact hq

/-- The return of a call whose sector has been found or has been added. -/
theorem leave (h : Inv before s) (hp : s.status p = .test b i) {k : ℕ}
    (hk : k = if i = s.n then s.n + 1 else s.n) :
    Inv before ({ s with n := k, owner := Function.update s.owner b none }.setStatus p .idle) := by
  obtain ⟨hnodup, hmem⟩ := h.entries_leave hp hk
  have hsector : (s.status p).sector = some b := by rw [hp]; rfl
  refine ⟨?_, hnodup, ?_, ?_, ?_, ?_, ?_, ?_, ?_⟩
  · intro q c hc
    obtain ⟨hq, hc⟩ := of_moved (P := fun st => st.sector = some c) (fun hc => by cases hc) hc
    have hcb : c ≠ b := by
      rintro rfl
      exact hq (h.distinct hc hsector)
    simp only [setStatus, Function.update_of_ne hcb]
    exact h.owned q c hc
  · intro c hc
    rcases (hmem c).mp hc with hc | rfl
    · exact h.added c hc
    · exact .inr (h.mine p c hsector)
  · intro c hc
    exact (hmem c).mpr (.inl (h.old c hc))
  · intro c hc
    rcases h.kept c hc with hc | ⟨q, hq⟩
    · exact .inl ((hmem c).mpr (.inl hc))
    · by_cases hqp : q = p
      · subst hqp
        exact .inl ((hmem c).mpr (.inr (Option.some.inj (hq.symm.trans hsector))))
      · refine .inr ⟨q, ?_⟩
        simp only [setStatus, Function.update_of_ne hqp]
        exact hq
  · intro q c hc
    exact h.mine q c (of_moved (P := fun st => st.sector = some c) (fun hc => by cases hc) hc).2
  · intro q c j hq
    obtain ⟨hqp, hq⟩ := of_moved (P := fun st => st = .store c j) (fun hc => by cases hc) hq
    exact h.placeOk_leave hp hk hqp (by rw [hq]; rfl) (by rw [hq]; rfl) (h.store q c j hq)
  · intro q c j hq
    obtain ⟨hqp, hq⟩ := of_moved (P := fun st => st = .test c j) (fun hc => by cases hc) hq
    obtain ⟨hok, hc⟩ := h.test q c j hq
    exact ⟨h.placeOk_leave hp hk hqp (by rw [hq]; rfl) (by rw [hq]; rfl) hok, hc⟩
  · intro q r hq hr
    exact h.one q r (h.adding_leave hk hq) (h.adding_leave hk hr)

theorem step (h : Inv before s) {l : Label} (halone : s.Alone l) (hl : s.step l = some t) :
    Inv before t := by
  cases l with
  | call p b =>
      simp only [UnlockedLog.step] at hl
      split at hl
      · obtain ⟨hp, hb⟩ := ‹_ ∧ _›
        rw [← Option.some.inj hl]
        exact h.call hp hb
      · cases hl
  | go p =>
      simp only [UnlockedLog.step] at hl
      cases hp : s.status p with
      | idle =>
          rw [hp] at hl
          cases hl
      | scan b =>
          rw [hp] at hl
          simp only [go] at hl
          split at hl
          · cases hl
          · split at hl
            · cases hl
            · rw [← Option.some.inj hl]
              exact h.scan hp (halone b hp)
      | store b i =>
          rw [hp] at hl
          rw [← Option.some.inj hl]
          exact h.store_place hp
      | test b i =>
          rw [hp] at hl
          rw [← Option.some.inj hl]
          exact h.leave hp rfl

/-- When all calls have returned their sectors are among the entries. -/
theorem returned (h : Inv before s) (hidle : ∀ p, s.status p = .idle) : s.Kept before := by
  refine ⟨h.nodup, fun b => ⟨h.added b, ?_⟩⟩
  rintro (hb | hb)
  · exact h.old b hb
  · rcases h.kept b hb with hb | ⟨p, hp⟩
    · exact hb
    · rw [hidle p] at hp
      cases hp

end Inv

end UnlockedLog

/-- No sector is lost in a run in which a call that adds its sector scans while no other call adds
one: when all calls have returned, the header holds the sectors that it held and those of all
calls, each once. `log_write` takes no lock, and two calls that have found the end of the array at
the same place store to one entry. -/
theorem log_write_keeps {size n : ℕ} {outstanding : ℤ} {sector : ℕ → ℕ}
    {ls : List UnlockedLog.Label} {s : UnlockedLog}
    (hnodup : (UnlockedLog.init size outstanding n sector).entries.Nodup)
    (halone : RunMeets UnlockedLog.step UnlockedLog.Alone
      (UnlockedLog.init size outstanding n sector) ls)
    (h : run UnlockedLog.step (UnlockedLog.init size outstanding n sector) ls = some s)
    (hidle : ∀ p, s.status p = .idle) :
    s.Kept (UnlockedLog.init size outstanding n sector).entries :=
  (run_invariant_of_meets (UnlockedLog.Inv (UnlockedLog.init size outstanding n sector).entries)
    (fun _ _ _ hs hok hl => hs.step hok hl) (UnlockedLog.Inv.start hnodup) halone
    h).returned hidle

/-- Process 1 calls `log_write` when process 0 has returned. -/
def UnlockedLog.oneByOne : List UnlockedLog.Label :=
  [.call 0 40, .go 0, .go 0, .go 0, .call 1 41, .go 1, .go 1, .go 1]

theorem log_write_keeps_two :
    ∃ s, run UnlockedLog.step (UnlockedLog.init 30 2 0 fun _ => 0) UnlockedLog.oneByOne = some s ∧
      s.Kept (UnlockedLog.init 30 2 0 fun _ => 0).entries := by
  refine ⟨_, rfl, @log_write_keeps 30 0 2 (fun _ => 0) UnlockedLog.oneByOne _ List.nodup_nil ?_ rfl
    ?_⟩
  · have hscan : ∀ (s : UnlockedLog) l, (∀ q, (s.status q).place = none) → s.Alone l := by
      intro s l hs
      cases l with
      | call p b => trivial
      | go p => exact fun b _ _ q hq => by cases (hs q).symm.trans hq
    have hgo : ∀ (s : UnlockedLog) p i, (s.status p).place = some i → s.Alone (.go p) := by
      intro s p i hs b hb
      rw [hb] at hs
      cases hs
    refine ⟨trivial, fun t ht => ?_⟩
    cases ht
    refine ⟨hscan _ _ fun q => ?_, fun t ht => ?_⟩
    · match q with
      | 0 => rfl
      | _ + 1 => rfl
    cases ht
    refine ⟨hgo _ _ 0 rfl, fun t ht => ?_⟩
    cases ht
    refine ⟨hgo _ _ 0 rfl, fun t ht => ?_⟩
    cases ht
    refine ⟨trivial, fun t ht => ?_⟩
    cases ht
    refine ⟨hscan _ _ fun q => ?_, fun t ht => ?_⟩
    · match q with
      | 0 => rfl
      | 1 => rfl
      | _ + 2 => rfl
    cases ht
    refine ⟨hgo _ _ 1 rfl, fun t ht => ?_⟩
    cases ht
    exact ⟨hgo _ _ 1 rfl, fun t ht => trivial⟩
  · intro p
    match p with
    | 0 => rfl
    | 1 => rfl
    | _ + 2 => rfl

/-- Two calls take the same place, and sector 40 is lost. -/
theorem log_write_loses :
    ∃ s, run UnlockedLog.step (UnlockedLog.init 30 2 0 fun _ => 0)
        [.call 0 40, .call 1 41, .go 0, .go 1, .go 0, .go 1, .go 0, .go 1] = some s ∧
      (∀ p, s.status p = .idle) ∧ ¬ s.Kept (UnlockedLog.init 30 2 0 fun _ => 0).entries := by
  refine ⟨_, rfl, ?_, ?_⟩
  · intro p
    match p with
    | 0 => rfl
    | 1 => rfl
    | _ + 2 => rfl
  · intro h
    have hlost := (h.2 40).mpr (.inr (by decide))
    revert hlost
    decide

end Xv6
