import Xv6.Console.Input
import Xv6.Foundation.RingBuffer

/-!
# The console as a line editor

The ring between `input.r` and `input.e` holds what the line editor has committed and then its
line, so the console and the editor take the same steps and their readers get the same bytes.
The counters may wrap: only their differences matter, and `INPUT_BUF` divides `2 ^ 32`.
-/

namespace Xv6

open Foundation

namespace Console

/-- The indices and the ring are as the editor has it, and the readers are the same. -/
structure Ring (s : Console) (x : Editor) : Prop where
  w : s.w = s.r + UInt32.ofNat x.committed.length
  e : s.e = s.w + UInt32.ofNat x.line.length
  room : x.committed.length + x.line.length ≤ INPUT_BUF
  holds : RingHolds s.buf s.r.toNat (x.committed ++ x.line)
  reader : s.reader = x.reader
  killed : s.killed = x.killed
  results : s.results = x.results

/-- Moreover the line is not finished, and a sleeping reader has nothing to read. -/
structure Shows (s : Console) (x : Editor) : Prop extends Ring s x where
  plain : lineFeed ∉ x.line
  awake : ∀ y, x.reader = some y → y.asleep = true → x.committed = []

section Counters

variable {s : Console} {x : Editor} {c : UInt8}

theorem INPUT_BUF_eq : INPUT_BUF = 128 := rfl

/-- The place of the element with number `k` from `r` on. -/
theorem place (r : UInt32) (k : ℕ) :
    Fin.ofNat INPUT_BUF (r + UInt32.ofNat k).toNat = Fin.ofNat INPUT_BUF (r.toNat + k) := by
  refine Fin.ext ?_
  simp only [Fin.ofNat, UInt32.toNat_add, UInt32.toNat_ofNat', INPUT_BUF_eq]
  omega

theorem Ring.e_eq (h : Ring s x) :
    s.e = s.r + UInt32.ofNat (x.committed.length + x.line.length) := by
  rw [h.e, h.w, UInt32.add_assoc, UInt32.ofNat_add]

theorem ofNat_inj {m n : ℕ} (hm : m ≤ INPUT_BUF) (hn : n ≤ INPUT_BUF) :
    UInt32.ofNat m = UInt32.ofNat n ↔ m = n := by
  rw [INPUT_BUF_eq] at hm hn
  rw [← UInt32.toNat_inj, UInt32.toNat_ofNat', UInt32.toNat_ofNat']
  omega

theorem Ring.empty_iff (h : Ring s x) : s.r = s.w ↔ x.committed = [] := by
  have hroom := h.room
  rw [h.w, UInt32.left_eq_add, ← List.length_eq_zero_iff]
  exact ofNat_inj (by omega) (Nat.zero_le _)

theorem Ring.line_iff (h : Ring s x) : s.e = s.w ↔ x.line = [] := by
  have hroom := h.room
  rw [h.e, UInt32.add_eq_left, ← List.length_eq_zero_iff]
  exact ofNat_inj (by omega) (Nat.zero_le _)

theorem Ring.sub (h : Ring s x) :
    s.e - s.r = UInt32.ofNat (x.committed.length + x.line.length) := by
  rw [h.e_eq, UInt32.sub_eq_iff_eq_add, UInt32.add_comm]

/-- There is room when not all places are taken. -/
theorem Ring.room_iff (h : Ring s x) :
    s.e - s.r < UInt32.ofNat INPUT_BUF ↔ x.full = false := by
  have hroom := h.room
  rw [INPUT_BUF_eq] at hroom
  rw [h.sub, UInt32.lt_iff_toNat_lt, UInt32.toNat_ofNat', UInt32.toNat_ofNat', Editor.full,
    decide_eq_false_iff_not, INPUT_BUF_eq]
  omega

theorem Ring.full_iff (h : Ring s x) :
    s.e = s.r + UInt32.ofNat INPUT_BUF ↔ x.full = true := by
  have hroom := h.room
  rw [h.e_eq, UInt32.add_right_inj, Editor.full, decide_eq_true_eq]
  exact ofNat_inj hroom (Nat.le_refl _)

/-- The last character of the line. -/
theorem Ring.last (h : Ring s x) {l : List UInt8} (hl : x.line = l ++ [c]) :
    s.char (s.e - 1) = c ∧ s.e - 1 = s.w + UInt32.ofNat l.length := by
  have he : s.e - 1 = s.w + UInt32.ofNat l.length := by
    rw [h.e, hl, List.length_append, List.length_singleton, UInt32.ofNat_add, UInt32.sub_eq_iff_eq_add,
      UInt32.add_assoc]
    rfl
  refine ⟨?_, he⟩
  have hholds := h.holds
  rw [hl, ← List.append_assoc] at hholds
  have hlast := hholds.last
  rw [List.length_append] at hlast
  rw [char, he, h.w, UInt32.add_assoc, ← UInt32.ofNat_add, place]
  exact hlast

end Counters

section Typing

variable {s : Console} {x : Editor} {c : UInt8}

/-- The last character of the line is erased. -/
theorem Ring.erase (h : Ring s x) (hl : x.line ≠ []) :
    Ring { s with e := s.e - 1 } { x with line := x.line.dropLast } := by
  obtain ⟨l, c, hlc⟩ := (List.eq_nil_or_concat x.line).resolve_left hl
  rw [List.concat_eq_append] at hlc
  have hroom := h.room
  have hholds := h.holds
  rw [hlc, List.dropLast_concat]
  rw [hlc, ← List.append_assoc] at hholds
  rw [hlc, List.length_append] at hroom
  refine ⟨h.w, (h.last hlc).2, ?_, hholds.left, h.reader, h.killed, h.results⟩
  change x.committed.length + l.length ≤ INPUT_BUF
  omega

/-- The line is erased, which has no newline in it. -/
theorem Ring.killLine (h : Ring s x) (hplain : lineFeed ∉ x.line) {k : ℕ}
    (hk : k = x.line.length) : Ring (s.killLine k) { x with line := [] } := by
  induction k generalizing s x with
  | zero =>
      have hnil : x.line = [] := List.length_eq_zero_iff.mp hk.symm
      rw [← hnil]
      exact h
  | succ k ih =>
      have hne : x.line ≠ [] := by
        rintro hnil
        rw [hnil] at hk
        cases hk
      obtain ⟨l, c, hlc⟩ := (List.eq_nil_or_concat x.line).resolve_left hne
      rw [List.concat_eq_append] at hlc
      have hc : s.char (s.e - 1) ≠ lineFeed := by
        rw [(h.last hlc).1]
        rintro rfl
        rw [hlc] at hplain
        exact hplain (List.mem_append_right _ (List.mem_singleton_self _))
      rw [Console.killLine, if_pos ⟨fun he => hne (h.line_iff.mp he), hc⟩]
      have herased := ih (h.erase hne) (fun hmem => hplain (List.mem_of_mem_dropLast hmem)) (by
        rw [List.length_dropLast, ← hk, Nat.add_sub_cancel])
      exact herased

/-- A character is stored when there is room. -/
theorem Ring.store (h : Ring s x) (hroom : x.full = false) (c : UInt8) :
    Ring (s.store c) (x.append c) := by
  have hlt : x.committed.length + x.line.length < INPUT_BUF := by
    rw [Editor.full, decide_eq_false_iff_not] at hroom
    exact lt_of_le_of_ne h.room hroom
  have hpush := h.holds.push (c := c) (by rw [List.length_append]; exact hlt)
  rw [List.append_assoc, List.length_append] at hpush
  refine ⟨h.w, ?_, ?_, ?_, h.reader, h.killed, h.results⟩
  · change s.e + 1 = s.w + UInt32.ofNat (x.line ++ [c]).length
    rw [List.length_append, List.length_singleton, UInt32.ofNat_add, h.e, UInt32.add_assoc]
    rfl
  · change x.committed.length + (x.line ++ [c]).length ≤ INPUT_BUF
    rw [List.length_append, List.length_singleton]
    exact hlt
  · change RingHolds (Function.update s.buf (Fin.ofNat INPUT_BUF s.e.toNat) c) s.r.toNat
      (x.committed ++ (x.line ++ [c]))
    rw [h.e_eq, place]
    exact hpush

theorem Ring.commit (h : Ring s x) : Ring s.commit x.commit := by
  refine ⟨?_, ?_, ?_, ?_, ?_, h.killed, h.results⟩
  · change s.e = s.r + UInt32.ofNat (x.committed ++ x.line).length
    rw [List.length_append]
    exact h.e_eq
  · change s.e = s.e + UInt32.ofNat 0
    exact (UInt32.add_zero _).symm
  · change (x.committed ++ x.line).length + 0 ≤ INPUT_BUF
    rw [List.length_append]
    exact h.room
  · change RingHolds s.buf s.r.toNat (x.committed ++ x.line ++ [])
    rw [List.append_nil]
    exact h.holds
  · change s.reader.map Reading.wakeup = x.reader.map Reading.wakeup
    rw [h.reader]

/-- The reader is woken when a line is finished, so nothing is said of it. -/
theorem Shows.of_commit (h : Ring s x) : Shows s.commit x.commit := by
  refine ⟨h.commit, List.not_mem_nil, ?_⟩
  intro y hy hasleep
  obtain ⟨z, -, rfl⟩ := Option.map_eq_some_iff.mp hy
  cases hasleep

/-- `C('U')` -/
theorem Shows.eraseLine (h : Shows s x) :
    Shows (s.killLine (s.e - s.w).toNat) { x with line := [] } := by
  have hroom := h.room
  rw [INPUT_BUF_eq] at hroom
  have hk : (s.e - s.w).toNat = x.line.length := by
    rw [h.e, UInt32.add_comm, UInt32.add_sub_cancel, UInt32.toNat_ofNat']
    omega
  exact ⟨h.toRing.killLine h.plain hk, List.not_mem_nil, h.awake⟩

theorem Shows.backspace (h : Shows s x) :
    Shows (if s.e ≠ s.w then { s with e := s.e - 1 } else s)
      { x with line := x.line.dropLast } := by
  by_cases hl : x.line = []
  · have hsame : x.line.dropLast = x.line := by
      rw [hl]
      rfl
    rw [if_neg (not_not.mpr (h.line_iff.mpr hl)), hsame]
    exact h
  · rw [if_pos (fun he => hl (h.line_iff.mp he))]
    exact ⟨h.erase hl, fun hmem => h.plain (List.mem_of_mem_dropLast hmem), h.awake⟩

/-- Another character. -/
theorem Shows.add (h : Shows s x) (hroom : x.full = false) (c : UInt8) :
    Shows (if c = lineFeed ∨ c = ctrlD ∨ (s.store c).e = (s.store c).r + UInt32.ofNat INPUT_BUF
        then (s.store c).commit else s.store c)
      (if c = lineFeed ∨ c = ctrlD ∨ (x.append c).full then (x.append c).commit
        else x.append c) := by
  have hstore := h.toRing.store hroom c
  by_cases hend : c = lineFeed ∨ c = ctrlD ∨ (x.append c).full = true
  · rw [if_pos hend, if_pos (by rw [hstore.full_iff]; exact hend)]
    exact .of_commit hstore
  · rw [if_neg hend, if_neg (by rw [hstore.full_iff]; exact hend)]
    refine ⟨hstore, fun hmem => ?_, h.awake⟩
    rcases List.mem_append.mp hmem with hmem | hmem
    · exact h.plain hmem
    · exact hend (.inl (List.mem_singleton.mp hmem).symm)

/-- A character is typed. -/
theorem Shows.intrChar (h : Shows s x) (c : UInt8) : Shows (s.intrChar c) (x.type c) := by
  unfold Console.intrChar Editor.type
  by_cases hP : c = ctrlP
  · rw [if_pos hP, if_pos (.inr hP)]
    exact h
  by_cases h0 : c = 0
  · have hU : ¬ c = ctrlU := by
      rw [h0]
      decide
    have hH : ¬ (c = ctrlH ∨ c = del) := by
      rw [h0]
      decide
    rw [if_neg hP, if_neg hU, if_neg hH, if_neg (fun hc => hc.1 h0), if_pos (.inl h0)]
    exact h
  rw [if_neg hP, if_neg (not_or.mpr ⟨h0, hP⟩)]
  by_cases hU : c = ctrlU
  · rw [if_pos hU, if_pos hU]
    exact h.eraseLine
  rw [if_neg hU, if_neg hU]
  by_cases hH : c = ctrlH ∨ c = del
  · rw [if_pos hH, if_pos hH]
    exact h.backspace
  rw [if_neg hH, if_neg hH]
  cases hfull : x.full with
  | true =>
      rw [if_pos rfl, if_neg]
      · exact h
      · rintro ⟨-, hlt⟩
        cases hfull.symm.trans (h.room_iff.mp hlt)
  | false =>
      rw [if_neg Bool.false_ne_true, if_pos ⟨h0, h.room_iff.mpr hfull⟩]
      exact h.add hfull _

/-- A call of `consoleintr`. -/
theorem Shows.consoleintr {cs : List UInt8} (h : Shows s x) :
    Shows (s.consoleintr cs) (cs.foldl Editor.type x) := by
  induction cs generalizing s x with
  | nil => exact h
  | cons c cs ih => exact ih (h.intrChar c)

end Typing

section Reading

variable {s : Console} {x : Editor}

/-- A character is read. -/
theorem Ring.next {c : UInt8} {cs : List UInt8} (h : Ring s { x with committed := c :: cs }) :
    Ring { s with r := s.r + 1 } { x with committed := cs } := by
  have hroom := h.room
  refine ⟨?_, h.e, (Nat.le_succ _).trans ((Nat.succ_add _ _).symm.le.trans hroom), ?_, h.reader,
    h.killed, h.results⟩
  · change s.w = s.r + 1 + UInt32.ofNat cs.length
    rw [h.w, List.length_cons, Nat.add_comm, UInt32.ofNat_add, ← UInt32.add_assoc]
    rfl
  · refine h.holds.tail.congr ?_
    change (s.r.toNat + 1) % INPUT_BUF = (s.r + 1).toNat % INPUT_BUF
    have hplace := congrArg Fin.val (place s.r 1)
    exact hplace.symm

/-- The loop of a read, when the editor has the characters `cs` for it. -/
theorem Ring.readLoop {target n : ℕ} {dst cs : List UInt8}
    (h : Ring s { x with committed := cs }) :
    Ring (readLoop target n dst s) (x.read target n dst cs) := by
  induction n generalizing s dst cs with
  | zero =>
      refine ⟨h.w, h.e, h.room, h.holds, rfl, h.killed, ?_⟩
      change s.results ++ _ = x.results ++ _
      rw [h.results]
  | succ n ih =>
      cases cs with
      | nil =>
          rw [Console.readLoop, if_pos (h.empty_iff.mpr rfl), Editor.read, h.killed]
          by_cases hkilled : x.killed = true
          · rw [if_pos hkilled, if_pos hkilled]
            refine ⟨h.w, h.e, h.room, h.holds, rfl, h.killed, ?_⟩
            change s.results ++ _ = x.results ++ _
            rw [h.results]
          · rw [if_neg hkilled, if_neg hkilled]
            exact ⟨h.w, h.e, h.room, h.holds, rfl, h.killed, h.results⟩
      | cons c cs =>
          have hne : s.r ≠ s.w := fun he => List.cons_ne_nil _ _ (h.empty_iff.mp he)
          have hc : s.char s.r = c := h.holds.head
          have hnext : Ring { s with r := s.r + 1 } { x with committed := cs } := h.next
          rw [Console.readLoop, if_neg hne, Editor.read, hc]
          by_cases hD : c = ctrlD
          · rw [if_pos hD, if_pos hD]
            by_cases hn : n + 1 < target
            · rw [if_pos hn, if_pos hn]
              simp only [UInt32.add_sub_cancel]
              refine ⟨h.w, h.e, h.room, h.holds, rfl, h.killed, ?_⟩
              change s.results ++ _ = x.results ++ _
              rw [h.results]
            · rw [if_neg hn, if_neg hn]
              refine ⟨hnext.w, hnext.e, hnext.room, hnext.holds, rfl, hnext.killed, ?_⟩
              change s.results ++ _ = x.results ++ _
              rw [h.results]
          · rw [if_neg hD, if_neg hD]
            by_cases hN : c = lineFeed
            · rw [if_pos hN, if_pos hN]
              refine ⟨hnext.w, hnext.e, hnext.room, hnext.holds, rfl, hnext.killed, ?_⟩
              change s.results ++ _ = x.results ++ _
              rw [h.results]
            · rw [if_neg hN, if_neg hN]
              exact ih hnext

/-- After a read that does not return there is nothing to read. -/
theorem read_awake {target n : ℕ} {dst cs : List UInt8} {y : Reading}
    (hy : (x.read target n dst cs).reader = some y) :
    (x.read target n dst cs).committed = [] := by
  induction n generalizing dst cs with
  | zero => cases hy
  | succ n ih =>
      cases cs with
      | nil =>
          rw [Editor.read] at hy ⊢
          split at hy
          · cases hy
          · rw [if_neg ‹_›]
      | cons c cs =>
          rw [Editor.read] at hy ⊢
          split at hy
          · cases hy
          · split at hy
            · cases hy
            · rw [if_neg ‹_›, if_neg ‹_›]
              exact ih hy

theorem read_line {target n : ℕ} {dst cs : List UInt8} :
    (x.read target n dst cs).line = x.line := by
  induction n generalizing dst cs with
  | zero => rfl
  | succ n ih =>
      cases cs with
      | nil =>
          rw [Editor.read]
          split
          · rfl
          · rfl
      | cons c cs =>
          rw [Editor.read]
          split
          · rfl
          · split
            · rfl
            · exact ih

theorem Shows.readLoop (h : Shows s x) (target n : ℕ) (dst : List UInt8) :
    Shows (readLoop target n dst s) (x.read target n dst x.committed) := by
  refine ⟨h.toRing.readLoop, ?_, fun y hy _ => read_awake hy⟩
  rw [read_line]
  exact h.plain

/-- The console and the editor take the same steps. -/
theorem Shows.step (h : Shows s x) (l : ConsoleLabel) :
    Option.Rel Shows (s.step l) (x.step l) := by
  have hreader := h.reader
  cases l with
  | intr cs => exact .some h.consoleintr
  | read n =>
      rw [Console.step, Editor.step, hreader]
      cases hx : x.reader with
      | some y => exact .none
      | none =>
          rw [hx] at hreader
          have hlive : Shows { s with reader := none, killed := false }
              { x with reader := none, killed := false } :=
            ⟨⟨h.w, h.e, h.room, h.holds, rfl, rfl, h.results⟩, h.plain, fun y hy => by cases hy⟩
          exact .some (hlive.readLoop n n [])
  | resume =>
      rw [Console.step, Editor.step, hreader]
      cases hx : x.reader with
      | none => exact .none
      | some y =>
          change Option.Rel Shows (if y.asleep then none else _) (if y.asleep then none else _)
          cases y.asleep with
          | true => exact .none
          | false => exact .some (h.readLoop y.target y.n y.dst)
  | kill =>
      rw [Console.step, Editor.step, hreader]
      cases hx : x.reader with
      | none => exact .none
      | some y =>
          refine .some ⟨⟨h.w, h.e, h.room, h.holds, rfl, rfl, h.results⟩, h.plain, ?_⟩
          intro z hz hasleep
          rw [← Option.some.inj hz] at hasleep
          cases hasleep

theorem shows_init (k : UInt32) : Shows (init k) Editor.init where
  w := (UInt32.add_zero k).symm
  e := (UInt32.add_zero k).symm
  room := Nat.zero_le _
  holds := .nil
  reader := rfl
  killed := rfl
  results := rfl
  plain := List.not_mem_nil
  awake := fun _ _ _ => rfl

/-- The order of the indices. -/
theorem Ring.ordered (h : Ring s x) :
    s.w - s.r ≤ s.e - s.r ∧ s.e - s.r ≤ UInt32.ofNat INPUT_BUF := by
  have hroom := h.room
  rw [INPUT_BUF_eq] at hroom
  have hw : s.w - s.r = UInt32.ofNat x.committed.length := by
    rw [h.w, UInt32.sub_eq_iff_eq_add, UInt32.add_comm]
  rw [hw, h.sub, UInt32.le_iff_toNat_le, UInt32.le_iff_toNat_le, UInt32.toNat_ofNat',
    UInt32.toNat_ofNat', UInt32.toNat_ofNat', INPUT_BUF_eq]
  omega

end Reading

end Console

structure ConsoleOk (s : Console) (x : Editor) : Prop where
  /-- the indices are in order -/
  ordered : s.w - s.r ≤ s.e - s.r ∧ s.e - s.r ≤ UInt32.ofNat INPUT_BUF
  /-- what has been typed and has not been read is in the buffer -/
  kept : RingHolds s.buf s.r.toNat (x.committed ++ x.line)
  /-- the calls of `consoleread` have returned the same bytes -/
  results : s.results = x.results
  /-- the call that has not returned has the same bytes, and both sleep or neither does -/
  reader : s.reader = x.reader
  /-- no call sleeps while there is something for it -/
  awake : ∀ y, s.reader = some y → y.asleep = true → s.r = s.w

/-- The console takes the same steps as the line editor, and its readers get the same: in every
run of key strokes and of reads, from any start index, also one at which the three indices of
`input` wrap. Where the editor has a list of lines and the line being edited, the console has the
ring of `INPUT_BUF` characters between `r`, `w` and `e`. -/
theorem console_edits_lines (k : UInt32) (ls : List ConsoleLabel) :
    Option.Rel ConsoleOk (run Console.step (Console.init k) ls) (run Editor.step Editor.init ls) := by
  have hrel : Option.Rel Console.Shows (run Console.step (Console.init k) ls)
      (run Editor.step Editor.init ls) :=
    run_rel (fun _ _ l h => h.step l) (Console.shows_init k)
  generalize run Console.step (Console.init k) ls = o, run Editor.step Editor.init ls = o' at hrel ⊢
  cases hrel with
  | none => exact .none
  | some h =>
      refine .some ⟨h.ordered, h.holds, h.results, h.reader, ?_⟩
      intro y hy hasleep
      rw [h.reader] at hy
      exact h.empty_iff.mpr (h.awake y hy hasleep)

end Xv6
