import Xv6.Foundation.Letters
import Xv6.User.Grep

/-!
# The language of a pattern

`match` of `grep.c` with pointers: a pointer into a string is a position in it, and the
position of its length holds the NUL. A load behind the NUL stops the program, as does a
call for which no fuel is left. With enough fuel the functions do what those on lists do,
and these find exactly the words of the language that the items of the pattern denote.
-/

namespace Xv6

open Foundation
open scoped Computability

/-! ### The functions with pointers -/

namespace Regexp

inductive Stop where
  /-- a load behind the terminator -/
  | past
  /-- not enough fuel -/
  | deep
  deriving DecidableEq

/-- `s[i]` -/
def char (s : List UInt8) (i : ℕ) : Except Stop UInt8 :=
  if h : i < s.length then .ok s[i] else if i = s.length then .ok 0 else .error .past

mutual

def matchhere (re text : List UInt8) : ℕ → ℕ → ℕ → Except Stop Bool
  | 0, _, _ => .error .deep
  | fuel + 1, i, j => do
      let r ← char re i
      if r = 0 then return true
      let r' ← char re (i + 1)
      if r' = 42 then matchstar re text fuel r (i + 2) j
      else do
        let x ← char text j
        if r = 36 ∧ r' = 0 then return x = 0
        if x ≠ 0 ∧ (r = 46 ∨ r = x) then matchhere re text fuel (i + 1) (j + 1)
        else return false

def matchstar (re text : List UInt8) : ℕ → UInt8 → ℕ → ℕ → Except Stop Bool
  | 0, _, _, _ => .error .deep
  | fuel + 1, c, i, j => do
      if ← matchhere re text fuel i j then return true
      let x ← char text j
      if x ≠ 0 ∧ (x = c ∨ c = 46) then matchstar re text fuel c i (j + 1)
      else return false

end

/-- The loop of `match` from `text + j` on. -/
def matchLoop (re text : List UInt8) : ℕ → ℕ → Except Stop Bool
  | 0, _ => .error .deep
  | fuel + 1, j => do
      if ← matchhere re text fuel 0 j then return true
      if (← char text j) ≠ 0 then matchLoop re text fuel (j + 1) else return false

def «match» (re text : List UInt8) (fuel : ℕ) : Except Stop Bool := do
  if (← char re 0) = 94 then matchhere re text fuel 1 0
  else matchLoop re text fuel 0

variable {s re text : List UInt8} {i j fuel : ℕ} {c : UInt8}

theorem char_eq (h : i ≤ s.length) : char s i = .ok ((s.drop i).headD 0) := by
  rw [char]
  split_ifs with hlt heq
  · rw [List.drop_eq_getElem_cons hlt]
    rfl
  · rw [heq, List.drop_length]
    rfl
  · omega

theorem drop_succ_of_drop {r : List UInt8} (h : s.drop i = c :: r) :
    i < s.length ∧ s.drop (i + 1) = r ∧ c ∈ s := by
  have hlt : i < s.length := by
    by_contra hle
    rw [List.drop_eq_nil_of_le (not_lt.mp hle)] at h
    cases h
  rw [List.drop_eq_getElem_cons hlt] at h
  obtain ⟨rfl, hr⟩ := List.cons.inj h
  exact ⟨hlt, hr, List.getElem_mem hlt⟩

/-! ### Enough fuel -/

theorem matchhere_nil (h : re.drop i = []) (hi : i ≤ re.length) :
    matchhere re text (fuel + 1) i j = .ok true := by
  rw [matchhere, char_eq hi, h]
  rfl

theorem matchhere_cons {r : List UInt8} (h : re.drop i = c :: r) (hc : c ≠ 0) :
    matchhere re text (fuel + 1) i j =
      if r.headD 0 = 42 then matchstar re text fuel c (i + 2) j
      else (char text j >>= fun x =>
        if c = 36 ∧ r.headD 0 = 0 then .ok (x = 0)
        else if x ≠ 0 ∧ (c = 46 ∨ c = x) then matchhere re text fuel (i + 1) (j + 1)
        else .ok false) := by
  obtain ⟨hlt, hr, -⟩ := drop_succ_of_drop h
  rw [matchhere, char_eq hlt.le, h, char_eq hlt, hr]
  change (if c = 0 then _ else _) = _
  rw [if_neg hc]
  rfl

theorem headD_eq_zero_iff {r : List UInt8} (hr : 0 ∉ r) : r.headD 0 = 0 ↔ r = [] := by
  cases r with
  | nil => exact iff_of_true rfl rfl
  | cons c r =>
      refine iff_of_false (fun hc => hr ?_) (List.cons_ne_nil c r)
      rw [← hc]
      exact List.mem_cons_self

theorem matchstar_succ (hj : j ≤ text.length) :
    matchstar re text (fuel + 1) c i j =
      (matchhere re text fuel i j >>= fun found =>
        if found then .ok true
        else if (text.drop j).headD 0 ≠ 0 ∧ ((text.drop j).headD 0 = c ∨ c = 46) then
          matchstar re text fuel c i (j + 1)
        else .ok false) := by
  rw [matchstar, char_eq hj]
  rfl

end Regexp

/-! ### The functions on lists -/

theorem matchhere_star (c : UInt8) (re text : List UInt8) :
    matchhere (c :: 42 :: re) text = matchstar (matchhere re) c text := by
  rw [matchhere]

theorem matchhere_end (text : List UInt8) : matchhere [36] text = text.isEmpty := by
  rw [matchhere]

section Char

variable {c : UInt8} {re : List UInt8}

theorem matchhere_char_nil (hstar : re.headD 0 ≠ 42) (hend : ¬ (c = 36 ∧ re = [])) :
    matchhere (c :: re) [] = false := by
  rw [matchhere.eq_def]
  split
  · rename_i heq
    cases heq
  · rename_i heq
    cases heq
    exact absurd rfl hstar
  · rename_i heq
    cases heq
    exact absurd ⟨rfl, rfl⟩ hend
  · rfl

theorem matchhere_char_cons {x : UInt8} {text : List UInt8} (hstar : re.headD 0 ≠ 42)
    (hend : ¬ (c = 36 ∧ re = [])) :
    matchhere (c :: re) (x :: text) = ((c = 46 || c = x) && matchhere re text) := by
  rw [matchhere.eq_def]
  split
  · rename_i heq
    cases heq
  · rename_i heq
    cases heq
    exact absurd rfl hstar
  · rename_i heq
    cases heq
    exact absurd ⟨rfl, rfl⟩ hend
  · rename_i heq
    cases heq
    rfl

end Char

namespace Regexp

variable {re text : List UInt8}

/-- With fuel for the characters that are left of both strings, `matchhere` and `matchstar`
load nothing behind the terminators and do what they do on lists. -/
theorem refines (hre : 0 ∉ re) (htext : 0 ∉ text) (fuel : ℕ) :
    (∀ i j, i ≤ re.length → j ≤ text.length →
      re.length - i + (text.length - j) + 1 ≤ fuel →
      matchhere re text fuel i j = .ok (Xv6.matchhere (re.drop i) (text.drop j))) ∧
    ∀ c i j, i ≤ re.length → j ≤ text.length →
      re.length - i + (text.length - j) + 2 ≤ fuel →
      matchstar re text fuel c i j =
        .ok (Xv6.matchstar (Xv6.matchhere (re.drop i)) c (text.drop j)) := by
  induction fuel with
  | zero => exact ⟨fun i j _ _ h => by omega, fun c i j _ _ h => by omega⟩
  | succ fuel ih =>
      obtain ⟨here, star⟩ := ih
      refine ⟨fun i j hi hj hfuel => ?_, fun c i j hi hj hfuel => ?_⟩
      · cases hr : re.drop i with
        | nil =>
            rw [matchhere_nil hr hi]
            rfl
        | cons c r =>
            obtain ⟨hlt, hr', hmem⟩ := drop_succ_of_drop hr
            have hnul : 0 ∉ r := fun h0 => hre (List.mem_of_mem_drop (hr' ▸ h0))
            rw [matchhere_cons hr fun hc => hre (hc ▸ hmem)]
            by_cases hstar : r.headD 0 = 42
            · cases r with
              | nil => cases hstar
              | cons y r =>
                  obtain ⟨hlt', hr'', -⟩ := drop_succ_of_drop hr'
                  have hy : y = 42 := hstar
                  subst hy
                  rw [if_pos hstar, star c (i + 2) j (by omega) hj (by omega), hr'',
                    matchhere_star]
            · rw [if_neg hstar, char_eq hj]
              change (if _ then _ else if _ then _ else _) = _
              have hend : c = 36 ∧ r.headD 0 = 0 ↔ c = 36 ∧ r = [] :=
                and_congr_right fun _ => headD_eq_zero_iff hnul
              cases ht : text.drop j with
              | nil =>
                  by_cases hlast : c = 36 ∧ r = []
                  · rw [if_pos (hend.mpr hlast), hlast.1, hlast.2, matchhere_end]
                    rfl
                  · rw [if_neg (mt hend.mp hlast), matchhere_char_nil hstar hlast, if_neg]
                    exact fun hx => hx.1 rfl
              | cons x t =>
                  obtain ⟨hlt', ht', hx⟩ := drop_succ_of_drop ht
                  have hx' : x ≠ 0 := fun h0 => htext (h0 ▸ hx)
                  by_cases hlast : c = 36 ∧ r = []
                  · rw [if_pos (hend.mpr hlast), hlast.1, hlast.2, matchhere_end]
                    exact congrArg _ (decide_eq_false hx')
                  · rw [if_neg (mt hend.mp hlast), matchhere_char_cons hstar hlast,
                      here (i + 1) (j + 1) (by omega) (by omega) (by omega), hr', ht']
                    change (if x ≠ 0 ∧ (c = 46 ∨ c = x) then _ else _) = _
                    by_cases hchar : c = 46 ∨ c = x
                    · rw [if_pos ⟨hx', hchar⟩]
                      have htrue : (c = 46 || c = x) = true := by simpa using hchar
                      rw [htrue, Bool.true_and]
                    · rw [if_neg fun h => hchar h.2]
                      have hfalse : (c = 46 || c = x) = false := by simpa using hchar
                      rw [hfalse, Bool.false_and]
      · rw [matchstar_succ hj, here i j hi hj (by omega)]
        change (if _ then _ else if _ then _ else _) = _
        cases ht : text.drop j with
        | nil =>
            rw [Xv6.matchstar]
            cases Xv6.matchhere (re.drop i) [] <;> rfl
        | cons x t =>
            obtain ⟨hlt', ht', hx⟩ := drop_succ_of_drop ht
            have hx' : x ≠ 0 := fun h0 => htext (h0 ▸ hx)
            rw [Xv6.matchstar, star c i (j + 1) hi (by omega) (by omega), ht']
            cases Xv6.matchhere (re.drop i) (x :: t) with
            | true => rfl
            | false =>
                change (if x ≠ 0 ∧ (x = c ∨ c = 46) then _ else _) = _
                by_cases hchar : x = c ∨ c = 46
                · rw [if_pos ⟨hx', hchar⟩]
                  have htrue : (x = c || c = 46) = true := by simpa using hchar
                  rw [htrue, Bool.true_and, Bool.false_or]
                · rw [if_neg fun h => hchar h.2]
                  have hfalse : (x = c || c = 46) = false := by simpa using hchar
                  rw [hfalse, Bool.false_and, Bool.false_or]

theorem matchLoop_eq (hre : 0 ∉ re) (htext : 0 ∉ text) {fuel j : ℕ} (hj : j ≤ text.length)
    (hfuel : re.length + (text.length - j) + 2 ≤ fuel) :
    matchLoop re text fuel j = .ok (Xv6.matchLoop re (text.drop j)) := by
  induction fuel generalizing j with
  | zero => omega
  | succ fuel ih =>
      rw [matchLoop, (refines hre htext fuel).1 0 j (Nat.zero_le _) hj (by omega), List.drop_zero,
        char_eq hj]
      change (if _ then _ else if _ then _ else _) = _
      cases ht : text.drop j with
      | nil =>
          rw [Xv6.matchLoop]
          cases Xv6.matchhere re [] <;> rfl
      | cons x t =>
          obtain ⟨hlt, ht', hx⟩ := drop_succ_of_drop ht
          have hx' : x ≠ 0 := fun h0 => htext (h0 ▸ hx)
          rw [Xv6.matchLoop, ih hlt (by omega), ht']
          cases Xv6.matchhere re (x :: t) with
          | true => rfl
          | false => exact if_pos hx'

/-- With enough fuel `match` does what it does on lists. -/
theorem match_eq (hre : 0 ∉ re) (htext : 0 ∉ text) {fuel : ℕ}
    (hfuel : re.length + text.length + 2 ≤ fuel) :
    «match» re text fuel = .ok (Xv6.«match» re text) := by
  rw [«match», char_eq (Nat.zero_le _), List.drop_zero]
  change (if re.headD 0 = 94 then _ else _) = _
  by_cases h : re.headD 0 = 94
  · cases re with
    | nil => cases h
    | cons c r =>
        have hc : c = 94 := h
        subst hc
        rw [if_pos h, (refines hre htext fuel).1 1 0 (Nat.succ_pos _) (Nat.zero_le _)]
        · rfl
        · rw [List.length_cons] at hfuel ⊢
          omega
  · rw [if_neg h, matchLoop_eq hre htext (Nat.zero_le _) hfuel, List.drop_zero, Xv6.«match»]
    rintro r rfl
    exact h rfl

end Regexp

/-! ### The language of a pattern -/

inductive Item where
  /-- the character `c`, or any character if `c` is a point -/
  | one (c : UInt8)
  /-- `c*` -/
  | star (c : UInt8)
  /-- `$`, the end of the text -/
  | eot
  deriving DecidableEq

/-- A pattern is read from left to right. -/
def items : List UInt8 → List Item
  | [] => []
  | c :: 42 :: re => .star c :: items re
  | [36] => [.eot]
  | c :: re => .one c :: items re

namespace Item

def chars (c : UInt8) : Set UInt8 := {x | c = 46 ∨ x = c}

/-- The words that an item stands for. -/
def lang : Item → Language UInt8
  | .one c => letters (chars c)
  | .star c => (letters (chars c))∗
  | .eot => 1

end Item

/-- The words that a list of items stands for. -/
def lang (its : List Item) : Language UInt8 := (its.map Item.lang).prod

/-- A word of the items is at the beginning of the text; it is the whole text if the end is
asked for. -/
def Here (its : List Item) (text : List UInt8) : Prop :=
  ∃ w rest, w ++ rest = text ∧ w ∈ lang its ∧ (.eot ∈ its → rest = [])

/-- `match` should find the pattern in the text: at its beginning after `^`, somewhere
otherwise. -/
def Occurs (re text : List UInt8) : Prop :=
  if re.headD 0 = 94 then Here (items re.tail) text
  else ∃ before text', before ++ text' = text ∧ Here (items re) text'

section Here

variable {c : UInt8} {its : List Item} {text : List UInt8}

theorem lang_nil : lang [] = 1 := rfl

theorem lang_cons {it : Item} : lang (it :: its) = it.lang * lang its := by
  rw [lang, List.map_cons, List.prod_cons, lang]

theorem here_nil : Here [] text :=
  ⟨[], text, rfl, Language.nil_mem_one, fun h => absurd h List.not_mem_nil⟩

theorem here_eot : Here [.eot] text ↔ text = [] := by
  constructor
  · rintro ⟨w, rest, rfl, hw, hrest⟩
    rw [lang_cons, lang_nil, mul_one] at hw
    rw [hrest List.mem_cons_self, (Language.mem_one w).mp hw]
    rfl
  · rintro rfl
    refine ⟨[], [], rfl, ?_, fun _ => rfl⟩
    rw [lang_cons, lang_nil, mul_one]
    exact Language.nil_mem_one

theorem here_one : Here (.one c :: its) text ↔
    ∃ x rest, text = x :: rest ∧ x ∈ Item.chars c ∧ Here its rest := by
  have heot : Item.eot ∈ Item.one c :: its ↔ Item.eot ∈ its := by simp
  constructor
  · rintro ⟨w, rest, rfl, hw, hrest⟩
    rw [lang_cons] at hw
    obtain ⟨x, u, hx, hu, rfl⟩ := mem_letters_mul.mp hw
    exact ⟨x, u ++ rest, rfl, hx, u, rest, rfl, hu, fun h => hrest (heot.mpr h)⟩
  · rintro ⟨x, _, rfl, hx, u, rest, rfl, hu, hrest⟩
    refine ⟨x :: u, rest, rfl, ?_, fun h => hrest (heot.mp h)⟩
    rw [lang_cons]
    exact mem_letters_mul.mpr ⟨x, u, hx, hu, rfl⟩

theorem here_star : Here (.star c :: its) text ↔
    ∃ u rest, u ++ rest = text ∧ (∀ x ∈ u, x ∈ Item.chars c) ∧ Here its rest := by
  have heot : Item.eot ∈ Item.star c :: its ↔ Item.eot ∈ its := by simp
  constructor
  · rintro ⟨w, rest, rfl, hw, hrest⟩
    rw [lang_cons] at hw
    obtain ⟨u, hu, v, hv, rfl⟩ := Language.mem_mul.mp hw
    exact ⟨u, v ++ rest, (List.append_assoc ..).symm, mem_kstar_letters.mp hu, v, rest, rfl, hv,
      fun h => hrest (heot.mpr h)⟩
  · rintro ⟨u, _, rfl, hu, v, rest, rfl, hv, hrest⟩
    refine ⟨u ++ v, rest, List.append_assoc .., ?_, fun h => hrest (heot.mp h)⟩
    rw [lang_cons]
    exact Language.mem_mul.mpr ⟨u, mem_kstar_letters.mpr hu, v, hv, rfl⟩

/-- `matchstar` tries the rest after each number of characters that `c` stands for. -/
theorem matchstar_iff {here : List UInt8 → Bool} : matchstar here c text = true ↔
    ∃ u rest, u ++ rest = text ∧ (∀ x ∈ u, x ∈ Item.chars c) ∧ here rest = true := by
  induction text with
  | nil =>
      rw [matchstar]
      constructor
      · intro h
        exact ⟨[], [], rfl, fun x hx => absurd hx List.not_mem_nil, h⟩
      · rintro ⟨u, rest, hnil, -, h⟩
        rwa [(List.append_eq_nil_iff.mp hnil).2] at h
  | cons x text ih =>
      rw [matchstar, Bool.or_eq_true, Bool.and_eq_true, ih]
      have hchar : (x = c || c = 46) = true ↔ x ∈ Item.chars c := by
        rw [Bool.or_eq_true, decide_eq_true_eq, decide_eq_true_eq]
        exact or_comm
      rw [hchar]
      constructor
      · intro h
        cases h with
        | inl h => exact ⟨[], x :: text, rfl, fun y hy => absurd hy List.not_mem_nil, h⟩
        | inr h =>
            obtain ⟨hx, u, rest, rfl, hu, h⟩ := h
            exact ⟨x :: u, rest, rfl, List.forall_mem_cons.mpr ⟨hx, hu⟩, h⟩
      · rintro ⟨u, rest, heq, hu, h⟩
        cases u with
        | nil =>
            cases heq
            exact .inl h
        | cons y u =>
            cases heq
            obtain ⟨hy, hu⟩ := List.forall_mem_cons.mp hu
            exact .inr ⟨hy, u, rest, rfl, hu, h⟩

end Here

/-- `matchhere` finds the words of the items at the beginning of the text. -/
theorem matchhere_iff {re text : List UInt8} :
    matchhere re text = true ↔ Here (items re) text := by
  induction re using items.induct generalizing text with
  | case1 => exact iff_of_true rfl here_nil
  | case2 c re ih =>
      rw [matchhere_star, items, here_star, matchstar_iff]
      simp only [ih]
  | case3 =>
      rw [matchhere_end, List.isEmpty_iff]
      exact here_eot.symm
  | case4 c re hstar hend ih =>
      have hstar' : re.headD 0 ≠ 42 := by
        intro h
        cases re with
        | nil => cases h
        | cons y r => exact hstar r (congrArg (· :: r) h)
      have hend' : ¬ (c = 36 ∧ re = []) := fun h => hend h.1 h.2
      have hitems : items (c :: re) = .one c :: items re := by
        rw [items]
        · exact hstar
        · exact hend
      rw [hitems, here_one]
      cases text with
      | nil =>
          rw [matchhere_char_nil hstar' hend']
          refine iff_of_false Bool.false_ne_true fun ⟨x, rest, h, _⟩ => ?_
          cases h
      | cons x text =>
          rw [matchhere_char_cons hstar' hend', Bool.and_eq_true, Bool.or_eq_true,
            decide_eq_true_eq, decide_eq_true_eq, ih]
          constructor
          · rintro ⟨hchar, hrest⟩
            exact ⟨x, text, rfl, hchar.imp_right Eq.symm, hrest⟩
          · rintro ⟨y, rest, h, hchar, hrest⟩
            cases h
            exact ⟨hchar.imp_right Eq.symm, hrest⟩

theorem matchLoop_iff {re text : List UInt8} : matchLoop re text = true ↔
    ∃ before text', before ++ text' = text ∧ Here (items re) text' := by
  induction text with
  | nil =>
      rw [matchLoop, matchhere_iff]
      constructor
      · intro h
        exact ⟨[], [], rfl, h⟩
      · rintro ⟨before, text', hnil, h⟩
        rwa [(List.append_eq_nil_iff.mp hnil).2] at h
  | cons x text ih =>
      rw [matchLoop, Bool.or_eq_true, matchhere_iff, ih]
      constructor
      · intro h
        cases h with
        | inl h => exact ⟨[], x :: text, rfl, h⟩
        | inr h =>
            obtain ⟨before, text', rfl, h⟩ := h
            exact ⟨x :: before, text', rfl, h⟩
      · rintro ⟨before, text', heq, h⟩
        cases before with
        | nil =>
            cases heq
            exact .inl h
        | cons y before =>
            cases heq
            exact .inr ⟨before, text', rfl, h⟩

/-- On lists `match` finds exactly what occurs. -/
theorem match_iff {re text : List UInt8} : «match» re text = true ↔ Occurs re text := by
  rw [Occurs]
  by_cases h : re.headD 0 = 94
  · cases re with
    | nil => cases h
    | cons c r =>
        have hc : c = 94 := h
        subst hc
        rw [if_pos h]
        exact matchhere_iff
  · rw [if_neg h, ← matchLoop_iff, «match»]
    rintro r rfl
    exact h rfl

/-- For strings without NUL in them, `match` ends, loads nothing behind the terminators, and
answers whether the pattern occurs in the text. -/
theorem match_correct {re text : List UInt8} (hre : 0 ∉ re) (htext : 0 ∉ text) :
    ∃ found : Bool,
      (∀ fuel, re.length + text.length + 2 ≤ fuel →
        Regexp.«match» re text fuel = .ok found) ∧
      (found = true ↔ Occurs re text) :=
  ⟨«match» re text, fun _ hfuel => Regexp.match_eq hre htext hfuel, match_iff⟩

/-- The pattern `^a.*$` in the text `ab`. -/
theorem match_correct_line : Occurs [94, 97, 46, 42, 36] [97, 98] := by
  obtain ⟨found, hfound, hiff⟩ :=
    @match_correct [94, 97, 46, 42, 36] [97, 98] (by decide) (by decide)
  have htrue : Regexp.«match» [94, 97, 46, 42, 36] [97, 98] 9 = .ok true := by decide
  have hsame := (hfound 9 (by decide)).symm.trans htrue
  cases hsame
  exact hiff.mp rfl

end Xv6
