import Xv6.User.Grep
import Mathlib.Data.List.Forall2

/-!
# The lines that `grep` prints

`grep` is right when every `read` brings at least the end of a line, at most 1023 bytes are in
`buf` then, and behind them `strchr` comes to a `NUL` before it comes to an old newline. The
pattern that matches everything shows that nothing less will do.
-/

namespace Xv6

open Foundation GrepM

/-- What `grep` is to print. -/
def matching (pattern input : List UInt8) : List UInt8 :=
  unlines newline ((cut newline input).1.filter («match» pattern))

/-- A `NUL` comes before the first newline. -/
def Ended : List UInt8 → Prop
  | [] => False
  | x :: s => x = 0 ∨ x ≠ newline ∧ Ended s

instance decidableEnded : DecidablePred Ended
  | [] => inferInstanceAs (Decidable False)
  | x :: s =>
      have := decidableEnded s
      inferInstanceAs (Decidable (x = 0 ∨ x ≠ newline ∧ Ended s))

/-- Every `read` brings the end of a line and leaves room, and what is behind the text then is
ended. Here `rest` is the beginning of a line that is in `buf` already, and `old` is what `buf`
holds. -/
def ReadsFit (rest old : List UInt8) : List (List UInt8) → Prop
  | [] => True
  | c :: cs =>
      newline ∈ c ∧ (rest ++ c).length < GREPBUF ∧ Ended (old.drop (rest ++ c).length) ∧
        ReadsFit (cut newline (rest ++ c)).2 (rest ++ c ++ old.drop (rest ++ c).length) cs

instance decidableReadsFit : ∀ rest old cs, Decidable (ReadsFit rest old cs)
  | _, _, [] => inferInstanceAs (Decidable True)
  | rest, old, c :: cs =>
      have := decidableReadsFit (cut newline (rest ++ c)).2
        (rest ++ c ++ old.drop (rest ++ c).length) cs
      inferInstanceAs (Decidable (newline ∈ c ∧ (rest ++ c).length < GREPBUF ∧
        Ended (old.drop (rest ++ c).length) ∧ ReadsFit (cut newline (rest ++ c)).2
          (rest ++ c ++ old.drop (rest ++ c).length) cs))

/-- The lines as they are in `buf` when they have been tried. -/
def tried (pattern : List UInt8) (ls : List (List UInt8)) : List UInt8 :=
  ls.flatMap fun l => l ++ [if «match» pattern l then newline else 0]

section Strings

variable {pattern l s x y : List UInt8} {c : UInt8} {ls : List (List UInt8)}

theorem strchrFrom_found (hc : c ≠ 0) (hl : c ∉ l) (hnul : 0 ∉ l) :
    strchrFrom c (l ++ c :: s) = some (some l.length) := by
  induction l with
  | nil => simp [strchrFrom, hc]
  | cons x l ih =>
      obtain ⟨hne, hl⟩ := List.ne_and_not_mem_of_not_mem_cons hl
      obtain ⟨hx, hnul⟩ := List.ne_and_not_mem_of_not_mem_cons hnul
      simp [strchrFrom, ih hl hnul, Ne.symm hne, Ne.symm hx]

theorem strchrFrom_nul (hl : c ∉ l) (hnul : 0 ∉ l) :
    strchrFrom c (l ++ 0 :: s) = some none := by
  induction l with
  | nil => simp [strchrFrom]
  | cons x l ih =>
      obtain ⟨hne, hl⟩ := List.ne_and_not_mem_of_not_mem_cons hl
      obtain ⟨hx, hnul⟩ := List.ne_and_not_mem_of_not_mem_cons hnul
      simp [strchrFrom, ih hl hnul, Ne.symm hne, Ne.symm hx]

/-- Without a `NUL` the loop of `strchr` does not end in `buf`. -/
theorem strchrFrom_outside (hl : c ∉ l) (hnul : 0 ∉ l) : strchrFrom c l = none := by
  induction l with
  | nil => rfl
  | cons x l ih =>
      obtain ⟨hne, hl⟩ := List.ne_and_not_mem_of_not_mem_cons hl
      obtain ⟨hx, hnul⟩ := List.ne_and_not_mem_of_not_mem_cons hnul
      simp [strchrFrom, ih hl hnul, Ne.symm hne, Ne.symm hx]

theorem stringFrom_nul (hnul : 0 ∉ l) : stringFrom (l ++ 0 :: s) = some l := by
  induction l with
  | nil => simp [stringFrom]
  | cons x l ih =>
      obtain ⟨hx, hnul⟩ := List.ne_and_not_mem_of_not_mem_cons hnul
      simp [stringFrom, ih hnul, Ne.symm hx]

theorem ended_iff : Ended s ↔ ∃ x y, s = x ++ 0 :: y ∧ 0 ∉ x ∧ newline ∉ x := by
  induction s with
  | nil => simp [Ended]
  | cons a s ih =>
      rw [Ended, ih]
      constructor
      · rintro (rfl | ⟨hne, x, y, rfl, hnul, hx⟩)
        · exact ⟨[], s, rfl, by simp, by simp⟩
        · by_cases ha : a = 0
          · exact ⟨[], x ++ 0 :: y, by rw [ha]; rfl, by simp, by simp⟩
          · exact ⟨a :: x, y, rfl, List.not_mem_cons_of_ne_of_not_mem (Ne.symm ha) hnul,
              List.not_mem_cons_of_ne_of_not_mem (Ne.symm hne) hx⟩
      · rintro ⟨x, y, hs, hnul, hx⟩
        cases x with
        | nil => exact .inl (List.cons.inj hs).1
        | cons b x =>
            obtain ⟨rfl, rfl⟩ := List.cons.inj hs
            exact .inr ⟨(List.ne_of_not_mem_cons hx).symm, x, y, rfl,
              List.not_mem_of_not_mem_cons hnul, List.not_mem_of_not_mem_cons hx⟩

theorem tried_cons : tried pattern (l :: ls) =
    l ++ (if «match» pattern l then newline else 0) :: tried pattern ls := by
  simp [tried]

theorem match_nil : «match» [] l = true := by
  cases l <;> simp [«match», matchLoop, matchhere]

/-- The pattern without characters matches every line. -/
theorem tried_nil : tried [] ls = unlines newline ls := by
  induction ls with
  | nil => rfl
  | cons l ls ih => rw [tried_cons, unlines_cons, ih, if_pos match_nil]

theorem filter_match_nil : ls.filter («match» []) = ls :=
  List.filter_eq_self.mpr fun _ _ => match_nil

theorem length_tried (pattern : List UInt8) (ls : List (List UInt8)) :
    (tried pattern ls).length = (unlines newline ls).length := by
  simp [tried, unlines]

theorem length_le_unlines : ls.length ≤ (unlines newline ls).length := by
  induction ls with
  | nil => exact le_rfl
  | cons l ls ih =>
      rw [unlines_cons, List.length_append, List.length_cons, List.length_cons]
      omega

end Strings

section Rules

variable {pattern : List UInt8} {s : Grep} {E : GrepStop → Prop}

@[simp] theorem wp_inside {α : Type} {o : Option α} {Q : α → Grep → Prop} :
    wp (inside o) Q E s ↔ o.elim (E .outside) fun a => Q a s := by
  cases o with
  | none => exact wp_throw
  | some a => exact wp_pure

theorem wp_strchr {pre t : List UInt8} {c : UInt8} {Q : Option ℕ → Grep → Prop}
    (hbuf : s.buf = pre ++ t) : wp (strchr pre.length c) Q E s ↔
      (strchrFrom c t).elim (E .outside) fun r => Q (r.map (pre.length + ·)) s := by
  rw [strchr, wp_bind, wp_get, wp_bind, wp_inside, hbuf, List.drop_left]
  cases strchrFrom c t with
  | none => rfl
  | some r => exact wp_pure

theorem wp_string {pre t : List UInt8} {Q : List UInt8 → Grep → Prop}
    (hbuf : s.buf = pre ++ t) : wp (string pre.length) Q E s ↔
      (stringFrom t).elim (E .outside) fun l => Q l s := by
  rw [string, wp_bind, wp_get, wp_inside, hbuf, List.drop_left]

theorem wp_storeByte {pre t : List UInt8} {x y : UInt8} {Q : Unit → Grep → Prop}
    (hbuf : s.buf = pre ++ x :: t) :
    wp (store pre.length y) Q E s ↔ Q () { s with buf := pre ++ y :: t } := by
  have hset : (pre ++ x :: t).set pre.length y = pre ++ y :: t := by
    rw [List.set_append_right _ _ le_rfl, Nat.sub_self, List.set_cons_zero]
  have hlt : pre.length < (pre ++ x :: t).length := by simp
  rw [store, wp_bind, wp_get, hbuf, if_pos hlt, wp_set, hset]

theorem wp_write {pre l t : List UInt8} {Q : Unit → Grep → Prop} (hbuf : s.buf = pre ++ (l ++ t)) :
    wp (write pre.length l.length) Q E s ↔ Q () { s with output := s.output ++ l } := by
  have hle : pre.length + l.length ≤ (pre ++ (l ++ t)).length := by
    simp only [List.length_append]
    omega
  rw [write, wp_bind, wp_get, hbuf, if_pos hle, wp_set, List.drop_left, List.take_left]

/-- The loop over the lines in `buf`, up to a `NUL` or to the end of `buf`. -/
theorem wp_grepLines {ls : List (List UInt8)} {r t : List UInt8} {Q : ℕ → Grep → Prop}
    (hls : ∀ l ∈ ls, newline ∉ l ∧ 0 ∉ l) (hr : newline ∉ r ∧ 0 ∉ r) :
    ∀ {rounds : ℕ} {pre : List UInt8} {s : Grep}, ls.length < rounds →
      s.buf = pre ++ (unlines newline ls ++ (r ++ t)) →
      (t = [] ∧ E .outside ∨ (∃ u, t = 0 :: u) ∧
        Q (pre.length + (unlines newline ls).length)
          { s with
            buf := pre ++ (tried pattern ls ++ (r ++ t))
            output := s.output ++ unlines newline (ls.filter («match» pattern)) }) →
      wp (grepLines pattern rounds pre.length) Q E s := by
  induction ls with
  | nil =>
      intro rounds pre s hrounds hbuf h
      obtain ⟨k, rfl⟩ := Nat.exists_eq_succ_of_ne_zero (Nat.ne_of_gt hrounds)
      rw [grepLines, wp_bind, wp_strchr hbuf]
      rcases h with ⟨rfl, hE⟩ | ⟨⟨u, rfl⟩, hQ⟩
      · rw [unlines_nil, List.nil_append, List.append_nil, strchrFrom_outside hr.1 hr.2]
        exact hE
      · rw [unlines_nil, List.nil_append, strchrFrom_nul hr.1 hr.2]
        have hs : { s with
            buf := pre ++ (tried pattern [] ++ (r ++ 0 :: u))
            output := s.output ++ unlines newline ([].filter («match» pattern)) } = s := by
          rw [List.filter_nil, unlines_nil, List.append_nil]
          exact congrArg (Grep.mk · s.input s.output) hbuf.symm
        rw [hs] at hQ
        exact wp_pure.mpr hQ
  | cons l ls ih =>
      intro rounds pre s hrounds hbuf h
      obtain ⟨k, rfl⟩ := Nat.exists_eq_succ_of_ne_zero (Nat.ne_of_gt (Nat.zero_lt_of_lt hrounds))
      obtain ⟨hl, hnul⟩ := hls l List.mem_cons_self
      rw [unlines_cons, List.append_assoc, List.cons_append] at hbuf
      rw [grepLines, wp_bind, wp_strchr hbuf, strchrFrom_found (by decide) hl hnul]
      dsimp only [Option.elim_some, Option.map_some]
      have hq : pre.length + l.length = (pre ++ l).length := List.length_append.symm
      rw [← List.append_assoc] at hbuf
      rw [hq, wp_bind, wp_storeByte hbuf, wp_bind, List.append_assoc, wp_string rfl,
        stringFrom_nul hnul]
      dsimp only [Option.elim_some]
      -- the line has been tried: `b` is the byte behind it and `o` what has been printed
      have hcont : ∀ b o, b = (if «match» pattern l then newline else 0) →
          o = unlines newline ([l].filter («match» pattern)) →
          wp (grepLines pattern k ((pre ++ l).length + 1)) Q E
            ⟨pre ++ (l ++ b :: (unlines newline ls ++ (r ++ t))), s.input, s.output ++ o⟩ := by
        rintro b o hb rfl
        have hnext : (pre ++ l).length + 1 = (pre ++ (l ++ [b])).length := by simp; omega
        rw [hnext]
        refine ih (fun l hl => hls l (List.mem_cons_of_mem _ hl)) (Nat.lt_of_succ_lt_succ hrounds)
          (by simp) (h.imp_right fun ⟨hu, hQ⟩ => ⟨hu, ?_⟩)
        have hp : (pre ++ (l ++ [b])).length + (unlines newline ls).length =
            pre.length + (unlines newline (l :: ls)).length := by
          simp [unlines_cons]
          omega
        have hout : s.output ++ unlines newline ([l].filter («match» pattern)) ++
            unlines newline (ls.filter («match» pattern)) =
              s.output ++ unlines newline ((l :: ls).filter («match» pattern)) := by
          rw [List.append_assoc, ← unlines_append, ← List.filter_append, List.singleton_append]
        have htried : pre ++ (l ++ [b]) ++ (tried pattern ls ++ (r ++ t)) =
            pre ++ (tried pattern (l :: ls) ++ (r ++ t)) := by
          rw [tried_cons, hb]
          simp
        dsimp only
        rwa [hp, hout, htried]
      by_cases hm : «match» pattern l = true
      · have hend : (pre ++ l).length + 1 - pre.length = (l ++ [newline]).length := by
          simp only [List.length_append, List.length_singleton]
          omega
        have hline : pre ++ (l ++ newline :: (unlines newline ls ++ (r ++ t))) =
            pre ++ ((l ++ [newline]) ++ (unlines newline ls ++ (r ++ t))) := by simp
        rw [if_pos hm, wp_bind, wp_storeByte (by rw [List.append_assoc]), wp_bind, List.append_assoc,
          hend, wp_write hline]
        exact hcont newline _ (by rw [if_pos hm]) (by simp [hm, unlines])
      · rw [if_neg hm]
        have hcont := hcont 0 [] (by rw [if_neg hm]) (by simp [hm])
        rwa [List.append_nil] at hcont

/-- Copying down a part of `buf` that lies behind `g`. -/
theorem wp_memmove {l z : List UInt8} {Q : Unit → Grep → Prop} :
    ∀ {x g : List UInt8} {s : Grep}, s.buf = x ++ (g ++ (l ++ z)) →
      Q () { s with buf := x ++ (l ++ (g ++ (l ++ z)).drop l.length) } →
      wp (memmove x.length (x ++ g).length l.length) Q E s := by
  induction l with
  | nil =>
      intro x g s hbuf hQ
      refine wp_pure.mpr ?_
      rwa [List.length_nil, List.drop_zero, List.nil_append, ← hbuf] at hQ
  | cons a l ih =>
      intro x g s hbuf hQ
      obtain ⟨b, g', hg⟩ : ∃ b g', g ++ [a] = b :: g' := by
        cases g with
        | nil => exact ⟨a, [], rfl⟩
        | cons b g => exact ⟨b, g ++ [a], rfl⟩
      have hsplit : g ++ (a :: l ++ z) = b :: (g' ++ (l ++ z)) := by
        have h := congrArg (· ++ (l ++ z)) hg
        simpa using h
      have hload : s.buf[(x ++ g).length]? = some a := by
        rw [hbuf, ← List.append_assoc, List.getElem?_append_right le_rfl, Nat.sub_self]
        rfl
      rw [List.length_cons, memmove, wp_bind, wp_get, wp_bind, wp_inside, hload]
      dsimp only [Option.elim_some]
      rw [hsplit] at hbuf hQ
      rw [wp_bind, wp_storeByte hbuf]
      have hlen : (x ++ g).length + 1 = ((x ++ [a]) ++ g').length := by
        have h := congrArg List.length hg
        simp only [List.length_append, List.length_cons, List.length_nil] at h ⊢
        omega
      have hdst : x.length + 1 = (x ++ [a]).length := by simp
      rw [hlen, hdst]
      refine ih (by simp) ?_
      have hbuf' : x ++ [a] ++ (l ++ (g' ++ (l ++ z)).drop l.length) =
          x ++ (a :: l ++ (b :: (g' ++ (l ++ z))).drop (a :: l).length) := by simp
      dsimp only
      rwa [hbuf']

/-- What is left is at the front of `buf` again. -/
theorem wp_keepRest {g l z : List UInt8} {Q : ℤ → Grep → Prop} (hbuf : s.buf = g ++ (l ++ z))
    (hg : g ≠ []) (hQ : Q l.length { s with buf := l ++ (g ++ (l ++ z)).drop l.length }) :
    wp (keepRest (g.length + l.length) g.length) Q E s := by
  have hpos : 0 < g.length := List.length_pos_iff.mpr hg
  have hm : ((g.length : ℤ) + l.length - g.length) = l.length := by omega
  rw [keepRest, if_neg (Nat.ne_of_gt hpos), if_pos (by omega), hm, wp_bind, Int.toNat_natCast]
  exact wp_memmove (x := []) hbuf (wp_pure.mpr hQ)

theorem wp_read_nil {m : ℤ} {Q : ℕ → Grep → Prop} (hin : s.input = []) :
    wp (GrepM.read m) Q E s ↔ Q 0 s := by
  rw [GrepM.read, wp_bind, wp_get, hin]
  exact wp_pure

/-- A `read` to in front of `buf`. -/
theorem wp_read_before {m : ℤ} {c : List UInt8} {cs : List (List UInt8)} {Q : ℕ → Grep → Prop}
    (hin : s.input = c :: cs) (hc : c ≠ []) (hm : m < 0) :
    wp (GrepM.read m) Q E s ↔ E .outside := by
  have hpos : 0 < c.length := List.length_pos_iff.mpr hc
  have hn : min (GREPBUF - m).toNat c.length ≠ 0 := by
    rw [GREPBUF]
    omega
  rw [GrepM.read, wp_bind, wp_get, hin]
  dsimp only
  rw [if_neg hn, if_neg (by omega)]
  exact wp_throw

/-- A `read` behind `rest` that does not give more than what there is room for. -/
theorem wp_read {rest c d z : List UInt8} {cs : List (List UInt8)} {Q : ℕ → Grep → Prop}
    (hin : s.input = c :: cs) (hc : c ≠ []) (hbuf : s.buf = rest ++ (d ++ z))
    (hd : d.length = c.length) (hlen : s.buf.length = GREPBUF) :
    wp (GrepM.read rest.length) Q E s ↔
      Q c.length { s with buf := rest ++ (c ++ z), input := cs } := by
  have hpos : 0 < c.length := List.length_pos_iff.mpr hc
  have hroom := hlen
  rw [hbuf, List.length_append, List.length_append] at hroom
  have hn : min (GREPBUF - (rest.length : ℤ)).toNat c.length = c.length := by omega
  have hfits : (0 : ℤ) ≤ rest.length ∧
      ((rest.length : ℕ) : ℤ).toNat + c.length ≤ s.buf.length := by omega
  have hdrop : s.buf.drop (rest.length + c.length) = z := by
    rw [hbuf, ← List.append_assoc, ← hd, ← List.length_append, List.drop_left]
  rw [GrepM.read, wp_bind, wp_get, hin]
  dsimp only
  rw [hn, if_neg (Nat.ne_of_gt hpos), if_pos hfits, wp_bind, wp_set, Int.toNat_natCast, hdrop,
    if_pos rfl, List.take_length, hbuf, List.take_left, List.append_assoc]
  exact wp_pure

/-- A `read` behind `rest` that fills `buf`. -/
theorem wp_read_full {rest c d : List UInt8} {cs : List (List UInt8)} {Q : ℕ → Grep → Prop}
    (hin : s.input = c :: cs) (hbuf : s.buf = rest ++ d) (hd : d.length < c.length)
    (hpos : d ≠ []) (hlen : s.buf.length = GREPBUF) :
    wp (GrepM.read rest.length) Q E s ↔
      Q d.length { s with buf := rest ++ c.take d.length, input := c.drop d.length :: cs } := by
  have hpos : 0 < d.length := List.length_pos_iff.mpr hpos
  have hroom := hlen
  rw [hbuf, List.length_append] at hroom
  have hn : min (GREPBUF - (rest.length : ℤ)).toNat c.length = d.length := by omega
  have hfits : (0 : ℤ) ≤ rest.length ∧
      ((rest.length : ℕ) : ℤ).toNat + d.length ≤ s.buf.length := by omega
  have hdrop : s.buf.drop (rest.length + d.length) = [] := by
    rw [hbuf, ← List.length_append, List.drop_length]
  rw [GrepM.read, wp_bind, wp_get, hin]
  dsimp only
  rw [hn, if_neg (Nat.ne_of_gt hpos), if_pos hfits, wp_bind, wp_set, Int.toNat_natCast, hdrop,
    if_neg (Nat.ne_of_lt hd), hbuf, List.take_left, List.append_nil]
  exact wp_pure

/-- The rest of a round after `read`, up to a `NUL` or to the end of `buf`. -/
theorem wp_grepLines_cut {a t : List UInt8} {Q : ℕ → Grep → Prop} (hnul : 0 ∉ a)
    (hbuf : s.buf = a ++ t) (hlen : s.buf.length = GREPBUF)
    (h : t = [] ∧ E .outside ∨ (∃ u, t = 0 :: u) ∧
      Q (unlines newline (cut newline a).1).length
        { s with
          buf := tried pattern (cut newline a).1 ++ ((cut newline a).2 ++ t)
          output := s.output ++ unlines newline ((cut newline a).1.filter («match» pattern)) }) :
    wp (grepLines pattern (GREPBUF + 1) 0) Q E s := by
  have htext := (cut_spec newline a).1
  have hnul' : ∀ x ∈ unlines newline (cut newline a).1 ++ (cut newline a).2, x ≠ 0 := by
    rw [htext]
    exact fun x hx hzero => hnul (hzero ▸ hx)
  have hlines : ∀ l ∈ (cut newline a).1, newline ∉ l ∧ 0 ∉ l := fun l hl =>
    ⟨not_mem_line hl, fun hzero => hnul' 0 (List.mem_append_left _
      (List.mem_flatMap.mpr ⟨l, hl, List.mem_append_left _ hzero⟩)) rfl⟩
  have hrounds : (cut newline a).1.length < GREPBUF + 1 := by
    have hle := @length_le_unlines (cut newline a).1
    have hall := congrArg List.length htext
    rw [hbuf, List.length_append] at hlen
    rw [List.length_append] at hall
    omega
  have hbuf' : s.buf = [] ++ (unlines newline (cut newline a).1 ++ ((cut newline a).2 ++ t)) := by
    rw [hbuf, List.nil_append, ← List.append_assoc, htext]
  change wp (grepLines pattern (GREPBUF + 1) ([] : List UInt8).length) Q E s
  refine wp_grepLines hlines ⟨not_mem_rest, fun hzero => hnul' 0
    (List.mem_append_right _ hzero) rfl⟩ hrounds hbuf' (h.imp_right fun ⟨hu, hQ⟩ => ⟨hu, ?_⟩)
  rwa [List.length_nil, zero_add]

end Rules

/-! ### A round -/

section Round

variable {pattern rest old y z c x : List UInt8} {cs : List (List UInt8)} {s : Grep} {k : ℕ}
  {Q : Unit → Grep → Prop} {E : GrepStop → Prop}

/-- At the head of the loop: `rest` is the beginning of a line, and `y` is what is behind. -/
structure AtHead (s : Grep) (rest y : List UInt8) (cs : List (List UInt8)) : Prop where
  buf : s.buf = rest ++ y
  length : s.buf.length = GREPBUF
  input : s.input = cs
  line : newline ∉ rest
  nul : 0 ∉ rest
  parts : ∀ c ∈ cs, c ≠ [] ∧ 0 ∉ c

/-- A round in which there is room, up to a `NUL` or to the end of `buf`. -/
theorem AtHead.wp_round (h : AtHead s rest y (c :: cs)) (hroom : (rest ++ c).length ≤ GREPBUF)
    {t : List UInt8} (hx : y.drop c.length = x ++ t) (hnul : 0 ∉ x)
    (hnext : t = [] ∧ E .outside ∨ (∃ u, t = 0 :: u) ∧
      wp (keepRest (rest.length + c.length) (unlines newline (cut newline (rest ++ c ++ x)).1).length)
        (fun m => wp (grepLoop pattern k m) Q E) E
        ⟨tried pattern (cut newline (rest ++ c ++ x)).1 ++ ((cut newline (rest ++ c ++ x)).2 ++ t),
          cs, s.output ++ unlines newline
            ((cut newline (rest ++ c ++ x)).1.filter («match» pattern))⟩) :
    wp (grepLoop pattern (k + 1) rest.length) Q E s := by
  obtain ⟨hc, hcnul⟩ := h.parts c List.mem_cons_self
  have hlen := h.length
  rw [h.buf, List.length_append] at hlen
  rw [List.length_append] at hroom
  have hsplit : s.buf = rest ++ (y.take c.length ++ y.drop c.length) := by
    rw [List.take_append_drop, h.buf]
  have htake : (y.take c.length).length = c.length := by
    rw [List.length_take]
    omega
  have hnul' : 0 ∉ rest ++ c ++ x := by
    simp only [List.mem_append, not_or]
    exact ⟨⟨h.nul, hcnul⟩, hnul⟩
  have hpos : c.length ≠ 0 := fun hzero => hc (List.eq_nil_of_length_eq_zero hzero)
  have hbuf : rest ++ (c ++ y.drop c.length) = rest ++ c ++ x ++ t := by
    rw [hx]
    simp
  have hfull : (rest ++ c ++ x ++ t).length = GREPBUF := by
    rw [← hbuf, List.length_append, List.length_append, List.length_drop]
    omega
  rw [grepLoop, wp_bind, wp_read h.input hc hsplit htake h.length, if_neg hpos, wp_bind, hbuf]
  refine wp_grepLines_cut hnul' rfl hfull (hnext.imp_right fun ⟨hu, hQ⟩ => ⟨hu, ?_⟩)
  rw [wp_bind]
  exact hQ

/-- A round that fills `buf` does not end in it. -/
theorem AtHead.wp_full (h : AtHead s rest y (c :: cs)) (hy : y ≠ []) (hroom : y.length < c.length)
    (hE : E .outside) : wp (grepLoop pattern (k + 1) rest.length) Q E s := by
  have hpos : y.length ≠ 0 := fun hzero => hy (List.eq_nil_of_length_eq_zero hzero)
  have hcnul := (h.parts c List.mem_cons_self).2
  have hlen := h.length
  rw [h.buf, List.length_append] at hlen
  have hnul : 0 ∉ rest ++ c.take y.length := by
    simp only [List.mem_append, not_or]
    exact ⟨h.nul, fun hzero => hcnul (List.mem_of_mem_take hzero)⟩
  have hfull : (rest ++ c.take y.length).length = GREPBUF := by
    rw [List.length_append, List.length_take]
    omega
  rw [grepLoop, wp_bind, wp_read_full h.input h.buf hroom hy h.length, if_neg hpos, wp_bind]
  exact wp_grepLines_cut hnul (List.append_nil _).symm hfull (.inl ⟨rfl, hE⟩)

/-- A round that brings the end of a line, when no newline is found behind it. -/
theorem AtHead.wp_line (h : AtHead s rest y (c :: cs)) (hroom : (rest ++ c).length ≤ GREPBUF)
    (hline : newline ∈ c) (hend : Ended (y.drop c.length))
    (hnext : ∀ s', s'.output = s.output ++ matching pattern (rest ++ c) →
      AtHead s' (cut newline (rest ++ c)).2 ((tried pattern (cut newline (rest ++ c)).1 ++
        ((cut newline (rest ++ c)).2 ++ y.drop c.length)).drop (cut newline (rest ++ c)).2.length)
        cs → wp (grepLoop pattern k (cut newline (rest ++ c)).2.length) Q E s') :
    wp (grepLoop pattern (k + 1) rest.length) Q E s := by
  obtain ⟨x, u, hx, hnul, hxline⟩ := ended_iff.mp hend
  have hlen := h.length
  rw [h.buf, List.length_append] at hlen
  refine h.wp_round hroom hx hnul (.inr ⟨⟨u, rfl⟩, ?_⟩)
  have htext := (cut_spec newline (rest ++ c)).1
  have hcut : cut newline (rest ++ c ++ x) =
      ((cut newline (rest ++ c)).1, (cut newline (rest ++ c)).2 ++ x) := by
    have hrest : newline ∉ (cut newline (rest ++ c)).2 ++ x :=
      fun hmem => (List.mem_append.mp hmem).elim not_mem_rest hxline
    rw [cut_append, cut_of_not_mem hrest, List.append_nil]
  have hlines : (cut newline (rest ++ c)).1 ≠ [] := fun hnil =>
    cut_fst_eq_nil.mp hnil (List.mem_append_right _ hline)
  rw [hcut, ← length_tried pattern]
  have hne : tried pattern (cut newline (rest ++ c)).1 ≠ [] := by
    obtain ⟨l, ls, hls⟩ := List.exists_cons_of_ne_nil hlines
    rw [hls, tried_cons]
    simp
  have hm : ((rest.length : ℤ) + c.length) = (tried pattern (cut newline (rest ++ c)).1).length +
      (cut newline (rest ++ c)).2.length := by
    have hall := congrArg List.length htext
    rw [List.length_append, List.length_append] at hall
    rw [length_tried]
    omega
  rw [hm]
  have hbuf : tried pattern (cut newline (rest ++ c)).1 ++
      (((cut newline (rest ++ c)).2 ++ x) ++ 0 :: u) = tried pattern (cut newline (rest ++ c)).1 ++
        ((cut newline (rest ++ c)).2 ++ y.drop c.length) := by
    rw [hx, List.append_assoc]
  refine wp_keepRest hbuf hne (hnext _ rfl ⟨rfl, ?_, rfl, not_mem_rest, fun hzero => ?_,
    fun c hc => h.parts c (List.mem_cons_of_mem _ hc)⟩)
  · have hall := congrArg List.length htext
    simp only [List.length_append, List.length_drop, length_tried] at hall hroom ⊢
    omega
  · have hmem : 0 ∈ rest ++ c := htext ▸ List.mem_append_right _ hzero
    exact (List.mem_append.mp hmem).elim h.nul (h.parts c List.mem_cons_self).2

theorem matching_append {input input' : List UInt8} : matching pattern (input ++ input') =
    matching pattern input ++ matching pattern ((cut newline input).2 ++ input') := by
  rw [matching, cut_append, List.filter_append, unlines_append]
  rfl

/-- `s'` is `s` but for newlines that have become `NUL`s. -/
def Faded : List UInt8 → List UInt8 → Prop :=
  List.Forall₂ fun x x' => x' = x ∨ x = newline ∧ x' = 0

theorem faded_refl (s : List UInt8) : Faded s s :=
  List.forall₂_same.mpr fun _ _ => .inl rfl

theorem faded_tried {ls : List (List UInt8)} :
    Faded (unlines newline ls) (tried pattern ls) := by
  induction ls with
  | nil => exact .nil
  | cons l ls ih =>
      rw [unlines_cons, tried_cons]
      refine List.rel_append (faded_refl l) (.cons ?_ ih)
      split
      · exact .inl rfl
      · exact .inr ⟨rfl, rfl⟩

theorem Ended.faded {s s' : List UInt8} (h : Faded s s') (hs : Ended s) : Ended s' := by
  induction h with
  | nil => exact hs
  | cons hx _ ih =>
      rcases hx with rfl | ⟨rfl, rfl⟩
      · exact hs.imp_right fun ⟨hne, hs⟩ => ⟨hne, ih hs⟩
      · exact .inl rfl

/-- What `grep` prints when the reads fit. -/
theorem AtHead.wp_fits (hfits : ReadsFit rest old cs) (h : AtHead s rest y cs)
    (hold : Faded (old.drop rest.length) y) (hk : cs.length < k) :
    wp (grepLoop pattern k rest.length)
      (fun _ t => t.output = s.output ++ matching pattern (rest ++ cs.flatten))
      (fun _ => False) s := by
  induction cs generalizing rest old y s k with
  | nil =>
      obtain ⟨k, rfl⟩ := Nat.exists_eq_succ_of_ne_zero (Nat.ne_of_gt hk)
      rw [grepLoop, wp_bind, wp_read_nil h.input, if_pos rfl, wp_pure]
      simp [matching, cut_of_not_mem h.line]
  | cons c cs ih =>
      obtain ⟨k, rfl⟩ := Nat.exists_eq_succ_of_ne_zero (Nat.ne_of_gt (Nat.zero_lt_of_lt hk))
      obtain ⟨hline, hroom, hend, hfits⟩ := hfits
      have hbehind : Faded (old.drop (rest ++ c).length) (y.drop c.length) := by
        have hdrop := List.forall₂_drop c.length hold
        rwa [List.drop_drop, ← List.length_append] at hdrop
      refine h.wp_line hroom.le hline (hend.faded hbehind) fun s' hout h' => ?_
      have hflat : (c :: cs).flatten = c ++ cs.flatten := rfl
      rw [hflat, ← List.append_assoc, matching_append, ← List.append_assoc, ← hout]
      refine ih hfits h' ?_ (Nat.lt_of_succ_lt_succ hk)
      refine List.forall₂_drop _ ?_
      have htext : rest ++ c ++ old.drop (rest ++ c).length =
          unlines newline (cut newline (rest ++ c)).1 ++
            ((cut newline (rest ++ c)).2 ++ old.drop (rest ++ c).length) := by
        rw [← List.append_assoc, unlines_cut]
      rw [htext]
      exact List.rel_append faded_tried (List.rel_append (faded_refl _) hbehind)

end Round

/-! ### Nothing less will do -/

section Converse

variable {rest old y z c x u : List UInt8} {cs : List (List UInt8)} {s : Grep} {k : ℕ}

def OutputGrows {α : Type} (m : GrepM α) : Prop :=
  ∀ s, wp m (fun _ t => s.output <+: t.output) (fun _ => True) s

namespace OutputGrows

variable {α β : Type}

theorem pure {a : α} : OutputGrows (pure a) := fun _ => wp_pure.mpr (List.prefix_refl _)

theorem throw {e : GrepStop} : OutputGrows (throw e : GrepM α) := fun _ => wp_throw.mpr trivial

theorem get : OutputGrows get := fun _ => wp_get.mpr (List.prefix_refl _)

theorem bind {m : GrepM α} {f : α → GrepM β} (h : OutputGrows m) (hf : ∀ a, OutputGrows (f a)) :
    OutputGrows (m >>= f) := fun s => wp_bind.mpr (wp_mono (h s)
      (fun a t ht => wp_mono (hf a t) (fun _ _ hu => ht.trans hu) fun _ => id) fun _ => id)

theorem inside {o : Option α} : OutputGrows (inside o) := by
  cases o with
  | none => exact throw
  | some a => exact pure

theorem store {i : ℕ} {x : UInt8} : OutputGrows (store i x) := fun s => by
  rw [GrepM.store, wp_bind, wp_get]
  split
  · exact wp_set.mpr (List.prefix_refl _)
  · exact wp_throw.mpr trivial

theorem write {p n : ℕ} : OutputGrows (write p n) := fun s => by
  rw [GrepM.write, wp_bind, wp_get]
  split
  · exact wp_set.mpr (List.prefix_append _ _)
  · exact wp_throw.mpr trivial

theorem read {m : ℤ} : OutputGrows (GrepM.read m) := fun s => by
  rw [GrepM.read, wp_bind, wp_get]
  cases s.input with
  | nil => exact wp_pure.mpr (List.prefix_refl _)
  | cons c cs =>
      dsimp only
      split
      · exact wp_pure.mpr (List.prefix_refl _)
      · split
        · exact wp_bind.mpr (wp_set.mpr (wp_pure.mpr (List.prefix_refl _)))
        · exact wp_throw.mpr trivial

theorem memmove : ∀ {n dst src : ℕ}, OutputGrows (memmove dst src n)
  | 0, _, _ => pure
  | _ + 1, _, _ => bind get fun _ => bind inside fun _ => bind store fun _ => memmove

theorem grepLines {pattern : List UInt8} : ∀ {k p : ℕ}, OutputGrows (grepLines pattern k p)
  | 0, _ => throw
  | k + 1, p => bind (bind get fun _ => bind inside fun _ => pure) fun r => by
      cases r with
      | none => exact pure
      | some q =>
          refine bind store fun _ => bind (bind get fun _ => inside) fun line => ?_
          dsimp only
          split
          · exact bind store fun _ => bind write fun _ => grepLines
          · exact grepLines

theorem keepRest {m : ℤ} {p : ℕ} : OutputGrows (keepRest m p) := by
  rw [GrepM.keepRest]
  split
  · exact pure
  · split
    · exact bind memmove fun _ => pure
    · exact pure

theorem grepLoop {pattern : List UInt8} : ∀ {k : ℕ} {m : ℤ}, OutputGrows (grepLoop pattern k m)
  | 0, _ => throw
  | k + 1, m => bind read fun n => by
      split
      · exact pure
      · exact bind grepLines fun _ => bind keepRest fun _ => grepLoop

end OutputGrows

/-- Nothing right comes of a newline found behind the text. -/
theorem wp_keepRest_past {o : List UInt8} {m p : ℕ} (hm : 0 < m) (hp : m < p)
    (hparts : ∀ c ∈ s.input, c ≠ []) (ho : s.input = [] → s.output ≠ o) :
    wp (keepRest m p) (fun m => wp (grepLoop [] k m) (fun _ t => t.output ≠ o) fun _ => True)
      (fun _ => True) s := by
  have hcount : ((m : ℤ) - p).toNat = 0 := by omega
  rw [keepRest, if_neg (Nat.ne_of_gt (hm.trans hp)), if_pos (by omega), wp_bind, hcount, memmove,
    wp_pure, wp_pure]
  cases k with
  | zero => exact wp_throw.mpr trivial
  | succ k =>
      rw [grepLoop, wp_bind]
      cases hin : s.input with
      | nil =>
          rw [wp_read_nil hin, if_pos rfl, wp_pure]
          exact ho hin
      | cons c cs =>
          rw [wp_read_before hin (hparts c (hin ▸ List.mem_cons_self)) (by omega)]
          trivial

theorem lt_of_newline (h : newline ∈ x) :
    rest.length + c.length < (unlines newline (cut newline (rest ++ c ++ x)).1).length := by
  have htext := congrArg List.length (cut_spec newline (rest ++ c ++ x)).1
  have hlt : (cut newline (rest ++ c ++ x)).2.length < x.length := length_rest_lt h
  simp only [List.length_append] at htext
  omega

/-- What is lost: the beginning `u` of a line has been dropped. -/
theorem AtHead.wp_lost (h : AtHead s [] y cs) (hu : u ≠ []) (huline : newline ∉ u) :
    wp (grepLoop [] k 0) (fun _ t => t.output ≠ s.output ++ (u ++ cs.flatten)) (fun _ => True) s := by
  induction cs generalizing s y u k with
  | nil =>
      cases k with
      | zero => exact wp_throw.mpr trivial
      | succ k =>
          rw [grepLoop, wp_bind, wp_read_nil h.input, if_pos rfl, wp_pure]
          simpa using hu
  | cons c cs ih =>
      cases k with
      | zero => exact wp_throw.mpr trivial
      | succ k =>
          obtain ⟨hc, hcnul⟩ := h.parts c List.mem_cons_self
          have hlen : y.length = GREPBUF := by
            rw [← h.length, h.buf, List.nil_append]
          have hy : y ≠ [] := fun hnil => by
            rw [hnil] at hlen
            cases hlen
          rcases Nat.lt_or_ge y.length c.length with hroom | hroom
          · exact h.wp_full hy hroom trivial
          by_cases hzero : 0 ∈ y.drop c.length
          swap
          · exact h.wp_round (hroom.trans hlen.le) (List.append_nil _).symm hzero
              (.inl ⟨rfl, trivial⟩)
          obtain ⟨x, w, hx, hnul⟩ := List.eq_append_cons_of_mem hzero
          refine h.wp_round (hroom.trans hlen.le) hx hnul (.inr ⟨⟨w, rfl⟩, ?_⟩)
          rw [List.nil_append, filter_match_nil]
          by_cases hline : newline ∈ c
          · -- the first line is printed without `u`
            obtain ⟨l, d, rfl, hl⟩ := List.eq_append_cons_of_mem hline
            have hcut : (cut newline (l ++ newline :: d ++ x)).1 = l :: (cut newline (d ++ x)).1 := by
              rw [List.append_assoc, List.cons_append, cut_line hl]
            rw [← wp_bind]
            refine wp_mono (OutputGrows.bind OutputGrows.keepRest (fun _ => OutputGrows.grepLoop) _)
              (fun _ t ⟨e, he⟩ heq => ?_) (fun _ => id)
            have hflat : ((l ++ newline :: d) :: cs).flatten =
                l ++ newline :: (d ++ cs.flatten) := by simp
            dsimp only at he
            rw [heq, hcut, unlines_cons, hflat, List.append_assoc, List.append_assoc] at he
            exact append_sep_ne hl huline hu (List.append_cancel_left he)
          by_cases hxline : newline ∈ x
          · have hlt : ([] : List UInt8).length + c.length < _ := lt_of_newline hxline
            rw [List.nil_append] at hlt
            have hpos : 0 < ([] : List UInt8).length + c.length :=
              Nat.add_pos_right _ (List.length_pos_iff.mpr hc)
            refine wp_keepRest_past hpos hlt
              (fun c hc => (h.parts c (List.mem_cons_of_mem _ hc)).1) fun hnil heq => ?_
            change cs = [] at hnil
            have hmem : newline ∈ unlines newline (cut newline (c ++ x)).1 := by
              have hall := List.mem_append_right c hxline
              rw [← (cut_spec newline (c ++ x)).1] at hall
              exact (List.mem_append.mp hall).resolve_right not_mem_rest
            rw [List.append_cancel_left heq, hnil] at hmem
            simp [huline, hline] at hmem
          · have hcut : cut newline (c ++ x) = ([], c ++ x) :=
              cut_of_not_mem fun hmem => (List.mem_append.mp hmem).elim hline hxline
            have hflat : u ++ (c :: cs).flatten = u ++ c ++ cs.flatten := by simp
            rw [hcut, unlines_nil, keepRest, List.length_nil, if_pos rfl, wp_pure, hflat]
            have hbuf : c ++ x ++ 0 :: w = [] ++ (c ++ y.drop c.length) := by
              rw [hx, List.nil_append, List.append_assoc]
            have h' : AtHead ⟨c ++ x ++ 0 :: w, cs, s.output⟩ [] (c ++ y.drop c.length) cs := by
              refine ⟨hbuf, ?_, rfl, by simp, by simp,
                fun c hc => h.parts c (List.mem_cons_of_mem _ hc)⟩
              rw [hbuf, List.nil_append, List.length_append, List.length_drop]
              omega
            have hlost := ih (k := k) h' (by simp [hu] : u ++ c ≠ []) (by simp [huline, hline])
            simpa [tried] using hlost

/-- If the pattern without characters gets what it should, the reads fit. -/
theorem AtHead.wp_exact (h : AtHead s rest (old.drop rest.length) cs)
    (hold : old.length = GREPBUF) (hrest : rest.length < GREPBUF) :
    wp (grepLoop [] k rest.length)
      (fun _ t => t.output = s.output ++ (rest ++ cs.flatten) → ReadsFit rest old cs)
      (fun _ => True) s := by
  induction cs generalizing s rest old k with
  | nil => exact wp_mono (OutputGrows.grepLoop s) (fun _ _ _ _ => trivial) fun _ => id
  | cons c cs ih =>
      cases k with
      | zero => exact wp_throw.mpr trivial
      | succ k =>
          obtain ⟨hc, hcnul⟩ := h.parts c List.mem_cons_self
          have hroom := Nat.lt_or_ge (old.drop rest.length).length c.length
          rw [List.length_drop] at hroom
          rcases hroom with hroom | hroom
          · refine h.wp_full (fun hnil => ?_) (by rwa [List.length_drop]) trivial
            have hzero := congrArg List.length hnil
            rw [List.length_drop, List.length_nil] at hzero
            omega
          have hfits : (rest ++ c).length ≤ GREPBUF := by
            rw [List.length_append]
            omega
          by_cases hzero : 0 ∈ (old.drop rest.length).drop c.length
          swap
          · exact h.wp_round hfits (List.append_nil _).symm hzero (.inl ⟨rfl, trivial⟩)
          obtain ⟨x, w, hx, hnul⟩ := List.eq_append_cons_of_mem hzero
          by_cases hxline : newline ∈ x
          · refine wp_mono (h.wp_round hfits hx hnul (.inr ⟨⟨w, rfl⟩, ?_⟩))
              (fun _ t hne heq => absurd heq hne) fun _ => id
            have hpos : 0 < rest.length + c.length :=
              Nat.add_pos_right _ (List.length_pos_iff.mpr hc)
            have hlt : rest.length + c.length < _ := lt_of_newline hxline
            refine wp_keepRest_past hpos hlt
              (fun c hc => (h.parts c (List.mem_cons_of_mem _ hc)).1) fun hnil heq => ?_
            change cs = [] at hnil
            have hlength := congrArg List.length (List.append_cancel_left heq)
            rw [filter_match_nil, hnil] at hlength
            simp only [List.flatten_cons, List.flatten_nil, List.append_nil, List.length_append]
              at hlength
            omega
          by_cases hline : newline ∈ c
          · have hdrop : (old.drop rest.length).drop c.length = old.drop (rest ++ c).length := by
              rw [List.drop_drop, List.length_append]
            have hend : Ended (old.drop (rest ++ c).length) := by
              rw [← hdrop]
              exact ended_iff.mpr ⟨x, w, hx, hnul, hxline⟩
            have hlt : (rest ++ c).length < GREPBUF := by
              have hlength := congrArg List.length hx
              rw [List.length_drop, List.length_drop, List.length_append, List.length_cons]
                at hlength
              rw [List.length_append]
              omega
            refine h.wp_line hfits hline (hdrop ▸ hend) fun s' hout h' => ?_
            have htext := (cut_spec newline (rest ++ c)).1
            rw [tried_nil, ← List.append_assoc, htext, hdrop] at h'
            have hold' : (rest ++ c ++ old.drop (rest ++ c).length).length = GREPBUF := by
              rw [List.length_append, List.length_drop]
              omega
            have hrest' : (cut newline (rest ++ c)).2.length < GREPBUF := length_rest_le.trans_lt hlt
            refine wp_mono (ih h' hold' hrest') (fun _ t hnext heq => ?_) fun _ => id
            refine ⟨hline, hlt, hend, hnext ?_⟩
            rw [heq, hout, matching, filter_match_nil, List.append_assoc, ← List.append_assoc
              (unlines _ _), htext]
            simp
          · refine wp_mono (h.wp_round hfits hx hnul (.inr ⟨⟨w, rfl⟩, ?_⟩))
              (fun _ t hne heq => absurd heq hne) fun _ => id
            have hnot : newline ∉ rest ++ c := fun hmem =>
              (List.mem_append.mp hmem).elim h.line hline
            have hcut : cut newline (rest ++ c ++ x) = ([], rest ++ c ++ x) :=
              cut_of_not_mem fun hmem => (List.mem_append.mp hmem).elim hnot hxline
            have hflat : rest ++ (c :: cs).flatten = rest ++ c ++ cs.flatten := by simp
            rw [hcut, unlines_nil, keepRest, List.length_nil, if_pos rfl, wp_pure, hflat]
            have h' : AtHead ⟨rest ++ c ++ x ++ 0 :: w, cs, s.output⟩ []
                (rest ++ c ++ x ++ 0 :: w) cs := by
              refine ⟨rfl, ?_, rfl, by simp, by simp,
                fun c hc => h.parts c (List.mem_cons_of_mem _ hc)⟩
              have hlength := congrArg List.length hx
              rw [List.length_drop, List.length_drop] at hlength
              rw [List.append_assoc, List.length_append, ← hlength, List.length_append]
              omega
            have hlost := h'.wp_lost (k := k) (by simp [hc] : rest ++ c ≠ []) hnot
            simpa [tried] using hlost

end Converse

/-- `grep` comes to its end without an access outside of `buf`, and prints what it should. -/
def GrepPrints (pattern buf : List UInt8) (parts : List (List UInt8)) : Prop :=
  ∃ t, grep pattern ⟨buf, parts, []⟩ = .ok ((), t) ∧ t.output = matching pattern parts.flatten

section Theorem

variable {buf : List UInt8} {parts : List (List UInt8)}

theorem atHead_start (hbuf : buf.length = GREPBUF) (hparts : ∀ c ∈ parts, c ≠ [] ∧ 0 ∉ c) :
    AtHead ⟨buf, parts, []⟩ [] buf parts :=
  ⟨rfl, hbuf, rfl, by simp, by simp, hparts⟩

theorem length_le_flatten (hparts : ∀ c ∈ parts, c ≠ [] ∧ 0 ∉ c) :
    parts.length ≤ parts.flatten.length := by
  induction parts with
  | nil => exact le_rfl
  | cons c cs ih =>
      have hpos := List.length_pos_iff.mpr (hparts c List.mem_cons_self).1
      have hcs := ih fun c hc => hparts c (List.mem_cons_of_mem _ hc)
      rw [List.flatten_cons, List.length_append, List.length_cons]
      omega

/-- However the input comes, in parts of any length, `grep` prints the lines that match, in their
order and with their ends, for every pattern, exactly if the reads fit: whenever `grep` reads,
what is left in the buffer of the line that has begun leaves room for a part. When a line fills
the buffer, `read` is asked for nothing, and `grep` takes this for the end of the file. -/
theorem grep_prints (hbuf : buf.length = GREPBUF) (hparts : ∀ c ∈ parts, c ≠ [] ∧ 0 ∉ c)
    (hlast : (cut newline parts.flatten).2 = []) :
    (∀ pattern, GrepPrints pattern buf parts) ↔ ReadsFit [] buf parts := by
  have hstart := atHead_start hbuf hparts
  constructor
  · intro h
    obtain ⟨t, ht, hout⟩ := h []
    have hexact : wp (grep []) (fun _ t => t.output = parts.flatten → ReadsFit [] buf parts)
        (fun _ => True) ⟨buf, parts, []⟩ := by
      rw [grep, wp_bind, wp_get]
      exact hstart.wp_exact hbuf (by decide)
    refine (wp_of_ok ht).mp hexact ?_
    rw [hout, matching, filter_match_nil]
    have htext := (cut_spec newline parts.flatten).1
    rwa [hlast, List.append_nil] at htext
  · intro hfits pattern
    have hrun : wp (grep pattern) (fun _ t => t.output = matching pattern parts.flatten)
        (fun _ => False) ⟨buf, parts, []⟩ := by
      rw [grep, wp_bind, wp_get]
      exact hstart.wp_fits hfits (faded_refl buf) (Nat.lt_succ_of_le (length_le_flatten hparts))
    obtain ⟨_, t, ht, hout⟩ := hrun.exists_ok
    exact ⟨t, ht, hout⟩

/-- A line that comes at once is found. -/
theorem grep_prints_line :
    GrepPrints [97] (List.replicate GREPBUF 0) [[97, newline]] :=
  (grep_prints List.length_replicate (by decide) (by decide)).mpr (by decide) [97]

/-- Of a line that comes in two parts the first part is lost. -/
theorem grep_loses_beginning :
    ¬ GrepPrints [] (List.replicate GREPBUF 0) [[97], [newline]] := by
  rintro ⟨t, ht, hout⟩
  have hlen : (List.replicate GREPBUF (0 : UInt8)).length = GREPBUF := List.length_replicate
  have hstart : AtHead ⟨List.replicate GREPBUF 0, [[97], [newline]], []⟩ []
      ((List.replicate GREPBUF 0).drop ([] : List UInt8).length) [[97], [newline]] :=
    atHead_start hlen (by decide)
  have hexact : wp (grep []) (fun _ t => t.output = [97, newline] →
      ReadsFit [] (List.replicate GREPBUF 0) [[97], [newline]])
      (fun _ => True) ⟨List.replicate GREPBUF 0, [[97], [newline]], []⟩ := by
    rw [grep, wp_bind, wp_get]
    exact hstart.wp_exact hlen (by decide)
  have hfits := (wp_of_ok ht).mp hexact hout
  exact absurd hfits.1 (by decide)

end Theorem

end Xv6
