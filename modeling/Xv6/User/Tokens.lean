import Xv6.User.Grammar

/-!
# Tokens in the line

`gettoken` takes the first token of what is left of the line, and `peek` says whether that begins
with one of the given symbols. Neither loads what is behind the NUL.
-/

namespace Xv6

namespace Shell

open Foundation

/-- What is left of the line at `p`. -/
structure Rest (s : List UInt8) (p : ℕ) (l : List UInt8) : Prop where
  le : p ≤ s.length
  drop : s.drop p = l

def Left (s : List UInt8) (p : ℕ) (ts : List Tok) : Prop := ∃ l, Rest s p l ∧ lex l = ts

def wordAt (s : List UInt8) (word : ℕ × ℕ) : List UInt8 := (s.drop word.1).takeWhile isWord

/-- The positions are those of a word. -/
structure Spans (s : List UInt8) (word : ℕ × ℕ) : Prop where
  stop : word.2 = word.1 + (wordAt s word).length
  inside : word.2 ≤ s.length

/-- The first token begins with one of the symbols. -/
def begins (toks : List UInt8) (ts : List Tok) : Bool :=
  (ts.head?.bind Tok.symbol).any fun c => c ∈ toks

section Left

variable {s l : List UInt8} {p q fuel : ℕ} {c : UInt8} {ts : List Tok} {t : Tok}
  {E : Fault → Prop}

namespace Rest

theorem here (s : List UInt8) : Rest s 0 s := ⟨Nat.zero_le _, rfl⟩

theorem length (h : Rest s p l) : p + l.length = s.length := by
  have hle := h.le
  rw [← h.drop, List.length_drop]
  omega

theorem char (h : Rest s p l) : Shell.char s p = .ok (l.headD 0) := by
  have hlen := h.length
  unfold Shell.char
  cases l with
  | nil =>
      have hend : p = s.length := by simpa using hlen
      rw [dif_neg (by omega), if_pos hend]
      rfl
  | cons c l =>
      rw [List.length_cons] at hlen
      have hlt : p < s.length := by omega
      have hget := List.drop_eq_getElem_cons hlt
      rw [h.drop] at hget
      rw [dif_pos hlt, (List.cons.inj hget).1]
      rfl

theorem next (h : Rest s p (c :: l)) : Rest s (p + 1) l := by
  have hlen := h.length
  rw [List.length_cons] at hlen
  refine ⟨by omega, ?_⟩
  rw [← List.drop_drop, h.drop]
  rfl

/-- The loops stop at the first character that fails the test. -/
theorem skip (test : UInt8 → Bool) (h : Rest s p l) (hfuel : s.length < p + fuel) :
    Shell.skip s test fuel p = .ok (p + (l.takeWhile test).length) ∧
      Rest s (p + (l.takeWhile test).length) (l.dropWhile test) := by
  induction l generalizing p fuel with
  | nil =>
      have hlen := h.length
      rw [List.length_nil] at hlen
      cases fuel with
      | zero => omega
      | succ fuel =>
          rw [Shell.skip, if_neg (by omega)]
          exact ⟨rfl, h⟩
  | cons c l ih =>
      have hlen := h.length
      rw [List.length_cons] at hlen
      cases fuel with
      | zero => omega
      | succ fuel =>
          rw [Shell.skip, if_pos (by omega), h.char]
          change (if test c = true then Shell.skip s test fuel (p + 1) else Except.ok p) = _ ∧ _
          by_cases hc : test c = true
          · have hlen' : p + ((l.takeWhile test).length + 1) =
                p + 1 + (l.takeWhile test).length := by omega
            rw [if_pos hc, List.takeWhile_cons_of_pos hc, List.dropWhile_cons_of_pos hc,
              List.length_cons, hlen']
            exact ih h.next (by omega)
          · rw [if_neg hc, List.takeWhile_cons_of_neg hc, List.dropWhile_cons_of_neg hc]
            exact ⟨rfl, h⟩

end Rest

/-- White space is skipped. -/
theorem Rest.space (h : Rest s p l) : ∃ q, Shell.skip s isSpace (s.length + 1) p = .ok q ∧
    Rest s q (l.dropWhile isSpace) := by
  obtain ⟨hskip, hat⟩ := h.skip isSpace (show s.length < p + (s.length + 1) by omega)
  exact ⟨_, hskip, hat⟩

/-- What is left does not begin with white space then. -/
theorem isSpace_head {l' : List UInt8} (h : l.dropWhile isSpace = c :: l') : isSpace c = false := by
  have hhead := List.head?_dropWhile_not isSpace l
  rw [h] at hhead
  exact hhead

theorem Rest.ne_zero (h : Rest s p (c :: l)) (hs : 0 ∉ s) : c ≠ 0 := by
  rintro rfl
  refine hs (List.mem_of_mem_drop (i := p) ?_)
  rw [h.drop]
  exact List.mem_cons_self

/-! ### `gettoken` -/

theorem ofSymbol_of_mem (h : c ∈ [124, 40, 41, 59, 38, 60]) :
    ∃ t, Tok.ofSymbol c = some t ∧ t.code = c ∧ ∀ w, t ≠ .word w := by
  simp only [List.mem_cons, List.not_mem_nil, or_false] at h
  rcases h with rfl | rfl | rfl | rfl | rfl | rfl
  all_goals exact ⟨_, rfl, rfl, fun w hw => by cases hw⟩

theorem isWord_of (hspace : isSpace c = false) (hsix : c ∉ [124, 40, 41, 59, 38, 60])
    (hgreat : c ≠ 62) : isWord c = true := by
  refine decide_eq_true ⟨of_decide_eq_false hspace, fun hc => ?_⟩
  simp only [symbols, List.mem_cons, List.not_mem_nil, or_false] at hc
  simp only [List.mem_cons, List.not_mem_nil, or_false] at hsix
  tauto

/-- What `gettoken` has taken at `q`. -/
structure Takes (s : List UInt8) (q : ℕ) (l : List UInt8) (t : Tok) (eq : ℕ) (l' : List UInt8) :
    Prop where
  token : token s q = .ok (t.code, eq)
  rest : Rest s eq l'
  lex : lex l = t :: lex l'
  word : ∀ w, t = .word w → wordAt s (q, eq) = w ∧ Spans s (q, eq)

theorem Rest.takes (h : Rest s q (c :: l)) (hs : 0 ∉ s) (hspace : isSpace c = false) :
    ∃ t eq l', Takes s q (c :: l) t eq l' := by
  have hchar : Shell.char s q = .ok c := h.char
  have hne := h.ne_zero hs
  by_cases hsix : c ∈ [124, 40, 41, 59, 38, 60]
  · obtain ⟨t, hsymbol, hcode, hnot⟩ := ofSymbol_of_mem hsix
    refine ⟨t, q + 1, l, ?_, h.next, lex_symbol hsymbol hspace ?_, fun w hw => absurd hw (hnot w)⟩
    · unfold token
      rw [hchar, hcode]
      change (if c = 0 then _ else if c ∈ _ then _ else _) = _
      rw [if_neg hne, if_pos hsix]
      rfl
    · rintro rfl
      exact absurd hsix (by decide)
  · by_cases hgreat : c = 62
    · subst hgreat
      have hnext := h.next.char
      cases l with
      | nil =>
          refine ⟨.great, q + 1, [], ?_, h.next, lex_symbol rfl hspace fun _ hc => ?_,
            fun w hw => ?_⟩
          · unfold token
            rw [hchar]
            change (Shell.char s (q + 1) >>= fun next => _) = _
            rw [hnext]
            rfl
          · cases hc
          · cases hw
      | cons d l =>
          by_cases hd : d = 62
          · subst hd
            refine ⟨.append, q + 2, l, ?_, h.next.next, lex_append rfl, fun w hw => by cases hw⟩
            unfold token
            rw [hchar]
            change (Shell.char s (q + 1) >>= fun next => _) = _
            rw [hnext]
            rfl
          · refine ⟨.great, q + 1, d :: l, ?_, h.next, lex_symbol rfl hspace fun _ hc => ?_,
              fun w hw => by cases hw⟩
            · unfold token
              rw [hchar]
              change (Shell.char s (q + 1) >>= fun next => _) = _
              rw [hnext]
              change (if d = 62 then _ else _) = _
              rw [if_neg hd]
              rfl
            · exact hd (Option.some.inj hc)
    · have hword := isWord_of hspace hsix hgreat
      obtain ⟨hskip, hat⟩ := h.skip isWord (show s.length < q + (s.length + 1) by omega)
      rw [List.dropWhile_cons_of_pos hword] at hat
      have htext : wordAt s (q, q + ((c :: l).takeWhile isWord).length) =
          (c :: l).takeWhile isWord := by rw [wordAt, h.drop]
      refine ⟨.word (c :: l.takeWhile isWord), _, l.dropWhile isWord, ?_, hat, lex_word hword,
        fun w hw => ?_⟩
      · unfold token
        rw [hchar]
        change (if c = 0 then _ else if c ∈ _ then _ else if c = 62 then _ else _) = _
        rw [if_neg hne, if_neg hsix, if_neg hgreat, hskip]
        rfl
      · cases hw
        refine ⟨htext.trans (List.takeWhile_cons_of_pos hword), ?_, hat.le⟩
        rw [htext]

/-- The first token is taken. -/
theorem Left.wp_gettoken {Q : UInt8 × ℕ × ℕ → ℕ → Prop} (h : Left s p ts) (hs : 0 ∉ s)
    (hnone : ts = [] → ∀ q p', Left s p' [] → Q (0, q, q) p')
    (hsome : ∀ t ts', ts = t :: ts' → ∀ q eq p', Left s p' ts' →
      (∀ w, t = .word w → wordAt s (q, eq) = w ∧ Spans s (q, eq)) → Q (t.code, q, eq) p') :
    wp (gettoken s) Q E p := by
  obtain ⟨l, hat, rfl⟩ := h
  obtain ⟨q, hskip, hq⟩ := hat.space
  unfold gettoken
  rw [wp_bind, wp_get, wp_bind, wp_lift_of_ok hskip, wp_bind]
  cases hl : l.dropWhile isSpace with
  | nil =>
      rw [hl] at hq
      have hend : q = s.length := by simpa using hq.length
      have htoken : token s q = .ok (0, q) := by
        unfold token
        rw [hq.char]
        rfl
      have hlex : lex l = [] := by rw [← lex_dropWhile, hl, lex_nil]
      obtain ⟨p', hskip', hp'⟩ := hq.space
      rw [wp_lift_of_ok htoken, wp_bind, wp_lift_of_ok hskip', wp_bind, wp_set, wp_pure]
      exact hnone hlex q p' ⟨[], hp', lex_nil⟩
  | cons c l' =>
      rw [hl] at hq
      obtain ⟨t, eq, rest, ht⟩ := hq.takes hs (isSpace_head hl)
      obtain ⟨p', hskip', hp'⟩ := ht.rest.space
      rw [wp_lift_of_ok ht.token, wp_bind, wp_lift_of_ok hskip', wp_bind, wp_set, wp_pure]
      refine hsome t (lex rest) ?_ q eq p' ⟨_, hp', lex_dropWhile⟩ ht.word
      rw [← lex_dropWhile, hl, ht.lex]

/-! ### `peek` -/

/-- A symbol is the first character of its token. -/
theorem symbol_lex (hspace : isSpace c = false) (hc : c ∈ symbols) :
    (lex (c :: l)).head?.bind Tok.symbol = some c := by
  by_cases htwo : c = 62 ∧ l.head? = some 62
  · rw [htwo.1, lex_append htwo.2]
    rfl
  · have hsymbol : ∃ t, Tok.ofSymbol c = some t ∧ t.symbol = some c := by
      simp only [symbols, List.mem_cons, List.not_mem_nil, or_false] at hc
      rcases hc with rfl | rfl | rfl | rfl | rfl | rfl | rfl
      all_goals exact ⟨_, rfl, rfl⟩
    obtain ⟨t, ht, hcode⟩ := hsymbol
    rw [lex_symbol ht hspace fun h h' => htwo ⟨h, h'⟩]
    exact hcode

theorem begins_lex (hspace : isSpace c = false) {toks : List UInt8} (htoks : toks ⊆ symbols) :
    begins toks (lex (c :: l)) = decide (c ∈ toks) := by
  unfold begins
  by_cases hc : c ∈ symbols
  · rw [symbol_lex hspace hc]
    rfl
  · have hword : isWord c = true := decide_eq_true ⟨of_decide_eq_false hspace, hc⟩
    have hno : c ∉ toks := fun h => hc (htoks h)
    rw [lex_word hword, decide_eq_false hno]
    rfl

/-- The symbols are looked for. -/
theorem Left.wp_peek {Q : Bool → ℕ → Prop} {toks : List UInt8} (h : Left s p ts) (hs : 0 ∉ s)
    (htoks : toks ⊆ symbols) (hQ : ∀ p', Left s p' ts → Q (begins toks ts) p') :
    wp (peek s toks) Q E p := by
  obtain ⟨l, hat, rfl⟩ := h
  obtain ⟨q, hskip, hq⟩ := hat.space
  unfold peek
  rw [wp_bind, wp_get, wp_bind, wp_lift_of_ok hskip, wp_bind, wp_set, wp_bind,
    wp_lift_of_ok hq.char, wp_pure]
  have hleft : Left s q (lex l) := ⟨_, hq, lex_dropWhile⟩
  have hb := hQ q hleft
  rw [← lex_dropWhile] at hb
  cases hl : l.dropWhile isSpace with
  | nil =>
      rw [hl, lex_nil] at hb
      exact hb
  | cons c l' =>
      rw [hl] at hq hb
      rw [begins_lex (isSpace_head hl) htoks] at hb
      have hne := hq.ne_zero hs
      refine (congrArg (Q · q) ?_).mp hb
      exact decide_eq_decide.mpr ⟨fun hc => ⟨hne, hc⟩, fun hc => hc.2⟩

end Left

end Shell

end Xv6
