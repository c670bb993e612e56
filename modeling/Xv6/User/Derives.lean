import Xv6.User.Parses

/-!
# The lines that the parser accepts

To a line that the grammar derives, the parser gives the command of the derivation. What comes
behind the tokens of a command tells the parser that the command is at its end. `nulterminate` then
makes each word of the command a string of its own.
-/

namespace Xv6

namespace Shell

open Foundation

def Stops (toks : List UInt8) (rest : List Tok) : Prop := rest = [] ∨ begins toks rest = true

section Stops

variable {toks toks' : List UInt8} {ts u v rest : List Tok} {m : ℕ} {ws : List (List UInt8)}
  {rs : List (Redir (List UInt8))}

theorem begins_disjoint (h : begins toks ts = true) (hdisj : toks.all (· ∉ toks') = true) :
    begins toks' ts = false := by
  unfold begins at *
  cases hc : ts.head?.bind Tok.symbol with
  | none => rfl
  | some c =>
      rw [hc] at h
      exact decide_eq_false (of_decide_eq_true (List.all_eq_true.mp hdisj c (of_decide_eq_true h)))

theorem Stops.no (h : Stops toks rest) (hdisj : toks.all (· ∉ toks') = true) :
    begins toks' rest = false := by
  cases h with
  | inl h =>
      rw [h]
      rfl
  | inr h => exact begins_disjoint h hdisj

theorem Stops.mono (h : Stops toks rest) (hsub : toks ⊆ toks') : Stops toks' rest := by
  refine h.imp_right fun h => ?_
  unfold begins at *
  cases hc : rest.head?.bind Tok.symbol with
  | none =>
      rw [hc] at h
      exact h
  | some c =>
      rw [hc] at h
      exact decide_eq_true (hsub (of_decide_eq_true h))

theorem Stops.amps (h : Stops toks rest) (hamp : 38 ∈ toks) :
    Stops toks (List.replicate m .amp ++ rest) := by
  cases m with
  | zero => exact h
  | succ m => exact Or.inr (decide_eq_true hamp)

/-- Redirections begin with their symbols only. -/
theorem Redirs.no (h : Redirs u rs) (hdisj : [60, 62].all (· ∉ toks) = true)
    (hno : begins toks rest = false) : begins toks (u ++ rest) = false := by
  cases h with
  | nil => exact hno
  | cons ht _ => exact begins_disjoint (begins_of_redir ht) hdisj

/-- Words begin with a word. -/
theorem Words.no (h : Words u ws rs) (hno : begins toks rest = false) :
    begins toks (u ++ rest) = false := by
  cases h with
  | nil => exact hno
  | cons _ _ => rfl

end Stops

section Loops

variable {s : List UInt8} {p n : ℕ} {u rest : List Tok} {c ret : Parsed} {argv : List (ℕ × ℕ)}
  {ws : List (List UInt8)} {rs : List (Redir (List UInt8))} {Q : Parsed → ℕ → Prop}
  {E : Fault → Prop}

theorem Redirs.wp (hu : Redirs u rs) (h : Left s p (u ++ rest)) (hs : 0 ∉ s)
    (hfuel : u.length < n) (hno : begins [60, 62] rest = false)
    (hQ : ∀ fs p', fs.map (Redir.map (wordAt s)) = rs → Left s p' rest → Q (c.wrap fs) p') :
    wp (parseredirs s n c) Q E p := by
  induction hu generalizing p n c Q with
  | nil =>
      cases n with
      | zero => omega
      | succ n =>
          rw [parseredirs, wp_bind]
          refine h.wp_peek hs (by decide) fun p' h => ?_
          rw [List.nil_append] at h ⊢
          rw [hno, if_neg Bool.false_ne_true, wp_pure]
          exact hQ [] p' rfl h
  | @cons t w mode fd u rs ht hu ih =>
      cases n with
      | zero => omega
      | succ n =>
          have hbegins : begins [60, 62] (t :: .word w :: u ++ rest) = true := begins_of_redir ht
          rw [List.length_cons, List.length_cons] at hfuel
          rw [parseredirs, wp_bind]
          refine h.wp_peek hs (by decide) fun p' h => ?_
          rw [hbegins, if_pos rfl, wp_bind]
          refine h.wp_gettoken hs (fun hnil => by cases hnil) fun t₁ ts₁ hts _ _ p₁ h₁ _ => ?_
          cases hts
          change Foundation.wp (gettoken s >>= _) _ _ _
          rw [wp_bind]
          refine h₁.wp_gettoken hs (fun hnil => by cases hnil)
            fun t₂ ts₂ hts q eq p₂ h₂ hword => ?_
          cases hts
          obtain ⟨hw, -⟩ := hword w rfl
          have hbranch := Tok.redir_code
            (fun mode fd => parseredirs s n (.redir c (q, eq) mode fd)) (parseredirs s n c) ht
          change Foundation.wp (if (97 : UInt8) ≠ 97 then _ else _) _ _ _
          rw [if_neg fun hne => hne rfl, hbranch]
          refine ih h₂ (by omega) fun fs p' hfs h' => hQ (⟨(q, eq), mode, fd⟩ :: fs) p' ?_ h'
          rw [List.map_cons, hfs, Redir.map, hw]

theorem Words.wp (hu : Words u ws rs) (h : Left s p (u ++ rest)) (hs : 0 ∉ s)
    (hfuel : u.length < n) (hfew : argv.length + ws.length < MAXARGS)
    (hstop : Stops [124, 41, 38, 59] rest)
    (hQ : ∀ as fs p', as.map (wordAt s) = ws → fs.map (Redir.map (wordAt s)) = rs →
      Left s p' rest → Q ((ret.wrap fs).fill (argv ++ as)) p') :
    wp (parseargs s n argv ret) Q E p := by
  induction hu generalizing p n argv ret Q with
  | nil =>
      have hend : ∀ p', Left s p' rest → Q (ret.fill argv) p' := fun p' h' => by
        have hQ' := hQ [] [] p' rfl rfl h'
        rw [List.append_nil] at hQ'
        exact hQ'
      rw [List.length_nil, Nat.add_zero] at hfew
      cases n with
      | zero => omega
      | succ n =>
          rw [parseargs, wp_bind]
          refine h.wp_peek hs (by decide) fun p' h => ?_
          rw [List.nil_append] at h ⊢
          cases hstop with
          | inl hnil =>
              subst hnil
              rw [show begins [124, 41, 38, 59] [] = false from rfl, if_neg Bool.false_ne_true,
                wp_bind]
              refine h.wp_gettoken hs (fun _ q p' h' => ?_) fun t ts hts => by cases hts
              change Foundation.wp (if (0 : UInt8) = 0 then _ else _) _ _ _
              rw [if_pos rfl, wp_finish hfew]
              exact hend p' h'
          | inr hstop =>
              rw [hstop, if_pos rfl, wp_finish hfew]
              exact hend p' h
  | @cons w u v ws rs rs' hu hv ih =>
      rw [List.length_cons] at hfew
      simp only [List.length_cons, List.length_append] at hfuel
      rw [List.cons_append, List.append_assoc] at h
      cases n with
      | zero => omega
      | succ n =>
          rw [parseargs, wp_bind]
          refine h.wp_peek hs (by decide) fun p' h => ?_
          change Foundation.wp (if false = true then _ else _) _ _ _
          rw [if_neg Bool.false_ne_true, wp_bind]
          refine h.wp_gettoken hs (fun hnil => by cases hnil) fun t ts hts q eq p₁ h₁ hword => ?_
          cases hts
          obtain ⟨hw, -⟩ := hword w rfl
          change Foundation.wp (if (97 : UInt8) = 0 then _ else if (97 : UInt8) ≠ 97 then _ else _)
            _ _ _
          rw [if_neg (by decide), if_neg fun hne => hne rfl, if_neg (by omega), if_neg (by omega),
            wp_bind]
          refine hu.wp h₁ hs (by omega) (hv.no (hstop.no rfl)) fun fs p₂ hfs h₂ => ?_
          refine ih h₂ (by omega) (by rw [List.length_append, List.length_singleton]; omega)
            fun as fs' p' has hfs' h' => ?_
          have hQ' := hQ ((q, eq) :: as) (fs ++ fs') p' (by rw [List.map_cons, has, hw])
            (by rw [List.map_append, hfs, hfs']) h'
          rw [Parsed.wrap_append] at hQ'
          rw [List.append_assoc]
          exact hQ'

end Loops

/-- The command is built, and its tokens have been taken. -/
def Gives (s : List UInt8) (rest : List Tok) (cmd : Cmd) (c : Parsed) (p : ℕ) : Prop :=
  c.map (wordAt s) = cmd ∧ Left s p rest

/-- With that much fuel no derivation is missed. -/
structure Complete (s : List UInt8) (n : ℕ) : Prop where
  line : ∀ {p u rest cmd}, Line u cmd → Left s p (u ++ rest) → Stops [41] rest →
    4 * u.length + 4 ≤ n → wp (parseline s n) (Gives s rest cmd) (fun _ => False) p
  pipe : ∀ {p u rest cmd}, Pipe u cmd → Left s p (u ++ rest) → Stops [41, 38, 59] rest →
    4 * u.length + 3 ≤ n → wp (parsepipe s n) (Gives s rest cmd) (fun _ => False) p
  exec : ∀ {p u rest cmd}, Exec u cmd → Left s p (u ++ rest) → Stops [124, 41, 38, 59] rest →
    4 * u.length + 2 ≤ n → wp (parseexec s n) (Gives s rest cmd) (fun _ => False) p
  block : ∀ {p u v rest c rs}, Line u c → Redirs v rs →
    Left s p (.lpar :: (u ++ .rpar :: v) ++ rest) → Stops [124, 41, 38, 59] rest →
    4 * (u.length + v.length + 2) + 1 ≤ n →
    wp (parseblock s n) (Gives s rest (redirect c rs)) (fun _ => False) p

section Complete

variable {s : List UInt8} {p n : ℕ} {u v rest : List Tok} {cmd : Cmd}
  {rs : List (Redir (List UInt8))}

theorem Complete.line_succ (ih : Complete s n) (hs : 0 ∉ s) (hu : Line u cmd)
    (h : Left s p (u ++ rest)) (hstop : Stops [41] rest) (hfuel : 4 * u.length + 4 ≤ n + 1) :
    wp (parseline s (n + 1)) (Gives s rest cmd) (fun _ => False) p := by
  rw [parseline, wp_bind]
  cases hu with
  | @last u c m hu =>
      simp only [List.length_append, List.length_replicate] at hfuel
      rw [List.append_assoc] at h
      have hrest : Stops [41, 38, 59] rest := hstop.mono (by decide)
      refine wp_mono (ih.pipe hu h (hrest.amps (by decide)) (by omega)) ?_ fun _ he => he
      rintro c p₁ ⟨rfl, h₁⟩
      rw [wp_bind]
      refine h₁.wp_parsebacks hs (by omega) (hstop.no rfl) fun p₂ h₂ => ?_
      rw [wp_bind]
      refine h₂.wp_peek hs (by decide) fun p₃ h₃ => ?_
      rw [hstop.no rfl, if_neg Bool.false_ne_true, wp_pure]
      exact ⟨Parsed.map_backs, h₃⟩
  | @seq u v c d m hu hv =>
      simp only [List.length_append, List.length_replicate, List.length_cons] at hfuel
      simp only [List.append_assoc, List.cons_append] at h
      have hrest : Stops [41, 38, 59] (Tok.semi :: (v ++ rest)) := Or.inr rfl
      refine wp_mono (ih.pipe hu h (hrest.amps (by decide)) (by omega)) ?_ fun _ he => he
      rintro c p₁ ⟨rfl, h₁⟩
      rw [wp_bind]
      refine h₁.wp_parsebacks hs (by omega) rfl fun p₂ h₂ => ?_
      rw [wp_bind]
      refine h₂.wp_peek hs (by decide) fun p₃ h₃ => ?_
      change wp (if true = true then _ else _) _ _ _
      rw [if_pos rfl]
      refine h₃.wp_take hs fun p₄ h₄ => ?_
      rw [wp_bind]
      refine wp_mono (ih.line hv h₄ hstop (by omega)) ?_ fun _ he => he
      rintro d p₅ ⟨rfl, h₅⟩
      rw [wp_pure]
      refine ⟨?_, h₅⟩
      rw [Parsed.map, Parsed.map_backs]

theorem Complete.pipe_succ (ih : Complete s n) (hs : 0 ∉ s) (hu : Pipe u cmd)
    (h : Left s p (u ++ rest)) (hstop : Stops [41, 38, 59] rest)
    (hfuel : 4 * u.length + 3 ≤ n + 1) :
    wp (parsepipe s (n + 1)) (Gives s rest cmd) (fun _ => False) p := by
  rw [parsepipe, wp_bind]
  cases hu with
  | last hu =>
      refine wp_mono (ih.exec hu h (hstop.mono (by decide)) (by omega)) ?_ fun _ he => he
      rintro c p₁ ⟨rfl, h₁⟩
      rw [wp_bind]
      refine h₁.wp_peek hs (by decide) fun p₂ h₂ => ?_
      rw [hstop.no rfl, if_neg Bool.false_ne_true, wp_pure]
      exact ⟨rfl, h₂⟩
  | @pipe u v c d hu hv =>
      simp only [List.length_append, List.length_cons] at hfuel
      rw [List.append_assoc, List.cons_append] at h
      refine wp_mono (ih.exec hu h (Or.inr rfl) (by omega)) ?_ fun _ he => he
      rintro c p₁ ⟨rfl, h₁⟩
      rw [wp_bind]
      refine h₁.wp_peek hs (by decide) fun p₂ h₂ => ?_
      change wp (if true = true then _ else _) _ _ _
      rw [if_pos rfl]
      refine h₂.wp_take hs fun p₃ h₃ => ?_
      rw [wp_bind]
      refine wp_mono (ih.pipe hv h₃ hstop (by omega)) ?_ fun _ he => he
      rintro d p₄ ⟨rfl, h₄⟩
      rw [wp_pure]
      exact ⟨rfl, h₄⟩

theorem Complete.exec_succ (ih : Complete s n) (hs : 0 ∉ s) (hu : Exec u cmd)
    (h : Left s p (u ++ rest)) (hstop : Stops [124, 41, 38, 59] rest)
    (hfuel : 4 * u.length + 2 ≤ n + 1) :
    wp (parseexec s (n + 1)) (Gives s rest cmd) (fun _ => False) p := by
  rw [parseexec, wp_bind]
  refine h.wp_peek hs (by decide) fun p₁ h₁ => ?_
  cases hu with
  | @block u v c rs hu hv =>
      simp only [List.length_append, List.length_cons] at hfuel
      change wp (if true = true then _ else _) _ _ _
      rw [if_pos rfl]
      exact ih.block hu hv h₁ hstop (by omega)
  | @words u v ws rs rs' hu hv hfew =>
      rw [List.length_append] at hfuel
      rw [List.append_assoc] at h₁ ⊢
      have hrest : begins [40] rest = false := hstop.no rfl
      have hblock := hu.no rfl (hv.no hrest)
      rw [hblock, if_neg Bool.false_ne_true, wp_bind]
      refine hu.wp h₁ hs (by omega) (hv.no (hstop.no rfl)) fun fs p₂ hfs h₂ => ?_
      refine hv.wp h₂ hs (by omega) (by rwa [List.length_nil, Nat.zero_add]) hstop
        fun as fs' p₃ has hfs' h₃ => ⟨?_, h₃⟩
      rw [← Parsed.wrap_append, Parsed.fill_wrap, Parsed.map_wrap, List.map_append, hfs, hfs',
        ← has]
      rfl

theorem Complete.block_succ (ih : Complete s n) (hs : 0 ∉ s) {c : Cmd} (hu : Line u c)
    (hv : Redirs v rs) (h : Left s p (.lpar :: (u ++ .rpar :: v) ++ rest))
    (hstop : Stops [124, 41, 38, 59] rest)
    (hfuel : 4 * (u.length + v.length + 2) + 1 ≤ n + 1) :
    wp (parseblock s (n + 1)) (Gives s rest (redirect c rs)) (fun _ => False) p := by
  simp only [List.append_assoc, List.cons_append] at h
  rw [parseblock, wp_bind]
  refine h.wp_peek hs (by decide) fun p₁ h₁ => ?_
  change wp (if true = true then _ else _) _ _ _
  rw [if_pos rfl]
  refine h₁.wp_take hs fun p₂ h₂ => ?_
  rw [wp_bind]
  refine wp_mono (ih.line hu h₂ (Or.inr rfl) (by omega)) ?_ fun _ he => he
  rintro c p₃ ⟨rfl, h₃⟩
  rw [wp_bind]
  refine h₃.wp_peek hs (by decide) fun p₄ h₄ => ?_
  change wp (if true = true then _ else _) _ _ _
  rw [if_pos rfl]
  refine h₄.wp_take hs fun p₅ h₅ => ?_
  refine hv.wp h₅ hs (by omega) (hstop.no rfl) fun fs p₆ hfs h₆ => ⟨?_, h₆⟩
  rw [Parsed.map_wrap, hfs]

theorem complete (hs : 0 ∉ s) : Complete s n := by
  induction n with
  | zero =>
      exact {
        line := fun _ _ _ hfuel => by omega
        pipe := fun _ _ _ hfuel => by omega
        exec := fun _ _ _ hfuel => by omega
        block := fun _ _ _ _ hfuel => by omega }
  | succ n ih =>
      exact {
        line := ih.line_succ hs
        pipe := ih.pipe_succ hs
        exec := ih.exec_succ hs
        block := ih.block_succ hs }

end Complete

/-! ### `nulterminate` -/

section Strings

variable {s buf : List UInt8} {w w' : ℕ × ℕ} {c : Parsed} {ws : List (ℕ × ℕ)} {i : ℕ} {d : UInt8}

/-- The words are ended one after the other. -/
theorem nulterminate_words :
    nulterminate c buf = c.words.foldlM (fun buf w => poke buf w.2) buf := by
  induction c generalizing buf with
  | exec argv => rfl
  | redir cmd file mode fd ih =>
      rw [nulterminate, Parsed.words, List.foldlM_append, ih]
      refine bind_congr fun buf' => ?_
      rw [List.foldlM_cons]
      exact (bind_pure _).symm
  | pipe left right ihl ihr | list left right ihl ihr =>
      rw [nulterminate, Parsed.words, List.foldlM_append, ihl]
      exact bind_congr fun buf' => ihr
  | back cmd ih => exact ih

theorem poke_all (h : ∀ w ∈ ws, w.2 < buf.length) :
    ∃ buf', ws.foldlM (fun buf w => poke buf w.2) buf = .ok buf' ∧
      (∀ w ∈ ws, buf'[w.2]? = some 0) ∧ ∀ i, (∀ w ∈ ws, w.2 ≠ i) → buf'[i]? = buf[i]? := by
  induction ws generalizing buf with
  | nil => exact ⟨buf, rfl, fun _ hw => absurd hw List.not_mem_nil, fun _ _ => rfl⟩
  | cons w ws ih =>
      have hw := h w List.mem_cons_self
      have hws : ∀ w' ∈ ws, w'.2 < (buf.set w.2 0).length := fun w' hw' => by
        rw [List.length_set]
        exact h w' (List.mem_cons_of_mem _ hw')
      obtain ⟨buf', hok, hzero, hsame⟩ := ih hws
      refine ⟨buf', ?_, ?_, fun i hi => ?_⟩
      · rw [List.foldlM_cons, poke, if_pos hw]
        exact hok
      · refine List.forall_mem_cons.mpr ⟨?_, hzero⟩
        by_cases hagain : ∃ w' ∈ ws, w'.2 = w.2
        · obtain ⟨w', hw', heq⟩ := hagain
          rw [← heq]
          exact hzero w' hw'
        · rw [hsame w.2 fun w' hw' heq => hagain ⟨w', hw', heq⟩, List.getElem?_set_self hw]
      · obtain ⟨hi, hi'⟩ := List.forall_mem_cons.mp hi
        rw [hsame i hi', List.getElem?_set_ne hi]

theorem Spans.parts (h : Spans s w) :
    s.drop w.1 = wordAt s w ++ s.drop w.2 ∧ (s.drop w.2).head?.all (fun c => !isWord c) = true := by
  have hsplit : s.drop w.1 = wordAt s w ++ (s.drop w.1).dropWhile isWord :=
    List.takeWhile_append_dropWhile.symm
  have hrest : s.drop w.2 = (s.drop w.1).dropWhile isWord := by
    rw [h.stop, ← List.drop_drop, hsplit, List.drop_left]
    rw [← hsplit]
  rw [hrest]
  refine ⟨hsplit, ?_⟩
  have hhead := List.head?_dropWhile_not isWord (s.drop w.1)
  cases hd : ((s.drop w.1).dropWhile isWord).head? with
  | none => rfl
  | some c =>
      rw [hd] at hhead
      simpa using hhead

theorem Spans.inside_word (h : Spans s w) (hi : w.1 ≤ i) (hi' : i < w.2) (hd : s[i]? = some d) :
    isWord d = true := by
  have hlen := h.stop
  have hget : (s.drop w.1)[i - w.1]? = some d := by
    rw [List.getElem?_drop, Nat.add_sub_cancel' hi]
    exact hd
  rw [h.parts.1, List.getElem?_append_left (by omega)] at hget
  exact List.mem_takeWhile_imp (List.mem_of_getElem? hget)

/-- No word ends within another. -/
theorem Spans.apart (h : Spans s w) (h' : Spans s w') (hi : w.1 ≤ w'.2) : w.2 ≤ w'.2 := by
  by_contra hlt
  have hin := h.inside
  have hget : s[w'.2]? = some s[w'.2] := List.getElem?_eq_getElem _
  have hword := h.inside_word hi (by omega) hget
  have hend := h'.parts.2
  rw [List.head?_drop, hget] at hend
  rw [Option.all_some, hword] at hend
  cases hend

theorem Spans.read (h : Spans s w) (hs : 0 ∉ s) (hzero : buf[w.2]? = some 0)
    (hsame : ∀ i, w.1 ≤ i → i < w.2 → buf[i]? = s[i]?) : stringAt buf w = wordAt s w := by
  have hstop := h.stop
  have hword : (buf.drop w.1).take (wordAt s w).length = wordAt s w := by
    refine List.ext_getElem? fun i => ?_
    by_cases hi : i < (wordAt s w).length
    · rw [List.getElem?_take_of_lt hi, List.getElem?_drop, hsame _ (by omega) (by omega),
        ← List.getElem?_drop, h.parts.1, List.getElem?_append_left hi]
    · rw [List.getElem?_take_eq_none (by omega), List.getElem?_eq_none (by omega)]
  have hrest : ∃ l, buf.drop w.2 = 0 :: l := by
    have hlt : w.2 < buf.length := (List.getElem?_eq_some_iff.mp hzero).1
    refine ⟨buf.drop (w.2 + 1), ?_⟩
    rw [List.drop_eq_getElem_cons hlt]
    rw [List.getElem?_eq_getElem hlt] at hzero
    rw [Option.some.inj hzero]
  obtain ⟨l, hl⟩ := hrest
  have hsplit : buf.drop w.1 = wordAt s w ++ 0 :: l := by
    rw [← List.take_append_drop (wordAt s w).length (buf.drop w.1), hword, List.drop_drop, ← hstop,
      hl]
  have hne : ∀ c ∈ wordAt s w, (decide (c ≠ 0)) = true := fun c hc =>
    decide_eq_true fun hc' =>
      hs (List.mem_of_mem_drop ((List.takeWhile_prefix _).subset (hc' ▸ hc)))
  rw [stringAt, hsplit, List.takeWhile_append_of_pos hne,
    List.takeWhile_cons_of_neg (by decide), List.append_nil]

theorem Parsed.map_congr {f g : ℕ × ℕ → List UInt8} (h : ∀ w ∈ c.words, f w = g w) :
    c.map f = c.map g := by
  induction c with
  | exec argv => exact congrArg Cmd.exec (List.map_congr_left h)
  | redir cmd file mode fd ih =>
      obtain ⟨hcmd, hfile⟩ := List.forall_mem_append.mp h
      rw [map, map, ih hcmd, hfile file List.mem_cons_self]
  | pipe left right ihl ihr | list left right ihl ihr =>
      obtain ⟨hl, hr⟩ := List.forall_mem_append.mp h
      rw [map, map, ihl hl, ihr hr]
  | back cmd ih => rw [map, map, ih h]

/-- With its words ended the command is read as it was parsed. -/
theorem Parsed.Placed.read (h : c.Placed s) (hs : 0 ∉ s) :
    ∃ buf, nulterminate c (s ++ [0]) = .ok buf ∧ c.read buf = c.map (wordAt s) := by
  have hws : ∀ w ∈ c.words, w.2 < (s ++ [0]).length := fun w hw => by
    rw [List.length_append, List.length_singleton]
    exact Nat.lt_succ_of_le (h w hw).inside
  obtain ⟨buf, hok, hzero, hsame⟩ := poke_all hws
  refine ⟨buf, nulterminate_words.trans hok, map_congr fun w hw => ?_⟩
  refine (h w hw).read hs (hzero w hw) fun i hi hi' => ?_
  have hin := (h w hw).inside
  rw [hsame i fun w' hw' heq => ?_, List.getElem?_append_left (by omega)]
  have hle := (h w hw).apart (h w' hw') (by omega)
  omega

end Strings

/-! ### `parsecmd` -/

section Parsecmd

variable {s : List UInt8} {p : ℕ} {ts rest : List Tok} {c : Parsed}

/-- A token has a character at least. -/
theorem lex_length (s : List UInt8) : (lex s).length ≤ s.length := by
  fun_induction lex s with
  | case1 => exact Nat.le_refl _
  | case2 c s hspace ih => exact ih.trans (Nat.le_succ _)
  | case3 c s hspace htwo ih =>
      exact Nat.succ_le_succ (ih.trans ((List.length_tail ..).trans_le (Nat.sub_le _ _)))
  | case4 c s hspace htwo t ht ih => exact Nat.succ_le_succ ih
  | case5 c s hspace htwo ht ih =>
      exact Nat.succ_le_succ (ih.trans (List.dropWhile_suffix _).length_le)

/-- Behind the white space the line is at its end if no token is left. -/
theorem Left.leftover (h : Left s p ts) (hs : 0 ∉ s) :
    ∃ b q, peek s [] p = .ok (b, q) ∧ (q = s.length ↔ ts = []) := by
  obtain ⟨l, hat, rfl⟩ := h
  obtain ⟨q, hskip, hq⟩ := hat.space
  have hlen := hq.length
  have hpeek : wp (peek s []) (fun _ q' => q' = q) (fun _ => False) p := by
    unfold peek
    rw [wp_bind, wp_get, wp_bind, wp_lift_of_ok hskip, wp_bind, wp_set, wp_bind,
      wp_lift_of_ok hq.char, wp_pure]
  obtain ⟨b, q', hok, rfl⟩ := hpeek.exists_ok
  refine ⟨b, q', hok, ?_⟩
  rw [← lex_dropWhile]
  cases hl : l.dropWhile isSpace with
  | nil =>
      rw [hl, List.length_nil] at hlen
      exact iff_of_true hlen lex_nil
  | cons c l' =>
      rw [hl] at hq hlen
      rw [List.length_cons] at hlen
      obtain ⟨t, eq, rest, ht⟩ := hq.takes hs (isSpace_head hl)
      rw [ht.lex]
      exact iff_of_false (by omega) (List.cons_ne_nil _ _)

theorem parsecmd_of_ok (h : parseline s (4 * s.length + 4) 0 = .ok (c, p)) (hs : 0 ∉ s)
    (hleft : Left s p rest) (hc : c.Placed s) :
    (rest = [] → ∃ buf, parsecmd s = .ok (c, buf) ∧ c.read buf = c.map (wordAt s)) ∧
      (rest ≠ [] → parsecmd s = .error (.panic "syntax")) := by
  obtain ⟨b, q, hpeek, hq⟩ := hleft.leftover hs
  have hcmd : parsecmd s = if q ≠ s.length then .error (.panic "syntax") else do
      let buf ← nulterminate c (s ++ [0])
      return (c, buf) := by
    unfold parsecmd
    rw [h]
    change (peek s [] p >>= _) = _
    rw [hpeek]
    rfl
  rw [hcmd]
  refine ⟨fun hnil => ?_, fun hrest => if_pos fun hend => hrest (hq.mp hend)⟩
  obtain ⟨buf, hok, hread⟩ := hc.read hs
  refine ⟨buf, ?_, hread⟩
  rw [if_neg fun hne => hne (hq.mpr hnil), hok]
  rfl

theorem parsecmd_of_error {e : Fault} (h : parseline s (4 * s.length + 4) 0 = .error e) :
    parsecmd s = .error e := by
  unfold parsecmd
  rw [h]
  rfl

theorem parseline_start (hs : 0 ∉ s) :
    wp (parseline s (4 * s.length + 4)) (Reads s (lex s) Line) Reported 0 :=
  (sound hs).line ⟨s, .here s, rfl⟩ (by have := lex_length s; omega)

/-- The parser panics, or it returns a command; there is nothing else that it does. -/
theorem parsecmd_reported (hs : 0 ∉ s) {e : Fault} (h : parsecmd s = .error e) : Reported e := by
  have hsound := parseline_start hs
  cases hm : parseline s (4 * s.length + 4) 0 with
  | error e' =>
      rw [parsecmd_of_error hm] at h
      cases h
      exact (wp_of_error hm).mp hsound
  | ok r =>
      obtain ⟨u, rest, -, hleft, -, hc⟩ := (wp_of_ok hm).mp hsound
      obtain ⟨hnil, hrest⟩ := parsecmd_of_ok hm hs hleft hc
      by_cases hempty : rest = []
      · obtain ⟨buf, hok, -⟩ := hnil hempty
        rw [hok] at h
        cases h
      · rw [hrest hempty] at h
        cases h
        trivial

theorem parsecmd_sound (hs : 0 ∉ s) {tree : Parsed} {buf : List UInt8}
    (h : parsecmd s = .ok (tree, buf)) : Line (lex s) (tree.read buf) := by
  have hsound := parseline_start hs
  cases hm : parseline s (4 * s.length + 4) 0 with
  | error e =>
      rw [parsecmd_of_error hm] at h
      cases h
  | ok r =>
      obtain ⟨u, rest, hts, hleft, hu, hc⟩ := (wp_of_ok hm).mp hsound
      obtain ⟨hnil, hrest⟩ := parsecmd_of_ok hm hs hleft hc
      by_cases hempty : rest = []
      · obtain ⟨buf', hok, hread⟩ := hnil hempty
        rw [hok] at h
        cases h
        rw [hread, hts, hempty, List.append_nil]
        exact hu
      · rw [hrest hempty] at h
        cases h

theorem parsecmd_complete (hs : 0 ∉ s) {cmd : Cmd} (h : Line (lex s) cmd) :
    ∃ tree buf, parsecmd s = .ok (tree, buf) ∧ tree.read buf = cmd := by
  have hlen := lex_length s
  have hleft : Left s 0 (lex s ++ []) := ⟨s, .here s, (List.append_nil _).symm⟩
  have hwp := wp_and (parseline_start hs) ((complete hs).line h hleft (Or.inl rfl) (by omega))
  obtain ⟨c, p, hm, ⟨u, rest, -, -, -, hc⟩, hmap, hleft⟩ :=
    (wp_mono hwp (fun _ _ h => h) fun _ he => he.2).exists_ok
  obtain ⟨buf, hok, hread⟩ := (parsecmd_of_ok hm hs hleft hc).1 rfl
  exact ⟨c, buf, hok, hread.trans hmap⟩

/-- Every line that holds no NUL is parsed without a load or a store that is out of bounds, and in
the number of steps that there is fuel for. What it is parsed to is the command that the grammar
gives it. -/
theorem parsecmd_grammar (hs : 0 ∉ s) :
    (∀ e, parsecmd s = .error e → Reported e) ∧
      ∀ cmd, (∃ tree buf, parsecmd s = .ok (tree, buf) ∧ tree.read buf = cmd) ↔
        Line (lex s) cmd := by
  refine ⟨fun e => parsecmd_reported hs, fun cmd => ⟨?_, parsecmd_complete hs⟩⟩
  rintro ⟨tree, buf, hok, rfl⟩
  exact parsecmd_sound hs hok

/-- `ls>f|wc&` -/
theorem parsecmd_grammar_pipe :
    Line (lex [108, 115, 62, 102, 124, 119, 99, 38])
      (.back (.pipe (.redir (.exec [[108, 115]]) [102] (O_WRONLY ||| O_CREATE) 1)
        (.exec [[119, 99]]))) :=
  ((parsecmd_grammar (by decide)).2 _).mp
    ⟨.back (.pipe (.redir (.exec [(0, 2)]) (3, 4) (O_WRONLY ||| O_CREATE) 1) (.exec [(5, 7)])),
      [108, 115, 0, 102, 0, 119, 99, 0, 0], by decide +kernel, by decide +kernel⟩

end Parsecmd

end Shell

end Xv6
