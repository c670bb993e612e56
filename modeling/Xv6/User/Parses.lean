import Xv6.User.Tokens

/-!
# What the parser builds

A command that `parseline` returns is one that the grammar gives to the tokens it has taken. The
parser stops at a line with `panic` only: it does not load behind the NUL, it does not store behind
the end of `argv`, and it does not run out of fuel.
-/

namespace Xv6

namespace Shell

open Foundation

def Reported : Fault → Prop
  | .panic _ => True
  | _ => False

theorem wp_panic {α : Type} {Q : α → ℕ → Prop} {E : Fault → Prop} {p : ℕ} {msg : String} :
    wp (panic msg : ParseM α) Q E p ↔ E (.panic msg) := wp_throw

namespace Parsed

def wrap (c : Parsed) (fs : List (Redir (ℕ × ℕ))) : Parsed :=
  fs.foldl (fun c r => .redir c r.file r.mode r.fd) c

/-- The words of a command, in the order in which `nulterminate` comes to them. -/
def words : Parsed → List (ℕ × ℕ)
  | exec argv => argv
  | redir cmd file _ _ => cmd.words ++ [file]
  | pipe left right => left.words ++ right.words
  | list left right => left.words ++ right.words
  | back cmd => cmd.words

def Placed (s : List UInt8) (c : Parsed) : Prop := ∀ w ∈ c.words, Spans s w

section Wrap

variable {c : Parsed} {f : ℕ × ℕ → List UInt8} {s : List UInt8} {r : Redir (ℕ × ℕ)}
  {fs fs' : List (Redir (ℕ × ℕ))} {argv : List (ℕ × ℕ)} {m : ℕ}

theorem wrap_append : c.wrap (fs ++ fs') = (c.wrap fs).wrap fs' := List.foldl_append

theorem fill_wrap : (c.wrap fs).fill argv = (c.fill argv).wrap fs := by
  induction fs generalizing c with
  | nil => rfl
  | cons r fs ih => exact ih

theorem map_wrap : (c.wrap fs).map f = redirect (c.map f) (fs.map (Redir.map f)) := by
  induction fs generalizing c with
  | nil => rfl
  | cons r fs ih => exact ih

theorem words_wrap : (c.wrap fs).words = c.words ++ fs.map Redir.file := by
  induction fs generalizing c with
  | nil => exact (List.append_nil _).symm
  | cons r fs ih =>
      have hwords := ih (c := .redir c r.file r.mode r.fd)
      rw [words, List.append_assoc] at hwords
      exact hwords

theorem map_backs : (back^[m] c).map f = Cmd.back^[m] (c.map f) :=
  (show Function.Semiconj (map f) back Cmd.back from fun _ => rfl).iterate_right m c

theorem words_backs : (back^[m] c).words = c.words := by
  induction m generalizing c with
  | zero => rfl
  | succ m ih => exact ih

theorem Placed.wrap (h : Placed s c) (hfs : ∀ r ∈ fs, Spans s r.file) : Placed s (c.wrap fs) := by
  intro w hw
  rw [words_wrap] at hw
  cases List.mem_append.mp hw with
  | inl hw => exact h w hw
  | inr hw =>
      obtain ⟨r, hr, rfl⟩ := List.mem_map.mp hw
      exact hfs r hr

theorem Placed.backs (h : Placed s c) : Placed s (back^[m] c) := fun w hw =>
  h w (words_backs ▸ hw)

end Wrap

end Parsed

namespace Tok

variable {t : Tok} {mode : UInt32} {fd : Fin 2}

theorem code_ne_zero : t.code ≠ 0 := by cases t <;> simp [code]

theorem code_eq_word (h : t.code = 97) : ∃ w, t = word w := by
  cases t with
  | word w => exact ⟨w, rfl⟩
  | _ => exact absurd h (by decide)

/-- What `parseredirs` does with a token of a redirection. -/
theorem redir_code {α : Type} (k : UInt32 → Fin 2 → α) (other : α)
    (h : t.redir = some (mode, fd)) :
    (if t.code = 60 then k O_RDONLY 0
      else if t.code = 62 then k (O_WRONLY ||| O_CREATE) 1
      else if t.code = 43 then k (O_WRONLY ||| O_CREATE) 1
      else other) = k mode fd := by
  cases t with
  | less | great | append =>
      cases h
      rfl
  | _ => cases h

end Tok

section Begins

variable {ts : List Tok} {t : Tok} {toks : List UInt8} {mode : UInt32} {fd : Fin 2}

theorem begins_redir (h : begins [60, 62] ts = true) :
    ∃ t ts' mode fd, ts = t :: ts' ∧ t.redir = some (mode, fd) := by
  cases ts with
  | nil => exact absurd h (by decide)
  | cons t ts =>
      cases t with
      | less | great | append => exact ⟨_, _, _, _, rfl, rfl⟩
      | _ => exact absurd h (by simp [begins, Tok.symbol, Tok.code])

theorem begins_of_redir (h : t.redir = some (mode, fd)) : begins [60, 62] (t :: ts) = true := by
  cases t with
  | less | great | append => rfl
  | _ => cases h

/-- The symbols other than `>` are tokens by themselves. -/
theorem begins_one {c : UInt8} (hc : Tok.ofSymbol c = some t) (hone : c ≠ 62)
    (h : begins [c] ts = true) : ∃ ts', ts = t :: ts' := by
  cases ts with
  | nil => exact absurd h Bool.false_ne_true
  | cons t' ts =>
      refine ⟨ts, ?_⟩
      cases t' with
      | append => exact absurd (List.mem_singleton.mp (of_decide_eq_true h)).symm hone
      | word w => exact absurd h Bool.false_ne_true
      | _ =>
          cases (List.mem_singleton.mp (of_decide_eq_true h)).symm
          cases hc
          rfl

end Begins

section Loops

variable {s : List UInt8} {p n m : ℕ} {ts rest : List Tok} {c ret : Parsed} {argv : List (ℕ × ℕ)}
  {Q : Parsed → ℕ → Prop} {E : Fault → Prop}

theorem Left.wp_parseredirs (h : Left s p ts) (hs : 0 ∉ s) (hfuel : ts.length < n)
    (hQ : ∀ u rest fs p', ts = u ++ rest → Left s p' rest →
      Redirs u (fs.map (Redir.map (wordAt s))) → (∀ r ∈ fs, Spans s r.file) → Q (c.wrap fs) p')
    (hE : ∀ msg, E (.panic msg)) : wp (parseredirs s n c) Q E p := by
  induction n generalizing p ts c Q with
  | zero => omega
  | succ n ih =>
      rw [parseredirs, wp_bind]
      refine h.wp_peek hs (by decide) fun p' h => ?_
      cases hb : begins [60, 62] ts with
      | false =>
          rw [if_neg Bool.false_ne_true, wp_pure]
          exact hQ [] ts [] p' rfl h .nil (fun r hr => by cases hr)
      | true =>
          obtain ⟨t, ts', mode, fd, rfl, ht⟩ := begins_redir hb
          rw [if_pos rfl, wp_bind]
          refine h.wp_gettoken hs (fun hnil => by cases hnil) fun t₁ ts₁ hts _ _ p₁ h₁ _ => ?_
          cases hts
          change wp (gettoken s >>= _) _ _ _
          rw [wp_bind]
          refine h₁.wp_gettoken hs (fun _ _ _ _ => ?_) fun t₂ ts₂ hts q eq p₂ h₂ hword => ?_
          · exact wp_panic.mpr (hE _)
          change wp (if t₂.code ≠ 97 then _ else _) _ _ _
          by_cases hcode : t₂.code = 97
          · obtain ⟨w, rfl⟩ := Tok.code_eq_word hcode
            obtain ⟨hw, hspans⟩ := hword w rfl
            have hbranch := Tok.redir_code
              (fun mode fd => parseredirs s n (.redir c (q, eq) mode fd)) (parseredirs s n c) ht
            rw [if_neg fun hne => hne hcode, hbranch]
            subst hts
            refine ih h₂ (by simp only [List.length_cons] at hfuel; omega)
              fun u rest fs p' hts hleft hu hfs => ?_
            refine hQ (t :: .word w :: u) rest (⟨(q, eq), mode, fd⟩ :: fs) p' ?_ hleft ?_ ?_
            · rw [hts]
              rfl
            · rw [← hw]
              exact .cons ht hu
            · exact List.forall_mem_cons.mpr ⟨hspans, hfs⟩
          · rw [if_pos hcode, wp_panic]
            exact hE _

theorem wp_finish (hfew : argv.length < MAXARGS) :
    wp (finish argv ret) Q E p ↔ Q (ret.fill argv) p := by
  rw [finish, if_neg (by omega), wp_pure]

theorem Left.wp_parseargs (h : Left s p ts) (hs : 0 ∉ s) (hfuel : ts.length < n)
    (hfew : argv.length < MAXARGS)
    (hQ : ∀ u rest ws fs p', ts = u ++ rest → Left s p' rest →
      Words u (ws.map (wordAt s)) (fs.map (Redir.map (wordAt s))) → (∀ w ∈ ws, Spans s w) →
      (∀ r ∈ fs, Spans s r.file) → (argv ++ ws).length < MAXARGS →
      Q ((ret.wrap fs).fill (argv ++ ws)) p')
    (hE : ∀ msg, E (.panic msg)) : wp (parseargs s n argv ret) Q E p := by
  induction n generalizing p ts argv ret Q with
  | zero => omega
  | succ n ih =>
      have hnone : ∀ p', Left s p' ts → Q (ret.fill argv) p' := fun p' h' => by
        have hQ' := hQ [] ts [] [] p' rfl h' .nil (fun w hw => by cases hw)
          (fun r hr => by cases hr)
        rw [List.append_nil] at hQ'
        exact hQ' hfew
      rw [parseargs, wp_bind]
      refine h.wp_peek hs (by decide) fun p' h => ?_
      cases hb : begins [124, 41, 38, 59] ts with
      | true =>
          rw [if_pos rfl, wp_finish hfew]
          exact hnone p' h
      | false =>
          rw [if_neg Bool.false_ne_true, wp_bind]
          refine h.wp_gettoken hs (fun hnil q p' h' => ?_) fun t ts₁ hts q eq p₁ h₁ hword => ?_
          · change wp (if (0 : UInt8) = 0 then _ else _) _ _ _
            rw [if_pos rfl, wp_finish hfew]
            exact hnone p' (hnil ▸ h')
          change wp (if t.code = 0 then _ else if t.code ≠ 97 then _ else _) _ _ _
          rw [if_neg Tok.code_ne_zero]
          by_cases hcode : t.code = 97
          · obtain ⟨w, rfl⟩ := Tok.code_eq_word hcode
            obtain ⟨hw, hspans⟩ := hword w rfl
            subst hts
            rw [List.length_cons] at hfuel
            rw [if_neg fun hne => hne hcode, if_neg (by omega)]
            by_cases hmany : MAXARGS ≤ argv.length + 1
            · rw [if_pos hmany, wp_panic]
              exact hE _
            rw [if_neg hmany, wp_bind]
            refine h₁.wp_parseredirs hs (by omega) (fun u ts₂ fs p₂ hts h₂ hu hfs => ?_) hE
            subst hts
            rw [List.length_append] at hfuel
            refine ih h₂ (by omega) (by rw [List.length_append, List.length_singleton]; omega)
              fun v rest ws fs' p' hts h' hv hws hfs' hfew' => ?_
            subst hts
            rw [List.append_assoc, List.singleton_append] at hfew'
            have hq := hQ (.word w :: (u ++ v)) rest ((q, eq) :: ws) (fs ++ fs') p'
              (by rw [List.cons_append, List.append_assoc]) h'
              (by rw [List.map_cons, List.map_append, hw]; exact .cons hu hv)
              (List.forall_mem_cons.mpr ⟨hspans, hws⟩)
              (List.forall_mem_append.mpr ⟨hfs, hfs'⟩) hfew'
            rw [Parsed.wrap_append] at hq
            rw [List.append_assoc]
            exact hq
          · rw [if_pos hcode, wp_panic]
            exact hE _

/-- A token that has been seen is taken. -/
theorem Left.wp_take {k : ParseM Parsed} {t : Tok} (h : Left s p (t :: ts)) (hs : 0 ∉ s)
    (hk : ∀ p', Left s p' ts → wp k Q E p') : wp (gettoken s >>= fun _ => k) Q E p := by
  rw [wp_bind]
  refine h.wp_gettoken hs (fun hnil => by cases hnil) fun t₁ ts₁ hts _ _ p₁ h₁ _ => ?_
  cases hts
  exact hk p₁ h₁

/-- The tokens `&` that are next. -/
theorem amps (ts : List Tok) :
    ∃ m rest, ts = List.replicate m .amp ++ rest ∧ begins [38] rest = false := by
  induction ts with
  | nil => exact ⟨0, [], rfl, rfl⟩
  | cons t ts ih =>
      cases hb : begins [38] (t :: ts) with
      | false => exact ⟨0, t :: ts, rfl, hb⟩
      | true =>
          obtain ⟨ts', heq⟩ := begins_one (t := .amp) rfl (by decide) hb
          obtain ⟨m, rest, rfl, hno⟩ := ih
          refine ⟨m + 1, rest, ?_, hno⟩
          rw [(List.cons.inj heq).1]
          rfl

theorem Left.wp_parsebacks (h : Left s p (List.replicate m .amp ++ rest)) (hs : 0 ∉ s)
    (hfuel : m < n) (hno : begins [38] rest = false)
    (hQ : ∀ p', Left s p' rest → Q (Parsed.back^[m] c) p') : wp (parsebacks s n c) Q E p := by
  induction m generalizing n p c with
  | zero =>
      cases n with
      | zero => omega
      | succ n =>
          rw [parsebacks, wp_bind]
          refine h.wp_peek hs (by decide) fun p' h => ?_
          rw [List.replicate_zero, List.nil_append] at h ⊢
          rw [hno, if_neg Bool.false_ne_true, wp_pure]
          exact hQ p' h
  | succ m ih =>
      cases n with
      | zero => omega
      | succ n =>
          rw [parsebacks, wp_bind]
          refine h.wp_peek hs (by decide) fun p' h => ?_
          change wp (if true = true then _ else _) _ _ _
          rw [if_pos rfl]
          exact h.wp_take hs fun p' h => ih h (by omega) hQ

end Loops

/-- The command is that of the tokens that have been taken. -/
def Reads (s : List UInt8) (ts : List Tok) (R : List Tok → Cmd → Prop) (c : Parsed) (p : ℕ) :
    Prop :=
  ∃ u rest, ts = u ++ rest ∧ Left s p rest ∧ R u (c.map (wordAt s)) ∧ c.Placed s

/-- What the functions that call each other build with that much fuel. -/
structure Sound (s : List UInt8) (n : ℕ) : Prop where
  line : ∀ {p ts}, Left s p ts → 4 * ts.length + 4 ≤ n →
    wp (parseline s n) (Reads s ts Line) Reported p
  pipe : ∀ {p ts}, Left s p ts → 4 * ts.length + 3 ≤ n →
    wp (parsepipe s n) (Reads s ts Pipe) Reported p
  exec : ∀ {p ts}, Left s p ts → 4 * ts.length + 2 ≤ n →
    wp (parseexec s n) (Reads s ts Exec) Reported p
  block : ∀ {p ts}, Left s p ts → 4 * ts.length + 1 ≤ n →
    wp (parseblock s n) (Reads s ts Exec) Reported p

section Sound

variable {s : List UInt8} {p n : ℕ} {ts : List Tok}

theorem Sound.line_succ (ih : Sound s n) (hs : 0 ∉ s) (h : Left s p ts)
    (hfuel : 4 * ts.length + 4 ≤ n + 1) :
    wp (parseline s (n + 1)) (Reads s ts Line) Reported p := by
  rw [parseline, wp_bind]
  refine wp_mono (ih.pipe h (by omega)) ?_ fun _ he => he
  rintro c p₁ ⟨u, rest, rfl, h₁, hu, hc⟩
  obtain ⟨m, rest₂, rfl, hno⟩ := amps rest
  simp only [List.length_append, List.length_replicate] at hfuel
  rw [wp_bind]
  refine h₁.wp_parsebacks hs (by omega) hno fun p₂ h₂ => ?_
  rw [wp_bind]
  refine h₂.wp_peek hs (by decide) fun p₃ h₃ => ?_
  cases hb : begins [59] rest₂ with
  | false =>
      rw [if_neg Bool.false_ne_true, wp_pure]
      refine ⟨u ++ List.replicate m .amp, rest₂, (List.append_assoc ..).symm, h₃, ?_, hc.backs⟩
      rw [Parsed.map_backs]
      exact .last m hu
  | true =>
      obtain ⟨rest₃, rfl⟩ := begins_one (t := .semi) rfl (by decide) hb
      rw [List.length_cons] at hfuel
      rw [if_pos rfl]
      refine h₃.wp_take hs fun p₄ h₄ => ?_
      rw [wp_bind]
      refine wp_mono (ih.line h₄ (by omega)) ?_ fun _ he => he
      rintro d p₅ ⟨v, rest, rfl, h₅, hv, hd⟩
      rw [wp_pure]
      refine ⟨u ++ (List.replicate m .amp ++ .semi :: v), rest, ?_, h₅, ?_, ?_⟩
      · simp only [List.append_assoc, List.cons_append]
      · rw [Parsed.map, Parsed.map_backs]
        exact .seq m hu hv
      · exact List.forall_mem_append.mpr ⟨hc.backs, hd⟩

theorem Sound.pipe_succ (ih : Sound s n) (hs : 0 ∉ s) (h : Left s p ts)
    (hfuel : 4 * ts.length + 3 ≤ n + 1) :
    wp (parsepipe s (n + 1)) (Reads s ts Pipe) Reported p := by
  rw [parsepipe, wp_bind]
  refine wp_mono (ih.exec h (by omega)) ?_ fun _ he => he
  rintro c p₁ ⟨u, rest, rfl, h₁, hu, hc⟩
  rw [List.length_append] at hfuel
  rw [wp_bind]
  refine h₁.wp_peek hs (by decide) fun p₂ h₂ => ?_
  cases hb : begins [124] rest with
  | false =>
      rw [if_neg Bool.false_ne_true, wp_pure]
      exact ⟨u, rest, rfl, h₂, .last hu, hc⟩
  | true =>
      obtain ⟨rest₂, rfl⟩ := begins_one (t := .bar) rfl (by decide) hb
      rw [List.length_cons] at hfuel
      rw [if_pos rfl]
      refine h₂.wp_take hs fun p₃ h₃ => ?_
      rw [wp_bind]
      refine wp_mono (ih.pipe h₃ (by omega)) ?_ fun _ he => he
      rintro d p₄ ⟨v, rest, rfl, h₄, hv, hd⟩
      rw [wp_pure]
      refine ⟨u ++ .bar :: v, rest, ?_, h₄, .pipe hu hv, List.forall_mem_append.mpr ⟨hc, hd⟩⟩
      rw [List.append_assoc, List.cons_append]

theorem Sound.exec_succ (ih : Sound s n) (hs : 0 ∉ s) (h : Left s p ts)
    (hfuel : 4 * ts.length + 2 ≤ n + 1) :
    wp (parseexec s (n + 1)) (Reads s ts Exec) Reported p := by
  rw [parseexec, wp_bind]
  refine h.wp_peek hs (by decide) fun p₁ h₁ => ?_
  cases begins [40] ts with
  | true =>
      rw [if_pos rfl]
      exact ih.block h₁ (by omega)
  | false =>
      rw [if_neg Bool.false_ne_true, wp_bind]
      refine h₁.wp_parseredirs hs (by omega) (fun u rest fs p₂ hts h₂ hu hfs => ?_) fun _ => trivial
      subst hts
      rw [List.length_append] at hfuel
      refine h₂.wp_parseargs hs (by omega) (by decide)
        (fun v rest ws fs' p₃ hts h₃ hv hws hfs' hfew => ?_) fun _ => trivial
      subst hts
      rw [← Parsed.wrap_append, Parsed.fill_wrap]
      refine ⟨u ++ v, rest, (List.append_assoc ..).symm, h₃, ?_, ?_⟩
      · rw [Parsed.map_wrap, List.map_append]
        exact .words hu hv (by rwa [List.length_map])
      · exact Parsed.Placed.wrap hws (List.forall_mem_append.mpr ⟨hfs, hfs'⟩)

theorem Sound.block_succ (ih : Sound s n) (hs : 0 ∉ s) (h : Left s p ts)
    (hfuel : 4 * ts.length + 1 ≤ n + 1) :
    wp (parseblock s (n + 1)) (Reads s ts Exec) Reported p := by
  rw [parseblock, wp_bind]
  refine h.wp_peek hs (by decide) fun p₁ h₁ => ?_
  cases hb : begins [40] ts with
  | false =>
      rw [if_neg Bool.false_ne_true, wp_panic]
      trivial
  | true =>
      obtain ⟨ts₁, rfl⟩ := begins_one (t := .lpar) rfl (by decide) hb
      rw [List.length_cons] at hfuel
      rw [if_pos rfl]
      refine h₁.wp_take hs fun p₂ h₂ => ?_
      rw [wp_bind]
      refine wp_mono (ih.line h₂ (by omega)) ?_ fun _ he => he
      rintro c p₃ ⟨u, rest, rfl, h₃, hu, hc⟩
      rw [List.length_append] at hfuel
      rw [wp_bind]
      refine h₃.wp_peek hs (by decide) fun p₄ h₄ => ?_
      cases hb' : begins [41] rest with
      | false =>
          rw [if_neg Bool.false_ne_true, wp_panic]
          trivial
      | true =>
          obtain ⟨rest₂, rfl⟩ := begins_one (t := .rpar) rfl (by decide) hb'
          rw [List.length_cons] at hfuel
          rw [if_pos rfl]
          refine h₄.wp_take hs fun p₅ h₅ => ?_
          refine h₅.wp_parseredirs hs (by omega) (fun v rest fs p₆ hts h₆ hv hfs => ?_)
            fun _ => trivial
          subst hts
          refine ⟨.lpar :: (u ++ .rpar :: v), rest, ?_, h₆, ?_, hc.wrap hfs⟩
          · simp only [List.append_assoc, List.cons_append]
          · rw [Parsed.map_wrap]
            exact .block hu hv

theorem sound (hs : 0 ∉ s) : Sound s n := by
  induction n with
  | zero =>
      exact {
        line := fun _ hfuel => by omega
        pipe := fun _ hfuel => by omega
        exec := fun _ hfuel => by omega
        block := fun _ hfuel => by omega }
  | succ n ih =>
      exact {
        line := ih.line_succ hs
        pipe := ih.pipe_succ hs
        exec := ih.exec_succ hs
        block := ih.block_succ hs }

end Sound

end Shell

end Xv6
