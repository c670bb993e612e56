import Mathlib.Data.List.TakeWhile
import Xv6.User.Parser

/-!
# The grammar of the shell

A line is a list of tokens, of which each is as long as it can be. The commands that a line may
stand for are

* `line ::= pipe {"&"} [";" line]`
* `pipe ::= exec ["|" pipe]`
* `exec ::= "(" line ")" redirs | redirs {word redirs}`, with fewer than `MAXARGS` words
* `redirs ::= {("<" | ">" | ">>") word}`
-/

namespace Xv6

namespace Shell

inductive Tok where
  | bar
  | amp
  | semi
  | lpar
  | rpar
  | less
  | great
  /-- `>>` -/
  | append
  | word (w : List UInt8)
  deriving DecidableEq

namespace Tok

def ofSymbol (c : UInt8) : Option Tok :=
  if c = 124 then some bar
  else if c = 38 then some amp
  else if c = 59 then some semi
  else if c = 40 then some lpar
  else if c = 41 then some rpar
  else if c = 60 then some less
  else if c = 62 then some great
  else none

/-- What `gettoken` returns. -/
def code : Tok → UInt8
  | bar => 124
  | amp => 38
  | semi => 59
  | lpar => 40
  | rpar => 41
  | less => 60
  | great => 62
  | append => 43
  | word _ => 97

/-- The symbol with which the token begins. -/
def symbol : Tok → Option UInt8
  | append => some 62
  | word _ => none
  | t => some t.code

def redir : Tok → Option (UInt32 × Fin 2)
  | less => some (O_RDONLY, ⟨0, Nat.two_pos⟩)
  | great => some (O_WRONLY ||| O_CREATE, ⟨1, Nat.one_lt_two⟩)
  | append => some (O_WRONLY ||| O_CREATE, ⟨1, Nat.one_lt_two⟩)
  | _ => none

end Tok

def lex : List UInt8 → List Tok
  | [] => []
  | c :: s =>
      if isSpace c then lex s
      else if c = 62 ∧ s.head? = some 62 then .append :: lex s.tail
      else
        match Tok.ofSymbol c with
        | some t => t :: lex s
        | none => .word (c :: s.takeWhile isWord) :: lex (s.dropWhile isWord)
termination_by s => s.length
decreasing_by
  · exact Nat.lt_succ_self _
  · exact Nat.lt_succ_of_le ((List.length_tail ..).trans_le (Nat.sub_le _ _))
  · exact Nat.lt_succ_self _
  · exact Nat.lt_succ_of_le (List.dropWhile_suffix _).length_le

/-- A redirection: its file, its mode and its descriptor. -/
structure Redir (α : Type) where
  file : α
  mode : UInt32
  fd : Fin 2

def Redir.map {α β : Type} (f : α → β) (r : Redir α) : Redir β := ⟨f r.file, r.mode, r.fd⟩

/-- Each redirection is around the command to the left of it. -/
def redirect (c : Cmd) (rs : List (Redir (List UInt8))) : Cmd :=
  rs.foldl (fun c r => .redir c r.file r.mode r.fd) c

inductive Redirs : List Tok → List (Redir (List UInt8)) → Prop where
  | nil : Redirs [] []
  | cons {t : Tok} {w : List UInt8} {mode : UInt32} {fd : Fin 2} {u : List Tok}
      {rs : List (Redir (List UInt8))} (ht : t.redir = some (mode, fd)) (h : Redirs u rs) :
      Redirs (t :: .word w :: u) (⟨w, mode, fd⟩ :: rs)

/-- Words, and redirections behind each of them. -/
inductive Words : List Tok → List (List UInt8) → List (Redir (List UInt8)) → Prop where
  | nil : Words [] [] []
  | cons {w : List UInt8} {u v : List Tok} {ws : List (List UInt8)}
      {rs rs' : List (Redir (List UInt8))} (h : Redirs u rs) (h' : Words v ws rs') :
      Words (.word w :: (u ++ v)) (w :: ws) (rs ++ rs')

mutual

inductive Line : List Tok → Cmd → Prop where
  | last {u : List Tok} {c : Cmd} (n : ℕ) (h : Pipe u c) :
      Line (u ++ List.replicate n .amp) (Cmd.back^[n] c)
  | seq {u v : List Tok} {c d : Cmd} (n : ℕ) (h : Pipe u c) (h' : Line v d) :
      Line (u ++ (List.replicate n .amp ++ .semi :: v)) (.list (Cmd.back^[n] c) d)

inductive Pipe : List Tok → Cmd → Prop where
  | last {u : List Tok} {c : Cmd} (h : Exec u c) : Pipe u c
  | pipe {u v : List Tok} {c d : Cmd} (h : Exec u c) (h' : Pipe v d) :
      Pipe (u ++ .bar :: v) (.pipe c d)

inductive Exec : List Tok → Cmd → Prop where
  | block {u v : List Tok} {c : Cmd} {rs : List (Redir (List UInt8))} (h : Line u c)
      (h' : Redirs v rs) :
      Exec (.lpar :: (u ++ .rpar :: v)) (redirect c rs)
  | words {u v : List Tok} {ws : List (List UInt8)} {rs rs' : List (Redir (List UInt8))}
      (h : Redirs u rs) (h' : Words v ws rs') (hfew : ws.length < MAXARGS) :
      Exec (u ++ v) (redirect (.exec ws) (rs ++ rs'))

end

section Lex

variable {c : UInt8} {s : List UInt8}

theorem lex_nil : lex [] = [] := by rw [lex]

theorem lex_space (h : isSpace c = true) : lex (c :: s) = lex s := by rw [lex, if_pos h]

/-- White space in front does not count. -/
theorem lex_dropWhile : lex (s.dropWhile isSpace) = lex s := by
  induction s with
  | nil => rfl
  | cons c s ih =>
      by_cases h : isSpace c = true
      · rw [List.dropWhile_cons_of_pos h, lex_space h, ih]
      · rw [List.dropWhile_cons_of_neg h]

theorem lex_append (h : s.head? = some 62) : lex (62 :: s) = .append :: lex s.tail := by
  rw [lex, if_neg (by decide), if_pos ⟨rfl, h⟩]

theorem lex_symbol {t : Tok} (h : Tok.ofSymbol c = some t) (hspace : isSpace c = false)
    (hone : c = 62 → s.head? ≠ some 62) : lex (c :: s) = t :: lex s := by
  rw [lex, if_neg (by rw [hspace]; exact Bool.false_ne_true), if_neg fun hc => hone hc.1 hc.2, h]

theorem lex_word (h : isWord c = true) :
    lex (c :: s) = .word (c :: s.takeWhile isWord) :: lex (s.dropWhile isWord) := by
  obtain ⟨hspace, hsymbol⟩ := of_decide_eq_true h
  have hnone : Tok.ofSymbol c = none := by
    have hne : ∀ d ∈ symbols, c ≠ d := fun d hd heq => hsymbol (heq ▸ hd)
    unfold Tok.ofSymbol
    rw [if_neg (hne _ (by decide)), if_neg (hne _ (by decide)), if_neg (hne _ (by decide)),
      if_neg (hne _ (by decide)), if_neg (hne _ (by decide)), if_neg (hne _ (by decide)),
      if_neg (hne _ (by decide))]
  have hno : ¬ isSpace c = true := fun hc => hspace (of_decide_eq_true hc)
  rw [lex, if_neg hno, if_neg, hnone]
  rintro ⟨rfl, -⟩
  exact hsymbol (by decide)

end Lex

end Shell

end Xv6
