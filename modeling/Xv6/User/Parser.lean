import Xv6.Foundation.Hoare
import Xv6.Fs.Calls
import Xv6.User.Shell

/-!
# The parser of the shell

`parsecmd` of `sh.c` and what it calls. A pointer into the line is a position in it, and the
position of its length, which is `es`, holds the NUL. The functions move `*ps` on. A load behind
the NUL stops the parser, as does a store behind the end of `argv`, and a call for which no fuel is
left.
-/

namespace Xv6

namespace Shell

open Foundation

inductive Fault where
  | panic (s : String)
  /-- a load or a store behind the terminator -/
  | past
  /-- a store behind the end of `argv` or `eargv` -/
  | argv
  /-- not enough fuel -/
  | deep
  deriving DecidableEq

def MAXARGS : ℕ := 10

/-- A command as it is parsed: a word is where it begins and where it ends in the line. -/
inductive Parsed where
  | exec (argv : List (ℕ × ℕ))
  | redir (cmd : Parsed) (file : ℕ × ℕ) (mode : UInt32) (fd : Fin 2)
  | pipe (left right : Parsed)
  | list (left right : Parsed)
  | back (cmd : Parsed)
  deriving DecidableEq

/-- What the functions of the parser do; the state is `*ps`. -/
abbrev ParseM := StateT ℕ (Except Fault)

def panic {α : Type} (s : String) : ParseM α := throw (.panic s)

/-- `" \t\r\n\v"` -/
def whitespace : List UInt8 := [32, 9, 13, 10, 11]

def symbols : List UInt8 := [60, 124, 62, 38, 59, 40, 41]

section Tokens

variable (s : List UInt8)

def char (p : ℕ) : Except Fault UInt8 :=
  if h : p < s.length then .ok s[p] else if p = s.length then .ok 0 else .error .past

/-- The loops of `gettoken` and `peek`: `while(p < es && ...) p++`. -/
def skip (test : UInt8 → Bool) : ℕ → ℕ → Except Fault ℕ
  | 0, _ => .error .deep
  | fuel + 1, p =>
      if p < s.length then do
        let c ← char s p
        if test c then skip test fuel (p + 1) else return p
      else return p

def isSpace (c : UInt8) : Bool := c ∈ whitespace

def isWord (c : UInt8) : Bool := c ∉ whitespace ∧ c ∉ symbols

/-- The `switch` of `gettoken` at `q`: what it returns, and `*eq`. -/
def token (q : ℕ) : Except Fault (UInt8 × ℕ) := do
  let c ← char s q
  if c = 0 then return (0, q)
  -- `|`, `(`, `)`, `;`, `&` and `<`
  else if c ∈ [124, 40, 41, 59, 38, 60] then return (c, q + 1)
  else if c = 62 then do
    let next ← char s (q + 1)
    -- `>>` is `+`
    if next = 62 then return (43, q + 2) else return (62, q + 1)
  else do
    let eq ← skip s isWord (s.length + 1) q
    return (97, eq)

/-- `gettoken`: what it returns, `*q` and `*eq`. -/
def gettoken : ParseM (UInt8 × ℕ × ℕ) := do
  let p ← get
  let q ← skip s isSpace (s.length + 1) p
  let (tok, eq) ← token s q
  let p ← skip s isSpace (s.length + 1) eq
  set p
  return (tok, q, eq)

def peek (toks : List UInt8) : ParseM Bool := do
  let p ← get
  let p ← skip s isSpace (s.length + 1) p
  set p
  let c ← char s p
  return c ≠ 0 ∧ c ∈ toks

end Tokens

/-- The words are stored in the node at the bottom of the redirections. -/
def Parsed.fill (argv : List (ℕ × ℕ)) : Parsed → Parsed
  | redir cmd file mode fd => redir (cmd.fill argv) file mode fd
  | exec _ => exec argv
  | cmd => cmd

/-- `cmd->argv[argc] = 0; cmd->eargv[argc] = 0; return ret;` -/
def finish (argv : List (ℕ × ℕ)) (ret : Parsed) : ParseM Parsed :=
  if MAXARGS ≤ argv.length then throw .argv else return ret.fill argv

section Commands

variable (s : List UInt8)

def parseredirs : ℕ → Parsed → ParseM Parsed
  | 0, _ => throw .deep
  | fuel + 1, cmd => do
      -- `<` and `>`
      if ← peek s [60, 62] then do
        let (tok, _, _) ← gettoken s
        let (word, q, eq) ← gettoken s
        if word ≠ 97 then panic "missing file for redirection"
        else if tok = 60 then parseredirs fuel (.redir cmd (q, eq) O_RDONLY 0)
        else if tok = 62 then parseredirs fuel (.redir cmd (q, eq) (O_WRONLY ||| O_CREATE) 1)
        else if tok = 43 then parseredirs fuel (.redir cmd (q, eq) (O_WRONLY ||| O_CREATE) 1)
        else parseredirs fuel cmd
      else return cmd

/-- The loop of `parseexec`; `argc` is the length of `argv`. -/
def parseargs : ℕ → List (ℕ × ℕ) → Parsed → ParseM Parsed
  | 0, _, _ => throw .deep
  | fuel + 1, argv, ret => do
      -- `|`, `)`, `&` and `;`
      if ← peek s [124, 41, 38, 59] then finish argv ret
      else do
        let (tok, q, eq) ← gettoken s
        if tok = 0 then finish argv ret
        else if tok ≠ 97 then panic "syntax"
        else if MAXARGS ≤ argv.length then throw .argv
        else if MAXARGS ≤ argv.length + 1 then panic "too many args"
        else do
          let ret ← parseredirs s fuel ret
          parseargs fuel (argv ++ [(q, eq)]) ret

/-- The loop of `parseline`. -/
def parsebacks : ℕ → Parsed → ParseM Parsed
  | 0, _ => throw .deep
  | fuel + 1, cmd => do
      if ← peek s [38] then do
        let _ ← gettoken s
        parsebacks fuel (.back cmd)
      else return cmd

mutual

def parseline : ℕ → ParseM Parsed
  | 0 => throw .deep
  | fuel + 1 => do
      let cmd ← parsepipe fuel
      let cmd ← parsebacks s fuel cmd
      if ← peek s [59] then do
        let _ ← gettoken s
        let rest ← parseline fuel
        return .list cmd rest
      else return cmd

def parsepipe : ℕ → ParseM Parsed
  | 0 => throw .deep
  | fuel + 1 => do
      let cmd ← parseexec fuel
      if ← peek s [124] then do
        let _ ← gettoken s
        let rest ← parsepipe fuel
        return .pipe cmd rest
      else return cmd

def parseexec : ℕ → ParseM Parsed
  | 0 => throw .deep
  | fuel + 1 => do
      if ← peek s [40] then parseblock fuel
      else do
        let ret ← parseredirs s fuel (.exec [])
        parseargs s fuel [] ret

def parseblock : ℕ → ParseM Parsed
  | 0 => throw .deep
  | fuel + 1 => do
      if ← peek s [40] then do
        let _ ← gettoken s
        let cmd ← parseline fuel
        if ← peek s [41] then do
          let _ ← gettoken s
          parseredirs s fuel cmd
        else panic "syntax - missing )"
      else panic "parseblock"

end

end Commands

def poke (buf : List UInt8) (p : ℕ) : Except Fault (List UInt8) :=
  if p < buf.length then .ok (buf.set p 0) else .error .past

def nulterminate : Parsed → List UInt8 → Except Fault (List UInt8)
  | .exec argv, buf => argv.foldlM (fun buf word => poke buf word.2) buf
  | .redir cmd file _ _, buf => do
      let buf ← nulterminate cmd buf
      poke buf file.2
  | .pipe left right, buf => do
      let buf ← nulterminate left buf
      nulterminate right buf
  | .list left right, buf => do
      let buf ← nulterminate left buf
      nulterminate right buf
  | .back cmd, buf => nulterminate cmd buf

/-- `parsecmd`: the command, and what is in the buffer of the line then. The fuel suffices for every
line. -/
def parsecmd (s : List UInt8) : Except Fault (Parsed × List UInt8) := do
  let (cmd, p) ← parseline s (4 * s.length + 4) 0
  let (_, p) ← peek s [] p
  if p ≠ s.length then .error (.panic "syntax")
  else do
    let buf ← nulterminate cmd (s ++ [0])
    return (cmd, buf)

def stringAt (buf : List UInt8) (word : ℕ × ℕ) : List UInt8 :=
  (buf.drop word.1).takeWhile (· ≠ 0)

/-- The command with its words as strings. -/
def Parsed.map (f : ℕ × ℕ → List UInt8) : Parsed → Cmd
  | exec argv => .exec (argv.map f)
  | redir cmd file mode fd => .redir (cmd.map f) (f file) mode fd
  | pipe left right => .pipe (left.map f) (right.map f)
  | list left right => .list (left.map f) (right.map f)
  | back cmd => .back (cmd.map f)

/-- The command as it is run, with what the buffer holds. -/
def Parsed.read (buf : List UInt8) : Parsed → Cmd := map (stringAt buf)

end Shell

end Xv6
