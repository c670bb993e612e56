import Xv6.Basic
import Xv6.Foundation.Program
import Xv6.Foundation.Run

/-!
# The shell runs a command

`runcmd` of `sh.c`, and as much of the kernel as it uses: processes with open files, where
a new descriptor is the lowest free one, `fork`, `exec`, `exit` and `wait`. Any process can
make the next step. `fork`, `open` and `pipe` succeed; `exec` may fail. A program that has
been `exec`'ed closes and duplicates descriptors, forks, waits and exits as it likes.

A recursive call of `runcmd` is always its last action, so that its program ends with the
arguments of that call. For each command the constructs around it in the command line are
kept, with the number of the pipe that `pipe` has made for a pipe construct. No call of the
shell depends on them.
-/

namespace Xv6

namespace Shell

open Foundation

/-- A command as the parser builds it; it redirects descriptors 0 and 1 only. -/
inductive Cmd where
  | exec (argv : List (List UInt8))
  | redir (cmd : Cmd) (file : List UInt8) (mode : UInt32) (fd : Fin 2)
  | pipe (left right : Cmd)
  | list (left right : Cmd)
  | back (cmd : Cmd)
  deriving DecidableEq

/-- A construct with the command in it left out. A side of a pipe construct comes with the
number of the pipe made for it. -/
inductive Frame where
  | redir (file : List UInt8) (mode : UInt32) (fd : Fin 2)
  | left (k : ℕ) (right : Cmd)
  | right (k : ℕ) (left : Cmd)
  | listLeft (right : Cmd)
  | listRight (left : Cmd)
  | back
  deriving DecidableEq

/-- The construct with a command in it. -/
def Frame.plug : Frame → Cmd → Cmd
  | .redir file mode fd, cmd => .redir cmd file mode fd
  | .left _ r, cmd => .pipe cmd r
  | .right _ l, cmd => .pipe l cmd
  | .listLeft r, cmd => .list cmd r
  | .listRight l, cmd => .list l cmd
  | .back, cmd => .back cmd

/-- The command line around a command, from the constructs around it, the innermost first. -/
def plug (ctx : List Frame) (cmd : Cmd) : Cmd := ctx.foldl (fun cmd f => f.plug cmd) cmd

/-! ### System calls -/

inductive Call where
  | close (fd : ℕ)
  | open (file : List UInt8) (mode : UInt32)
  | dup (fd : ℕ)
  | pipe
  | fork
  | wait
  | exec (argv : List (List UInt8))
  | exit

/-- Their answers: `none` is `-1`. `pipe` gives the two descriptors, and the number of the
pipe, which the shell does not see. `fork` says whether this is the child. -/
def Call.Resp : Call → Type
  | .close _ => Unit
  | .open _ _ => Option ℕ
  | .dup _ => Option ℕ
  | .pipe => Option (ℕ × ℕ × ℕ)
  | .fork => Bool
  | .wait => Unit
  | .exec _ => Unit
  | .exit => Empty

/-- What a process of the shell does until it calls `runcmd` again. -/
abbrev Prog := Program Call Call.Resp (List Frame × Cmd)

def close (fd : ℕ) (next : Prog) : Prog := .call (.close fd) fun _ => next

def dup (fd : ℕ) (next : Prog) : Prog := .call (.dup fd) fun _ => next

def wait (next : Prog) : Prog := .call .wait fun _ => next

def fork (child parent : Prog) : Prog :=
  .call .fork fun (isChild : Bool) => if isChild then child else parent

def exit : Prog := .call .exit Empty.elim

/-! ### `runcmd` -/

/-- `if(open(rcmd->file, rcmd->mode) < 0) ...; runcmd(rcmd->cmd);` -/
def redirOpen (ctx : List Frame) (cmd : Cmd) (file : List UInt8) (mode : UInt32) (fd : Fin 2) :
    Prog :=
  .call (.open file mode) fun r =>
    match r with
    | none => exit
    | some _ => .done (.redir file mode fd :: ctx, cmd)

/-- `wait(); runcmd(lcmd->right);` -/
def listRest (ctx : List Frame) (left right : Cmd) : Prog :=
  wait (.done (.listRight left :: ctx, right))

/-- `close(p[0]); close(p[1]); runcmd(...);` -/
def closeEnds (p0 p1 : ℕ) (next : Prog) : Prog := close p0 (close p1 next)

def pipeLeft (p0 p1 : ℕ) (next : Prog) : Prog := close 1 (dup p1 (closeEnds p0 p1 next))

def pipeRight (p0 p1 : ℕ) (next : Prog) : Prog := close 0 (dup p0 (closeEnds p0 p1 next))

def pipeParent (p0 p1 : ℕ) : Prog := closeEnds p0 p1 (wait (wait exit))

def pipeSecond (ctx : List Frame) (left right : Cmd) (p0 p1 k : ℕ) : Prog :=
  fork (pipeRight p0 p1 (.done (.right k left :: ctx, right))) (pipeParent p0 p1)

def pipeFirst (ctx : List Frame) (left right : Cmd) (p0 p1 k : ℕ) : Prog :=
  fork (pipeLeft p0 p1 (.done (.left k right :: ctx, left))) (pipeSecond ctx left right p0 p1 k)

def runcmd (ctx : List Frame) : Cmd → Prog
  | .exec argv => if argv = [] then exit else .call (.exec argv) fun _ => exit
  | .redir cmd file mode fd => close fd (redirOpen ctx cmd file mode fd)
  | .list left right => fork (.done (.listLeft right :: ctx, left)) (listRest ctx left right)
  | .pipe left right =>
      .call .pipe fun r =>
        match r with
        | none => exit
        | some (p0, p1, k) => pipeFirst ctx left right p0 p1 k
  | .back cmd => fork (.done (.back :: ctx, cmd)) exit

/-! ### Processes -/

/-- An open file: one that the shell had open as descriptor `fd` in the beginning, one that
has been opened, or an end of a pipe. -/
inductive File where
  | outer (fd : ℕ)
  | opened (file : List UInt8) (mode : UInt32)
  | read (k : ℕ)
  | write (k : ℕ)
  deriving DecidableEq

/-- `proc->ofile` with the given files, and nothing behind them. -/
def table (files : List (Option File)) : List (Option File) :=
  files ++ List.replicate (NOFILE - files.length) none

def fdalloc (ofile : List (Option File)) (f : File) : Option (ℕ × List (Option File)) :=
  (ofile.findIdx? (·.isNone)).map fun fd => (fd, ofile.set fd (some f))

def sys_dup (ofile : List (Option File)) (fd : ℕ) : Option (ℕ × List (Option File)) :=
  (ofile[fd]?.join).bind (fdalloc ofile)

/-- `sys_pipe`, with `k` for the number of the pipe. -/
def sys_pipe (ofile : List (Option File)) (k : ℕ) : Option (ℕ × ℕ × List (Option File)) :=
  (fdalloc ofile (.read k)).bind fun (fd0, ofile) =>
    (fdalloc ofile (.write k)).map fun (fd1, ofile) => (fd0, fd1, ofile)

inductive Activity where
  | shell (prog : Prog)
  | program (argv : List (List UInt8))
  | zombie

/-- A process, with the constructs around the command that it runs. -/
structure Process where
  parent : ℕ
  ofile : List (Option File)
  ctx : List Frame
  act : Activity

inductive Event where
  /-- the shell makes its call -/
  | call
  /-- its `exec` fails -/
  | fail
  /-- `wait` returns, with a child or without one -/
  | wait (child : Option ℕ)
  /-- a program closes a descriptor -/
  | close (fd : ℕ)
  /-- a program duplicates a descriptor -/
  | dup (fd : ℕ)
  /-- a program forks -/
  | fork
  /-- a program exits -/
  | exit
  deriving DecidableEq

namespace Process

/-- The shell goes on; a call of `runcmd` is entered. -/
def resume (p : Process) : Prog → Process
  | .done (ctx, cmd) => { p with ctx := ctx, act := .shell (runcmd ctx cmd) }
  | .call o c => { p with act := .shell (.call o c) }

def exits (p : Process) : Process :=
  { p with ofile := p.ofile.map fun _ => none, act := .zombie }

/-- The shell's call is answered: the process afterwards, and its new child. -/
def answer (p : Process) (k : ℕ) : (o : Call) → (o.Resp → Prog) → Option (Process × Option Process)
  | .close fd, c => some ({ p with ofile := p.ofile.set fd none }.resume (c ()), none)
  | .open file mode, c =>
      (fdalloc p.ofile (.opened file mode)).map fun (fd, ofile) =>
        ({ p with ofile := ofile }.resume (c (some fd)), none)
  | .dup fd, c =>
      match sys_dup p.ofile fd with
      | none => some (p.resume (c none), none)
      | some (fd, ofile) => some ({ p with ofile := ofile }.resume (c (some fd)), none)
  | .pipe, c =>
      (sys_pipe p.ofile k).map fun (fd0, fd1, ofile) =>
        ({ p with ofile := ofile }.resume (c (some (fd0, fd1, k))), none)
  | .fork, c => some (p.resume (c false), some (p.resume (c true)))
  | .wait, _ => none
  | .exec argv, _ => some ({ p with act := .program argv }, none)
  | .exit, _ => some (p.exits, none)

/-- One step of a process, with `k` for the number of a new pipe. -/
def next (p : Process) (k : ℕ) : Event → Option (Process × Option Process)
  | .call =>
      match p.act with
      | .shell (.call o c) => p.answer k o c
      | _ => none
  | .fail =>
      match p.act with
      | .shell (.call (.exec _) c) => some (p.resume (c ()), none)
      | _ => none
  | .wait _ =>
      match p.act with
      | .shell (.call .wait c) => some (p.resume (c ()), none)
      | .program _ => some (p, none)
      | _ => none
  | .close fd =>
      match p.act with
      | .program _ => some ({ p with ofile := p.ofile.set fd none }, none)
      | _ => none
  | .dup fd =>
      match p.act with
      | .program _ => (sys_dup p.ofile fd).map fun (_, ofile) => ({ p with ofile := ofile }, none)
      | _ => none
  | .fork =>
      match p.act with
      | .program _ => some (p, some p)
      | _ => none
  | .exit =>
      match p.act with
      | .program _ => some (p.exits, none)
      | _ => none

def isZombie (p : Process) : Bool :=
  match p.act with
  | .zombie => true
  | _ => false

end Process

/-- The process that orphans are passed to. -/
def INIT : ℕ := 1

structure System where
  proc : ℕ → Option Process
  /-- the next process number -/
  npid : ℕ
  /-- the number for the next pipe; no two steps make one with the same number -/
  npipe : ℕ

namespace System

/-- `wait` returns a child that is a zombie, or there is no child. -/
def waits (s : System) (pid : ℕ) : Event → Bool
  | .wait (some child) => (s.proc child).any fun q => q.parent = pid && q.isZombie
  | .wait none => (List.range s.npid).all fun child => (s.proc child).all fun q => q.parent ≠ pid
  | _ => true

/-- A child that `wait` has returned is gone. -/
def reaped : Event → ℕ → Bool
  | .wait (some child), q => q = child
  | _, _ => false

/-- What becomes of the other processes: a child that has been waited for is gone, and the
children of a process that has exited are passed to `init`. -/
def others (s : System) (pid : ℕ) (p : Process) (e : Event) (q : ℕ) : Option Process :=
  if reaped e q then none
  else (s.proc q).map fun c =>
    if p.isZombie ∧ c.parent = pid then { c with parent := INIT } else c

def step (s : System) (l : ℕ × Event) : Option System :=
  (s.proc l.1).bind fun p =>
    (p.next s.npipe l.2).bind fun (p', child) =>
      if s.waits l.1 l.2 then
        some {
          proc := fun q =>
            if q = s.npid then child.map fun c => { c with parent := l.1 }
            else if q = l.1 then some p'
            else s.others l.1 p' l.2 q
          npid := s.npid + 1
          npipe := s.npipe + 1 }
      else none

end System

/-- A process with the descriptors 0, 1 and 2 open runs the command. -/
def start (cmd : Cmd) : System where
  proc := fun pid =>
    if pid = 2 then some {
      parent := INIT
      ofile := table [some (.outer 0), some (.outer 1), some (.outer 2)]
      ctx := []
      act := .shell (runcmd [] cmd) }
    else none
  npid := 3
  npipe := 0

end Shell

end Xv6
