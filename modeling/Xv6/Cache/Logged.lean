import Xv6.Cache.Coherence
import Xv6.Foundation.Interference
import Xv6.Log.Commit
import Xv6.Log.Protocol

/-!
# The log on the buffer cache

The processes of `Xv6.Cache.Bio` on the file-system device together with the
group-commit protocol: a process changes buffers and calls `log_write` (atomic here)
inside an operation, and the process whose `end_op` commits runs `commit()`, the
program of `Xv6.Log.Commit` with the buffers of the cache, while the others go on
with `bread` and `brelse`. `bwrite` is used by `commit()` only.

An operation logs what it has changed before it calls `end_op`.
-/

namespace Xv6

open Foundation

/-- The buffer cache and the log, and for each block of the file-system device the
contents that a process last gave it. -/
structure LogCache where
  bio : Bio
  proto : Protocol
  newest : ℕ → Block

namespace LogCache

def setBio (m : LogCache) (bio : Bio) : LogCache := { m with bio := bio }

def setProto (m : LogCache) (proto : Protocol) : LogCache := { m with proto := proto }

@[simp] theorem setBio_bio (m : LogCache) (bio : Bio) : (m.setBio bio).bio = bio := rfl
@[simp] theorem setBio_proto (m : LogCache) (bio : Bio) : (m.setBio bio).proto = m.proto := rfl
@[simp] theorem setBio_newest (m : LogCache) (bio : Bio) : (m.setBio bio).newest = m.newest := rfl
@[simp] theorem setProto_bio (m : LogCache) (proto : Protocol) :
    (m.setProto proto).bio = m.bio := rfl
@[simp] theorem setProto_proto (m : LogCache) (proto : Protocol) :
    (m.setProto proto).proto = proto := rfl
@[simp] theorem setProto_newest (m : LogCache) (proto : Protocol) :
    (m.setProto proto).newest = m.newest := rfl

def sector (m : LogCache) (b : Fin NBUF) : ℕ := (m.bio.buf b).sector

/-- The process runs code of its own: it is neither in `begin_op` nor in `end_op`. -/
def User (m : LogCache) (p : Pid) : Prop :=
  m.proto.status p = .idle ∨ m.proto.status p = .inOp

instance (m : LogCache) (p : Pid) : Decidable (m.User p) :=
  inferInstanceAs (Decidable (_ ∨ _))

/-- The process has logged every change of the buffers that it holds. -/
def AllLogged (m : LogCache) (p : Pid) : Prop :=
  ∀ b, m.bio.holds p b = true → m.bio.modified b = false

instance (m : LogCache) (p : Pid) : Decidable (m.AllLogged p) :=
  inferInstanceAs (Decidable (∀ _, _))

/-- The steps of processes outside `commit()`, and the rounds of `bget`, the test of
`B_VALID` and the read requests of any process. -/
inductive Label where
  | bread (p : Pid) (sector : ℕ)
  | bget (p : Pid)
  | check (p : Pid)
  | read (p : Pid)
  | ret (p : Pid)
  | modify (p : Pid) (b : Fin NBUF) (data : Block)
  | logWrite (p : Pid) (b : Fin NBUF)
  | brelse (p : Pid) (b : Fin NBUF)
  | wake (p : Pid)
  | beginOp (p : Pid)
  | endOp (p : Pid)
  | finish (p : Pid)
  | kill (p : Pid)

def logWrite (m : LogCache) (p : Pid) (b : Fin NBUF) : Option LogCache :=
  (m.proto.step (.logWrite p (m.sector b))).bind fun proto =>
    if proto.panicked.isSome then some (m.setProto proto)
    else (m.bio.step (.logWrite p b)).map fun bio => (m.setProto proto).setBio bio

def step (m : LogCache) : Label → Option LogCache
  | .bread p sector =>
      if m.User p then (m.bio.step (.bread p ROOTDEV sector)).map m.setBio else none
  | .bget p => (m.bio.step (.bget p)).map m.setBio
  | .check p => (m.bio.step (.check p)).map m.setBio
  | .read p =>
      match m.bio.status p with
      | .reading _ _ _ => (m.bio.step (.request p)).map m.setBio
      | _ => none
  | .ret p => if m.User p then (m.bio.step (.ret p)).map m.setBio else none
  | .modify p b data =>
      if m.proto.status p = .inOp then
        (m.bio.step (.modify p b data)).map fun bio =>
          { m with bio := bio, newest := Function.update m.newest (m.sector b) data }
      else none
  | .logWrite p b => if m.proto.status p = .inOp then m.logWrite p b else none
  | .brelse p b => if m.User p then (m.bio.step (.brelse p b)).map m.setBio else none
  | .wake p => (m.bio.step (.wake p)).map m.setBio
  | .beginOp p =>
      if m.bio.status p = .idle then (m.proto.step (.beginOp p)).map m.setProto else none
  | .endOp p =>
      if m.bio.status p = .idle ∧ m.AllLogged p then
        (m.proto.step (.endOp p)).map m.setProto
      else none
  | .finish p => (m.proto.step (.finish p)).map m.setProto
  | .kill p => (m.proto.step (.kill p)).map m.setProto

/-- The first step of a call of `commit()` that takes several. -/
def start (m : LogCache) (p : Pid) : LogOp (Fin NBUF) → Option LogCache
  | .bread sector => (m.bio.step (.bread p ROOTDEV sector)).map m.setBio
  | .bwrite b => (m.bio.step (.bwrite p b)).map m.setBio
  | _ => none

/-- The step with which a call of `commit()` returns, and what it returns. -/
def complete (m : LogCache) (p : Pid) : (o : LogOp (Fin NBUF)) → Option (o.Resp × LogCache)
  | .bread _ =>
      match m.bio.status p with
      | .returning _ _ b => (m.bio.step (.ret p)).map fun bio => (b, m.setBio bio)
      | _ => none
  | .getData b => some ((m.bio.buf b).data, m)
  | .setData b data => (m.bio.step (.modify p b data)).map fun bio => (⟨⟩, m.setBio bio)
  | .bwrite _ =>
      match m.bio.status p with
      | .writing _ => (m.bio.step (.request p)).map fun bio => (⟨⟩, m.setBio bio)
      | _ => none
  | .brelse b => (m.bio.step (.brelse p b)).map fun bio => (⟨⟩, m.setBio bio)
  | .getLh => some (m.proto.log.lh, m)
  | .setLh lh =>
      some (⟨⟩, m.setProto { m.proto with log := { m.proto.log with lh := lh } })

end LogCache

/-- The cache and the log, and what each committing process still has to execute of
`commit()`. -/
structure LogSys where
  m : LogCache
  todo : Pid → LogProgram (Fin NBUF) PUnit

namespace LogSys

/-- The state after `binit` and `initlog`, with a header that has `n = 0`. -/
def init (sb : Superblock) (disk : Ide.Disk) : LogSys where
  m :=
    { bio := Bio.init true disk
      proto := Protocol.init sb
      newest := fun sector => disk (ROOTDEV, sector) }
  todo := fun _ => .done ⟨⟩

inductive Label where
  | user (l : LogCache.Label)
  /-- the committing process starts its next call -/
  | start (p : Pid)
  /-- the call of the committing process returns -/
  | complete (p : Pid)
  /-- `commit()` returns -/
  | done (p : Pid)

def step (s : LogSys) (l : Label) : Option LogSys :=
  if s.m.bio.panicked.isSome ∨ s.m.proto.panicked.isSome then none else
  match l with
  | .user (.endOp p) =>
      (s.m.step (.endOp p)).map fun m =>
        { m := m
          todo :=
            if m.proto.status p = .inCommit then
              Function.update s.todo p (LogProgram.commit s.m.proto.log.start)
            else s.todo }
  | .user l => (s.m.step l).map fun m => { s with m := m }
  | .start p =>
      if s.m.proto.status p = .inCommit then
        match s.todo p with
        | .call o _ => (s.m.start p o).map fun m => { s with m := m }
        | .done _ => none
      else none
  | .complete p =>
      if s.m.proto.status p = .inCommit then
        match s.todo p with
        | .call o k => (s.m.complete p o).map fun a =>
            { m := a.2, todo := Function.update s.todo p (k a.1) }
        | .done _ => none
      else none
  | .done p =>
      match s.todo p with
      | .done _ => (s.m.proto.step (.commit p)).map fun proto =>
          { s with m := s.m.setProto proto }
      | .call _ _ => none

end LogSys

end Xv6
