import Xv6.Cache.Bcache
import Xv6.Foundation.Run

/-!
# Processes that use the buffer cache

`bread`, `bwrite` and `brelse`, with the sections of `bcache.lock` and the disk
requests of `iderw` as atomic steps, and between them what a holder does to its
buffer: change the data in place, or pass it to `log_write`. Any number of processes
take these steps in any order; requests complete in any order.

A holder that changes a buffer calls `log_write` or `bwrite` before `brelse`: that
is the convention at the head of `bio.c` and `log.c`, and the guard of `brelse` here.

What the buffer cache promises is about the history, so the state also keeps what
the code does not: who got a buffer from `bget` and has not released it, which
buffers were changed or logged, and what the last holder of a block left there.
-/

namespace Xv6

inductive BioStatus where
  /-- outside these functions -/
  | idle
  /-- in `bget`, about to acquire `bcache.lock` -/
  | wanting (dev sector : ℕ)
  /-- in `bget`, SLEEPING on the buffer -/
  | sleeping (dev sector : ℕ) (b : Fin NBUF)
  /-- in `bread`, `bget` has returned the buffer -/
  | got (dev sector : ℕ) (b : Fin NBUF)
  /-- in `bread`, the read request of `iderw` is queued -/
  | reading (dev sector : ℕ) (b : Fin NBUF)
  /-- in `bwrite`, the write request of `iderw` is queued -/
  | writing (b : Fin NBUF)
  /-- in `bread`, about to return the buffer -/
  | returning (dev sector : ℕ) (b : Fin NBUF)
  deriving DecidableEq

/-- The buffer cache, the disks and the processes. -/
structure Bio where
  cache : Bcache
  disk : Ide.Disk
  havedisk1 : Bool
  status : Pid → BioStatus
  panicked : Option Panic
  /-- `bget` returned the buffer to the process and the process has not released it -/
  holds : Pid → Fin NBUF → Bool
  /-- changed, and since then passed neither to `log_write` nor to `bwrite` -/
  modified : Fin NBUF → Bool
  /-- passed to `log_write`, and not written to its home block since then -/
  logged : Fin NBUF → Bool
  /-- what the last holder of a block left in its buffer -/
  last : ℕ → ℕ → Option Block

namespace Bio

/-- The state after `binit`. -/
def init (havedisk1 : Bool) (disk : Ide.Disk) : Bio where
  cache := Bcache.binit
  disk := disk
  havedisk1 := havedisk1
  status := fun _ => .idle
  panicked := none
  holds := fun _ _ => false
  modified := fun _ => false
  logged := fun _ => false
  last := fun _ _ => none

def buf (s : Bio) (b : Fin NBUF) : Buf := s.cache.buf b

def setStatus (s : Bio) (p : Pid) (st : BioStatus) : Bio :=
  { s with status := Function.update s.status p st }

def setBuf (s : Bio) (b : Fin NBUF) (x : Buf) : Bio :=
  { s with cache := s.cache.setBuf b x }

def panic (s : Bio) (e : Panic) : Bio := { s with panicked := some e }

/-- `bget` returns `b` to `p`. -/
def take (s : Bio) (p : Pid) (b : Fin NBUF) : Bio :=
  { s with holds := Function.update s.holds p (Function.update (s.holds p) b true) }

/-- One round of the loop of `bget`, from holding `bcache.lock` to releasing it. -/
def bget (s : Bio) (p : Pid) (dev sector : ℕ) : Bio :=
  match s.cache.bget dev sector with
  | .wait b => s.setStatus p (.sleeping dev sector b)
  | .found b =>
      ((s.setBuf b { s.buf b with busy := true }).take p b).setStatus p (.got dev sector b)
  | .recycle b =>
      ((s.setBuf b ((s.buf b).recycle dev sector)).take p b).setStatus p (.got dev sector b)
  | .noBuffers => s.panic .noBuffers

/-- `iderw` up to the request, with the status of a process that waits for it. -/
def iderw (s : Bio) (p : Pid) (b : Fin NBUF) (waiting : BioStatus) : Bio :=
  match (s.buf b).iderwPanic s.havedisk1 with
  | some e => s.panic e
  | none => s.setStatus p waiting

def bread (s : Bio) (p : Pid) (dev sector : ℕ) (b : Fin NBUF) : Bio :=
  if !(s.buf b).valid then s.iderw p b (.reading dev sector b)
  else s.setStatus p (.returning dev sector b)

/-- The data of `b` is on the disk: `b->flags |= B_VALID; b->flags &= ~B_DIRTY`. -/
def written (s : Bio) (b : Fin NBUF) : Bio :=
  let x := s.buf b
  { (s.setBuf b { x with valid := true, dirty := false }) with
    disk := Function.update s.disk (Ide.address x.dev x.sector) x.data
    modified := Function.update s.modified b false
    logged := Function.update s.logged b false }

/-- The data of `b` has come from the disk, with the same flags. -/
def filled (s : Bio) (b : Fin NBUF) : Bio :=
  let x := s.buf b
  s.setBuf b
    { x with data := s.disk (Ide.address x.dev x.sector), valid := true, dirty := false }

/-- The disk request for `b` is done: a dirty buffer is written, another one is read. -/
def request (s : Bio) (b : Fin NBUF) : Bio :=
  if (s.buf b).dirty then s.written b else s.filled b

def modify (s : Bio) (b : Fin NBUF) (data : Block) : Bio :=
  { (s.setBuf b { s.buf b with data := data }) with
    modified := Function.update s.modified b true }

/-- `log_write`, on the buffer: `b->flags |= B_DIRTY`. -/
def logWrite (s : Bio) (b : Fin NBUF) : Bio :=
  { (s.setBuf b { s.buf b with dirty := true }) with
    modified := Function.update s.modified b false
    logged := Function.update s.logged b true }

def bwrite (s : Bio) (p : Pid) (b : Fin NBUF) : Bio :=
  if !(s.buf b).busy then s.panic .bwrite
  else (s.setBuf b { s.buf b with dirty := true }).iderw p b (.writing b)

def wakeup (status : Pid → BioStatus) (b : Fin NBUF) : Pid → BioStatus := fun q =>
  match status q with
  | .sleeping dev sector b' => if b' = b then .wanting dev sector else status q
  | _ => status q

/-- The section of `bcache.lock` in `brelse`. -/
def released (s : Bio) (p : Pid) (b : Fin NBUF) : Bio :=
  let x := s.buf b
  { s with
    cache := (s.cache.moveFront b).setBuf b { x with busy := false }
    status := wakeup s.status b
    holds := Function.update s.holds p (Function.update (s.holds p) b false)
    last := Function.update s.last x.dev
      (Function.update (s.last x.dev) x.sector (some x.data)) }

def brelse (s : Bio) (p : Pid) (b : Fin NBUF) : Bio :=
  if !(s.buf b).busy then s.panic .brelse else s.released p b

inductive Label where
  /-- call `bread` -/
  | bread (p : Pid) (dev sector : ℕ)
  /-- one round of the loop of `bget` -/
  | bget (p : Pid)
  /-- `bread` tests `B_VALID` -/
  | check (p : Pid)
  /-- the request of the process is done -/
  | request (p : Pid)
  /-- `bread` returns -/
  | ret (p : Pid)
  | modify (p : Pid) (b : Fin NBUF) (data : Block)
  | logWrite (p : Pid) (b : Fin NBUF)
  | bwrite (p : Pid) (b : Fin NBUF)
  | brelse (p : Pid) (b : Fin NBUF)
  /-- a sleeper is woken by another `wakeup` on its channel, or by `kill` -/
  | wake (p : Pid)

/-- A step is enabled when the process is at the point of its code where it takes
it; nothing is enabled after a panic. -/
def step (s : Bio) (l : Label) : Option Bio :=
  if s.panicked.isSome then none else
  match l with
  | .bread p dev sector =>
      if s.status p = .idle ∧ Ide.Real dev sector then
        some (s.setStatus p (.wanting dev sector))
      else none
  | .bget p =>
      match s.status p with
      | .wanting dev sector => some (s.bget p dev sector)
      | _ => none
  | .check p =>
      match s.status p with
      | .got dev sector b => some (s.bread p dev sector b)
      | _ => none
  | .request p =>
      match s.status p with
      | .reading dev sector b => some ((s.request b).setStatus p (.returning dev sector b))
      | .writing b => some ((s.request b).setStatus p .idle)
      | _ => none
  | .ret p =>
      match s.status p with
      | .returning _ _ _ => some (s.setStatus p .idle)
      | _ => none
  | .modify p b data =>
      if s.status p = .idle ∧ s.holds p b then some (s.modify b data) else none
  | .logWrite p b =>
      if s.status p = .idle ∧ s.holds p b then some (s.logWrite b) else none
  | .bwrite p b =>
      if s.status p = .idle ∧ s.holds p b then some (s.bwrite p b) else none
  | .brelse p b =>
      if s.status p = .idle ∧ s.holds p b ∧ s.modified b = false then some (s.brelse p b)
      else none
  | .wake p =>
      match s.status p with
      | .sleeping dev sector _ => some (s.setStatus p (.wanting dev sector))
      | _ => none

section Fields

variable (s : Bio) (p : Pid) (st : BioStatus) (b : Fin NBUF) (x : Buf) (e : Panic)

@[simp] theorem setStatus_cache : (s.setStatus p st).cache = s.cache := rfl
@[simp] theorem setStatus_disk : (s.setStatus p st).disk = s.disk := rfl
@[simp] theorem setStatus_holds : (s.setStatus p st).holds = s.holds := rfl
@[simp] theorem setStatus_modified : (s.setStatus p st).modified = s.modified := rfl
@[simp] theorem setStatus_logged : (s.setStatus p st).logged = s.logged := rfl
@[simp] theorem setStatus_last : (s.setStatus p st).last = s.last := rfl
@[simp] theorem setStatus_buf : (s.setStatus p st).buf = s.buf := rfl
@[simp] theorem setStatus_status :
    (s.setStatus p st).status = Function.update s.status p st := rfl
@[simp] theorem setBuf_buf : (s.setBuf b x).buf = Function.update s.buf b x := rfl
@[simp] theorem setBuf_status : (s.setBuf b x).status = s.status := rfl
@[simp] theorem setBuf_disk : (s.setBuf b x).disk = s.disk := rfl
@[simp] theorem setBuf_holds : (s.setBuf b x).holds = s.holds := rfl
@[simp] theorem setBuf_modified : (s.setBuf b x).modified = s.modified := rfl
@[simp] theorem setBuf_logged : (s.setBuf b x).logged = s.logged := rfl
@[simp] theorem setBuf_last : (s.setBuf b x).last = s.last := rfl
@[simp] theorem setBuf_havedisk1 : (s.setBuf b x).havedisk1 = s.havedisk1 := rfl
@[simp] theorem setBuf_cache : (s.setBuf b x).cache = s.cache.setBuf b x := rfl
@[simp] theorem take_buf : (s.take p b).buf = s.buf := rfl
@[simp] theorem take_cache : (s.take p b).cache = s.cache := rfl
@[simp] theorem take_status : (s.take p b).status = s.status := rfl
@[simp] theorem take_disk : (s.take p b).disk = s.disk := rfl
@[simp] theorem take_modified : (s.take p b).modified = s.modified := rfl
@[simp] theorem take_logged : (s.take p b).logged = s.logged := rfl
@[simp] theorem take_last : (s.take p b).last = s.last := rfl
@[simp] theorem take_holds :
    (s.take p b).holds = Function.update s.holds p (Function.update (s.holds p) b true) := rfl
@[simp] theorem modify_buf (data : Block) :
    (s.modify b data).buf = Function.update s.buf b { s.buf b with data := data } := rfl
@[simp] theorem logWrite_buf :
    (s.logWrite b).buf = Function.update s.buf b { s.buf b with dirty := true } := rfl
@[simp] theorem modify_modified (data : Block) :
    (s.modify b data).modified = Function.update s.modified b true := rfl
@[simp] theorem modify_disk (data : Block) : (s.modify b data).disk = s.disk := rfl
@[simp] theorem modify_holds (data : Block) : (s.modify b data).holds = s.holds := rfl
@[simp] theorem modify_status (data : Block) : (s.modify b data).status = s.status := rfl
@[simp] theorem logWrite_modified :
    (s.logWrite b).modified = Function.update s.modified b false := rfl
@[simp] theorem logWrite_disk : (s.logWrite b).disk = s.disk := rfl
@[simp] theorem written_buf : (s.written b).buf =
    Function.update s.buf b { s.buf b with valid := true, dirty := false } := rfl
@[simp] theorem written_disk : (s.written b).disk =
    Function.update s.disk (Ide.address (s.buf b).dev (s.buf b).sector) (s.buf b).data := rfl
@[simp] theorem written_modified :
    (s.written b).modified = Function.update s.modified b false := rfl
@[simp] theorem written_logged :
    (s.written b).logged = Function.update s.logged b false := rfl
@[simp] theorem filled_buf : (s.filled b).buf =
    Function.update s.buf b { s.buf b with
      data := s.disk (Ide.address (s.buf b).dev (s.buf b).sector), valid := true, dirty := false } :=
  rfl
@[simp] theorem filled_disk : (s.filled b).disk = s.disk := rfl
@[simp] theorem filled_holds : (s.filled b).holds = s.holds := rfl
@[simp] theorem filled_last : (s.filled b).last = s.last := rfl
@[simp] theorem filled_modified : (s.filled b).modified = s.modified := rfl
@[simp] theorem filled_logged : (s.filled b).logged = s.logged := rfl
@[simp] theorem released_buf : (s.released p b).buf =
    Function.update s.buf b { s.buf b with busy := false } := rfl
@[simp] theorem released_holds : (s.released p b).holds =
    Function.update s.holds p (Function.update (s.holds p) b false) := rfl
@[simp] theorem released_last : (s.released p b).last =
    Function.update s.last (s.buf b).dev
      (Function.update (s.last (s.buf b).dev) (s.buf b).sector (some (s.buf b).data)) := rfl
@[simp] theorem released_status : (s.released p b).status = wakeup s.status b := rfl
@[simp] theorem released_disk : (s.released p b).disk = s.disk := rfl
@[simp] theorem panic_cache : (s.panic e).cache = s.cache := rfl

end Fields

/-! ### What one step can do -/

variable {s t : Bio} {p : Pid}

theorem panicked_of_step {l : Label} (h : step s l = some t) : s.panicked = none := by
  unfold step at h
  split at h
  · cases h
  · rename_i hp
    simpa using hp

theorem step_bread {dev sector : ℕ} (h : step s (.bread p dev sector) = some t) :
    s.status p = .idle ∧ Ide.Real dev sector ∧ t = s.setStatus p (.wanting dev sector) := by
  have hp := panicked_of_step h
  simp only [step, hp, Option.isSome_none, Bool.false_eq_true, if_false,
    Option.ite_none_right_eq_some, Option.some.injEq] at h
  exact ⟨h.1.1, h.1.2, h.2.symm⟩

theorem step_bget (h : step s (.bget p) = some t) :
    ∃ dev sector, s.status p = .wanting dev sector ∧ t = s.bget p dev sector := by
  have hp := panicked_of_step h
  cases hst : s.status p with
  | wanting dev sector => exact ⟨dev, sector, rfl, by simpa [step, hp, hst, eq_comm] using h⟩
  | _ => simp [step, hp, hst] at h

theorem step_check (h : step s (.check p) = some t) :
    ∃ dev sector b, s.status p = .got dev sector b ∧ t = s.bread p dev sector b := by
  have hp := panicked_of_step h
  cases hst : s.status p with
  | got dev sector b => exact ⟨dev, sector, b, rfl, by simpa [step, hp, hst, eq_comm] using h⟩
  | _ => simp [step, hp, hst] at h

theorem step_request (h : step s (.request p) = some t) :
    (∃ dev sector b, s.status p = .reading dev sector b ∧
        t = (s.request b).setStatus p (.returning dev sector b)) ∨
      ∃ b, s.status p = .writing b ∧ t = (s.request b).setStatus p .idle := by
  have hp := panicked_of_step h
  cases hst : s.status p with
  | reading dev sector b =>
      exact .inl ⟨dev, sector, b, rfl, by simpa [step, hp, hst, eq_comm] using h⟩
  | writing b => exact .inr ⟨b, rfl, by simpa [step, hp, hst, eq_comm] using h⟩
  | _ => simp [step, hp, hst] at h

theorem step_ret (h : step s (.ret p) = some t) :
    ∃ dev sector b, s.status p = .returning dev sector b ∧ t = s.setStatus p .idle := by
  have hp := panicked_of_step h
  cases hst : s.status p with
  | returning dev sector b =>
      exact ⟨dev, sector, b, rfl, by simpa [step, hp, hst, eq_comm] using h⟩
  | _ => simp [step, hp, hst] at h

theorem step_modify {b : Fin NBUF} {data : Block} (h : step s (.modify p b data) = some t) :
    s.status p = .idle ∧ s.holds p b = true ∧ t = s.modify b data := by
  have hp := panicked_of_step h
  simp only [step, hp, Option.isSome_none, Bool.false_eq_true, if_false,
    Option.ite_none_right_eq_some, Option.some.injEq] at h
  exact ⟨h.1.1, h.1.2, h.2.symm⟩

theorem step_logWrite {b : Fin NBUF} (h : step s (.logWrite p b) = some t) :
    s.status p = .idle ∧ s.holds p b = true ∧ t = s.logWrite b := by
  have hp := panicked_of_step h
  simp only [step, hp, Option.isSome_none, Bool.false_eq_true, if_false,
    Option.ite_none_right_eq_some, Option.some.injEq] at h
  exact ⟨h.1.1, h.1.2, h.2.symm⟩

theorem step_bwrite {b : Fin NBUF} (h : step s (.bwrite p b) = some t) :
    s.status p = .idle ∧ s.holds p b = true ∧ t = s.bwrite p b := by
  have hp := panicked_of_step h
  simp only [step, hp, Option.isSome_none, Bool.false_eq_true, if_false,
    Option.ite_none_right_eq_some, Option.some.injEq] at h
  exact ⟨h.1.1, h.1.2, h.2.symm⟩

theorem step_brelse {b : Fin NBUF} (h : step s (.brelse p b) = some t) :
    s.status p = .idle ∧ s.holds p b = true ∧ s.modified b = false ∧ t = s.brelse p b := by
  have hp := panicked_of_step h
  simp only [step, hp, Option.isSome_none, Bool.false_eq_true, if_false,
    Option.ite_none_right_eq_some, Option.some.injEq] at h
  exact ⟨h.1.1, h.1.2.1, h.1.2.2, h.2.symm⟩

theorem step_wake (h : step s (.wake p) = some t) :
    ∃ dev sector b, s.status p = .sleeping dev sector b ∧
      t = s.setStatus p (.wanting dev sector) := by
  have hp := panicked_of_step h
  cases hst : s.status p with
  | sleeping dev sector b =>
      exact ⟨dev, sector, b, rfl, by simpa [step, hp, hst, eq_comm] using h⟩
  | _ => simp [step, hp, hst] at h

end Bio

end Xv6
