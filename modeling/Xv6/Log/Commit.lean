import Xv6.Foundation.Program
import Xv6.Disk.Block
import Xv6.Log.Header

/-!
# The functions of `log.c` that use the disk

`write_log`, `write_head`, `read_head`, `install_trans`, `commit` and
`recover_from_log`, as programs over the interface of the buffer cache: `bread`
returns a buffer, `bwrite` and `brelse` take one, and between them the holder reads
and writes its data. `H` is the type of buffers; the programs are run with sectors
for buffers in `Xv6.Log.Recovery` and with the buffers of the cache in
`Xv6.Cache.Logged`.

The loops run over the logged sectors with their index `tail`: `log.lh` does not
change while they run.
-/

namespace Xv6

/-- The header block as `struct logheader`: word `0` is `n`, word `i + 1` is
`sector[i]`. -/
def Block.header (b : Block) : LogHeader :=
  ⟨(List.range (b.word 0)).map fun i => b.word (i + 1)⟩

/-- The loop of `write_head`: `hb->sector[i] = log.lh.sector[i]`, from index `i`. -/
def Block.putSectors (b : Block) : ℕ → List ℕ → Block
  | _, [] => b
  | i, s :: ss => (b.setWord (i + 1) s).putSectors (i + 1) ss

/-- What `write_head` makes of the header block; entries past `n` keep their old
values. -/
def Block.putHeader (b : Block) (lh : LogHeader) : Block :=
  (b.setWord 0 lh.n).putSectors 0 lh.sector

inductive LogOp (H : Type) where
  | bread (sector : ℕ)
  | getData (b : H)
  | setData (b : H) (data : Block)
  | bwrite (b : H)
  | brelse (b : H)
  | getLh
  | setLh (lh : LogHeader)

abbrev LogOp.Resp {H : Type} : LogOp H → Type
  | .bread _ => H
  | .getData _ => Block
  | .getLh => LogHeader
  | _ => PUnit

abbrev LogProgram (H : Type) := Foundation.Program (LogOp H) LogOp.Resp

namespace LogProgram

open Foundation Program

variable {H : Type}

def bread (sector : ℕ) : LogProgram H H := .call (.bread sector) .done

def getData (b : H) : LogProgram H Block := .call (.getData b) .done

def setData (b : H) (data : Block) : LogProgram H PUnit := .call (.setData b data) .done

def bwrite (b : H) : LogProgram H PUnit := .call (.bwrite b) .done

def brelse (b : H) : LogProgram H PUnit := .call (.brelse b) .done

def getLh : LogProgram H LogHeader := .call .getLh .done

def setLh (lh : LogHeader) : LogProgram H PUnit := .call (.setLh lh) .done

def memmove (dst src : H) : LogProgram H PUnit := do
  let data ← getData src
  setData dst data

/-- The body of the loop of `write_log`: copy one block from the cache to the log. -/
def writeLogBlock (start : ℕ) (e : ℕ × ℕ) : LogProgram H PUnit := do
  let toBuf ← bread (start + e.2 + 1)
  let fromBuf ← bread e.1
  memmove toBuf fromBuf
  bwrite toBuf
  brelse fromBuf
  brelse toBuf

/-- Copy modified blocks from cache to log. -/
def writeLog (start : ℕ) : LogProgram H PUnit := do
  let lh ← getLh
  forEach (writeLogBlock start) lh.sector.zipIdx

/-- The body of the loop of `install_trans`: copy one block from the log to its
home. -/
def installBlock (start : ℕ) (e : ℕ × ℕ) : LogProgram H PUnit := do
  let lbuf ← bread (start + e.2 + 1)
  let dbuf ← bread e.1
  memmove dbuf lbuf
  bwrite dbuf
  brelse lbuf
  brelse dbuf

/-- Copy committed blocks from log to their home location. -/
def installTrans (start : ℕ) : LogProgram H PUnit := do
  let lh ← getLh
  forEach (installBlock start) lh.sector.zipIdx

/-- Read the log header from disk into the in-memory log header. -/
def readHead (start : ℕ) : LogProgram H PUnit := do
  let buf ← bread start
  let data ← getData buf
  setLh data.header
  brelse buf

/-- Write the in-memory log header to disk. This is the true point at which the
current transaction commits. -/
def writeHead (start : ℕ) : LogProgram H PUnit := do
  let buf ← bread start
  let data ← getData buf
  let lh ← getLh
  setData buf (data.putHeader lh)
  bwrite buf
  brelse buf

/-- `commit` when `log.lh.n > 0`. -/
def commitBody (start : ℕ) : LogProgram H PUnit := do
  writeLog start
  writeHead start
  installTrans start
  setLh LogHeader.empty
  writeHead start

def commit (start : ℕ) : LogProgram H PUnit := do
  let lh ← getLh
  if lh.n > 0 then commitBody start else pure ⟨⟩

def recoverFromLog (start : ℕ) : LogProgram H PUnit := do
  readHead start
  installTrans start
  setLh LogHeader.empty
  writeHead start

end LogProgram

namespace Block

theorem word_putSectors_of_le (b : Block) {i j : ℕ} (ss : List ℕ) (hj : j ≤ i) :
    (b.putSectors i ss).word j = b.word j := by
  induction ss generalizing b i with
  | nil => rfl
  | cons s ss ih =>
      rw [putSectors, ih _ (by omega), word_setWord_ne b s (by omega)]

theorem word_putSectors (b : Block) {i k : ℕ} (ss : List ℕ) (hk : k < ss.length)
    (hlen : i + ss.length < 128) (hss : ∀ s ∈ ss, s < 2 ^ 32) :
    (b.putSectors i ss).word (i + k + 1) = ss[k] := by
  induction ss generalizing b i k with
  | nil => simp at hk
  | cons s ss ih =>
      rw [List.length_cons] at hk hlen
      rw [putSectors]
      cases k with
      | zero =>
          rw [Nat.add_zero, word_putSectors_of_le _ ss le_rfl,
            word_setWord_same b (by omega) (hss s List.mem_cons_self)]
          rfl
      | succ k =>
          have hidx : i + (k + 1) + 1 = i + 1 + k + 1 := by omega
          rw [hidx, ih _ (by omega) (by omega) fun x hx => hss x (List.mem_cons_of_mem s hx)]
          rfl

theorem word_zero_putHeader (b : Block) {lh : LogHeader} (hn : lh.n < 128) :
    (b.putHeader lh).word 0 = lh.n := by
  rw [putHeader, word_putSectors_of_le _ _ le_rfl, word_setWord_same b (by omega) (by omega)]

/-- What `write_head` writes `read_head` reads back. -/
theorem header_putHeader (b : Block) {lh : LogHeader} (hn : lh.n < 128)
    (hss : ∀ s ∈ lh.sector, s < 2 ^ 32) : (b.putHeader lh).header = lh := by
  have hlist : (b.putHeader lh).header.sector = lh.sector := by
    rw [header, word_zero_putHeader b hn]
    apply List.ext_getElem
    · simp [LogHeader.n]
    · intro k h₁ h₂
      have hk : (b.putHeader lh).word (k + 1) = lh.sector[k] := by
        have hword := word_putSectors (b.setWord 0 lh.n) (i := 0) lh.sector h₂
          (by simpa [LogHeader.n] using hn) hss
        rwa [Nat.zero_add] at hword
      simp [hk]
  cases lh
  simp_all [header]

@[simp] theorem header_sector (b : Block) :
    b.header.sector = (List.range (b.word 0)).map fun i => b.word (i + 1) := rfl

@[simp] theorem header_n (b : Block) : b.header.n = b.word 0 := by
  simp [header]

end Block

end Xv6
