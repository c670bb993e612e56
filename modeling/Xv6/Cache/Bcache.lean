import Xv6.Disk.Block
import Xv6.Foundation.Ring

/-!
# The buffer cache

The data of `bio.c` and the decisions that its functions make under `bcache.lock`:
`binit`, one round of the loop of `bget`, and the tests of `iderw`. The processes
that run them are in `Xv6.Cache.Bio`.

The disks are addressed as `idestart` does it: one bit of the device number, 28
bits of the sector number.
-/

namespace Xv6

open Foundation

/-- The device number of a buffer that has never been used: `-1` as an unsigned
integer. -/
def NODEV : ℕ := 2 ^ 32 - 1

/-- `struct buf`, without its list links. -/
structure Buf where
  /-- `B_BUSY`: buffer is locked by some process -/
  busy : Bool
  /-- `B_VALID`: buffer has been read from disk -/
  valid : Bool
  /-- `B_DIRTY`: buffer needs to be written to disk -/
  dirty : Bool
  dev : ℕ
  sector : ℕ
  data : Block

namespace Ide

/-- The contents of the two disks, by unit and sector. -/
abbrev Disk := ℕ × ℕ → Block

/-- Where `idestart` sends the request for a buffer. -/
def address (dev sector : ℕ) : ℕ × ℕ := (dev % 2, sector % 2 ^ 28)

/-- A block of a real device: one of the two disks, and a sector that has an
address. -/
def Real (dev sector : ℕ) : Prop := dev < 2 ∧ sector < 2 ^ 28

instance (dev sector : ℕ) : Decidable (Real dev sector) :=
  inferInstanceAs (Decidable (_ ∧ _))

theorem address_of_real {dev sector : ℕ} (h : Real dev sector) :
    address dev sector = (dev, sector) := by
  rw [address, Nat.mod_eq_of_lt h.1, Nat.mod_eq_of_lt h.2]

theorem not_real_NODEV (sector : ℕ) : ¬ Real NODEV sector := by
  intro h
  exact absurd h.1 (by decide)

end Ide

namespace Buf

def Carries (b : Buf) (dev sector : ℕ) : Prop := b.dev = dev ∧ b.sector = sector

instance (b : Buf) (dev sector : ℕ) : Decidable (b.Carries dev sector) :=
  inferInstanceAs (Decidable (_ ∧ _))

/-- The buffer may be recycled: neither busy nor dirty. -/
def recyclable (b : Buf) : Bool := !b.busy && !b.dirty

def recycle (b : Buf) (dev sector : ℕ) : Buf :=
  { b with busy := true, valid := false, dirty := false, dev := dev, sector := sector }

/-- The tests at the entry of `iderw`. -/
def iderwPanic (b : Buf) (havedisk1 : Bool) : Option Panic :=
  if !b.busy then some .iderwNotBusy
  else if b.valid && !b.dirty then some .iderwNothing
  else if b.dev ≠ 0 ∧ !havedisk1 then some .iderwNoDisk1
  else none

end Buf

/-- The buffers, and the list of them through `prev`/`next`; `head.next` is most
recently used. -/
structure Bcache where
  buf : Fin NBUF → Buf
  links : Links (Fin NBUF)

inductive BgetResult where
  /-- cached and not busy: take it -/
  | found (b : Fin NBUF)
  /-- cached and busy: sleep on it and start over -/
  | wait (b : Fin NBUF)
  /-- not cached: this buffer is clean and not busy -/
  | recycle (b : Fin NBUF)
  | noBuffers
  deriving DecidableEq

namespace Bcache

/-- `binit`: link every buffer in after the head. -/
def binit : Bcache where
  buf := fun _ => ⟨false, false, false, NODEV, 0, Block.zero⟩
  links := (List.finRange NBUF).foldl Links.pushFront Links.empty

/-- `for(b = head.next; b != &head; b = b->next)`. -/
def forward (c : Bcache) : List (Fin NBUF) := Links.walk c.links.next NBUF none

/-- `for(b = head.prev; b != &head; b = b->prev)`. -/
def backward (c : Bcache) : List (Fin NBUF) := Links.walk c.links.prev NBUF none

def bget (c : Bcache) (dev sector : ℕ) : BgetResult :=
  match c.forward.find? fun b => (c.buf b).Carries dev sector with
  | some b => if (c.buf b).busy then .wait b else .found b
  | none =>
      match c.backward.find? fun b => (c.buf b).recyclable with
      | some b => .recycle b
      | none => .noBuffers

/-- Move a buffer to the head of the list: the pointer assignments of `brelse`. -/
def moveFront (c : Bcache) (b : Fin NBUF) : Bcache :=
  { c with links := (c.links.unlink b).pushFront b }

def setBuf (c : Bcache) (b : Fin NBUF) (x : Buf) : Bcache :=
  { c with buf := Function.update c.buf b x }

@[simp] theorem setBuf_links (c : Bcache) (b : Fin NBUF) (x : Buf) :
    (c.setBuf b x).links = c.links := rfl

@[simp] theorem setBuf_buf (c : Bcache) (b : Fin NBUF) (x : Buf) :
    (c.setBuf b x).buf = Function.update c.buf b x := rfl

@[simp] theorem moveFront_buf (c : Bcache) (b : Fin NBUF) : (c.moveFront b).buf = c.buf := rfl

/-- The list from the head is circular, doubly linked, and has every buffer once. -/
def WellLinked (c : Bcache) : Prop := ∃ l, c.links.Ring l ∧ ∀ b, b ∈ l

theorem WellLinked.moveFront {c : Bcache} (h : c.WellLinked) (b : Fin NBUF) :
    (c.moveFront b).WellLinked := by
  obtain ⟨l, hl, hall⟩ := h
  refine ⟨b :: l.erase b, hl.moveFront (hall b), fun a => ?_⟩
  by_cases hab : a = b
  · exact hab ▸ List.mem_cons_self
  · exact List.mem_cons_of_mem b ((List.mem_erase_of_ne hab).mpr (hall a))

theorem wellLinked_binit : binit.WellLinked := by
  have hring : ∀ (m l : List (Fin NBUF)) (L : Links (Fin NBUF)), L.Ring l →
      (m ++ l).Nodup → ∃ l', (m.foldl Links.pushFront L).Ring l' ∧ ∀ b ∈ m ++ l, b ∈ l' := by
    intro m
    induction m with
    | nil => exact fun l L hL _ => ⟨l, hL, fun b hb => hb⟩
    | cons a m ih =>
        intro l L hL hnd
        have hperm : (m ++ a :: l).Perm (a :: m ++ l) := List.perm_middle
        rw [← hperm.nodup_iff] at hnd
        have hal : a ∉ l := (List.nodup_cons.mp (List.nodup_append.mp hnd).2.1).1
        obtain ⟨l', hl', hmem⟩ := ih (a :: l) (L.pushFront a) (hL.pushFront hal) hnd
        exact ⟨l', hl', fun b hb => hmem b (hperm.mem_iff.mpr hb)⟩
  obtain ⟨l, hl, hmem⟩ := hring (List.finRange NBUF) [] Links.empty Links.Ring.empty
    (by simpa using List.nodup_finRange NBUF)
  exact ⟨l, hl, fun b => hmem b (by simp)⟩

theorem WellLinked.mem_forward {c : Bcache} (h : c.WellLinked) (b : Fin NBUF) :
    b ∈ c.forward := by
  obtain ⟨l, hl, hall⟩ := h
  have hlen : l.length ≤ NBUF := by
    simpa using hl.nodup.length_le_card
  rw [forward, hl.walk_next hlen]
  exact hall b

theorem WellLinked.mem_backward {c : Bcache} (h : c.WellLinked) (b : Fin NBUF) :
    b ∈ c.backward := by
  obtain ⟨l, hl, hall⟩ := h
  have hlen : l.length ≤ NBUF := by
    simpa using hl.nodup.length_le_card
  rw [backward, hl.walk_prev hlen]
  exact List.mem_reverse.mpr (hall b)

/-! ### What `bget` decides -/

theorem bget_found {c : Bcache} {dev sector : ℕ} {b : Fin NBUF}
    (h : c.bget dev sector = .found b) :
    (c.buf b).Carries dev sector ∧ (c.buf b).busy = false := by
  unfold bget at h
  split at h
  · rename_i b' hfind
    split at h
    · cases h
    · rename_i hbusy
      cases h
      exact ⟨by simpa using List.find?_some hfind, by simpa using hbusy⟩
  · split at h <;> cases h

/-- A buffer is recycled only when the block is not cached. -/
theorem bget_recycle {c : Bcache} (hc : c.WellLinked) {dev sector : ℕ} {b : Fin NBUF}
    (h : c.bget dev sector = .recycle b) :
    (∀ a, ¬ (c.buf a).Carries dev sector) ∧ (c.buf b).busy = false ∧
      (c.buf b).dirty = false := by
  unfold bget at h
  split at h
  · split at h <;> cases h
  · rename_i hnone
    split at h
    · rename_i b' hfind
      cases h
      refine ⟨fun a => ?_, ?_⟩
      · have ha := List.find?_eq_none.mp hnone a (hc.mem_forward a)
        simpa using ha
      · simpa [Buf.recyclable] using List.find?_some hfind
    · cases h

/-- `bget` finds no buffer exactly when the block is not cached and every buffer is
busy or dirty. -/
theorem bget_noBuffers {c : Bcache} (hc : c.WellLinked) {dev sector : ℕ} :
    c.bget dev sector = .noBuffers ↔
      ∀ a, ¬ (c.buf a).Carries dev sector ∧ (c.buf a).recyclable = false := by
  unfold bget
  constructor
  · intro h a
    split at h
    · split at h <;> cases h
    · rename_i hnone
      split at h
      · cases h
      · rename_i hnone'
        have h₁ := List.find?_eq_none.mp hnone a (hc.mem_forward a)
        have h₂ := List.find?_eq_none.mp hnone' a (hc.mem_backward a)
        exact ⟨by simpa using h₁, by simpa using h₂⟩
  · intro h
    have h₁ : c.forward.find? (fun b => (c.buf b).Carries dev sector) = none :=
      List.find?_eq_none.mpr fun a _ => by simpa using (h a).1
    have h₂ : c.backward.find? (fun b => (c.buf b).recyclable) = none :=
      List.find?_eq_none.mpr fun a _ => by simp [(h a).2]
    rw [h₁, h₂]

end Bcache

end Xv6
