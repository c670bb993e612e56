import Xv6.Boot.Bootmain
import Xv6.Foundation.Overlay

/-!
# The segments of the kernel

`readseg` reads whole sectors: it begins up to 511 bytes before the segment and ends up to
511 bytes behind it. The loads after it repair what it has put behind the segment, if
there is something; what it puts before the segment destroys the end of the segment loaded
last, unless the right bytes happen to be there.
-/

namespace Xv6

namespace Boot

open Foundation

variable {disk : Disk} {m t : Memory} {pa epa offset a : UInt32} {n fuel : ℕ}

/-! ### `readseg` -/

/-- What `n` sectors from `offset` on put into memory from `pa` on. -/
def sectorsAt (disk : Disk) (pa offset : UInt32) (n : ℕ) (a : UInt32) : Option UInt8 :=
  if pa.toNat ≤ a.toNat ∧ a.toNat < pa.toNat + 512 * n then
    some (disk (offset + UInt32.ofNat ((a.toNat - pa.toNat) / 512)) ((a.toNat - pa.toNat) % 512))
  else none

theorem overwrite_sectorsAt_zero : overwrite (sectorsAt disk pa offset 0) m = m := by
  funext a
  rw [overwrite, sectorsAt, if_neg (by omega)]
  rfl

theorem overwrite_sectorsAt_succ (h : pa.toNat + 512 < 2 ^ 32) :
    overwrite (sectorsAt disk (pa + 512) (offset + 1) n) (readsect disk pa offset m) =
      overwrite (sectorsAt disk pa offset (n + 1)) m := by
  have hpa : (pa + 512).toNat = pa.toNat + 512 := by
    rw [UInt32.toNat_add]
    exact Nat.mod_eq_of_lt h
  funext a
  rw [overwrite, overwrite, sectorsAt, sectorsAt, readsect, hpa]
  have hfirst : (a - pa).toNat < SECTSIZE ↔ _ := toNat_sub_lt_iff (n := 512) h.le
  by_cases hbefore : a.toNat < pa.toNat
  · have hout : ¬ (a - pa).toNat < SECTSIZE := mt hfirst.mp (by omega)
    rw [if_neg hout, if_neg (by omega), if_neg (by omega)]
  · have hle : pa.toNat ≤ a.toNat := Nat.le_of_not_lt hbefore
    by_cases hhere : a.toNat < pa.toNat + 512
    · rw [if_pos (hfirst.mpr ⟨hle, hhere⟩), if_neg (by omega), if_pos (by omega),
        toNat_sub_of_le hle, Nat.div_eq_of_lt (by omega), Nat.mod_eq_of_lt (by omega), addr_zero]
      rfl
    · obtain ⟨k, hk⟩ : ∃ k, a.toNat - pa.toNat = k + 512 := ⟨a.toNat - pa.toNat - 512, by omega⟩
      have hk' : a.toNat - (pa.toNat + 512) = k := by omega
      have hout : ¬ (a - pa).toNat < SECTSIZE := mt hfirst.mp (by omega)
      rw [if_neg hout, hk, hk', Nat.add_div_right _ (by decide), Nat.add_mod_right, ← addr_succ]
      by_cases hend : a.toNat < pa.toNat + 512 * (n + 1)
      · rw [if_pos (by omega), if_pos (by omega)]
      · rw [if_neg (by omega), if_neg (by omega)]

/-- Where the last sector does not reach the end of the address space, the loop reads the
sectors up to `epa`. -/
theorem readsegLoop_eq (hend : epa.toNat ≤ 2 ^ 32 - 512 + pa.toNat % 512)
    (hn : n = (epa.toNat - pa.toNat + 511) / 512) (hfuel : n < fuel) :
    readsegLoop disk epa fuel pa offset m = some (overwrite (sectorsAt disk pa offset n) m) := by
  induction n generalizing fuel pa offset m with
  | zero =>
      obtain ⟨k, rfl⟩ := Nat.exists_eq_succ_of_ne_zero hfuel.ne'
      rw [overwrite_sectorsAt_zero, readsegLoop, if_neg]
      rw [UInt32.lt_iff_toNat_lt]
      omega
  | succ n ih =>
      obtain ⟨k, rfl⟩ := Nat.exists_eq_succ_of_ne_zero (Nat.ne_zero_of_lt hfuel)
      have hlt : pa.toNat + 512 < 2 ^ 32 := by omega
      have hpa : (pa + 512).toNat = pa.toNat + 512 := by
        rw [UInt32.toNat_add]
        exact Nat.mod_eq_of_lt hlt
      rw [readsegLoop, if_pos, ih (by omega) (by omega) (by omega),
        overwrite_sectorsAt_succ hlt]
      rw [UInt32.lt_iff_toNat_lt]
      omega

/-- Where it does, `pa` is below `epa` for ever. -/
theorem readsegLoop_eq_none (hend : 2 ^ 32 - 512 + pa.toNat % 512 < epa.toNat) :
    readsegLoop disk epa fuel pa offset m = none := by
  induction fuel generalizing pa offset m with
  | zero => rfl
  | succ fuel ih =>
      have hpa := pa.toNat_lt
      rw [readsegLoop, if_pos, ih]
      · rw [UInt32.toNat_add]
        change 2 ^ 32 - 512 + (pa.toNat + 512) % 2 ^ 32 % 512 < _
        omega
      · rw [UInt32.lt_iff_toNat_lt]
        omega

theorem readsegLoop_mono {k : ℕ} (h : readsegLoop disk epa fuel pa offset m = some t) :
    readsegLoop disk epa (fuel + k) pa offset m = some t := by
  induction fuel generalizing pa offset m with
  | zero => cases h
  | succ fuel ih =>
      rw [Nat.succ_add, readsegLoop]
      rw [readsegLoop] at h
      split_ifs with hlt
      · rw [if_pos hlt] at h
        exact ih h
      · rwa [if_neg hlt] at h

/-! ### Segments -/

def file (disk : Disk) (o : ℕ) : UInt8 := disk (UInt32.ofNat (o / 512 + 1)) (o % 512)

namespace Proghdr

variable {s : Proghdr}

def start (s : Proghdr) : UInt32 := s.paddr - s.off % 512

def fileEnd (s : Proghdr) : UInt32 := s.paddr + s.filesz

/-- The last sector does not reach the end of the address space. -/
def Ends (s : Proghdr) : Prop := s.fileEnd.toNat ≤ 2 ^ 32 - 512 + s.start.toNat % 512

def sectors (s : Proghdr) : ℕ := (s.fileEnd.toNat - s.start.toNat + 511) / 512

def reads (disk : Disk) (s : Proghdr) (a : UInt32) : Option UInt8 :=
  if s.start.toNat ≤ a.toNat ∧ a.toNat < s.start.toNat + 512 * s.sectors then
    some (file disk (s.off.toNat / 512 * 512 + (a.toNat - s.start.toNat)))
  else none

/-- `a` is in the part of the segment that comes from the file. -/
def InFile (s : Proghdr) (a : UInt32) : Prop :=
  s.paddr.toNat ≤ a.toNat ∧ a.toNat < s.paddr.toNat + s.filesz.toNat

/-- `a` is in the part of the segment that is zero. -/
def InTail (s : Proghdr) (a : UInt32) : Prop :=
  s.paddr.toNat + s.filesz.toNat ≤ a.toNat ∧ a.toNat < s.paddr.toNat + s.memsz.toNat

instance : Decidable (s.InTail a) := inferInstanceAs (Decidable (_ ∧ _))

instance : Decidable (s.InFile a) := inferInstanceAs (Decidable (_ ∧ _))

/-- What the load of the segment puts into memory. -/
def puts (disk : Disk) (s : Proghdr) (a : UInt32) : Option UInt8 :=
  if s.InTail a then some 0 else s.reads disk a

def wants (disk : Disk) (s : Proghdr) (a : UInt32) : UInt8 :=
  if s.InFile a then file disk (s.off.toNat + (a.toNat - s.paddr.toNat)) else 0

/-- The segment does not reach around the end of the address space. -/
def Fits (s : Proghdr) : Prop :=
  s.paddr.toNat + max s.filesz.toNat s.memsz.toNat ≤ 2 ^ 32

theorem reads_eq : s.reads disk = sectorsAt disk s.start (s.off / 512 + 1) s.sectors := by
  funext a
  rw [reads, sectorsAt, file]
  congr 2
  have hoff : (s.off / 512).toNat = s.off.toNat / 512 := rfl
  have hsector : UInt32.ofNat (s.off.toNat / 512 + 1) = s.off / 512 + 1 := by
    rw [← hoff, UInt32.ofNat_add, UInt32.ofNat_toNat]
    rfl
  rw [Nat.mul_comm, Nat.mul_add_div (by decide), Nat.mul_add_mod, Nat.add_right_comm,
    UInt32.ofNat_add, hsector]

theorem readseg_eq (hend : s.Ends) (hfuel : s.sectors < fuel) :
    readseg disk fuel s.paddr s.filesz s.off m = some (overwrite (s.reads disk) m) := by
  rw [reads_eq]
  exact readsegLoop_eq hend rfl hfuel

/-- When `readseg` comes back, it has read its sectors. -/
theorem eq_of_readseg (h : readseg disk fuel s.paddr s.filesz s.off m = some t) :
    s.Ends ∧ t = overwrite (s.reads disk) m := by
  have hend : s.Ends := by
    by_contra hnot
    have hnone : readseg disk fuel s.paddr s.filesz s.off m = none :=
      readsegLoop_eq_none (not_le.mp hnot)
    rw [h] at hnone
    cases hnone
  refine ⟨hend, ?_⟩
  have hmore : readseg disk (fuel + (s.sectors + 1)) s.paddr s.filesz s.off m = some t :=
    readsegLoop_mono h
  rw [readseg_eq hend (by omega)] at hmore
  exact (Option.some.inj hmore).symm

end Proghdr

end Boot

end Xv6
