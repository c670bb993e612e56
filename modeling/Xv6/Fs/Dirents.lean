import Mathlib.Data.List.TakeWhile
import Xv6.Foundation.Slots
import Xv6.Fs.ByteArray
import Xv6.Fs.Names

/-!
# The entries of a directory

A directory is a file of entries of 16 bytes. An entry holds a name without its final NUL when
the name has `DIRSIZ` characters or more, and `strncmp` compares no more than these. The entries
are slots for the names that are in them; a slot is empty when its `inum` is `0`.
-/

namespace Xv6

open Foundation

namespace Dirent

/-- What `namecmp` compares of a name. -/
def key (name : List UInt8) : List UInt8 := cstr (name.take DIRSIZ)

/-- The name and the inode in a slot. -/
def live (de : Dirent) : Option (List UInt8 × ℕ) :=
  if de.inum = 0 then none else some (key de.name, de.inum)

variable {name : List UInt8} {de : Dirent}

theorem size_eq : size = 16 := rfl

theorem length_key_le : (key name).length ≤ DIRSIZ :=
  (List.takeWhile_prefix _).length_le.trans (List.length_take_le _ _)

theorem ne_zero_of_mem_key {c : UInt8} (h : c ∈ key name) : c ≠ 0 := by
  unfold key cstr at h
  have hc := List.mem_takeWhile_imp h
  exact of_decide_eq_true hc

theorem cstr_eq_self {s : List UInt8} (h : ∀ c ∈ s, c ≠ 0) : cstr s = s :=
  List.takeWhile_eq_self_iff.mpr fun c hc => decide_eq_true (h c hc)

theorem key_key : key (key name) = key name := by
  rw [key, List.take_of_length_le length_key_le]
  exact cstr_eq_self fun _ => ne_zero_of_mem_key

theorem length_bytes : (bytes de).length = size := by
  have hle : (key de.name).length ≤ DIRSIZ := length_key_le
  have hcopy : strncpy de.name DIRSIZ =
      key de.name ++ List.replicate (DIRSIZ - (key de.name).length) 0 := rfl
  have hsizes : DIRSIZ = 14 ∧ size = 16 := ⟨rfl, rfl⟩
  rw [bytes, hcopy, List.length_append, List.length_append, List.length_replicate]
  simp only [List.length_cons, List.length_nil]
  omega

/-- The name that `strncpy` has put in a buffer of `DIRSIZ` characters. -/
theorem cstr_strncpy : cstr (strncpy name DIRSIZ) = key name := by
  have hcopy : strncpy name DIRSIZ =
      key name ++ List.replicate (DIRSIZ - (key name).length) 0 := rfl
  rw [hcopy, cstr, List.takeWhile_append_of_pos fun c hc => decide_eq_true (ne_zero_of_mem_key hc)]
  cases DIRSIZ - (key name).length with
  | zero => exact List.append_nil _
  | succ n => exact List.append_nil _

/-- What is read from the bytes of an entry. -/
theorem ofBytes_bytes (h : de.inum < 2 ^ 16) : ofBytes (bytes de) = ⟨de.inum, key de.name⟩ := by
  have hlen : (strncpy de.name DIRSIZ).length = DIRSIZ := by
    have hall : (bytes de).length = size := length_bytes
    rw [bytes, List.length_append] at hall
    exact Nat.add_left_cancel (n := 2) hall
  have hname : ((bytes de).drop 2).take DIRSIZ = strncpy de.name DIRSIZ :=
    List.take_of_length_le hlen.le
  have hinum : (UInt8.ofNat de.inum).toNat + 256 * (UInt8.ofNat (de.inum / 256)).toNat =
      de.inum := by
    rw [UInt8.toNat_ofNat', UInt8.toNat_ofNat']
    omega
  rw [ofBytes, hname, cstr_strncpy]
  exact congrArg (fun n => Dirent.mk n _) hinum

theorem live_ofBytes_bytes (hpos : 0 < de.inum) (h : de.inum < 2 ^ 16) :
    live (ofBytes (bytes de)) = some (key de.name, de.inum) := by
  rw [ofBytes_bytes h, live, if_neg (Nat.ne_of_gt hpos), key_key]

theorem live_ofBytes_zero : live (ofBytes (bytes zero)) = none := rfl

theorem live_ofBytes_nil : live (ofBytes []) = none := rfl

theorem live_eq_none : live de = none ↔ de.inum = 0 := by
  unfold live
  by_cases h : de.inum = 0
  · rw [if_pos h]
    exact iff_of_true rfl h
  · rw [if_neg h]
    exact iff_of_false (fun heq => by cases heq) h

theorem namecmp_iff : namecmp name de.name = true ↔ key name = key de.name :=
  decide_eq_true_iff

end Dirent

namespace Dinode

/-- The entry with the number `k`, when the inode is a directory. -/
def dirent (d : Dinode) (disk : FsDisk) (k : ℕ) : Dirent :=
  Dirent.ofBytes (record Dirent.size (d.contents disk) k)

def slots (d : Dinode) (disk : FsDisk) : Slots (List UInt8) ℕ where
  size := (d.size + (Dirent.size - 1)) / Dirent.size
  slot k := (d.dirent disk k).live
  beyond := fun k hk => by
    have hend : (d.contents disk).length ≤ Dirent.size * k := by
      rw [Fs.size_eq_length]
      rw [Dirent.size_eq] at *
      omega
    rw [dirent, record_of_le hend]
    exact Dirent.live_ofBytes_nil

end Dinode

namespace Fs

def dirent (s : Fs) (dp : Fin NINODE) : ℕ → Dirent := (s.dip dp).dirent s.disk

def slots (s : Fs) (dp : Fin NINODE) : Slots (List UInt8) ℕ := (s.dip dp).slots s.disk

/-- `dp` is a directory, and the caller has a reference to it. -/
structure Directory (dp : Fin NINODE) (s : Fs) : Prop where
  ref : 1 ≤ (s.icache dp).ref
  type : (s.dip dp).type = T_DIR
  ok : s.disk.Ok
  wf : (s.dip dp).WellFormed s.disk
  aligned : Dirent.size ∣ (s.dip dp).size
  distinct : (s.slots dp).Distinct

section Scan

variable {dp : Fin NINODE} {s : Fs} {k fuel : ℕ} {e : Panic} {p : Dirent → Bool}

theorem Directory.notDev (h : s.Directory dp) : (s.dip dp).type ≠ T_DEV := by
  rw [h.type]
  decide

theorem Directory.size_slots (h : s.Directory dp) :
    Dirent.size * (s.slots dp).size = (s.dip dp).size := by
  have haligned := h.aligned
  change Dirent.size * (((s.dip dp).size + (Dirent.size - 1)) / Dirent.size) = _
  rw [Dirent.size_eq] at *
  omega

theorem Directory.size_le (h : s.Directory dp) : (s.dip dp).size ≤ 71680 := h.wf.small

/-- An entry is read. -/
theorem Directory.readi (h : s.Directory dp) (hk : k < (s.slots dp).size) :
    FsM.readi dp (Dirent.size * k) Dirent.size s =
      .ok (((Dirent.size : ℕ), record Dirent.size ((s.dip dp).contents s.disk) k), s) := by
  have hall := h.size_slots
  have hle := h.size_le
  have hmul : Dirent.size * (k + 1) ≤ Dirent.size * (s.slots dp).size := Nat.mul_le_mul_left _ hk
  rw [Dirent.size_eq] at hall hmul ⊢
  rw [readi_eq h.wf h.notDev (by omega) (by omega), if_neg (by omega)]
  have hmin : min 16 ((s.dip dp).size - 16 * k) = 16 := by omega
  rw [hmin]
  rfl

/-- The loops look for the first entry with the property, and change nothing. -/
theorem Directory.scanDir (h : s.Directory dp) (hk : k ≤ (s.slots dp).size)
    (hfuel : (s.slots dp).size < k + fuel) :
    FsM.scanDir e dp p fuel (Dirent.size * k) s =
      .ok (((List.range' k ((s.slots dp).size - k)).find? fun j => p (s.dirent dp j)).map
        fun j => (Dirent.size * j, s.dirent dp j), s) := by
  have hwp : wp (FsM.scanDir e dp p fuel (Dirent.size * k)) (fun r t => r =
      (((List.range' k ((s.slots dp).size - k)).find? fun j => p (s.dirent dp j)).map
        fun j => (Dirent.size * j, s.dirent dp j)) ∧ t = s) (fun _ => False) s := by
    induction fuel generalizing k with
    | zero => exact absurd hfuel (Nat.not_lt.mpr hk)
    | succ fuel ih =>
        have hall := h.size_slots
        rw [FsM.scanDir, wp_bind, wp_ip]
        change wp (if Dirent.size * k < (s.dip dp).size then _ else _) _ _ s
        rw [wp_ite]
        refine ⟨fun hlt => ?_, fun hend => ?_⟩
        · have hin : k < (s.slots dp).size := by
            rw [Dirent.size_eq] at *
            omega
          have hcount : (s.slots dp).size - k = (s.slots dp).size - (k + 1) + 1 := by omega
          rw [wp_bind, wp_of_ok (h.readi hin)]
          change wp (if ((Dirent.size : ℕ) : ℤ) ≠ Dirent.size then _ else if p (s.dirent dp k) then
            pure (some (Dirent.size * k, s.dirent dp k)) else _) _ _ s
          rw [if_neg (not_not.mpr rfl), hcount, List.range'_succ, wp_ite]
          refine ⟨fun hp => ?_, fun hp => ?_⟩
          · rw [@List.find?_cons_of_pos _ (fun j => p (s.dirent dp j)) _ _ hp]
            exact wp_pure.mpr ⟨rfl, rfl⟩
          · rw [@List.find?_cons_of_neg _ (fun j => p (s.dirent dp j)) _ _ hp]
            exact ih hin (by omega)
        · have hnone : (s.slots dp).size - k = 0 := by
            rw [Dirent.size_eq] at *
            omega
          rw [hnone]
          exact wp_pure.mpr ⟨rfl, rfl⟩
  obtain ⟨r, t, hrun, rfl, rfl⟩ := hwp.exists_ok
  exact hrun

theorem Directory.scanFrom (h : s.Directory dp) :
    FsM.scanFrom e dp p 0 s =
      .ok (((List.range (s.slots dp).size).find? fun j => p (s.dirent dp j)).map
        fun j => (Dirent.size * j, s.dirent dp j), s) := by
  have hdiv : (s.slots dp).size < 0 + ((s.dip dp).size / Dirent.size + 1) := by
    have hall := h.size_slots
    rw [Dirent.size_eq] at *
    omega
  have hscan := h.scanDir (e := e) (p := p) (Nat.zero_le _) hdiv
  rw [Nat.sub_zero, ← List.range_eq_range', Nat.mul_zero] at hscan
  exact hscan

end Scan

end Fs

end Xv6
