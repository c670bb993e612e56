import Xv6.Boot.Segments
import Xv6.Lib.Bounds

/-!
# The kernel in memory

`bootmain` loads each segment as the file has it exactly where every sector that a later
load puts over it holds the right bytes at that place, and no segment has its last sector
at the end of the address space.
-/

namespace Xv6

namespace Boot

open Foundation

variable {disk : Disk} {m t : Memory} {a ph eph : UInt32} {n k fuel : ℕ} {s : Proghdr}
  {segs : List Proghdr}

theorem stosb_apply {c : UInt32} (h : a.toNat + n ≤ 2 ^ 32) (x : UInt32) :
    stosb a c n m x =
      if a.toNat ≤ x.toNat ∧ x.toNat < a.toNat + n then c.toUInt8 else m x := by
  have hstored := stored_stosb (m := m) (a := a) (c := c) (n := n) (by omega)
  split_ifs with hx
  · obtain ⟨i, hi⟩ := Nat.exists_eq_add_of_le hx.1
    have hlt : i < n := by omega
    have hxi : x = a + UInt32.ofNat i := by
      rw [← UInt32.toNat_inj, toNat_addr h hlt, hi]
    rw [hxi, hstored.getElem (by rwa [List.length_replicate]), List.getElem_replicate]
  · refine hstored.frame x fun i hi heq => hx ?_
    rw [List.length_replicate] at hi
    rw [← heq, toNat_addr h hi]
    omega

namespace Proghdr

def High (s : Proghdr) : Prop := 0x100000 ≤ s.paddr.toNat

theorem High.start (h : s.High) : s.start.toNat = s.paddr.toNat - s.off.toNat % 512 := by
  have hmod : (s.off % 512).toNat = s.off.toNat % 512 := rfl
  rw [High] at h
  rw [Proghdr.start, toNat_sub_of_le (by omega), hmod]

/-- The sectors and the zeros behind them. -/
theorem fill_reads (h : s.Fits) :
    (if s.memsz > s.filesz then
        stosb (s.paddr + s.filesz) 0 (s.memsz - s.filesz).toNat (overwrite (s.reads disk) m)
      else overwrite (s.reads disk) m) = overwrite (s.puts disk) m := by
  rw [Fits] at h
  split_ifs with hlt
  · have hlt' : s.filesz.toNat < s.memsz.toNat := UInt32.lt_iff_toNat_lt.mp hlt
    have hend : (s.paddr + s.filesz).toNat = s.paddr.toNat + s.filesz.toNat := by
      rw [UInt32.toNat_add]
      exact Nat.mod_eq_of_lt (by omega)
    have hlen : (s.memsz - s.filesz).toNat = s.memsz.toNat - s.filesz.toNat :=
      toNat_sub_of_le hlt'.le
    funext a
    rw [stosb_apply (by omega), overwrite, overwrite, puts, hend, hlen]
    by_cases htail : s.InTail a
    · rw [if_pos htail, if_pos ⟨htail.1, by have := htail.2; omega⟩]
      rfl
    · rw [if_neg htail, if_neg fun h' => htail ⟨h'.1, by omega⟩]
  · have hle : ¬ s.filesz.toNat < s.memsz.toNat := mt UInt32.lt_iff_toNat_lt.mpr hlt
    funext a
    rw [overwrite, overwrite, puts, if_neg]
    intro htail
    rw [InTail] at htail
    omega

/-- Nothing is put below the first megabyte but for one sector. -/
theorem High.puts_eq_none (h : s.High) (ha : a.toNat < 0x11000) : s.puts disk a = none := by
  have hstart := h.start
  rw [High] at h
  rw [puts, if_neg, reads, if_neg]
  · omega
  · rw [InTail]
    omega

end Proghdr

/-! ### The header -/

/-- The file, with its first byte at the scratch space. -/
def image (disk : Disk) : Memory := fun a => file disk (a - elf).toNat

/-- The first page of the file is in the scratch space. -/
def HasHeader (disk : Disk) (m : Memory) : Prop :=
  ∀ a : UInt32, 0x10000 ≤ a.toNat → a.toNat < 0x11000 → m a = image disk a

theorem HasHeader.puts (h : HasHeader disk m) (hs : s.High) :
    HasHeader disk (overwrite (s.puts disk) m) := by
  intro a hle hlt
  rw [overwrite, hs.puts_eq_none hlt]
  exact h a hle hlt

theorem HasHeader.ushort (h : HasHeader disk m) (hle : 0x10000 ≤ a.toNat)
    (hlt : a.toNat + 2 ≤ 0x11000) : m.ushort a = (image disk).ushort a := by
  have hone : (a + 1).toNat = a.toNat + 1 := toNat_addr (i := 1) (n := 2) (by omega) (by decide)
  rw [Memory.ushort, Memory.ushort, h a hle (by omega), h (a + 1) (by omega) (by omega)]

theorem HasHeader.uint (h : HasHeader disk m) (hle : 0x10000 ≤ a.toNat)
    (hlt : a.toNat + 4 ≤ 0x11000) : m.uint a = (image disk).uint a := by
  have htwo : (a + 2).toNat = a.toNat + 2 := toNat_addr (i := 2) (n := 3) (by omega) (by decide)
  rw [Memory.uint, Memory.uint, h.ushort hle (by omega), h.ushort (by omega) (by omega)]

theorem HasHeader.proghdr (h : HasHeader disk m) (hle : 0x10000 ≤ ph.toNat)
    (hlt : ph.toNat + 32 ≤ 0x11000) : proghdr m ph = proghdr (image disk) ph := by
  have hword : ∀ i : ℕ, i + 4 ≤ 32 →
      m.uint (ph + UInt32.ofNat i) = (image disk).uint (ph + UInt32.ofNat i) := by
    intro i hi
    have haddr : (ph + UInt32.ofNat i).toNat = ph.toNat + i :=
      toNat_addr (n := 32) (by omega) (by omega)
    exact h.uint (by omega) (by omega)
  have hoff := hword 4 (by decide)
  have hpaddr := hword 12 (by decide)
  have hfilesz := hword 16 (by decide)
  have hmemsz := hword 20 (by decide)
  exact Proghdr.ext hoff hpaddr hfilesz hmemsz

def headers (m : Memory) : ℕ → UInt32 → List Proghdr
  | 0, _ => []
  | n + 1, ph => proghdr m ph :: headers m n (ph + 32)

def phdrs (disk : Disk) : List Proghdr :=
  headers (image disk) ((image disk).ushort (elf + 44)).toNat (elf + (image disk).uint (elf + 28))

/-! ### The loop over the segments -/

theorem segLoop_none (hlt : ph < eph)
    (h : readseg disk fuel (proghdr m ph).paddr (proghdr m ph).filesz (proghdr m ph).off m =
      none) : segLoop disk fuel eph (n + 1) ph m = none := by
  rw [segLoop, if_pos hlt]
  change (readseg disk fuel (proghdr m ph).paddr _ _ m).bind _ = none
  rw [h]
  rfl

/-- One segment. -/
theorem segLoop_some (hlt : ph < eph) (hm : HasHeader disk m) (hle : 0x10000 ≤ ph.toNat)
    (hph : ph.toNat + 32 ≤ 0x11000) (hs : proghdr (image disk) ph = s) (hhigh : s.High)
    (hfits : s.Fits)
    (h : readseg disk fuel s.paddr s.filesz s.off m = some (overwrite (s.reads disk) m)) :
    segLoop disk fuel eph (n + 1) ph m =
      segLoop disk fuel eph n (ph + 32) (overwrite (s.puts disk) m) := by
  have hreads : HasHeader disk (overwrite (s.reads disk) m) := by
    intro a hle hlt
    have hnone : s.puts disk a = none := hhigh.puts_eq_none hlt
    rw [Proghdr.puts, if_neg] at hnone
    · rw [overwrite, hnone]
      exact hm a hle hlt
    · intro htail
      rw [if_pos htail] at hnone
      cases hnone
  rw [segLoop, if_pos hlt, hm.proghdr hle hph, hs]
  change (readseg disk fuel s.paddr s.filesz s.off m).bind _ = _
  rw [h]
  change segLoop disk fuel eph n (ph + 32) (if _ then _ else _) = _
  rw [hreads.proghdr hle hph, hs, Proghdr.fill_reads hfits]

theorem headers_succ {v : Memory} : headers v (n + 1) ph = proghdr v ph :: headers v n (ph + 32) :=
  rfl

/-- The headers from `ph` to `eph` are in the scratch space, and their segments are not. -/
structure Ready (disk : Disk) (k : ℕ) (ph eph : UInt32) : Prop where
  le : 0x10000 ≤ ph.toNat
  span : ph.toNat + 32 * k = eph.toNat
  eph_le : eph.toNat ≤ 0x11000
  high : ∀ s ∈ headers (image disk) k ph, s.High
  fits : ∀ s ∈ headers (image disk) k ph, s.Fits

namespace Ready

theorem next (h : Ready disk (k + 1) ph eph) : Ready disk k (ph + 32) eph := by
  have hle := h.eph_le
  have heph := h.span
  have hph : (ph + 32).toNat = ph.toNat + 32 :=
    toNat_addr (i := 32) (n := 33) (by omega) (by decide)
  exact ⟨by have := h.le; omega, by omega, hle, fun s hs => h.high s (List.mem_cons_of_mem _ hs),
    fun s hs => h.fits s (List.mem_cons_of_mem _ hs)⟩

theorem lt (h : Ready disk (k + 1) ph eph) : ph < eph := by
  have heph := h.span
  rw [UInt32.lt_iff_toNat_lt]
  omega

theorem not_lt (h : Ready disk 0 ph eph) : ¬ ph < eph := by
  have heph := h.span
  rw [UInt32.lt_iff_toNat_lt]
  omega

/-- The first of the segments. -/
theorem segLoop_some (h : Ready disk (k + 1) ph eph) (hm : HasHeader disk m)
    (hread : readseg disk fuel (proghdr (image disk) ph).paddr (proghdr (image disk) ph).filesz
      (proghdr (image disk) ph).off m = some (overwrite ((proghdr (image disk) ph).reads disk) m)) :
    segLoop disk fuel eph (n + 1) ph m =
      segLoop disk fuel eph n (ph + 32) (overwrite ((proghdr (image disk) ph).puts disk) m) := by
  have heph := h.span
  have hle := h.eph_le
  exact Boot.segLoop_some h.lt hm h.le (by omega) rfl (h.high _ List.mem_cons_self)
    (h.fits _ List.mem_cons_self) hread

/-- With enough fuel, the loop loads the segments one after the other. -/
theorem segLoop_eq (h : Ready disk k ph eph) (hm : HasHeader disk m)
    (hends : ∀ s ∈ headers (image disk) k ph, s.Ends)
    (hfuel : ∀ s ∈ headers (image disk) k ph, s.sectors < fuel) (hn : k < n) :
    segLoop disk fuel eph n ph m =
      some (overlay ((headers (image disk) k ph).map (Proghdr.puts disk)) m) := by
  induction k generalizing n ph m with
  | zero =>
      obtain ⟨n, rfl⟩ := Nat.exists_eq_succ_of_ne_zero hn.ne'
      rw [segLoop, if_neg h.not_lt]
      rfl
  | succ k ih =>
      obtain ⟨n, rfl⟩ := Nat.exists_eq_succ_of_ne_zero (Nat.ne_zero_of_lt hn)
      rw [headers_succ, List.forall_mem_cons] at hends hfuel
      rw [h.segLoop_some hm (Proghdr.readseg_eq hends.1 hfuel.1),
        ih h.next (hm.puts (h.high _ List.mem_cons_self)) hends.2 hfuel.2 (by omega)]
      rfl

/-- A loop that ends has loaded the segments one after the other. -/
theorem eq_of_segLoop (h : Ready disk k ph eph) (hm : HasHeader disk m)
    (hrun : segLoop disk fuel eph n ph m = some t) :
    (∀ s ∈ headers (image disk) k ph, s.Ends) ∧
      t = overlay ((headers (image disk) k ph).map (Proghdr.puts disk)) m := by
  induction k generalizing n ph m with
  | zero =>
      cases n with
      | zero => cases hrun
      | succ n =>
          rw [segLoop, if_neg h.not_lt] at hrun
          exact ⟨fun s hs => absurd hs List.not_mem_nil, (Option.some.inj hrun).symm⟩
  | succ k ih =>
      cases n with
      | zero => cases hrun
      | succ n =>
          have hle := h.eph_le
          have heph := h.span
          have hsame := hm.proghdr h.le (by omega)
          cases hread : readseg disk fuel (proghdr (image disk) ph).paddr
              (proghdr (image disk) ph).filesz (proghdr (image disk) ph).off m with
          | none =>
              rw [segLoop_none h.lt (by rwa [hsame])] at hrun
              cases hrun
          | some v =>
              obtain ⟨hend, hv⟩ := Proghdr.eq_of_readseg hread
              rw [h.segLoop_some hm (hread.trans (congrArg some hv))] at hrun
              obtain ⟨hends, ht⟩ := ih h.next (hm.puts (h.high _ List.mem_cons_self)) hrun
              exact ⟨List.forall_mem_cons.mpr ⟨hend, hends⟩, ht⟩

end Ready

/-! ### Segments loaded one after the other -/

namespace Proghdr

/-- `a` belongs to the segment. -/
def Covers (s : Proghdr) (a : UInt32) : Prop := s.InFile a ∨ s.InTail a

/-- The segment is in memory as the file has it. -/
def Loaded (disk : Disk) (s : Proghdr) (t : Memory) : Prop :=
  (∀ a, s.InFile a → t a = file disk (s.off.toNat + (a.toNat - s.paddr.toNat))) ∧
  ∀ a, s.InTail a → t a = 0

theorem loaded_iff : s.Loaded disk t ↔ ∀ a, s.Covers a → t a = s.wants disk a := by
  have htail : ∀ a, s.InTail a → ¬ s.InFile a := by
    intro a hin hfile
    rw [InTail] at hin
    rw [InFile] at hfile
    omega
  constructor
  · rintro ⟨hfile, hzero⟩ a ha
    rw [wants]
    cases ha with
    | inl hin => rw [if_pos hin, hfile a hin]
    | inr hin => rw [if_neg (htail a hin), hzero a hin]
  · intro h
    refine ⟨fun a hin => ?_, fun a hin => ?_⟩
    · rw [h a (.inl hin), wants, if_pos hin]
    · rw [h a (.inr hin), wants, if_neg (htail a hin)]

/-- The last sector read for the segment ends below the end of the address space. -/
def Below (s : Proghdr) : Prop :=
  s.paddr.toNat + s.filesz.toNat ≤ 2 ^ 32 - 512 + s.start.toNat % 512

theorem Below.fileEnd (h : s.Below) : s.fileEnd.toNat = s.paddr.toNat + s.filesz.toNat := by
  rw [Below] at h
  rw [Proghdr.fileEnd, UInt32.toNat_add]
  exact Nat.mod_eq_of_lt (by omega)

theorem Below.ends (h : s.Below) : s.Ends := by
  rw [Ends, h.fileEnd]
  exact h

/-- A segment is right when it has just been loaded. -/
theorem puts_eq (hhigh : s.High) (hbelow : s.Below) (ha : s.Covers a) :
    s.puts disk a = some (s.wants disk a) := by
  rw [puts, wants]
  by_cases hin : s.InFile a
  · have htail : ¬ s.InTail a := fun htail => by
      rw [InFile] at hin
      rw [InTail] at htail
      omega
    have hstart := hhigh.start
    have hend := hbelow.fileEnd
    rw [High] at hhigh
    have hin' := hin
    rw [InFile] at hin'
    rw [if_neg htail, if_pos hin, reads, if_pos, hstart]
    · congr 2
      omega
    · rw [sectors, hend]
      omega
  · rw [if_pos (ha.resolve_left hin), if_neg hin]

end Proghdr

/-- Wherever the sectors read for later segments cover an earlier one, the last of them has
the right byte for it. -/
def Harmless (disk : Disk) : List Proghdr → Prop
  | [] => True
  | s :: segs =>
      (∀ a, s.Covers a → ∀ b, lastOf (segs.map (Proghdr.reads disk)) a = some b →
        b = s.wants disk a) ∧ Harmless disk segs

theorem forall_loaded_iff (hhigh : ∀ s ∈ segs, s.High) (hbelow : ∀ s ∈ segs, s.Below)
    (hdisjoint : segs.Pairwise fun s s' => ∀ a, ¬ (s.Covers a ∧ s'.Covers a)) :
    (∀ s ∈ segs, s.Loaded disk (overlay (segs.map (Proghdr.puts disk)) m)) ↔
      Harmless disk segs := by
  induction segs generalizing m with
  | nil => exact iff_of_true (fun s hs => absurd hs List.not_mem_nil) trivial
  | cons s segs ih =>
      obtain ⟨hhigh, hhighs⟩ := List.forall_mem_cons.mp hhigh
      obtain ⟨hbelow, hbelows⟩ := List.forall_mem_cons.mp hbelow
      obtain ⟨hdisjoint, hdisjoints⟩ := List.pairwise_cons.mp hdisjoint
      rw [List.map_cons, overlay_cons, List.forall_mem_cons, ih hhighs hbelows hdisjoints, Harmless]
      refine and_congr_left fun _ => ?_
      rw [Proghdr.loaded_iff]
      refine forall₂_congr fun a ha => ?_
      have hlast : lastOf (segs.map (Proghdr.puts disk)) a =
          lastOf (segs.map (Proghdr.reads disk)) a := by
        refine lastOf_map_congr fun s' hs' => ?_
        rw [Proghdr.puts, if_neg]
        exact fun htail => hdisjoint s' hs' a ⟨ha, .inr htail⟩
      rw [overlay_apply, overwrite, Proghdr.puts_eq hhigh hbelow ha, hlast, Option.getD_some]
      cases lastOf (segs.map (Proghdr.reads disk)) a with
      | none => exact iff_of_true rfl fun b hb => absurd hb (Option.some_ne_none b).symm
      | some c =>
          constructor
          · rintro hc b hb
            cases hb
            exact hc
          · intro h
            exact h c rfl

/-! ### `bootmain` -/

/-- A kernel file as the comment in `readseg` has it, which writes more to memory than it is asked
to because segments are loaded in increasing order: the program headers are in the first page, and
the segments are disjoint, above the first megabyte and in increasing order. -/
structure KernelFile (disk : Disk) : Prop where
  magic : (image disk).uint elf = ELF_MAGIC
  inFirstPage : ((image disk).uint (elf + 28)).toNat +
    32 * ((image disk).ushort (elf + 44)).toNat ≤ 4096
  high : ∀ s ∈ phdrs disk, s.High
  fits : ∀ s ∈ phdrs disk, s.Fits
  sorted : (phdrs disk).Pairwise fun s s' => s.paddr ≤ s'.paddr
  disjoint : (phdrs disk).Pairwise fun s s' => ∀ a, ¬ (s.Covers a ∧ s'.Covers a)

/-- Whatever was in memory, `bootmain` calls the entry point with every segment loaded. -/
def Boots (disk : Disk) : Prop :=
  ∀ m, ∃ fuel t, bootmain disk fuel m = some (t, some ((image disk).uint (elf + 24))) ∧
    ∀ s ∈ phdrs disk, s.Loaded disk t

/-- The first page, read as a segment. -/
def firstPage : Proghdr where
  off := 0
  paddr := elf
  filesz := 4096
  memsz := 4096

theorem firstPage_reads : firstPage.reads disk a =
    if 0x10000 ≤ a.toNat ∧ a.toNat < 0x11000 then some (image disk a) else none := by
  have hstart : firstPage.start.toNat = 0x10000 := by decide
  have hsectors : firstPage.sectors = 8 := by decide
  have helf : elf.toNat = 0x10000 := rfl
  rw [Proghdr.reads, hstart, hsectors]
  split_ifs with h
  · rw [image, toNat_sub_of_le (helf.trans_le h.1), helf]
    change some (file disk (0 / 512 * 512 + _)) = _
    rw [Nat.zero_div, Nat.zero_mul, Nat.zero_add]
  · rfl

theorem hasHeader_firstPage : HasHeader disk (overwrite (firstPage.reads disk) m) := by
  intro a hle hlt
  rw [overwrite, firstPage_reads, if_pos ⟨hle, hlt⟩]
  rfl

theorem readseg_firstPage (hfuel : 8 < fuel) :
    readseg disk fuel elf 4096 0 m = some (overwrite (firstPage.reads disk) m) := by
  have hend : firstPage.Ends := by
    rw [Proghdr.Ends]
    decide
  have hsectors : firstPage.sectors = 8 := by decide
  exact Proghdr.readseg_eq hend (hsectors.trans_lt hfuel)

def phnum (disk : Disk) : ℕ := ((image disk).ushort (elf + 44)).toNat

def entered (disk : Disk) (m : Memory) : Memory := overwrite (firstPage.reads disk) m

namespace KernelFile

variable (h : KernelFile disk)

include h

theorem ready : Ready disk (phnum disk) (elf + (image disk).uint (elf + 28))
    (elf + (image disk).uint (elf + 28) + (image disk).ushort (elf + 44) * 32) := by
  have hfirst := h.inFirstPage
  have helf : elf.toNat = 0x10000 := rfl
  have hph : (elf + (image disk).uint (elf + 28)).toNat =
      0x10000 + ((image disk).uint (elf + 28)).toNat := by
    rw [UInt32.toNat_add, helf]
    exact Nat.mod_eq_of_lt (by omega)
  have hsmall : 32 * phnum disk < 2 ^ 32 := by
    rw [phnum]
    omega
  have hnum : ((image disk).ushort (elf + 44) * 32).toNat = 32 * phnum disk := by
    rw [UInt32.toNat_mul, Nat.mul_comm]
    exact Nat.mod_eq_of_lt hsmall
  have heph : (elf + (image disk).uint (elf + 28) +
      (image disk).ushort (elf + 44) * 32).toNat =
      (elf + (image disk).uint (elf + 28)).toNat + 32 * phnum disk := by
    rw [UInt32.toNat_add, hnum, hph]
    exact Nat.mod_eq_of_lt (by rw [phnum]; omega)
  rw [phnum] at heph
  exact ⟨by omega, heph.symm, by rw [heph]; omega, h.high, h.fits⟩

theorem bootmain_eq (hpage : readseg disk fuel elf 4096 0 m = some (entered disk m)) :
    bootmain disk fuel m =
    (segLoop disk fuel
      (elf + (image disk).uint (elf + 28) + (image disk).ushort (elf + 44) * 32) fuel
      (elf + (image disk).uint (elf + 28)) (entered disk m)).map
        fun t => (t, some (t.uint (elf + 24))) := by
  have hhead : HasHeader disk (entered disk m) := hasHeader_firstPage
  have hmagic : (entered disk m).uint elf = ELF_MAGIC :=
    (hhead.uint (by decide) (by decide)).trans h.magic
  have hphoff : (entered disk m).uint (elf + 28) = (image disk).uint (elf + 28) :=
    hhead.uint (by decide) (by decide)
  have hphnum : (entered disk m).ushort (elf + 44) = (image disk).ushort (elf + 44) :=
    hhead.ushort (by decide) (by decide)
  rw [bootmain, hpage]
  change (if (entered disk m).uint elf ≠ ELF_MAGIC then _ else _) = _
  rw [if_neg (not_not.mpr hmagic), hphoff, hphnum]

/-- The loads leave the header alone. -/
theorem hasHeader : HasHeader disk
    (overlay ((phdrs disk).map (Proghdr.puts disk)) (entered disk m)) := by
  intro a hle hlt
  rw [overlay_of_none fun w hw => ?_]
  · exact hasHeader_firstPage a hle hlt
  · obtain ⟨s, hs, rfl⟩ := List.mem_map.mp hw
    exact (h.high s hs).puts_eq_none hlt

/-- Where no segment has its last sector at the end of the address space, `bootmain` loads
the segments one after the other. -/
theorem bootmain_some (hbelow : ∀ s ∈ phdrs disk, s.Below) : ∃ fuel, bootmain disk fuel m =
    some (overlay ((phdrs disk).map (Proghdr.puts disk)) (entered disk m),
      some ((image disk).uint (elf + 24))) := by
  have hsum : ∀ s ∈ phdrs disk, s.sectors ≤ ((phdrs disk).map Proghdr.sectors).sum :=
    fun s hs => List.le_sum_of_mem (List.mem_map_of_mem hs)
  refine ⟨((phdrs disk).map Proghdr.sectors).sum + phnum disk + 9, ?_⟩
  have hloop := h.ready.segLoop_eq (hasHeader_firstPage (m := m))
    (fun s hs => (hbelow s hs).ends)
    (fun s hs => Nat.lt_of_le_of_lt (hsum s hs)
      (show _ < ((phdrs disk).map Proghdr.sectors).sum + phnum disk + 9 by omega))
    (show phnum disk < ((phdrs disk).map Proghdr.sectors).sum + phnum disk + 9 by omega)
  rw [h.bootmain_eq (readseg_firstPage (by omega))]
  refine (congrArg (Option.map _) hloop).trans ?_
  rw [Option.map_some]
  exact congrArg (fun e => some (_, some e)) (h.hasHeader.uint (by decide) (by decide))

/-- When `bootmain` calls the entry point, it has loaded the segments one after the other. -/
theorem eq_of_bootmain {e : Option UInt32} (hrun : bootmain disk fuel m = some (t, e)) :
    (∀ s ∈ phdrs disk, s.Ends) ∧
      t = overlay ((phdrs disk).map (Proghdr.puts disk)) (entered disk m) := by
  cases hpage : readseg disk fuel elf 4096 0 m with
  | none =>
      rw [bootmain, hpage] at hrun
      cases hrun
  | some v =>
      have hv : v = entered disk m := (Proghdr.eq_of_readseg (s := Boot.firstPage) hpage).2
      rw [h.bootmain_eq (hpage.trans (congrArg some hv))] at hrun
      obtain ⟨u, hloop, hu⟩ := Option.map_eq_some_iff.mp hrun
      cases hu
      exact h.ready.eq_of_segLoop hasHeader_firstPage hloop

/-- The last byte of the address space is never put there from the file. -/
theorem top_untouched (hends : ∀ s ∈ phdrs disk, s.Ends) (hs : s ∈ phdrs disk)
    (hin : s.InFile 0xFFFFFFFF) :
    overlay ((phdrs disk).map (Proghdr.puts disk)) (entered disk m) 0xFFFFFFFF =
      m 0xFFFFFFFF := by
  have htop : (0xFFFFFFFF : UInt32).toNat = 2 ^ 32 - 1 := rfl
  rw [overlay_of_none fun w hw => ?_]
  · rw [entered, overwrite, firstPage_reads, if_neg (by decide)]
    rfl
  · obtain ⟨s', hs', rfl⟩ := List.mem_map.mp hw
    have hend := hends s' hs'
    rw [Proghdr.Ends] at hend
    rw [Proghdr.puts, if_neg fun htail => ?_, Proghdr.reads, if_neg]
    · rw [htop, Proghdr.sectors]
      have hstart := s'.start.toNat_lt
      omega
    · by_cases heq : s = s'
      · subst heq
        rw [Proghdr.InFile] at hin
        rw [Proghdr.InTail] at htail
        omega
      · have hsymm : Std.Symm fun s s' : Proghdr => ∀ a, ¬ (s.Covers a ∧ s'.Covers a) :=
          ⟨fun s s' hdis a hc => hdis a hc.symm⟩
        exact h.disjoint.forall hs hs' heq 0xFFFFFFFF ⟨.inl hin, .inr htail⟩

/-- `bootmain` loads every segment intact exactly where no segment has its last sector at
the end of the address space and the sectors read for later segments do no harm. -/
theorem boots_iff : Boots disk ↔
    (∀ s ∈ phdrs disk, s.Below) ∧ Harmless disk (phdrs disk) := by
  constructor
  · intro hboots
    have hbelow : ∀ s ∈ phdrs disk, s.Below := by
      intro s hs
      obtain ⟨fuel, t, hrun, hloaded⟩ := hboots fun _ => s.wants disk 0xFFFFFFFF + 1
      obtain ⟨hends, rfl⟩ := h.eq_of_bootmain hrun
      have hfits := h.fits s hs
      rw [Proghdr.Fits] at hfits
      by_cases hlt : s.paddr.toNat + s.filesz.toNat < 2 ^ 32
      · have hend := hends s hs
        rw [Proghdr.Ends, Proghdr.fileEnd, UInt32.toNat_add, Nat.mod_eq_of_lt hlt] at hend
        exact hend
      · have htop : (0xFFFFFFFF : UInt32).toNat = 2 ^ 32 - 1 := rfl
        have hpaddr := s.paddr.toNat_lt
        have hin : s.InFile 0xFFFFFFFF := by
          rw [Proghdr.InFile, htop]
          omega
        have hwants := Proghdr.loaded_iff.mp (hloaded s hs) 0xFFFFFFFF (.inl hin)
        rw [h.top_untouched hends hs hin] at hwants
        exact absurd hwants (by simp)
    obtain ⟨fuel, t, hrun, hloaded⟩ := hboots fun _ => 0
    obtain ⟨-, rfl⟩ := h.eq_of_bootmain hrun
    exact ⟨hbelow, (forall_loaded_iff h.high hbelow h.disjoint).mp hloaded⟩
  · rintro ⟨hbelow, hharmless⟩ m
    obtain ⟨fuel, hrun⟩ := h.bootmain_some (m := m) hbelow
    exact ⟨fuel, _, hrun, (forall_loaded_iff h.high hbelow h.disjoint).mpr hharmless⟩

end KernelFile

/-- For every kernel file, `bootmain` loads every segment intact, whatever was in memory,
exactly where no segment has its last sector at the end of the address space and the sectors
read for later segments have the right bytes for the earlier ones. -/
theorem bootmain_loads (h : KernelFile disk) : Boots disk ↔
    (∀ s ∈ phdrs disk, s.Below) ∧ Harmless disk (phdrs disk) := h.boots_iff

def wordBytes (w : UInt32) : List UInt8 :=
  [w.toUInt8, (w >>> 8).toUInt8, (w >>> 16).toUInt8, (w >>> 24).toUInt8]

def lower : Proghdr := ⟨0x1000, 0x100000, 4, 4⟩

/-- The second of them, at the given offset in the file. -/
def upper (off : UInt32) : Proghdr := ⟨off, 0x100004, 4, 4⟩

def phdrBytes (s : Proghdr) : List UInt8 :=
  wordBytes 1 ++ wordBytes s.off ++ wordBytes 0 ++ wordBytes s.paddr ++ wordBytes s.filesz ++
    wordBytes s.memsz ++ List.replicate 8 0

/-- The ELF header and the program headers of the two segments. -/
def twoHeaders (off : UInt32) : List UInt8 :=
  wordBytes ELF_MAGIC ++ List.replicate 24 0 ++ wordBytes 52 ++ List.replicate 12 0 ++ [2, 0] ++
    List.replicate 6 0 ++ phdrBytes lower ++ phdrBytes (upper off)

/-- A kernel file with the two segments. The bytes of the first one are 1. -/
def twoSegments (off : UInt32) : Disk := fun n i =>
  (twoHeaders off).getD (512 * (n.toNat - 1) + i) (if n = 9 ∧ i < 4 then 1 else 0)

theorem kernelFile_two {off : UInt32}
    (hmagic : (image (twoSegments off)).uint elf = ELF_MAGIC)
    (hfirst : ((image (twoSegments off)).uint (elf + 28)).toNat +
      32 * ((image (twoSegments off)).ushort (elf + 44)).toNat ≤ 4096)
    (hphdrs : phdrs (twoSegments off) = [lower, upper off]) : KernelFile (twoSegments off) := by
  have hall : ∀ P : Proghdr → Prop, P lower → P (upper off) →
      ∀ s ∈ phdrs (twoSegments off), P s := by
    intro P hlower hupper s hs
    rw [hphdrs] at hs
    exact List.forall_mem_cons.mpr ⟨hlower, List.forall_mem_singleton.mpr hupper⟩ s hs
  refine ⟨hmagic, hfirst, hall _ ?_ ?_, hall _ ?_ ?_, ?_, ?_⟩
  · exact show 0x100000 ≤ 0x100000 by decide
  · exact show 0x100000 ≤ 0x100004 by decide
  · exact show 0x100000 + max 4 4 ≤ 2 ^ 32 by decide
  · exact show 0x100004 + max 4 4 ≤ 2 ^ 32 by decide
  · rw [hphdrs]
    exact List.pairwise_pair.mpr (show (0x100000 : UInt32) ≤ 0x100004 by decide)
  · rw [hphdrs]
    refine List.pairwise_pair.mpr fun a ha => ?_
    have hlower : a.toNat < 0x100004 := by
      cases ha.1 with
      | inl hin => exact hin.2
      | inr hin => exact hin.2
    have hupper : 0x100004 ≤ a.toNat := by
      cases ha.2 with
      | inl hin => exact hin.1
      | inr hin => exact Nat.le_of_add_right_le hin.1
    omega

theorem phdrs_aligned : phdrs (twoSegments 0x1200) = [lower, upper 0x1200] := by decide

theorem kernelFile_aligned : KernelFile (twoSegments 0x1200) :=
  kernelFile_two (by decide) (by decide) phdrs_aligned

theorem phdrs_misaligned : phdrs (twoSegments 0x1208) = [lower, upper 0x1208] := by decide

theorem kernelFile_misaligned : KernelFile (twoSegments 0x1208) :=
  kernelFile_two (by decide) (by decide) phdrs_misaligned

/-- With the second segment at the beginning of a sector, both are loaded intact. -/
theorem bootmain_loads_aligned : Boots (twoSegments 0x1200) := by
  refine (bootmain_loads kernelFile_aligned).mpr ?_
  rw [phdrs_aligned]
  refine ⟨List.forall_mem_cons.mpr ⟨?_, List.forall_mem_singleton.mpr ?_⟩, ?_, ?_, trivial⟩
  · rw [Proghdr.Below]
    decide
  · rw [Proghdr.Below]
    decide
  · intro a ha b hb
    have hlt : a.toNat < 0x100004 := by
      cases ha with
      | inl hin => exact hin.2
      | inr hin => exact hin.2
    have hstart : (upper 0x1200).start.toNat = 0x100004 := by decide
    rw [List.map_singleton, lastOf_cons, lastOf, Proghdr.reads, hstart, if_neg (by omega)] at hb
    cases hb
  · intro a _ b hb
    cases hb

/-- With the second segment 8 bytes behind the beginning of a sector, its sector overwrites
the whole first segment. -/
theorem bootmain_overwrites : KernelFile (twoSegments 0x1208) ∧ ¬ Boots (twoSegments 0x1208) := by
  refine ⟨kernelFile_misaligned, fun hboots => ?_⟩
  obtain ⟨-, hharmless⟩ := kernelFile_misaligned.boots_iff.mp hboots
  rw [phdrs_misaligned] at hharmless
  have hcovers : lower.Covers 0x100000 := .inl ⟨by decide, by decide⟩
  have hbyte : (0 : UInt8) = lower.wants (twoSegments 0x1208) 0x100000 :=
    hharmless.1 0x100000 hcovers 0 (by decide)
  exact absurd hbyte (by decide)

end Boot

end Xv6
