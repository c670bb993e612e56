import Mathlib.Data.List.GetD
import Xv6.Boot.Bootmain
import Xv6.Vm.Exec

/-!
# The headers of a program

`bootmain` takes the headers of the kernel file from memory, with the arithmetic of the
machine; `exec` takes those of a program from the bytes that `readi` has given it. Both
read the fields of `elf.h` at the same offsets.
-/

namespace Xv6

namespace Boot

variable {m : Memory} {a : UInt32} {n o : ℕ}

theorem getD_bytes (h : o < n) : (m.bytes a n).getD o 0 = m (a + UInt32.ofNat o) := by
  rw [List.getD_eq_getElem _ _ (by rwa [Memory.length_bytes]), Memory.getElem_bytes]

/-- The place of a byte behind the start of a field. -/
theorem place_add (k : ℕ) :
    a + UInt32.ofNat o + UInt32.ofNat k = a + UInt32.ofNat (o + k) := by
  rw [UInt32.ofNat_add, UInt32.add_assoc]

theorem toNat_ushort (h : o + 2 ≤ n) :
    (m.ushort (a + UInt32.ofNat o)).toNat = ushortAt (m.bytes a n) o := by
  have hlow := (m (a + UInt32.ofNat o)).toNat_lt
  have hhigh := (m (a + UInt32.ofNat (o + 1))).toNat_lt
  have hone : (1 : UInt32) = UInt32.ofNat 1 := rfl
  have hbase : (256 : UInt32).toNat = 256 := rfl
  rw [Memory.ushort, ushortAt, getD_bytes (by omega), getD_bytes (by omega), hone, place_add,
    UInt32.toNat_add, UInt32.toNat_mul, UInt8.toNat_toUInt32, UInt8.toNat_toUInt32, hbase]
  omega

theorem toNat_uint (h : o + 4 ≤ n) :
    (m.uint (a + UInt32.ofNat o)).toNat = uintAt (m.bytes a n) o := by
  have hlow := toNat_ushort (m := m) (a := a) (show o + 2 ≤ n by omega)
  have hhigh := toNat_ushort (m := m) (a := a) (show o + 2 + 2 ≤ n by omega)
  have htwo : (2 : UInt32) = UInt32.ofNat 2 := rfl
  have hbase : (65536 : UInt32).toNat = 65536 := rfl
  have hbyte : ∀ k, ((m.bytes a n).getD k 0).toNat < 256 := fun k => UInt8.toNat_lt _
  have h0 := hbyte o
  have h1 := hbyte (o + 1)
  have h2 := hbyte (o + 2)
  have h3 := hbyte (o + 3)
  have hthree : o + 2 + 1 = o + 3 := rfl
  rw [ushortAt] at hlow hhigh
  rw [hthree] at hhigh
  rw [Memory.uint, htwo, place_add, UInt32.toNat_add, UInt32.toNat_mul, hlow, hhigh, hbase, uintAt]
  omega

/-- The fields of a program header that both use. -/
theorem proghdr_eq_ofBytes (m : Memory) (ph : UInt32) :
    let x := Xv6.Proghdr.ofBytes (m.bytes ph sizeofProghdr)
    (proghdr m ph).off.toNat = x.off ∧ (proghdr m ph).filesz.toNat = x.filesz ∧
      (proghdr m ph).memsz.toNat = x.memsz :=
  ⟨toNat_uint (by decide), toNat_uint (by decide), toNat_uint (by decide)⟩

/-- What `bootmain` uses of the file header. -/
theorem elfhdr_eq_ofBytes (m : Memory) :
    let x := Elfhdr.ofBytes (m.bytes elf sizeofElfhdr)
    (m.uint elf = ELF_MAGIC ↔ x.magic = Xv6.ELF_MAGIC) ∧ (m.uint (elf + 24)).toNat = x.entry ∧
      (m.uint (elf + 28)).toNat = x.phoff ∧ (m.ushort (elf + 44)).toNat = x.phnum := by
  have hzero : elf + UInt32.ofNat 0 = elf := UInt32.add_zero elf
  have hmagic : (m.uint elf).toNat = uintAt (m.bytes elf sizeofElfhdr) 0 := by
    rw [← toNat_uint (by decide), hzero]
  have hconst : ELF_MAGIC.toNat = Xv6.ELF_MAGIC := rfl
  refine ⟨?_, toNat_uint (by decide), toNat_uint (by decide), toNat_ushort (by decide)⟩
  rw [← UInt32.toNat_inj, hmagic, hconst]
  rfl

end Boot

end Xv6
