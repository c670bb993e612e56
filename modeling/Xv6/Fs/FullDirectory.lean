import Xv6.Foundation.Run
import Xv6.Fs.Dirlink
import Xv6.Fs.View

/-!
# Full directories

`dirlink` looks for an empty slot and takes the end of the directory when there is none. At the end
of a directory of the largest size, `writei` returns `-1`, and `dirlink` panics.
-/

namespace Xv6

open Foundation

/-- What happens to a directory: a call of `dirlink`, or something else that leaves the file
system in a state. -/
inductive DirCall where
  | link (name : List UInt8) (inum : ℕ)
  | other (t : Fs)

namespace Fs

/-- No slot is empty, and the directory cannot grow. -/
def Full (s : Fs) (dp : Fin NINODE) : Prop :=
  (∀ k < (s.slots dp).size, (s.slots dp).slot k ≠ none) ∧ (s.dip dp).size = MAXFILE * BSIZE

/-- The name is there, and `iget` finds an entry for its inode; or the directory is not full. -/
def Linkable (s : Fs) (dp : Fin NINODE) (name : List UInt8) : Prop :=
  match (s.slots dp).find (Dirent.key name) with
  | some (_, inum) => (s.icache.iget (s.icache dp).dev inum).isSome
  | none => ¬ s.Full dp

/-- There are the blocks and the sectors of the log for one more entry. -/
structure Supplied (s : Fs) (dp : Fin NINODE) : Prop where
  blocks : (s.dip dp).size < MAXFILE * BSIZE →
    (s.dip dp).need s.disk (span (s.dip dp).size Dirent.size) ≤ s.disk.free.length
  log : s.MayLog dp (s.slots dp).vacant

/-- Nothing when `dirlink` panics. -/
def dirStep (dp : Fin NINODE) (s : Fs) : DirCall → Option Fs
  | .link name inum =>
      match FsM.dirlink dp name inum s with
      | .ok (_, t) => some t
      | .error _ => none
  | .other t => some t

def DirMeets (dp : Fin NINODE) (s : Fs) : DirCall → Prop
  | .link name inum => (0 < inum ∧ inum < 2 ^ 16) ∧ s.Supplied dp ∧ s.Linkable dp name
  | .other t => t.Directory dp

section Full

variable {dp : Fin NINODE} {s t : Fs} {inum : ℕ} {name : List UInt8} {c : DirCall}

theorem Directory.hasSpace (h : s.Directory dp)
    (hblocks : (s.dip dp).size < MAXFILE * BSIZE →
      (s.dip dp).need s.disk (span (s.dip dp).size Dirent.size) ≤ s.disk.free.length)
    (hfull : ¬ s.Full dp) : s.HasSpace dp := by
  by_cases hempty : ∃ k < (s.slots dp).size, (s.slots dp).slot k = none
  · exact .inl hempty
  · push Not at hempty
    have hlt : (s.dip dp).size < MAXFILE * BSIZE :=
      Nat.lt_of_le_of_ne h.wf.small fun heq => hfull ⟨hempty, heq⟩
    exact .inr ⟨hlt, hblocks hlt⟩

/-- `dirlink` panics when the directory is full. -/
theorem Directory.dirlink_panics (h : s.Directory dp)
    (hfind : (s.slots dp).find (Dirent.key name) = none) (hfull : s.Full dp) :
    FsM.dirlink dp name inum s = .error (.panic .dirlink) := by
  have hvacant : (s.slots dp).vacant = (s.slots dp).size := Slots.vacant_eq_size.mpr hfull.1
  have hsize : (s.dip dp).size = 71680 := hfull.2
  have hlen : (Dirent.bytes ⟨inum, name⟩).length = 16 := Dirent.length_bytes
  have hrefused : (s.dip dp).Refused (s.dip dp).size (Dirent.bytes ⟨inum, name⟩).length := by
    refine .inr (.inr ?_)
    rw [hlen, hsize, MAXFILE_eq, BSIZE_eq]
    omega
  refine wp.eq ((h.wp_dirlink hfind).mpr ?_)
  rw [hvacant, h.size_slots, wp_of_ok (writei_refused h.notDev (by omega) (by omega) hrefused),
    if_pos (by decide)]

/-- What `dirlink` returns when it does not panic. -/
theorem Directory.dirlink_linkable (h : s.Directory dp) (hsup : s.Supplied dp)
    (hlink : s.Linkable dp name) :
    (∃ t, FsM.dirlink dp name inum s = .ok (-1, t) ∧ s.Untouched t) ∨
      ∃ t, FsM.dirlink dp name inum s = .ok (0, t) ∧
        (s.slots dp).find (Dirent.key name) = none ∧
        Written dp (Dirent.size * (s.slots dp).vacant) (Dirent.bytes ⟨inum, name⟩) s t := by
  unfold Linkable at hlink
  cases hfind : (s.slots dp).find (Dirent.key name) with
  | some x =>
      rw [hfind] at hlink
      obtain ⟨⟨i, icache⟩, hget⟩ := Option.isSome_iff_exists.mp hlink
      exact .inl (h.dirlink_present hfind hget)
  | none =>
      rw [hfind] at hlink
      obtain ⟨t, hrun, ht⟩ := h.dirlink_absent hfind (h.hasSpace hsup.blocks hlink) hsup.log
      exact .inr ⟨t, hrun, rfl, ht⟩

/-- A step that meets the conditions does not panic, and leaves a directory. -/
theorem Directory.step (h : s.Directory dp) (hc : DirMeets dp s c) :
    ∃ t, dirStep dp s c = some t ∧ t.Directory dp := by
  cases c with
  | other t => exact ⟨t, rfl, hc⟩
  | link name inum =>
      obtain ⟨⟨hpos, hinum⟩, hsup, hlink⟩ := hc
      rcases @Directory.dirlink_linkable dp s inum name h hsup hlink with
        ⟨t, hrun, hu⟩ | ⟨t, hrun, hfind, ht⟩
      · refine ⟨t, ?_, (hu.directory h).1⟩
        unfold dirStep
        simp only [hrun]
      · have hle := (s.slots dp).vacant_le
        refine ⟨t, ?_, h.written ht hle ?_⟩
        · unfold dirStep
          simp only [hrun]
        · rw [ht.put (h.mul_le hle) hpos hinum]
          exact h.distinct.put hfind

/-- In a run whose steps meet the conditions no call panics. -/
theorem Directory.run (h : s.Directory dp) {calls : List DirCall}
    (hcalls : RunMeets (dirStep dp) (DirMeets dp) s calls) :
    ∃ t, Foundation.run (dirStep dp) s calls = some t ∧ t.Directory dp := by
  induction calls generalizing s with
  | nil => exact ⟨s, rfl, h⟩
  | cons c calls ih =>
      obtain ⟨t, hstep, ht⟩ := h.step hcalls.1
      obtain ⟨u, hrun, hu⟩ := ih ht (hcalls.2 t hstep)
      exact ⟨u, run_cons_eq_some.mpr ⟨t, hstep, hrun⟩, hu⟩

end Full

/-! ### A full directory -/

/-- The name in the slot `k`. -/
def slotName (k : ℕ) : List UInt8 := [UInt8.ofNat (1 + k / 64), UInt8.ofNat (1 + k % 64)]

/-- The bytes of a directory that has the inode `3` under many names. -/
def fullByte (q : ℕ) : UInt8 := (Dirent.bytes ⟨3, slotName (q / Dirent.size)⟩).getD (q % Dirent.size) 0

/-- The indirect block is `41`; the data blocks are from `29` to `40` and from `42` on. -/
def fullData (b : ℕ) : Block := fun j =>
  if b = 41 then if j.val % 4 = 0 then UInt8.ofNat (42 + j.val / 4) else 0
  else fullByte ((if b < 41 then b - 29 else b - 30) * BSIZE + j.val)

def fullInode : Dinode := ⟨T_DIR, 0, 0, 1, 71680, fun k => 29 + k.val⟩

/-- A file system with a full directory, which is the only inode in use. -/
def fullDir : Fs :=
  { blank with
    disk := { blank.disk with
      dinode := fun n =>
        if n = 2 then fullInode
        else if n = 3 then { Dinode.fresh T_FILE with nlink := 4480 } else Dinode.fresh 0
      bitmap := fun b => b < 170
      data := fullData }
    icache := fun i =>
      if i.val = 0 then ⟨ROOTDEV, 2, 1, true, true, fullInode⟩
      else ⟨0, 0, 0, false, false, Dinode.fresh 0⟩ }

section FullDir

variable {bn k q : ℕ}

theorem fullDir_table : (fullDir.dip 0).table = 41 := by decide

theorem fullData_word (hk : k < 128) : (fullData 41).word k = 42 + k := by
  have hbyte : ∀ j, j < 512 → (fullData 41).byte j =
      (if j % 4 = 0 then UInt8.ofNat (42 + j / 4) else 0).toNat := fun j hj => dif_pos hj
  have hfirst : (UInt8.ofNat (42 + 4 * k / 4)).toNat = 42 + k := by
    rw [UInt8.toNat_ofNat']
    omega
  rw [Block.word, hbyte _ (by omega), hbyte _ (by omega), hbyte _ (by omega), hbyte _ (by omega),
    if_pos (by omega), if_neg (by omega), if_neg (by omega), if_neg (by omega), hfirst]
  simp

theorem word_of_ge {b : Block} (hk : 128 ≤ k) : b.word k = 0 := by
  have hbyte : ∀ j, 512 ≤ j → b.byte j = 0 := fun j hj => dif_neg (Nat.not_lt.mpr hj)
  rw [Block.word, hbyte _ (by omega), hbyte _ (by omega), hbyte _ (by omega), hbyte _ (by omega)]
  rfl

theorem fullDir_block : (fullDir.dip 0).block fullDir.disk bn =
    if bn < 12 then 29 + bn else if bn < 140 then 30 + bn else 0 := by
  by_cases hdirect : bn < 12
  · have haddr : (fullDir.dip 0).addr bn = 29 + bn := dif_pos (Nat.lt_succ_of_lt hdirect)
    rw [if_pos hdirect, Dinode.block_of_lt hdirect, haddr]
  · have hdata : fullDir.disk.data = fullData := rfl
    rw [if_neg hdirect, Dinode.block_of_table (Nat.not_lt.mp hdirect) (by rw [fullDir_table]; decide),
      fullDir_table, hdata, NDIRECT_eq]
    by_cases hbn : bn < 140
    · rw [if_pos hbn, fullData_word (by omega)]
      omega
    · rw [if_neg hbn, word_of_ge (by omega)]

theorem fullDir_has {b : ℕ} (h : (fullDir.dip 0).Has fullDir.disk b) : 29 ≤ b ∧ b < 170 := by
  obtain ⟨hne, rfl | ⟨bn, rfl⟩⟩ := h
  · rw [fullDir_table]
    decide
  · rw [fullDir_block] at hne ⊢
    split
    · omega
    · split
      · omega
      · rename_i h1 h2
        rw [if_neg h1, if_neg h2] at hne
        exact absurd rfl hne

theorem fullDir_wf : (fullDir.dip 0).WellFormed fullDir.disk where
  small := by decide
  mapped := fun bn hbn => by
    change bn * 512 < 71680 at hbn
    rw [fullDir_block]
    split
    · omega
    · rw [if_pos (by omega)]
      omega
  distinct := fun m n hm hmn => by
    rw [fullDir_block] at hm
    rw [fullDir_block, fullDir_block] at hmn
    split_ifs at hm hmn <;> omega
  notTable := fun bn hbn => by
    rw [fullDir_block] at *
    rw [fullDir_table]
    split
    · omega
    · split
      · omega
      · decide
  used := fun b hb => decide_eq_true (fullDir_has hb).2
  isData := fun b hb => by
    obtain ⟨hlow, hhigh⟩ := fullDir_has hb
    have hsb : fullDir.disk.sb.dataStart = 29 ∧ fullDir.disk.sb.logStart = 994 := by decide
    unfold Superblock.IsData
    omega

/-- The bytes of the directory. -/
theorem fullDir_byteAt (hq : q < 71680) : (fullDir.dip 0).byteAt fullDir.disk q = fullByte q := by
  have hdata : fullDir.disk.data = fullData := rfl
  have hlt : q % BSIZE < BSIZE := Nat.mod_lt _ (by decide)
  have hsplit : q / BSIZE * BSIZE + q % BSIZE = q := Nat.div_add_mod' q BSIZE
  have hbyte : ∀ b, b ≠ 41 → (fullData b).char (q % BSIZE) =
      fullByte ((if b < 41 then b - 29 else b - 30) * BSIZE + q % BSIZE) := by
    intro b hb
    rw [Block.char, Block.byte, dif_pos hlt, UInt8.ofNat_toNat, fullData, if_neg hb]
  have hbn : q / BSIZE < 140 := by
    rw [BSIZE_eq]
    omega
  have hblock : (fullDir.dip 0).block fullDir.disk (q / BSIZE) =
      if q / BSIZE < 12 then 29 + q / BSIZE else 30 + q / BSIZE := by
    rw [fullDir_block, if_pos hbn]
  by_cases hdirect : q / BSIZE < 12
  · rw [if_pos hdirect] at hblock
    have hne : (fullDir.dip 0).block fullDir.disk (q / BSIZE) ≠ 0 := by
      rw [hblock]
      exact Nat.ne_of_gt (Nat.add_pos_left (by decide) _)
    rw [byteAt_eq hne, hblock, hdata, hbyte _ (by omega), if_pos (by omega),
      Nat.add_sub_cancel_left, hsplit]
  · rw [if_neg hdirect] at hblock
    have hne : (fullDir.dip 0).block fullDir.disk (q / BSIZE) ≠ 0 := by
      rw [hblock]
      exact Nat.ne_of_gt (Nat.add_pos_left (by decide) _)
    rw [byteAt_eq hne, hblock, hdata, hbyte _ (by omega), if_neg (by omega),
      Nat.add_sub_cancel_left, hsplit]

theorem key_slotName (hk : k < 4480) : Dirent.key (slotName k) = slotName k := by
  have hchar : ∀ n, n < 255 → UInt8.ofNat (1 + n) ≠ 0 := by
    intro n hn hzero
    have hval := congrArg UInt8.toNat hzero
    rw [UInt8.toNat_ofNat'] at hval
    change (1 + n) % 256 = 0 at hval
    omega
  refine Dirent.cstr_eq_self fun c hc => ?_
  rcases List.mem_cons.mp hc with rfl | hc
  · exact hchar _ (by omega)
  · rw [List.mem_singleton.mp hc]
    exact hchar _ (by omega)

theorem slotName_inj {j : ℕ} (hj : j < 4480) (hk : k < 4480) (h : slotName j = slotName k) :
    j = k := by
  obtain ⟨hhigh, hlow⟩ := List.cons_eq_cons.mp h
  have hhigh' := congrArg UInt8.toNat hhigh
  have hlow' := congrArg UInt8.toNat (List.cons_eq_cons.mp hlow).1
  rw [UInt8.toNat_ofNat', UInt8.toNat_ofNat'] at hhigh' hlow'
  omega

theorem fullDir_dirent (hk : k < 4480) : fullDir.dirent 0 k = ⟨3, slotName k⟩ := by
  have hrecord : record Dirent.size ((fullDir.dip 0).contents fullDir.disk) k =
      window fullByte (16 * k) 16 := by
    have hpart := @window_take_drop _ ((fullDir.dip 0).byteAt fullDir.disk) (16 * k) 71680 16
      (by omega)
    refine hpart.trans (window_congr fun q _ hq => fullDir_byteAt (by omega))
  have hlen : (Dirent.bytes ⟨3, slotName k⟩).length = 16 := Dirent.length_bytes
  have hbytes : window fullByte (16 * k) 16 = Dirent.bytes ⟨3, slotName k⟩ := by
    refine List.ext_getElem (length_window.trans hlen.symm) fun m hm hm' => ?_
    have hdiv : (16 * k + m) / Dirent.size = k := by
      rw [Dirent.size_eq]
      omega
    have hmod : (16 * k + m) % Dirent.size = m := by
      rw [Dirent.size_eq]
      omega
    rw [getElem_window, fullByte, hdiv, hmod, List.getD_eq_getElem?_getD,
      List.getElem?_eq_getElem hm', Option.getD_some]
  have hinum : (3 : ℕ) < 2 ^ 16 := by decide
  rw [Fs.dirent, Dinode.dirent, hrecord, hbytes, Dirent.ofBytes_bytes hinum, key_slotName hk]

theorem fullDir_slot (hk : k < 4480) : (fullDir.slots 0).slot k = some (slotName k, 3) := by
  change Dirent.live (fullDir.dirent 0 k) = _
  rw [fullDir_dirent hk, Dirent.live, if_neg three_ne_zero, key_slotName hk]

theorem fullDir_size : (fullDir.slots 0).size = 4480 := by decide

theorem fullDir_directory : fullDir.Directory 0 where
  ref := by decide
  type := rfl
  ok := ⟨fun b hb => decide_eq_true (Nat.lt_of_lt_of_le hb (by decide)), by decide⟩
  wf := fullDir_wf
  aligned := by decide
  distinct := fun i j name v w hi hj => by
    have hilt := Slots.lt_size hi
    have hjlt := Slots.lt_size hj
    rw [fullDir_size] at hilt hjlt
    rw [fullDir_slot hilt] at hi
    rw [fullDir_slot hjlt] at hj
    exact slotName_inj hilt hjlt
      ((Prod.mk.inj (Option.some.inj hi)).1.trans (Prod.mk.inj (Option.some.inj hj)).1.symm)

theorem fullDir_tidy : fullDir.Tidy := by
  have hentry : ∀ i, i ≠ 0 → fullDir.icache i = ⟨0, 0, 0, false, false, Dinode.fresh 0⟩ :=
    fun i hi => if_neg fun hzero => hi (Fin.ext hzero)
  have hused : ∀ i, 0 < (fullDir.icache i).ref → i = 0 := fun i hi => by
    by_contra hne
    rw [hentry i hne] at hi
    exact absurd hi (lt_irrefl 0)
  refine ⟨fun i hi => ?_, fun i => ?_, fun i j n hi hj => ?_, fun i hi => ?_⟩
  · rw [hused i hi]
    rfl
  · by_cases hi : i = 0
    · rw [hi]
      decide
    · rw [hentry i hi]
  · rw [hused i hi.1, hused j hj.1]
  · rw [hused i hi]
    exact fun hstale => absurd hstale.2 (by decide)

theorem fullDir_full : fullDir.Full 0 := by
  refine ⟨fun k hk => ?_, rfl⟩
  rw [fullDir_size] at hk
  rw [fullDir_slot hk]
  exact Option.some_ne_none _

theorem fullDir_find : (fullDir.slots 0).find (Dirent.key [97]) = none := by
  refine Slots.find_eq_none.mpr fun i v hi => ?_
  have hilt := Slots.lt_size hi
  rw [fullDir_size] at hilt
  rw [fullDir_slot hilt] at hi
  cases congrArg List.length (Prod.mk.inj (Option.some.inj hi)).1

theorem fullDir_free : 170 ∈ fullDir.disk.free := FsDisk.mem_free.mpr ⟨by decide, rfl⟩

theorem fullDir_mayLog : fullDir.MayLog 0 (fullDir.slots 0).vacant := by
  have hvacant : (fullDir.slots 0).vacant = 4480 := by
    rw [Slots.vacant_eq_size.mpr fullDir_full.1, fullDir_size]
  have hspan : span (Dirent.size * 4480) Dirent.size = [140] := rfl
  refine fullDir_directory.mayLog (by decide) rfl (by decide) (by decide) ?_
  rw [hvacant, hspan, Dinode.need_missing (by rw [fullDir_block]; rfl), fullDir_table,
    if_neg (by decide)]
  exact List.length_pos_of_mem fullDir_free

end FullDir

end Fs

end Xv6
