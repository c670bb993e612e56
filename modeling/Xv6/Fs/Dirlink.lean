import Xv6.Fs.Directory

/-!
# Names in directories

A directory is a finite map from names to inodes, of which `dirlink` adds a name and a zeroed entry
takes one away. `dirlink` may stop in `iget`, when it looks at a name that is present and every
entry of the inode cache is in use, and in `log_write`, when the log is full.
-/

namespace Xv6

open Foundation

namespace Fs

section Write

variable {dp : Fin NINODE} {s t : Fs} {k off inum : ℕ} {name src : List UInt8} {de : Dirent}
  {U : Finset ℕ} {E : Stop → Prop}

theorem Written.size (h : Written dp off src s t) (hoff : off ≤ (s.dip dp).size) :
    (t.dip dp).size = max (s.dip dp).size (off + src.length) := by
  have hlength : ((t.dip dp).contents t.disk).length = (t.dip dp).size := size_eq_length
  rw [← hlength, h.contents, length_splice (by rw [size_eq_length]; exact hoff), size_eq_length]

/-- An entry has been written to a slot, or behind the last one. -/
theorem Written.dirent (h : Written dp (Dirent.size * k) (Dirent.bytes de) s t)
    (hk : Dirent.size * k ≤ (s.dip dp).size) :
    t.dirent dp = Function.update (s.dirent dp) k (Dirent.ofBytes (Dirent.bytes de)) := by
  funext j
  rw [Fs.dirent, Dinode.dirent, h.contents, record_splice Dirent.length_bytes (by rw [size_eq_length]; exact hk)]
  by_cases hj : j = k
  · rw [if_pos hj, hj, Function.update_self]
  · rw [if_neg hj, Function.update_of_ne hj]
    rfl

theorem Written.size_slots (h : Written dp (Dirent.size * k) (Dirent.bytes de) s t)
    (hk : Dirent.size * k ≤ (s.dip dp).size) :
    (t.slots dp).size = max (s.slots dp).size (k + 1) := by
  have hsize := h.size hk
  rw [Dirent.length_bytes] at hsize
  change ((t.dip dp).size + (Dirent.size - 1)) / Dirent.size =
    max (((s.dip dp).size + (Dirent.size - 1)) / Dirent.size) (k + 1)
  rw [Dirent.size_eq] at *
  omega

/-- A name has been put in a slot. -/
theorem Written.put (h : Written dp (Dirent.size * k) (Dirent.bytes ⟨inum, name⟩) s t)
    (hk : Dirent.size * k ≤ (s.dip dp).size) (hpos : 0 < inum) (hinum : inum < 2 ^ 16) :
    t.slots dp = (s.slots dp).put k (Dirent.key name) inum := by
  refine Slots.ext (h.size_slots hk) ?_
  funext j
  change (t.dirent dp j).live = Function.update (fun j => (s.dirent dp j).live) k _ j
  rw [h.dirent hk]
  by_cases hj : j = k
  · rw [hj, Function.update_self, Function.update_self]
    exact Dirent.live_ofBytes_bytes hpos hinum
  · rw [Function.update_of_ne hj, Function.update_of_ne hj]

/-- A slot has been zeroed. -/
theorem Written.clear (h : Written dp (Dirent.size * k) (Dirent.bytes .zero) s t)
    (hk : k < (s.slots dp).size) (hk' : Dirent.size * k ≤ (s.dip dp).size) :
    t.slots dp = (s.slots dp).clear k := by
  refine Slots.ext ((h.size_slots hk').trans (Nat.max_eq_left hk)) ?_
  funext j
  change (t.dirent dp j).live = Function.update (fun j => (s.dirent dp j).live) k _ j
  rw [h.dirent hk']
  by_cases hj : j = k
  · rw [hj, Function.update_self, Function.update_self]
    exact Dirent.live_ofBytes_zero
  · rw [Function.update_of_ne hj, Function.update_of_ne hj]

theorem Directory.mul_le (h : s.Directory dp) (hk : k ≤ (s.slots dp).size) :
    Dirent.size * k ≤ (s.dip dp).size := by
  rw [← h.size_slots]
  exact Nat.mul_le_mul_left _ hk

/-- The file is still a directory. -/
theorem Directory.written (h : s.Directory dp)
    (hw : Written dp (Dirent.size * k) (Dirent.bytes de) s t) (hk : k ≤ (s.slots dp).size)
    (hdistinct : (t.slots dp).Distinct) : t.Directory dp where
  ref := by
    rw [hw.entry]
    exact h.ref
  type := by
    rw [hw.fields]
    exact h.type
  ok := hw.ok h.ok
  wf := hw.wf
  aligned := by
    have haligned := h.aligned
    rw [hw.size (h.mul_le hk), Dirent.length_bytes]
    rw [Dirent.size_eq] at *
    omega
  distinct := hdistinct

/-- A slot that is there needs no new block. -/
theorem Directory.need_eq_zero (h : s.Directory dp) (hk : k < (s.slots dp).size) :
    (s.dip dp).need s.disk (span (Dirent.size * k) Dirent.size) = 0 := by
  refine Dinode.need_eq_zero fun bn hbn => h.wf.mapped bn ?_
  obtain ⟨-, -, hhigh⟩ := mem_span.mp hbn
  have hle := h.mul_le (k := k + 1) hk
  rw [Dirent.size_eq, BSIZE_eq] at *
  omega

/-- An entry needs at most five sectors of the log when the bitmap has one block. -/
theorem Directory.mayLog (h : s.Directory dp) (hopen : 1 ≤ s.log.outstanding)
    (hlh : s.log.lh = []) (hinum : (s.icache dp).inum < s.disk.sb.ninodes)
    (hsb : s.disk.sb.size / BPB = 0 ∧ 5 < s.disk.sb.nlog)
    (hneed : (s.dip dp).need s.disk (span (Dirent.size * k) Dirent.size) ≤ s.disk.free.length) :
    s.MayLog dp k := by
  have hcard : (s.writes dp (Dirent.size * k) Dirent.size).card = _ :=
    writes_card h.ok h.wf hinum hneed
  have hbits := @bitmapBlocks_card_le s h.ok
    ((s.dip dp).need s.disk (span (Dirent.size * k) Dirent.size))
  have hspan : (span (Dirent.size * k) Dirent.size).length = 1 := by
    rw [span, if_neg (by decide), List.length_range', Dirent.size_eq, BSIZE_eq]
    omega
  have hadds : (if (s.dip dp).AddsEntry s.disk (span (Dirent.size * k) Dirent.size)
      then 1 else 0) ≤ 1 := ite_le_one
  have hgrows : (if 0 < Dirent.size ∧ (s.dip dp).size < Dirent.size * k + Dirent.size
      then 1 else 0) ≤ 1 := ite_le_one
  have hsub := Finset.card_le_card (Finset.sdiff_subset
    (s := s.writes dp (Dirent.size * k) Dirent.size) (t := s.log.lh.toFinset))
  have hempty : s.log.lh.length = 0 := by
    rw [hlh]
    rfl
  have hlog : LOGSIZE = 30 := rfl
  refine ⟨hopen, ?_⟩
  unfold Room
  omega

/-- An entry is written to a slot, or behind the last one. -/
theorem Directory.wp_writei {Q : ℤ → Fs → Prop} (h : s.Directory dp) (hk : k ≤ (s.slots dp).size)
    (hgrow : k < (s.slots dp).size ∨ (s.dip dp).size < MAXFILE * BSIZE ∧
      (s.dip dp).need s.disk (span (Dirent.size * k) Dirent.size) ≤ s.disk.free.length)
    (hbudget : Budget U E s) (hU : s.writes dp (Dirent.size * k) Dirent.size ⊆ U)
    (hQ : ∀ t, Written dp (Dirent.size * k) (Dirent.bytes de) s t → Q (Dirent.size : ℕ) t) :
    wp (FsM.writei dp (Dirent.bytes de) (Dirent.size * k)) Q E s := by
  have hlen : (Dirent.bytes de).length = Dirent.size := Dirent.length_bytes
  have hall := h.size_slots
  have haligned := h.aligned
  have hsmall := h.wf.small
  have hneed : (s.dip dp).need s.disk (span (Dirent.size * k) Dirent.size) ≤ s.disk.free.length := by
    rcases hgrow with hlt | ⟨-, hneed⟩
    · rw [h.need_eq_zero hlt]
      exact Nat.zero_le _
    · exact hneed
  have hgood : ¬ (s.dip dp).Refused (Dirent.size * k) Dirent.size := by
    unfold Dinode.Refused
    rw [Dirent.size_eq, MAXFILE_eq, BSIZE_eq] at *
    omega
  refine Fs.wp_writei h.ok h.wf h.notDev (by rw [hlen]; exact hgood) (by rw [hlen]; exact hneed)
    hbudget (by rw [hlen]; exact hU) fun t ht => ?_
  rw [hlen]
  exact hQ t ht

end Write

section Link

variable {dp : Fin NINODE} {s t : Fs} {inum : ℕ} {name : List UInt8} {E : Stop → Prop}

/-- The loop of `dirlink` looks for an empty slot. -/
theorem vacant_eq : (s.slots dp).vacant =
    ((List.range (s.slots dp).size).find? fun j => (s.dirent dp j).inum = 0).getD
      (s.slots dp).size := by
  have hpred : (fun j => decide ((s.dirent dp j).inum = 0)) =
      fun j => ((s.slots dp).slot j).isNone := by
    funext j
    exact Dirent.isNone_live.symm
  rw [hpred, Slots.vacant]

/-- A name that is not present. -/
theorem Directory.wp_dirlink {Q : ℤ → Fs → Prop} (h : s.Directory dp)
    (hfind : (s.slots dp).find (Dirent.key name) = none) :
    wp (FsM.dirlink dp name inum) Q E s ↔
      wp (FsM.writei dp (Dirent.bytes ⟨inum, name⟩) (Dirent.size * (s.slots dp).vacant))
        (fun r t => if r ≠ Dirent.size then E (.panic .dirlink) else Q 0 t) E s := by
  have hlookup : FsM.dirlookup dp name s = .ok (none, s) := by
    rw [h.dirlookup, Fs.lookedUp, hfind]
  unfold FsM.dirlink
  rw [wp_bind, wp_of_ok hlookup]
  change wp (FsM.dirlinkNew dp name inum) Q E s ↔ _
  unfold FsM.dirlinkNew
  rw [wp_bind, wp_ip, wp_bind, wp_of_ok h.scanFrom, wp_bind]
  have hpost : (fun (r : ℤ) t => wp (if r ≠ Dirent.size then FsM.panic .dirlink else pure 0) Q E t) =
      fun (r : ℤ) t => if r ≠ Dirent.size then E (.panic .dirlink) else Q 0 t := by
    funext r t
    by_cases hr : r ≠ Dirent.size
    · rw [if_pos hr, if_pos hr]
      exact propext wp_throw
    · rw [if_neg hr, if_neg hr]
      exact propext wp_pure
  rw [hpost, vacant_eq]
  cases (List.range (s.slots dp).size).find? fun j => (s.dirent dp j).inum = 0 with
  | none =>
      rw [Option.getD_none, Nat.mul_comm]
      rfl
  | some j => rfl

/-- A name that is present. -/
theorem Directory.dirlink_present {k v : ℕ} (h : s.Directory dp)
    (hfind : (s.slots dp).find (Dirent.key name) = some (k, v)) {i : Fin NINODE} {icache : Icache}
    (hget : s.icache.iget (s.icache dp).dev v = some (i, icache)) :
    ∃ t, FsM.dirlink dp name inum s = .ok (-1, t) ∧ s.Untouched t := by
  obtain ⟨t, hput, huntouched⟩ := iput_iget hget
  have hlookup : FsM.dirlookup dp name s =
      .ok (some (i, Dirent.size * k), { s with icache }) := by
    rw [h.dirlookup, Fs.lookedUp, hfind]
    simp only [hget]
  have hwp : wp (FsM.dirlink dp name inum) (fun r u => r = -1 ∧ u = t) (fun _ => False) s := by
    unfold FsM.dirlink
    rw [wp_bind, wp_of_ok hlookup]
    change wp (do
      FsM.iput i
      return -1) _ _ { s with icache }
    rw [wp_bind, wp_of_ok hput]
    exact wp_pure.mpr ⟨rfl, rfl⟩
  obtain ⟨r, u, hrun, rfl, rfl⟩ := hwp.exists_ok
  exact ⟨u, hrun, huntouched⟩

/-- A name that is present, when there is no entry for its inode. -/
theorem Directory.dirlink_no_inodes {k v : ℕ} (h : s.Directory dp)
    (hfind : (s.slots dp).find (Dirent.key name) = some (k, v))
    (hget : s.icache.iget (s.icache dp).dev v = none) :
    FsM.dirlink dp name inum s = .error (.panic .igetNoInodes) := by
  have hlookup : FsM.dirlookup dp name s = .error (.panic .igetNoInodes) := by
    rw [h.dirlookup, Fs.lookedUp, hfind]
    simp only [hget]
  refine wp.eq ?_
  unfold FsM.dirlink
  rw [wp_bind, wp_of_error hlookup]

theorem Untouched.directory (hu : s.Untouched t) (h : s.Directory dp) :
    t.Directory dp ∧ t.slots dp = s.slots dp := by
  have hentry : t.icache dp = s.icache dp := by
    rcases hu.icache dp with heq | ⟨hzero, -⟩
    · exact heq
    · exact absurd h.ref (by rw [hzero]; decide)
  exact h.congr hu.disk (by rw [hentry]) (by rw [hentry]; exact h.ref)

/-- The directory has space exactly where `dirlink` writes. -/
theorem Directory.grow (h : s.Directory dp) (hspace : s.HasSpace dp) :
    (s.slots dp).vacant < (s.slots dp).size ∨ (s.dip dp).size < MAXFILE * BSIZE ∧
      (s.dip dp).need s.disk (span (Dirent.size * (s.slots dp).vacant) Dirent.size) ≤
        s.disk.free.length := by
  rcases Nat.lt_or_eq_of_le (s.slots dp).vacant_le with hlt | heq
  · exact .inl hlt
  · rw [heq, h.size_slots]
    rcases hspace with ⟨k, hk, hnone⟩ | hgrow
    · exact absurd hnone (Slots.vacant_eq_size.mp heq k hk)
    · exact .inr hgrow

/-- A name that is not present is put in the first empty slot. -/
theorem Directory.dirlink_absent (h : s.Directory dp)
    (hfind : (s.slots dp).find (Dirent.key name) = none) (hspace : s.HasSpace dp)
    (hlog : s.MayLog dp (s.slots dp).vacant) :
    ∃ t, FsM.dirlink dp name inum s = .ok (0, t) ∧
      Written dp (Dirent.size * (s.slots dp).vacant) (Dirent.bytes ⟨inum, name⟩) s t := by
  have hwp : wp (FsM.dirlink dp name inum) (fun r t => r = 0 ∧
      Written dp (Dirent.size * (s.slots dp).vacant) (Dirent.bytes ⟨inum, name⟩) s t)
      (fun _ => False) s := by
    rw [h.wp_dirlink hfind]
    refine h.wp_writei (s.slots dp).vacant_le (h.grow hspace) ⟨.inr hlog.1, .inr hlog.2⟩
      (Finset.Subset.refl _) fun t ht => ?_
    rw [if_neg (not_not.mpr rfl)]
    exact ⟨rfl, ht⟩
  obtain ⟨r, t, hrun, rfl, ht⟩ := hwp.exists_ok
  exact ⟨t, hrun, ht⟩

/-- The name in a slot. -/
theorem Directory.zeroed {k v : ℕ} (h : s.Directory dp)
    (hfind : (s.slots dp).find (Dirent.key name) = some (k, v)) (hlog : s.MayLog dp k) :
    ∃ t, FsM.writei dp (Dirent.bytes .zero) (Dirent.size * k) s =
        .ok (((Dirent.size : ℕ) : ℤ), t) ∧
      Written dp (Dirent.size * k) (Dirent.bytes .zero) s t := by
  have hk : k < (s.slots dp).size := Slots.lt_size (Slots.slot_of_find hfind)
  have hwp : wp (FsM.writei dp (Dirent.bytes .zero) (Dirent.size * k)) (fun r t =>
      r = (Dirent.size : ℕ) ∧ Written dp (Dirent.size * k) (Dirent.bytes .zero) s t)
      (fun _ => False) s :=
    h.wp_writei hk.le (.inl hk) ⟨.inr hlog.1, .inr hlog.2⟩ (Finset.Subset.refl _)
      fun t ht => ⟨rfl, ht⟩
  obtain ⟨r, t, hrun, rfl, ht⟩ := hwp.exists_ok
  exact ⟨t, hrun, ht⟩

end Link

def fewInode : Dinode := ⟨T_DIR, 0, 0, 1, 48, fun k => if k.val = 0 then 29 else 0⟩

/-- The names `a` and `b`, and a slot between them that has been zeroed. -/
def fewBlock : Block := fun j =>
  (Dirent.bytes ⟨3, [97]⟩ ++ Dirent.bytes .zero ++ Dirent.bytes ⟨4, [98]⟩).getD j.val 0

def fewDir : Fs :=
  { blank with
    disk := { blank.disk with
      dinode := fun n => if n = 2 then fewInode else Dinode.fresh T_FILE
      bitmap := fun b => b < 30
      data := fun b => if b = 29 then fewBlock else Block.zero }
    icache := fun i =>
      if i.val = 0 then ⟨ROOTDEV, 2, 1, true, true, fewInode⟩
      else ⟨0, 0, 0, false, false, Dinode.fresh 0⟩ }

section FewDir

variable {k : ℕ}

theorem fewInode_hasOne : fewInode.HasOne 29 := fun _ => rfl

theorem fewDir_wf : (fewDir.dip 0).WellFormed fewDir.disk :=
  fewInode_hasOne.wellFormed (by decide) (by decide) rfl (by decide)

theorem fewDir_slots : (fewDir.slots 0).size = 3 ∧ (fewDir.slots 0).slot 0 = some ([97], 3) ∧
    (fewDir.slots 0).slot 1 = none ∧ (fewDir.slots 0).slot 2 = some ([98], 4) := by
  decide +kernel

theorem fewDir_directory : fewDir.Directory 0 where
  ref := by decide
  type := rfl
  ok := ⟨fun b hb => decide_eq_true (Nat.lt_of_lt_of_le hb (by decide)), by decide⟩
  wf := fewDir_wf
  aligned := by decide
  distinct := fun i j name v w hi hj => by
    obtain ⟨hsize, h0, h1, h2⟩ := fewDir_slots
    have hilt := Slots.lt_size hi
    have hjlt := Slots.lt_size hj
    rw [hsize] at hilt hjlt
    interval_cases i <;> interval_cases j <;> simp_all

theorem fewDir_find : (fewDir.slots 0).find (Dirent.key [97]) = some (0, 3) ∧
    (fewDir.slots 0).find (Dirent.key [98]) = some (2, 4) ∧
    (fewDir.slots 0).find (Dirent.key [99]) = none := by
  decide +kernel

theorem fewDir_vacant : (fewDir.slots 0).vacant = 1 := by decide +kernel

theorem fewDir_space : fewDir.HasSpace 0 :=
  .inl ⟨1, by rw [fewDir_slots.1]; decide, fewDir_slots.2.2.1⟩

theorem fewDir_mayLog (hk : k < 3) : fewDir.MayLog 0 k := by
  refine fewDir_directory.mayLog (by decide) rfl (by decide) (by decide) ?_
  rw [fewDir_directory.need_eq_zero (by rw [fewDir_slots.1]; exact hk)]
  exact Nat.zero_le _

theorem fewDir_iget : ((fewDir.icache).iget ROOTDEV 3).isSome := by decide

end FewDir

/-- The directory with all other entries of the inode cache in use. -/
def crowdedDir : Fs :=
  { fewDir with
    icache := fun i =>
      if i.val = 0 then ⟨ROOTDEV, 2, 1, true, true, fewInode⟩
      else ⟨ROOTDEV, 100 + i.val, 1, false, false, Dinode.fresh 0⟩ }

/-- The directory when the log has all the sectors that it can have. -/
def loggedDir : Fs := { fewDir with log := ⟨1, List.range' 100 29, []⟩ }

end Fs

/-- A directory is a finite map from names to inodes: `dirlookup` looks a name up, `dirlink` adds a
name that is not present, and writing zeroes where a name has been found removes it. -/
theorem directory_is_map {dp : Fin NINODE} {s : Fs} (h : s.Directory dp) :
    (∀ name, FsM.dirlookup dp name s = s.lookedUp dp name) ∧
    (∀ name r t, FsM.dirlookup dp name s = .ok (r, t) →
      t.Directory dp ∧ t.slots dp = s.slots dp) ∧
    (∀ name inum k v, (s.slots dp).find (Dirent.key name) = some (k, v) →
      (s.icache.iget (s.icache dp).dev v).isSome →
      ∃ t, FsM.dirlink dp name inum s = .ok (-1, t) ∧ s.Untouched t ∧ t.Directory dp ∧
        t.slots dp = s.slots dp) ∧
    (∀ name inum, (s.slots dp).find (Dirent.key name) = none → 0 < inum → inum < 2 ^ 16 →
      s.HasSpace dp → s.MayLog dp (s.slots dp).vacant →
      ∃ t, FsM.dirlink dp name inum s = .ok (0, t) ∧ t.Directory dp ∧
        (t.slots dp).find = Function.update (s.slots dp).find (Dirent.key name)
          (some ((s.slots dp).vacant, inum))) ∧
    ∀ name k v, (s.slots dp).find (Dirent.key name) = some (k, v) → s.MayLog dp k →
      ∃ t, FsM.writei dp (Dirent.bytes .zero) (Dirent.size * k) s =
          .ok (((Dirent.size : ℕ) : ℤ), t) ∧ t.Directory dp ∧
        (t.slots dp).find = Function.update (s.slots dp).find (Dirent.key name) none := by
  refine ⟨fun name => h.dirlookup, fun name r t => h.after_dirlookup, ?_, ?_, ?_⟩
  · intro name inum k v hfind hsome
    obtain ⟨⟨i, icache⟩, hget⟩ := Option.isSome_iff_exists.mp hsome
    obtain ⟨t, hrun, hu⟩ := @Fs.Directory.dirlink_present dp s inum name k v h hfind i icache hget
    exact ⟨t, hrun, hu, hu.directory h⟩
  · intro name inum hfind hpos hinum hspace hlog
    obtain ⟨t, hrun, ht⟩ := @Fs.Directory.dirlink_absent dp s inum name h hfind hspace hlog
    have hle := (s.slots dp).vacant_le
    have hput := ht.put (h.mul_le hle) hpos hinum
    refine ⟨t, hrun, h.written ht hle ?_, ?_⟩
    · rw [hput]
      exact h.distinct.put hfind
    · rw [hput]
      exact h.distinct.find_put Slots.slot_vacant hfind
  · intro name k v hfind hlog
    obtain ⟨t, hrun, ht⟩ := h.zeroed hfind hlog
    have hk : k < (s.slots dp).size := Slots.lt_size (Slots.slot_of_find hfind)
    have hclear := ht.clear hk (h.mul_le hk.le)
    refine ⟨t, hrun, h.written ht hk.le ?_, ?_⟩
    · rw [hclear]
      exact h.distinct.clear
    · rw [hclear]
      exact h.distinct.find_clear hfind

/-- In a directory with the names `a` and `b`, `a` is not linked again, `c` is put in the slot
between them, and `b` is removed. -/
theorem directory_is_map_few :
    (∃ t, FsM.dirlink 0 [97] 5 Fs.fewDir = .ok (-1, t) ∧ t.slots 0 = Fs.fewDir.slots 0) ∧
    (∃ t, FsM.dirlink 0 [99] 5 Fs.fewDir = .ok (0, t) ∧
      (t.slots 0).find = Function.update (Fs.fewDir.slots 0).find [99] (some (1, 5))) ∧
    ∃ t, FsM.writei 0 (Dirent.bytes .zero) (Dirent.size * 2) Fs.fewDir =
        .ok (((Dirent.size : ℕ) : ℤ), t) ∧
      (t.slots 0).find = Function.update (Fs.fewDir.slots 0).find [98] none := by
  obtain ⟨-, -, hpresent, hlink, hzero⟩ := directory_is_map Fs.fewDir_directory
  obtain ⟨ha, hb, hc⟩ := Fs.fewDir_find
  refine ⟨?_, ?_, ?_⟩
  · obtain ⟨t, hrun, -, -, hslots⟩ := hpresent [97] 5 0 3 ha Fs.fewDir_iget
    exact ⟨t, hrun, hslots⟩
  · obtain ⟨t, hrun, -, hfind⟩ := hlink [99] 5 hc (by decide) (by decide) Fs.fewDir_space
      (by rw [Fs.fewDir_vacant]; exact Fs.fewDir_mayLog (by decide))
    rw [Fs.fewDir_vacant] at hfind
    exact ⟨t, hrun, hfind⟩
  · obtain ⟨t, hrun, -, hfind⟩ := hzero [98] 2 4 hb (Fs.fewDir_mayLog (by decide))
    exact ⟨t, hrun, hfind⟩

/-- `dirlink` panics when the name is present and every entry of the inode cache is in use, and
when the name is absent and the log has all the sectors that it can have. -/
theorem dirlink_stops :
    (∃ s : Fs, s.Directory 0 ∧ (s.slots 0).find [97] = some (0, 3) ∧
      FsM.dirlink 0 [97] 5 s = .error (.panic .igetNoInodes)) ∧
    ∃ s : Fs, s.Directory 0 ∧ s.HasSpace 0 ∧ (s.slots 0).find [99] = none ∧
      s.log.lh.length < s.disk.sb.nlog ∧ FsM.dirlink 0 [99] 5 s = .error (.panic .tooBig) := by
  obtain ⟨ha, -, hc⟩ := Fs.fewDir_find
  constructor
  · obtain ⟨hdir, hslots⟩ : Fs.crowdedDir.Directory 0 ∧
        Fs.crowdedDir.slots 0 = Fs.fewDir.slots 0 :=
      Fs.fewDir_directory.congr rfl rfl (by decide)
    have hfind : (Fs.crowdedDir.slots 0).find (Dirent.key [97]) = some (0, 3) := by
      rw [hslots]
      exact ha
    exact ⟨_, hdir, hfind, hdir.dirlink_no_inodes hfind (by decide)⟩
  · obtain ⟨hdir, hslots⟩ : Fs.loggedDir.Directory 0 ∧ Fs.loggedDir.slots 0 = Fs.fewDir.slots 0 :=
      Fs.fewDir_directory.congr rfl rfl (by decide)
    refine ⟨Fs.loggedDir, hdir, Fs.fewDir_space, ?_, by decide, ?_⟩
    · rw [hslots]
      exact hc
    · have hstop : (match FsM.dirlink 0 [99] 5 Fs.loggedDir with
          | .ok _ => none
          | .error e => some e) = some (.panic .tooBig) := by
        decide +kernel
      cases hrun : FsM.dirlink 0 [99] 5 Fs.loggedDir with
      | ok x =>
          rw [hrun] at hstop
          cases hstop
      | error e =>
          rw [hrun] at hstop
          exact congrArg Except.error (Option.some.inj hstop)

end Xv6
