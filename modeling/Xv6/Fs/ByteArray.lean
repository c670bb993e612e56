import Xv6.Fs.Footprint

/-!
# Files are arrays of bytes

`readi` and `writei` read and write an array of bytes, and `writei` leaves the other files alone.
It has to be called in a transaction, and the log has to have room for the sectors that it logs:
a call that writes too much panics in `log_write`.
-/

namespace Xv6

open Foundation

namespace Fs

section Writei

variable {i : Fin NINODE} {s t : Fs} {off : ℕ} {src : List UInt8} {U : Finset ℕ}
  {E : Stop → Prop}

/-- A call that is refused changes nothing. -/
theorem writei_refused (htype : (s.dip i).type ≠ T_DEV) (hoff : off < 2 ^ 32)
    (hsrc : src.length < 2 ^ 32) (h : (s.dip i).Refused off src.length) :
    FsM.writei i src off s = .ok (-1, s) := by
  have hwp : wp (FsM.writei i src off) (fun r t => r = -1 ∧ t = s) (fun _ => False) s := by
    unfold FsM.writei
    rw [wp_bind, wp_ip]
    change wp (if (s.dip i).type = T_DEV then _ else _) _ _ s
    rw [if_neg htype, wp_ite]
    refine ⟨fun _ => wp_pure.mpr ⟨rfl, rfl⟩,
      fun (hgood : ¬ (off > (s.dip i).size ∨ (off + src.length) % 2 ^ 32 < off)) => ?_⟩
    rw [wraps_iff hoff hsrc] at hgood
    rcases h with hpast | hwrap | hbig
    · exact absurd (.inl hpast) hgood
    · exact absurd (.inr hwrap) hgood
    · have hmod : (off + src.length) % 2 ^ 32 = off + src.length :=
        Nat.mod_eq_of_lt (Nat.not_le.mp fun hwrap => hgood (.inr hwrap))
      rw [if_pos (by rw [hmod]; exact hbig)]
      exact wp_pure.mpr ⟨rfl, rfl⟩
  obtain ⟨r, t, hrun, rfl, rfl⟩ := hwp.exists_ok
  exact hrun

/-- The size after the loop of `writei`. -/
def resize (s : Fs) (i : Fin NINODE) (n : ℕ) : Fs :=
  s.setIp i { s.icache i with d := { s.dip i with size := n } }

def updated (s : Fs) (i : Fin NINODE) : Fs :=
  (s.setDinode (s.icache i).inum (s.dip i)).logged (IBLOCK (s.icache i).inum)

theorem wp_iupdate {Q : Unit → Fs → Prop} (hbudget : Budget U E s) (hQ : Q ⟨⟩ (s.updated i)) :
    wp (FsM.iupdate i) Q E s := by
  unfold FsM.iupdate
  rw [wp_bind, wp_ip, wp_bind, wp_modify]
  exact wp_logWrite ⟨hbudget.outstanding, hbudget.room⟩ hQ

theorem dip_resize {n : ℕ} : (s.resize i n).dip i = { s.dip i with size := n } := by
  have hentry : (s.resize i n).icache i =
      { s.icache i with d := { s.dip i with size := n } } := Function.update_self ..
  rw [dip, hentry]

/-- The file has not grown. -/
theorem Written.of_asks (h : Asks i (span off src.length) s t) (hle : off ≤ (s.dip i).size)
    (hsize : src.length = 0 ∨ off + src.length ≤ (s.dip i).size)
    (hmapped : ∀ bn ∈ span off src.length, (s.dip i).block s.disk bn ≠ 0)
    (hbytes : (t.dip i).byteAt t.disk = patch ((s.dip i).byteAt s.disk) off src)
    (hlogs : s.log.Logs ((s.dip i).touched s.disk (span off src.length)) t.log) :
    Written i off src s t where
  toFrame := h.toFrame
  toMaps := h.toMaps
  wf := h.wf
  contents := by
    have hmax : max (s.dip i).size (off + src.length) = (s.dip i).size := by omega
    have hshow : window (patch ((s.dip i).byteAt s.disk) off src) 0
        (max (s.dip i).size (off + src.length)) = _ := window_patch hle
    rw [hmax] at hshow
    rw [Dinode.contents, h.size, hbytes, hshow]
    rfl
  saved := fun hsaved => by
    have haddrs : (t.dip i).addrs = (s.dip i).addrs := by
      rcases h.same with hsame | ⟨bn, hbn, hmiss⟩
      · exact hsame
      · exact absurd hmiss (hmapped bn hbn)
    rw [h.dinodes, hsaved, h.fields, h.size, haddrs]
  logs := by
    have hno : ¬ (0 < src.length ∧ (s.dip i).size < off + src.length) := by omega
    rw [writes, if_neg hno, Finset.union_empty]
    exact hlogs

/-- The size has been changed, in the cache and on the disk. -/
structure Resized (i : Fin NINODE) (size : ℕ) (t u : Fs) : Prop where
  dip : u.dip i = { t.dip i with size := size }
  icache : ∀ j, j ≠ i → u.icache j = t.icache j
  entry : u.icache i = { t.icache i with d := u.dip i }
  dinode : u.disk.dinode = Function.update t.disk.dinode (t.icache i).inum (u.dip i)
  data : u.disk.data = t.disk.data
  bitmap : u.disk.bitmap = t.disk.bitmap
  sb : u.disk.sb = t.disk.sb
  user : u.user = t.user
  io : u.io = t.io
  log : t.log.Logs {IBLOCK (t.icache i).inum} u.log

namespace Resized

variable {u : Fs} {size : ℕ} {bns : List ℕ}

theorem updated : Resized i size t ((t.resize i size).updated i) := by
  have hentry : (t.resize i size).icache i =
      { t.icache i with d := { t.dip i with size := size } } := Function.update_self ..
  have hinum : ((t.resize i size).icache i).inum = (t.icache i).inum := by rw [hentry]
  have hdip : ((t.resize i size).updated i).dip i = { t.dip i with size := size } := dip_resize
  refine ⟨hdip, fun j hj => Function.update_of_ne hj _ _, ?_, ?_, rfl, rfl, rfl, rfl, rfl, ?_⟩
  · rw [hdip]
    exact hentry
  · rw [← hinum]
    rfl
  · rw [← hinum]
    exact .one

theorem blocks (hr : Resized i size t u) : SameBlocks i t u := by
  refine ⟨?_, ?_, hr.bitmap, hr.sb⟩
  · rw [hr.dip]
    exact Dinode.block_of_data (e := t.dip i) fun _ => by rw [hr.data]
  · rw [hr.dip]
    rfl

theorem byteAt (hr : Resized i size t u) : (u.dip i).byteAt u.disk = (t.dip i).byteAt t.disk := by
  funext k
  rw [Dinode.byteAt, Dinode.byteAt, hr.blocks.block, hr.data]

/-- The other inodes and their blocks are what they were. -/
theorem frame (hr : Resized i size t u) (h : Frame i s t) : Frame i s u where
  sb := hr.sb.trans h.sb
  user := hr.user.trans h.user
  io := hr.io.trans h.io
  icache := fun j hj => (hr.icache j hj).trans (h.icache j hj)
  entry := by
    rw [hr.entry, h.entry]
  fields := by
    rw [hr.dip, h.fields]
  dinode := fun n hn => by
    rw [hr.dinode, h.inum, Function.update_of_ne hn]
    exact h.dinode n hn
  marked := by
    rw [hr.bitmap]
    exact h.marked
  others := fun b hb hown => by
    obtain ⟨hnot, hsame⟩ := h.others b hb hown
    rw [hr.blocks.has, hr.data]
    exact ⟨hnot, hsame⟩

end Resized

/-- The file has grown, and its size is updated. -/
theorem Written.of_grown (h : Asks i (span off src.length) s t) (hpos : 0 < src.length)
    (hle : off ≤ (s.dip i).size) (hgrow : (s.dip i).size < off + src.length)
    (hmax : off + src.length ≤ MAXFILE * BSIZE)
    (hbytes : (t.dip i).byteAt t.disk = patch ((s.dip i).byteAt s.disk) off src)
    (hlogs : s.log.Logs ((s.dip i).touched s.disk (span off src.length)) t.log) {u : Fs}
    (hr : Resized i (off + src.length) t u) : Written i off src s u where
  toFrame := hr.frame h.toFrame
  toMaps := hr.blocks.maps h.toMaps
  wf := by
    refine hr.blocks.wellFormed h.wf (by rw [hr.dip]; exact hmax) fun bn hbn => ?_
    rw [hr.dip] at hbn
    by_cases hold : bn * BSIZE < (t.dip i).size
    · exact h.wf.mapped bn hold
    · rw [h.size] at hold
      change bn * BSIZE < off + src.length at hbn
      refine h.inside bn (mem_span.mpr ⟨Nat.ne_of_gt hpos, ?_, ?_⟩) <;>
        rw [BSIZE_eq] at * <;> omega
  contents := by
    have hmax' : max (s.dip i).size (off + src.length) = off + src.length := by omega
    have hshow : window (patch ((s.dip i).byteAt s.disk) off src) 0
      (max (s.dip i).size (off + src.length)) = _ := window_patch hle
    have hsize : (u.dip i).size = off + src.length := by rw [hr.dip]
    rw [hmax'] at hshow
    rw [Dinode.contents, hsize, hr.byteAt, hbytes, hshow]
    rfl
  saved := fun _ => by
    rw [hr.dinode, h.inum, Function.update_self]
  logs := by
    have hone := hr.log
    rw [h.inum] at hone
    rw [writes, if_pos ⟨hpos, hgrow⟩]
    exact hlogs.trans hone

/-- A call that is not refused writes all the bytes. -/
theorem wp_writei {Q : ℤ → Fs → Prop} (hok : s.disk.Ok) (hwf : (s.dip i).WellFormed s.disk)
    (htype : (s.dip i).type ≠ T_DEV) (hgood : ¬ (s.dip i).Refused off src.length)
    (hroom : (s.dip i).need s.disk (span off src.length) ≤ s.disk.free.length)
    (hbudget : Budget U E s) (hU : s.writes i off src.length ⊆ U)
    (hQ : ∀ t, Written i off src s t → Q src.length t) :
    wp (FsM.writei i src off) Q E s := by
  unfold Dinode.Refused at hgood
  push Not at hgood
  obtain ⟨hle, hwrap, hmax⟩ := hgood
  have hmod : (off + src.length) % 2 ^ 32 = off + src.length := Nat.mod_eq_of_lt hwrap
  unfold FsM.writei
  rw [wp_bind, wp_ip]
  change wp (if (s.dip i).type = T_DEV then _
    else if off > (s.dip i).size ∨ (off + src.length) % 2 ^ 32 < off then _ else _) _ _ s
  rw [if_neg htype, hmod, if_neg (by omega), if_neg (by omega), wp_bind]
  refine wp_writeBlocks hok hwf (Nat.le_refl _) hmax hroom hbudget
    (Finset.union_subset_left hU) fun t hasks hbytes hlogs => ?_
  have hsize : (t.icache i).d.size = (s.dip i).size := hasks.size
  rw [wp_bind, wp_ip, wp_bind, wp_when, hsize]
  refine ⟨?_, ?_⟩
  · rintro ⟨hpos, hgrow⟩
    rw [wp_bind, wp_setIp]
    refine wp_iupdate (U := U) ?_ (wp_pure.mpr (hQ _ (.of_grown hasks hpos hle hgrow hmax hbytes
      hlogs .updated)))
    have hafter := hbudget.logs hlogs (Finset.union_subset_left hU) hasks.sb
    exact ⟨hafter.outstanding, hafter.room⟩
  · intro hno
    refine wp_pure.mpr (hQ t (.of_asks hasks hle (by omega) (fun bn hbn => ?_) hbytes hlogs))
    refine hwf.mapped bn ?_
    obtain ⟨hpos, -, hhigh⟩ := mem_span.mp hbn
    rw [BSIZE_eq] at *
    omega

end Writei

/-- The file system of `mkfs` without files, with an inode that has been allocated, in a
transaction that has logged nothing. -/
def blank : Fs where
  disk :=
    { sb := mkfsSuperblock
      dinode := fun _ => Dinode.fresh T_FILE
      bitmap := fun b => b < mkfsSuperblock.dataStart
      data := fun _ => Block.zero }
  icache := fun _ => ⟨ROOTDEV, 2, 1, true, true, Dinode.fresh T_FILE⟩
  log := ⟨1, [], []⟩
  user := ⟨fun _ => ⟨.none, 0, false, false, 0, 0, 0⟩, fun _ => ⟨.unused, fun _ => none, 0⟩⟩
  io := ⟨fun _ => none, fun _ => none, fun _ _ => -1, fun _ _ => -1⟩

section Blank

theorem blank_ok : blank.disk.Ok where
  marked := fun _ hb => decide_eq_true hb
  small := by decide

section Empty

variable {d : Dinode} {disk : FsDisk} {b bn : ℕ}

theorem addr_empty (haddrs : ∀ k, d.addrs k = 0) : d.addr bn = 0 := by
  unfold Dinode.addr
  split
  · exact haddrs _
  · rfl

theorem block_empty (haddrs : ∀ k, d.addrs k = 0) : d.block disk bn = 0 := by
  unfold Dinode.block
  split
  · exact addr_empty haddrs
  · exact if_pos (addr_empty haddrs)

theorem not_has_empty (haddrs : ∀ k, d.addrs k = 0) : ¬ d.Has disk b := by
  rintro ⟨hne, rfl | ⟨bn, rfl⟩⟩
  · exact hne (addr_empty haddrs)
  · exact hne (block_empty haddrs)

/-- A file without blocks. -/
theorem wellFormed_empty (hsize : d.size = 0) (haddrs : ∀ k, d.addrs k = 0) :
    d.WellFormed disk where
  small := by
    rw [hsize]
    exact Nat.zero_le _
  mapped := fun bn hbn => by
    rw [hsize] at hbn
    exact absurd hbn (Nat.not_lt_zero _)
  distinct := fun _ _ hm => absurd (block_empty haddrs) hm
  notTable := fun _ hbn => absurd (block_empty haddrs) hbn
  used := fun _ hb => absurd hb (not_has_empty haddrs)
  isData := fun _ hb => absurd hb (not_has_empty haddrs)

end Empty

theorem blank_wf (i : Fin NINODE) : (blank.dip i).WellFormed blank.disk :=
  wellFormed_empty rfl fun _ => rfl

theorem blank_free : blank.disk.free = List.range' 29 965 := by
  have hstart : blank.disk.sb.logStart = 29 + 965 := by decide
  have hbit : ∀ b, blank.disk.bitmap b = decide (b < 29) := fun _ => rfl
  rw [FsDisk.free, hstart, List.range_eq_range', ← List.range'_append_1, List.filter_append,
    List.filter_eq_nil_iff.mpr, List.filter_eq_self.mpr, List.nil_append]
  · intro b hb
    have hge := (List.mem_range'_1.mp hb).1
    rw [hbit, decide_eq_false (by omega)]
    rfl
  · intro b hb
    have hlt := (List.mem_range'_1.mp hb).2
    rw [hbit, decide_eq_true (by omega)]
    decide

theorem blank_free_length : blank.disk.free.length = 965 := by
  rw [blank_free, List.length_range']

/-- What is logged when an empty file is written. -/
theorem blank_writes {n : ℕ}
    (hroom : (blank.dip 0).need blank.disk (span 0 n) ≤ 965) :
    (span 0 n).length ≤ (blank.writes 0 0 n).card ∧
      (blank.writes 0 0 n).card ≤ (span 0 n).length + 3 := by
  have hcard : (blank.writes 0 0 n).card = _ := writes_card blank_ok (blank_wf 0) (by decide)
    (by rw [blank_free_length]; exact hroom)
  have hbits := bitmapBlocks_card_le (s := blank) (k := (blank.dip 0).need blank.disk (span 0 n))
    blank_ok
  have hsize : blank.disk.sb.size / BPB = 0 := by decide
  split at hcard
  · split at hcard
    · omega
    · omega
  · split at hcard
    · omega
    · omega

end Blank

end Fs

/-- Files are arrays of bytes, for writes in a transaction that the log has room for. `readi`
returns the bytes from the offset on, cut at the end of the file, or `-1` behind it. `writei` is
refused and changes nothing, or it writes all the bytes, growing the file if it has to, and then
the file shows the old bytes with the new ones over them; every other file keeps its blocks and
its bytes. -/
theorem files_are_bytes {s : Fs} {i : Fin NINODE} (hok : s.disk.Ok)
    (hwf : (s.dip i).WellFormed s.disk) (htype : (s.dip i).type ≠ T_DEV) :
    (∀ off n, off < 2 ^ 32 → n < 2 ^ 32 → FsM.readi i off n s =
      .ok (if off > (s.dip i).size ∨ 2 ^ 32 ≤ off + n then (-1, [])
        else (((min n ((s.dip i).size - off) : ℕ) : ℤ),
          (((s.dip i).contents s.disk).drop off).take n), s)) ∧
    ∀ off (src : List UInt8), off < 2 ^ 32 → src.length < 2 ^ 32 →
      ((s.dip i).Refused off src.length → FsM.writei i src off s = .ok (-1, s)) ∧
      (¬ (s.dip i).Refused off src.length →
        (s.dip i).need s.disk (span off src.length) ≤ s.disk.free.length →
        1 ≤ s.log.outstanding → s.Room (s.writes i off src.length) →
        ∃ t, FsM.writei i src off s = .ok ((src.length : ℤ), t) ∧ Fs.Written i off src s t ∧
          ∀ e : Dinode, e.WellFormed s.disk → Dinode.Apart s.disk (s.dip i) e →
            e.WellFormed t.disk ∧ Dinode.Apart t.disk (t.dip i) e ∧
              e.contents t.disk = e.contents s.disk) := by
  refine ⟨fun off n hoff hn => Fs.readi_eq hwf htype hoff hn, fun off src hoff hsrc => ⟨?_, ?_⟩⟩
  · exact Fs.writei_refused htype hoff hsrc
  · intro hgood hroom hopen hlog
    have hwp : wp (FsM.writei i src off) (fun r t => r = src.length ∧ Fs.Written i off src s t)
        (fun _ => False) s :=
      Fs.wp_writei hok hwf htype hgood hroom ⟨.inr hopen, .inr hlog⟩ (Finset.Subset.refl _)
        fun _ hwritten => ⟨rfl, hwritten⟩
    obtain ⟨r, t, hrun, rfl, hwritten⟩ := hwp.exists_ok
    exact ⟨t, hrun, hwritten, fun e he hapart => hwritten.other he hapart⟩

/-- A byte is written to an empty file. -/
theorem files_are_bytes_one :
    ∃ t, FsM.writei 0 [65] 0 Fs.blank = .ok (1, t) ∧ Fs.Written 0 0 [65] Fs.blank t := by
  obtain ⟨-, hwrite⟩ := files_are_bytes (i := 0) Fs.blank_ok (Fs.blank_wf 0) (by decide)
  have hneed : (Fs.blank.dip 0).need Fs.blank.disk (span 0 1) ≤ 965 := by decide
  have hcard := (Fs.blank_writes hneed).2
  have hroom : Fs.blank.Room (Fs.blank.writes 0 0 1) := by
    have hsub := Finset.card_le_card
      (Finset.sdiff_subset (s := Fs.blank.writes 0 0 1) (t := Fs.blank.log.lh.toFinset))
    have hspan : (span 0 1).length = 1 := by decide
    have hempty : Fs.blank.log.lh.length = 0 := rfl
    have hlog : LOGSIZE = 30 ∧ Fs.blank.disk.sb.nlog = 30 := by decide
    unfold Fs.Room
    omega
  obtain ⟨t, hrun, hwritten, -⟩ := (hwrite 0 [65] (by decide) (by decide)).2
    (by decide) (by rw [Fs.blank_free_length]; exact hneed) (by decide) hroom
  exact ⟨t, hrun, hwritten⟩

/-- When thirty-one blocks are written in one transaction, `log_write` panics. -/
theorem writei_too_big : ∃ src : List UInt8, Fs.blank.disk.Ok ∧
    (Fs.blank.dip 0).WellFormed Fs.blank.disk ∧ (Fs.blank.dip 0).type ≠ T_DEV ∧
    ¬ (Fs.blank.dip 0).Refused 0 src.length ∧
    (Fs.blank.dip 0).need Fs.blank.disk (span 0 src.length) ≤ Fs.blank.disk.free.length ∧
    1 ≤ Fs.blank.log.outstanding ∧ ∀ r t, FsM.writei 0 src 0 Fs.blank ≠ .ok (r, t) := by
  have hlen : (List.replicate 15872 (65 : UInt8)).length = 15872 := List.length_replicate
  have hneed : (Fs.blank.dip 0).need Fs.blank.disk (span 0 15872) ≤ 965 := by decide
  have hgood : ¬ (Fs.blank.dip 0).Refused 0 15872 := by decide
  have htype : (Fs.blank.dip 0).type ≠ T_DEV := by decide
  refine ⟨List.replicate 15872 65, Fs.blank_ok, Fs.blank_wf 0, htype, by rw [hlen]; exact hgood,
    by rw [hlen, Fs.blank_free_length]; exact hneed, by decide, ?_⟩
  intro r t hrun
  have hwritten : Fs.Written 0 0 (List.replicate 15872 65) Fs.blank t := by
    have hwp : wp (FsM.writei 0 (List.replicate 15872 65) 0)
        (fun _ t => Fs.Written 0 0 (List.replicate 15872 65) Fs.blank t) (fun _ => True)
        Fs.blank := by
      refine Fs.wp_writei Fs.blank_ok (Fs.blank_wf 0) htype (by rw [hlen]; exact hgood)
        (by rw [hlen, Fs.blank_free_length]; exact hneed) ⟨.inl trivial, .inl trivial⟩
        (Finset.Subset.refl _) fun _ h => h
    exact (wp_of_ok hrun).mp hwp
  have hfits : t.log.lh.length ≤ LOGSIZE := by
    have hwp : wp (FsM.writei 0 (List.replicate 15872 65) 0)
        (fun _ t => t.log.lh.length ≤ LOGSIZE) (fun _ => True) Fs.blank :=
      Fs.fits_writei (Nat.zero_le _) htype fun _ _ h => h
    exact (wp_of_ok hrun).mp hwp
  have hcard : (Fs.blank.writes 0 0 15872).card ≤ t.log.lh.length := by
    have hlh := hwritten.logs.lh
    rw [hlen] at hlh
    refine le_trans (Finset.card_le_card ?_) (List.toFinset_card_le t.log.lh)
    rw [hlh]
    exact Finset.subset_union_right
  have hlow := (Fs.blank_writes hneed).1
  have hspan : (span 0 15872).length = 31 := by decide
  have hlog : LOGSIZE = 30 := by decide
  omega

end Xv6
