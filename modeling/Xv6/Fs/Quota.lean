import Xv6.Fs.Chunks

/-!
# The quota of an operation

`begin_op` reserves `MAXOPBLOCKS` sectors of the log. The loop of `filewrite` takes as many bytes
for a section as `LOGSIZE` allows, and a section logs the blocks that they lie in, the bitmap blocks
of those that are allocated, the indirect block when an entry is set, and the block of the inode
when the file grows.
-/

namespace Xv6

open Foundation

/-- A section of `filewrite` logs no more than `begin_op` reserves for it exactly when the chunk is
refused, or there are no more blocks, bitmap blocks, indirect block and inode block to log. -/
theorem filewrite_quota {s t : Fs} {f : Fin NFILE} {i : Fin NINODE} {off : ℕ}
    {chunk : List UInt8} {r : ℤ} (h : s.Opened f i) (hoff : (s.user.ftable f).off = off)
    (hinum : (s.icache i).inum < s.disk.sb.ninodes) (hlt : off < 2 ^ 32)
    (hchunk : chunk.length ≤ Syscall.filewriteMax)
    (hroom : (s.inode i).need s.disk (span off chunk.length) ≤ s.disk.free.length)
    (hrun : FsM.writeChunk f chunk s = .ok (r, t)) :
    (s.log.since t.log).card ≤ MAXOPBLOCKS ↔
      (s.inode i).Refused off chunk.length ∨
        (span off chunk.length).length +
            (s.disk.bitmapBlocks ((s.inode i).need s.disk (span off chunk.length))).card +
            (if (s.inode i).AddsEntry s.disk (span off chunk.length) then 1 else 0) +
            (if 0 < chunk.length ∧ (s.inode i).size < off + chunk.length then 1 else 0) ≤
          MAXOPBLOCKS := by
  have hsrc : chunk.length < 2 ^ 32 := lt_of_le_of_lt hchunk (by decide)
  have hwp : wp (FsM.writeChunk f chunk) (fun _ u => s.log.since u.log =
      if (s.inode i).Refused off chunk.length then ∅
      else (s.locked i).writes i off chunk.length) (fun _ => True) s := by
    refine Fs.wp_writeChunk (U := (s.locked i).writes i off chunk.length) h hoff hlt hsrc
      (fun hbad => ?_) fun hgood => ⟨hroom, .inl trivial, Finset.Subset.refl _, ?_⟩
    · rw [if_pos hbad]
      exact Fs.since_section .refl
    · intro u hu
      rw [if_neg hgood]
      exact Fs.since_section hu.logs
  have hsince := (wp_of_ok hrun).mp hwp
  by_cases hbad : (s.inode i).Refused off chunk.length
  · rw [if_pos hbad] at hsince
    rw [hsince, Finset.card_empty]
    exact ⟨fun _ => .inl hbad, fun _ => Nat.zero_le _⟩
  · rw [if_neg hbad] at hsince
    have hdip : (s.locked i).dip i = s.inode i := Fs.dip_locked
    have hentry : ((s.locked i).icache i).inum = (s.icache i).inum := by
      rw [Fs.locked, Fs.icache_setIp]
    have hcard : ((s.locked i).writes i off chunk.length).card = _ := Fs.writes_card h.ok
      (by rw [hdip]; exact h.wf) (by rw [hentry]; exact hinum) (by rw [hdip]; exact hroom)
    rw [hdip] at hcard
    rw [hsince, hcard]
    exact ⟨.inr, fun h => h.resolve_left hbad⟩

/-- A byte is written to an empty file. -/
theorem filewrite_quota_one : ∃ r t, FsM.writeChunk 0 [65] Fs.openedBlank = .ok (r, t) ∧
    (Fs.openedBlank.log.since t.log).card ≤ MAXOPBLOCKS := by
  have hopened := Fs.opened_blank 0
  have hneed : (Fs.openedBlank.inode 0).need Fs.openedBlank.disk (span 0 1) ≤
      Fs.openedBlank.disk.free.length := Fs.openedBlank_room (by decide)
  have hwp : wp (FsM.writeChunk 0 [65]) (fun _ _ => True) (fun _ => False) Fs.openedBlank :=
    Fs.wp_writeChunk hopened rfl (by decide) (by decide) (fun _ => trivial) fun _ =>
      ⟨hneed, .inr (Fs.quiet_blank.roomFor (Fs.writes_card_le hopened hneed (by decide))),
        Finset.Subset.refl _, fun _ _ => trivial⟩
  obtain ⟨r, t, hrun, -⟩ := hwp.exists_ok
  refine ⟨r, t, hrun, (@filewrite_quota _ t 0 0 0 [65] r hopened rfl (by decide) (by decide)
    (by decide) hneed hrun).mpr (.inr ?_)⟩
  have hspan : (span 0 [(65 : UInt8)].length).length = 1 := by decide
  have hbits : (Fs.openedBlank.disk.bitmapBlocks ((Fs.openedBlank.inode 0).need
      Fs.openedBlank.disk (span 0 [(65 : UInt8)].length))).card ≤ _ :=
    Fs.bitmapBlocks_card_le hopened.ok
  have hsize : Fs.openedBlank.disk.sb.size / BPB = 0 := by decide
  have hadds : (if (Fs.openedBlank.inode 0).AddsEntry Fs.openedBlank.disk
      (span 0 [(65 : UInt8)].length) then 1 else 0) ≤ 1 := Fs.ite_le_one
  have hgrows : (if 0 < [(65 : UInt8)].length ∧
      (Fs.openedBlank.inode 0).size < 0 + [(65 : UInt8)].length then 1 else 0) ≤ 1 := Fs.ite_le_one
  have hquota : MAXOPBLOCKS = 10 := rfl
  omega

/-- In its one section a write of thirteen blocks to an empty file logs more than ten sectors. -/
theorem filewrite_over_quota : ∃ t,
    FsM.filewrite 0 (fun _ => 65) 6656 Fs.openedBlank = .ok (6656, t) ∧
    MAXOPBLOCKS < (Fs.openedBlank.log.since t.log).card := by
  have hopened := Fs.opened_blank 0
  have hspan : (span 0 6656).length = 13 := length_span
  have hneed : (Fs.openedBlank.inode 0).need Fs.openedBlank.disk (span 0 6656) ≤
      Fs.openedBlank.disk.free.length := Fs.openedBlank_room (by omega)
  have hcard : 13 ≤ ((Fs.openedBlank.locked 0).writes 0 0 6656).card := by
    have hall : ((Fs.openedBlank.locked 0).writes 0 0 6656).card = _ :=
      Fs.writes_card hopened.ok hopened.wf (by decide) hneed
    omega
  have hlen : (window (fun _ => (65 : UInt8)) 0 6656).length = 6656 := length_window
  have hwp : wp (FsM.filewrite 0 (fun _ => 65) 6656) (fun r t => r = 6656 ∧
      MAXOPBLOCKS < (Fs.openedBlank.log.since t.log).card) (fun _ => False) Fs.openedBlank := by
    unfold FsM.filewrite
    rw [wp_bind, wp_get, hopened.writable, if_neg (by decide), hopened.inode]
    change wp (do
      let k ← FsM.filewriteLoop 0 (fun _ => 65) 6656 (6654 + 1 + 1) 0
      if (k : ℤ) = 6656 then return (6656 : ℤ) else return -1) _ _ Fs.openedBlank
    rw [wp_bind, FsM.filewriteLoop, if_pos (by decide)]
    change wp (do
      let r ← FsM.writeChunk 0 (window (fun _ => 65) 0 6656)
      if r < 0 then return 0
      else if r ≠ (6656 : ℕ) then FsM.panic .shortFilewrite
      else FsM.filewriteLoop 0 (fun _ => 65) 6656 (6654 + 1) 6656) _ _ Fs.openedBlank
    rw [wp_bind]
    refine Fs.wp_writeChunk (U := (Fs.openedBlank.locked 0).writes 0 0 6656) hopened rfl
      (by decide) (by rw [hlen]; decide) (fun hbad => ?_) fun _ => ?_
    · rw [hlen] at hbad
      exact absurd hbad (by decide)
    · rw [hlen]
      refine ⟨hneed, .inr (Fs.quiet_blank.roomFor (Fs.writes_card_le hopened hneed (by decide))),
        Finset.Subset.refl _, fun t ht => ?_⟩
      have hsince := Fs.since_section ht.logs
      rw [hlen] at hsince
      rw [if_neg (by decide), if_neg (by decide), FsM.filewriteLoop, if_neg (by decide), wp_pure,
        if_pos (by decide), wp_pure, hsince]
      refine ⟨rfl, ?_⟩
      have hquota : MAXOPBLOCKS = 10 := rfl
      change MAXOPBLOCKS < ((Fs.openedBlank.locked 0).writes 0 0 6656).card
      omega
  obtain ⟨r, t, hrun, rfl, hover⟩ := hwp.exists_ok
  exact ⟨t, hrun, hover⟩

end Xv6
