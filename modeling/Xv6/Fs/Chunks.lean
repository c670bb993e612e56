import Xv6.Fs.Section

/-!
# Writes in chunks

`filewrite` writes a chunk in each transaction, and stops at the first that is refused. The chunks
before it stay written. So the call does the same as one call of `writei`, unless a chunk after the
first is refused for the size of the file.
-/

namespace Xv6

open Foundation

/-- How many bytes of `n` are written to a file of `size` bytes, from `off` on. -/
def chunked (size off n : ℕ) : ℕ :=
  if off > size then 0
  else if off + n ≤ MAXFILE * BSIZE then n
  else (MAXFILE * BSIZE - off) / Syscall.filewriteMax * Syscall.filewriteMax

/-- One `writei` of `src` at `f->off`, with the result, the contents of the file and `f->off`. -/
def writeOnce (bytes : List UInt8) (off : ℕ) (src : List UInt8) : ℤ × List UInt8 × ℕ :=
  if off > bytes.length ∨ 2 ^ 32 ≤ off + src.length ∨ off + src.length > MAXFILE * BSIZE then
    (-1, bytes, off)
  else (src.length, splice bytes off src, off + src.length)

/-- The same for `filewrite`. -/
def writeChunked (bytes : List UInt8) (off : ℕ) (addr : ℕ → UInt8) (n : ℕ) :
    ℤ × List UInt8 × ℕ :=
  let w := chunked bytes.length off n
  (if w = n then n else -1, splice bytes off (window addr 0 w), off + w)

section Chunked

variable {size off n m : ℕ}

theorem filewriteMax_eq : Syscall.filewriteMax = 6656 := rfl

theorem chunked_zero (hsize : size ≤ MAXFILE * BSIZE) : chunked size off 0 = 0 := by
  unfold chunked
  by_cases hpast : off > size
  · rw [if_pos hpast]
  · rw [if_neg hpast, if_pos (by omega)]

/-- The first chunk is refused. -/
theorem chunked_refused (hn : 0 < n)
    (h : off > size ∨ off + min n Syscall.filewriteMax > MAXFILE * BSIZE) :
    chunked size off n = 0 := by
  unfold chunked
  by_cases hpast : off > size
  · rw [if_pos hpast]
  · have hbig := h.resolve_left hpast
    rw [filewriteMax_eq] at hbig ⊢
    rw [if_neg hpast, if_neg (by omega)]
    have hnone : (MAXFILE * BSIZE - off) / 6656 = 0 := Nat.div_eq_of_lt (by omega)
    rw [hnone, Nat.zero_mul]

/-- The first chunk and the others. -/
theorem chunked_step (hle : off ≤ size)
    (hfit : off + min n Syscall.filewriteMax ≤ MAXFILE * BSIZE) :
    chunked size off n = min n Syscall.filewriteMax +
      chunked (max size (off + min n Syscall.filewriteMax)) (off + min n Syscall.filewriteMax)
        (n - min n Syscall.filewriteMax) := by
  unfold chunked
  rw [filewriteMax_eq] at *
  rw [if_neg (Nat.not_lt.mpr hle), if_neg (Nat.not_lt.mpr (Nat.le_max_right _ _))]
  by_cases hall : off + n ≤ MAXFILE * BSIZE
  · have hrest : off + min n 6656 + (n - min n 6656) ≤ MAXFILE * BSIZE := by omega
    rw [if_pos hall, if_pos hrest]
    omega
  · have hmax : min n 6656 = 6656 := by omega
    have hrest : ¬ off + min n 6656 + (n - min n 6656) ≤ MAXFILE * BSIZE := by omega
    rw [if_neg hall, if_neg hrest, hmax]
    rw [hmax] at hfit
    have hdiv : MAXFILE * BSIZE - off = MAXFILE * BSIZE - (off + 6656) + 6656 := by omega
    rw [hdiv, Nat.add_div_right _ (by omega), Nat.succ_mul]
    omega

/-- When the chunks do the same as one `writei`. -/
theorem writeChunked_eq_iff {bytes : List UInt8} {addr : ℕ → UInt8}
    (hsize : bytes.length ≤ MAXFILE * BSIZE) :
    writeChunked bytes off addr n = writeOnce bytes off (window addr 0 n) ↔
      (n = 0 → off ≤ bytes.length) ∧
        (0 < n → off ≤ bytes.length → off + n ≤ MAXFILE * BSIZE ∨
          MAXFILE * BSIZE < off + min n Syscall.filewriteMax) := by
  have hM : MAXFILE * BSIZE = 71680 := rfl
  unfold writeChunked writeOnce
  rw [length_window]
  by_cases hpast : off > bytes.length
  · have hnone : chunked bytes.length off n = 0 := if_pos hpast
    simp only [hnone, if_pos (Or.inl hpast)]
    rw [window, List.range_zero, List.map_nil, splice_nil, Nat.add_zero]
    by_cases hn : n = 0
    · subst hn
      rw [if_pos rfl]
      constructor
      · intro heq
        cases congrArg Prod.fst heq
      · intro hc
        exact absurd (hc.1 rfl) (Nat.not_le.mpr hpast)
    · rw [if_neg (Ne.symm hn)]
      exact ⟨fun _ => ⟨fun hzero => absurd hzero hn, fun _ hle =>
        absurd hle (Nat.not_le.mpr hpast)⟩, fun _ => rfl⟩
  · have hle : off ≤ bytes.length := Nat.not_lt.mp hpast
    by_cases hall : off + n ≤ MAXFILE * BSIZE
    · have hw : chunked bytes.length off n = n := by
        rw [chunked, if_neg hpast, if_pos hall]
      have hgood : ¬ (off > bytes.length ∨ 2 ^ 32 ≤ off + n ∨ off + n > MAXFILE * BSIZE) := by
        omega
      simp only [hw, if_neg hgood]
      exact ⟨fun _ => ⟨fun _ => hle, fun _ _ => .inl hall⟩, fun _ => rfl⟩
    · have hbad : off > bytes.length ∨ 2 ^ 32 ≤ off + n ∨ off + n > MAXFILE * BSIZE := by
        omega
      rw [if_pos hbad]
      by_cases hfirst : MAXFILE * BSIZE < off + min n Syscall.filewriteMax
      · have hnone : chunked bytes.length off n = 0 := chunked_refused (by omega) (.inr hfirst)
        simp only [hnone]
        rw [window, List.range_zero, List.map_nil, splice_nil, Nat.add_zero,
          if_neg (by omega)]
        exact ⟨fun _ => ⟨fun _ => hle, fun _ _ => .inr hfirst⟩, fun _ => rfl⟩
      · have hpos : 0 < chunked bytes.length off n := by
          rw [chunked_step hle (Nat.not_lt.mp hfirst), filewriteMax_eq]
          omega
        constructor
        · intro heq
          have hoff : off + chunked bytes.length off n = off :=
            congrArg (fun p => p.2.2) heq
          omega
        · intro hc
          rcases hc.2 (by omega) hle with h | h
          · exact absurd h hall
          · exact absurd h hfirst

/-- A part of the bytes lies in a part of the blocks. -/
theorem span_subset {o : ℕ} (hlow : off ≤ o) (hhigh : o + m ≤ off + n) :
    span o m ⊆ span off n := by
  intro bn hbn
  rw [mem_span] at hbn ⊢
  rw [BSIZE_eq] at *
  omega

theorem length_span : (span off n).length =
    if n = 0 then 0 else (off + n - 1) / BSIZE + 1 - off / BSIZE := by
  unfold span
  split
  · rfl
  · exact List.length_range' ..

theorem length_span_le (hn : n ≤ Syscall.filewriteMax) : (span off n).length ≤ 14 := by
  rw [filewriteMax_eq] at hn
  rw [length_span, BSIZE_eq]
  split
  · exact Nat.zero_le _
  · omega

end Chunked

namespace Fs

/-- No operation is outstanding, and the log has room for one section of `filewrite`. -/
structure Quiet (s : Fs) : Prop where
  outstanding : s.log.outstanding = 0
  lh : s.log.lh = []
  room : 17 + s.disk.sb.size / BPB < LOGSIZE ∧ 17 + s.disk.sb.size / BPB + 1 < s.disk.sb.nlog

section Loop

variable {s t : Fs} {i : Fin NINODE} {f : Fin NFILE} {E : Stop → Prop} {off n k m fuel : ℕ}
  {src : List UInt8} {addr : ℕ → UInt8} {bns : List ℕ}

theorem Opened.begun (h : s.Opened f i) : s.begun.Opened f i :=
  ⟨⟨h.ref, h.idle, h.type⟩, h.ok, h.inode, h.writable, h.ip, h.wf, h.notDev⟩

theorem Opened.ended (h : s.Opened f i) : s.ended.Opened f i :=
  ⟨⟨h.ref, h.idle, h.type⟩, h.ok, h.inode, h.writable, h.ip, h.wf, h.notDev⟩

theorem inode_relocked : ((s.locked i).unlocked i).inode i = s.inode i := by
  have hvalid : ((s.locked i).icache i).valid = true := by
    rw [locked, icache_setIp]
  rw [inode_unlocked hvalid, dip_locked]

/-- After a write that was refused. -/
theorem Opened.relocked (h : s.Opened f i) : ((s.locked i).unlocked i).Opened f i where
  ref := by
    rw [unlocked, icache_setIp, locked, icache_setIp]
    exact h.ref
  idle := by
    rw [unlocked, icache_setIp]
  type := by
    rw [inode_relocked]
    exact h.type
  ok := h.ok
  inode := h.inode
  writable := h.writable
  ip := h.ip
  wf := by
    rw [inode_relocked]
    exact h.wf
  notDev := by
    rw [inode_relocked]
    exact h.notDev

/-- A section logs at most fourteen blocks, the bitmap, the indirect block and the inode block. -/
theorem writes_card_le (h : s.Opened f i)
    (hroom : (s.inode i).need s.disk (span off n) ≤ s.disk.free.length)
    (hn : n ≤ Syscall.filewriteMax) :
    ((s.locked i).writes i off n).card ≤ 17 + s.disk.sb.size / BPB := by
  have hdip : (s.locked i).dip i = s.inode i := dip_locked
  have htouched : (((s.locked i).dip i).touched (s.locked i).disk (span off n)).card = _ :=
    touched_card h.ok (by rw [hdip]; exact h.wf) nodup_span (by rw [hdip]; exact hroom)
  have hbits := bitmapBlocks_card_le (s := s.locked i) h.ok
    (k := ((s.locked i).dip i).need (s.locked i).disk (span off n))
  have hspan : (span off n).length ≤ 14 := length_span_le hn
  have hsb : (s.locked i).disk.sb = s.disk.sb := rfl
  have hunion := Finset.card_union_le (((s.locked i).dip i).touched (s.locked i).disk (span off n))
    (if 0 < n ∧ ((s.locked i).dip i).size < off + n
      then ({IBLOCK ((s.locked i).icache i).inum} : Finset ℕ) else ∅)
  have hone : (if 0 < n ∧ ((s.locked i).dip i).size < off + n
      then ({IBLOCK ((s.locked i).icache i).inum} : Finset ℕ) else ∅).card ≤ 1 := by
    split
    · exact (Finset.card_singleton _).le
    · exact Nat.zero_le _
  have hadds : (if ((s.locked i).dip i).AddsEntry (s.locked i).disk (span off n) then 1 else 0) ≤
      1 := ite_le_one
  rw [hsb] at hbits
  change (((s.locked i).dip i).touched (s.locked i).disk (span off n) ∪ _).card ≤ _
  omega

theorem Quiet.roomFor (h : s.Quiet) {U : Finset ℕ} (hU : U.card ≤ 17 + s.disk.sb.size / BPB) :
    s.Room U := by
  obtain ⟨hsize, hnlog⟩ := h.room
  have hsub := Finset.card_le_card (Finset.sdiff_subset (s := U) (t := s.log.lh.toFinset))
  have hempty : s.log.lh.length = 0 := by
    rw [h.lh]
    rfl
  unfold Room
  omega

theorem Quiet.ended {T : Finset ℕ} (h : s.Quiet) (hlogs : s.begun.log.Logs T t.log)
    (hsb : t.disk.sb = s.disk.sb) : t.ended.Quiet where
  outstanding := by
    have hout : t.log.outstanding = s.log.outstanding + 1 := hlogs.outstanding
    change t.log.outstanding - 1 = 0
    rw [hout, h.outstanding]
  lh := by
    have hout : t.log.outstanding = s.log.outstanding + 1 := hlogs.outstanding
    change (if t.log.outstanding - 1 = 0 then [] else t.log.lh) = []
    rw [hout, h.outstanding, if_pos rfl]
  room := by
    change 17 + t.disk.sb.size / BPB < LOGSIZE ∧ 17 + t.disk.sb.size / BPB + 1 < t.disk.sb.nlog
    rw [hsb]
    exact h.room

/-- What the loop leaves when it has written `w` bytes. -/
structure Advanced (f : Fin NFILE) (i : Fin NINODE) (addr : ℕ → UInt8) (k w : ℕ) (s t : Fs) :
    Prop where
  opened : t.Opened f i
  contents : (t.inode i).contents t.disk =
    splice ((s.inode i).contents s.disk) (s.user.ftable f).off (window addr k w)
  off : (t.user.ftable f).off = (s.user.ftable f).off + w

theorem Advanced.refl (h : s.Opened f i) : Advanced f i addr k 0 s s where
  opened := h
  contents := splice_nil.symm
  off := rfl

/-- A chunk, and what follows. -/
theorem Advanced.trans {u : Fs} {v w : ℕ} (h : Advanced f i addr k v s t)
    (h' : Advanced f i addr (k + v) w t u)
    (hle : (s.user.ftable f).off ≤ (s.inode i).size) : Advanced f i addr k (v + w) s u where
  opened := h'.opened
  contents := by
    have hlen : (s.user.ftable f).off ≤ ((s.inode i).contents s.disk).length := by
      rw [size_eq_length]
      exact hle
    have happ : splice _ (s.user.ftable f).off (window addr k v ++ window addr (k + v) w) = _ :=
      splice_append hlen
    rw [length_window] at happ
    rw [h'.contents, h.contents, h.off, ← happ, window_add]
  off := by
    rw [h'.off, h.off, Nat.add_assoc]

theorem Wrote.advanced {v : ℕ} (h : Wrote f i off (window addr k v) s t) (ho : s.Opened f i)
    (hoff : (s.user.ftable f).off = off) (hlt : off + v < 2 ^ 32) :
    Advanced f i addr k v s t where
  opened := h.opened ho (by omega)
  contents := by
    rw [h.contents, hoff]
  off := by
    rw [h.ftable (by omega), Function.update_self]
    change ((s.user.ftable f).off + (window addr k v).length) % 2 ^ 32 = _
    rw [length_window, hoff, Nat.mod_eq_of_lt hlt]

/-- Nothing is left to write. -/
theorem loop_done {Q : ℕ → Fs → Prop} (h : s.Opened f i) (hm : m = 0)
    (hQ : ∀ t, Advanced f i addr k (chunked (s.inode i).size (s.user.ftable f).off m) s t →
      Q (k + chunked (s.inode i).size (s.user.ftable f).off m) t) : Q k s := by
  rw [hm, chunked_zero h.wf.small] at hQ
  exact hQ s (.refl h)

/-- `writei` has refused the first chunk. -/
theorem chunked_of_refused (hpos : 0 < m)
    (h : (s.inode i).Refused off (min m Syscall.filewriteMax)) :
    chunked (s.inode i).size off m = 0 := by
  have hM := MAXFILE_eq
  have hB := BSIZE_eq
  have hmax := filewriteMax_eq
  refine chunked_refused hpos ?_
  rcases h with hpast | hwrap | hbig
  · exact .inl hpast
  · refine .inr ?_
    rw [hM, hB]
    omega
  · exact .inr hbig

theorem Advanced.size (h : Advanced f i addr k m s t)
    (hle : (s.user.ftable f).off ≤ (s.inode i).size) :
    (t.inode i).size = max (s.inode i).size ((s.user.ftable f).off + m) := by
  have hlength : ((t.inode i).contents t.disk).length = (t.inode i).size := size_eq_length
  have hold : ((s.inode i).contents s.disk).length = (s.inode i).size := size_eq_length
  rw [← hlength, h.contents, length_splice (by rw [hold]; exact hle), hold, length_window]

/-- The loop of `filewrite` writes `chunked` bytes. -/
theorem wp_filewriteLoop {Q : ℕ → Fs → Prop} (h : s.Opened f i) (hfuel : m ≤ fuel)
    (hn : n = k + m) (hnlt : n < 2 ^ 31) (hlt : (s.user.ftable f).off < 2 ^ 32)
    (hbns : bns.Nodup) (hsub : span (s.user.ftable f).off m ⊆ bns)
    (hroom : (s.inode i).need s.disk bns ≤ s.disk.free.length)
    (hlog : E (.panic .tooBig) ∨ s.Quiet)
    (hQ : ∀ t, Advanced f i addr k (chunked (s.inode i).size (s.user.ftable f).off m) s t →
      Q (k + chunked (s.inode i).size (s.user.ftable f).off m) t) :
    wp (FsM.filewriteLoop f addr n fuel k) Q E s := by
  induction fuel generalizing s k m with
  | zero => exact wp_pure.mpr (loop_done h (Nat.le_zero.mp hfuel) hQ)
  | succ fuel ih =>
      rw [FsM.filewriteLoop, wp_ite]
      refine ⟨fun hk => ?_, fun hk => wp_pure.mpr (loop_done h (by omega) hQ)⟩
      have hpos : 0 < m := by omega
      have hm : ((n : ℤ) - k).toNat = m := by omega
      rw [hm]
      obtain ⟨v, hv⟩ : ∃ v, v = min m Syscall.filewriteMax := ⟨_, rfl⟩
      have hvm : v ≤ m := by omega
      have hvmax : v ≤ Syscall.filewriteMax := by omega
      have hvpos : 0 < v := by
        rw [filewriteMax_eq] at hv
        omega
      have hlen : (window addr k v).length = v := length_window
      have hspan : span (s.user.ftable f).off v ⊆ bns :=
        List.Subset.trans (span_subset (Nat.le_refl _) (by omega)) hsub
      have hneed : (s.inode i).need s.disk (span (s.user.ftable f).off v) ≤
          s.disk.free.length := (Dinode.need_le_of_subset nodup_span hspan).trans hroom
      rw [← hv]
      change wp (do
        let r ← FsM.writeChunk f (window addr k v)
        if r < 0 then return k
        else if r ≠ v then FsM.panic .shortFilewrite
        else FsM.filewriteLoop f addr n fuel (k + v)) Q E s
      rw [wp_bind]
      refine wp_writeChunk (U := (s.locked i).writes i (s.user.ftable f).off v) h rfl hlt
        (by omega) (fun hbad => ?_) fun hgood => ?_
      · have hnone : chunked (s.inode i).size (s.user.ftable f).off m = 0 := by
          rw [hlen, hv] at hbad
          exact chunked_of_refused hpos hbad
        rw [if_pos (by decide), wp_pure]
        rw [hnone] at hQ
        exact hQ _ {
          opened := h.begun.relocked.ended
          contents := by
            have hsame : (((s.begun.locked i).unlocked i).ended).inode i = s.inode i :=
              inode_relocked (s := s.begun)
            rw [hsame]
            exact splice_nil.symm
          off := rfl }
      · rw [hlen] at hgood ⊢
        refine ⟨hneed, hlog.imp id fun hquiet => hquiet.roomFor (writes_card_le h hneed hvmax),
          Finset.Subset.refl _, fun t ht => ?_⟩
        unfold Dinode.Refused at hgood
        push Not at hgood
        obtain ⟨hle, hwrap, hfit⟩ := hgood
        rw [if_neg (by omega), if_neg (by omega)]
        have hadv := ht.advanced h.begun rfl hwrap
        have hend : Advanced f i addr k v s t.ended :=
          ⟨hadv.opened.ended, hadv.contents, hadv.off⟩
        have hstep := chunked_step (n := m) hle (by rw [← hv]; exact hfit)
        rw [← hv] at hstep
        have hsize' := hend.size hle
        have hmaps : Dinode.Maps (span (s.user.ftable f).off v) s.disk t.ended.disk (s.inode i)
            (t.ended.inode i) := by
          have hmaps' := ht.maps
          rw [hlen] at hmaps'
          exact hmaps'
        have hrest := hmaps.need_sub nodup_span hbns hspan
        have hoff : (t.ended.user.ftable f).off = (s.user.ftable f).off + v := hend.off
        have hlogs := ht.logs
        refine ih (m := m - v) hend.opened (by omega) (by omega) (by rw [hoff]; exact hwrap) ?_ ?_
          (hlog.imp id fun hquiet => hquiet.ended hlogs ht.sb) ?_
        · rw [hoff]
          exact List.Subset.trans (span_subset (Nat.le_add_right _ _) (by omega)) hsub
        · have hleft : (s.disk.free.drop ((s.inode i).need s.disk
              (span (s.user.ftable f).off v))).length = s.disk.free.length -
                (s.inode i).need s.disk (span (s.user.ftable f).off v) := List.length_drop
          rw [hmaps.free]
          omega
        · intro u hu
          rw [hsize', hoff] at hu ⊢
          rw [hstep] at hQ
          rw [Nat.add_assoc]
          exact hQ u (hend.trans hu hle)

/-- What `filewrite` does, unless it finds the log full. -/
theorem wp_filewrite {Q : ℤ → Fs → Prop} (h : s.Opened f i)
    (hoff : (s.user.ftable f).off = off) (hn : n < 2 ^ 31) (hlt : off < 2 ^ 32)
    (hroom : (s.inode i).need s.disk (span off n) ≤ s.disk.free.length)
    (hlog : E (.panic .tooBig) ∨ s.Quiet)
    (hQ : ∀ r t, (r, (t.inode i).contents t.disk, (t.user.ftable f).off) =
      writeChunked ((s.inode i).contents s.disk) off addr n → Q r t) :
    wp (FsM.filewrite f addr n) Q E s := by
  subst hoff
  unfold FsM.filewrite
  rw [wp_bind, wp_get, h.writable, if_neg (by decide), h.inode]
  change wp (do
    let k ← FsM.filewriteLoop f addr n n 0
    if (k : ℤ) = n then return (n : ℤ) else return -1) Q E s
  rw [wp_bind]
  refine wp_filewriteLoop (m := n) h (Nat.le_refl _) (Nat.zero_add n).symm hn hlt nodup_span
    (List.Subset.refl _) hroom hlog fun t ht => ?_
  rw [Nat.zero_add]
  have hpost : ∀ r : ℤ, r = (if chunked (s.inode i).size (s.user.ftable f).off n = n
      then (n : ℤ) else -1) → Q r t := by
    rintro r rfl
    refine hQ _ t ?_
    unfold writeChunked
    rw [size_eq_length, ht.contents, ht.off]
  by_cases hall : chunked (s.inode i).size (s.user.ftable f).off n = n
  · rw [hall, if_pos rfl]
    exact wp_pure.mpr (hpost n (if_pos hall).symm)
  · rw [if_neg (by omega)]
    exact wp_pure.mpr (hpost (-1) (if_neg hall).symm)

/-- What one `writei` in a transaction does, unless it finds the log full. -/
theorem wp_once {Q : ℤ → Fs → Prop} (h : s.Opened f i)
    (hoff : (s.user.ftable f).off = off) (hsrc : src.length < 2 ^ 31) (hlt : off < 2 ^ 32)
    (hroom : (s.inode i).need s.disk (span off src.length) ≤ s.disk.free.length)
    (hlog : E (.panic .tooBig))
    (hQ : ∀ r t, (r, (t.inode i).contents t.disk, (t.user.ftable f).off) =
      writeOnce ((s.inode i).contents s.disk) off src → Q r t) :
    wp (FsM.writeChunk f src) Q E s := by
  refine wp_writeChunk (U := (s.locked i).writes i off src.length) h hoff hlt (by omega)
    (fun (hbad : (s.inode i).size < off ∨ _) => hQ _ _ ?_) fun hgood =>
      ⟨hroom, .inl hlog, Finset.Subset.refl _, fun t ht => hQ _ _ ?_⟩
  · have hsame : (((s.begun.locked i).unlocked i).ended).inode i = s.inode i :=
      inode_relocked (s := s.begun)
    rw [hsame]
    unfold writeOnce
    rw [size_eq_length, if_pos hbad]
    exact congrArg (fun o => (-1, _, o)) hoff
  · have hfit : ¬ ((s.inode i).size < off ∨ 2 ^ 32 ≤ off + src.length ∨
        off + src.length > MAXFILE * BSIZE) := hgood
    have hwrap : off + src.length < 2 ^ 32 := by omega
    have hcontents : (t.ended.inode i).contents t.ended.disk =
        splice ((s.inode i).contents s.disk) off src := ht.contents
    have hftable := ht.ftable (by
      change (s.user.ftable f).off < 2 ^ 32
      omega)
    have hnext : (t.ended.user.ftable f).off = off + src.length := by
      change (t.user.ftable f).off = _
      rw [hftable, Function.update_self]
      change ((s.user.ftable f).off + src.length) % 2 ^ 32 = _
      rw [hoff, Nat.mod_eq_of_lt hwrap]
    unfold writeOnce
    rw [size_eq_length, if_neg hfit, hcontents, hnext]

theorem need_le_length {d : Dinode} {disk : FsDisk} : d.need disk bns ≤ bns.length + 1 :=
  Nat.add_le_add (List.length_filter_le _ _) ite_le_one

end Loop

/-- An empty file that is open for writing, and a log with no operation. -/
def openedBlank : Fs :=
  { blank with
    icache := fun _ => ⟨ROOTDEV, 2, 1, false, true, Dinode.fresh T_FILE⟩
    log := ⟨0, [], []⟩
    user := { blank.user with ftable := fun _ => ⟨.inode, 1, true, true, 0, 0, 0⟩ } }

theorem opened_blank (f : Fin NFILE) : openedBlank.Opened f 0 where
  ref := by decide
  idle := rfl
  type := by decide
  ok := blank_ok
  inode := rfl
  writable := rfl
  ip := rfl
  wf := wellFormed_empty rfl fun _ => rfl
  notDev := by decide

theorem quiet_blank : openedBlank.Quiet where
  outstanding := rfl
  lh := rfl
  room := by decide

theorem openedBlank_room {off n : ℕ} (hspan : (span off n).length ≤ 964) :
    (openedBlank.inode 0).need openedBlank.disk (span off n) ≤ openedBlank.disk.free.length := by
  have hfree : openedBlank.disk.free.length = 965 := blank_free_length
  rw [hfree]
  exact need_le_length.trans (by omega)

end Fs

/-- A call of `filewrite` that returns has written the chunks that fit. It does the same as one
`writei` exactly when no chunk after the first is refused, and some byte is to be written or the
offset is not past the end. -/
theorem filewrite_chunks {s : Fs} {f : Fin NFILE} {i : Fin NINODE} {off n : ℕ}
    {addr : ℕ → UInt8} (h : s.Opened f i) (hoff : (s.user.ftable f).off = off)
    (hn : n < 2 ^ 31) (hlt : off < 2 ^ 32)
    (hroom : (s.inode i).need s.disk (span off n) ≤ s.disk.free.length) :
    (∀ r t, FsM.filewrite f addr n s = .ok (r, t) →
      (r, (t.inode i).contents t.disk, (t.user.ftable f).off) =
        writeChunked ((s.inode i).contents s.disk) off addr n) ∧
    (s.Quiet → ∃ r t, FsM.filewrite f addr n s = .ok (r, t)) ∧
    (∀ r t, FsM.writeChunk f (window addr 0 n) s = .ok (r, t) →
      (r, (t.inode i).contents t.disk, (t.user.ftable f).off) =
        writeOnce ((s.inode i).contents s.disk) off (window addr 0 n)) ∧
    (writeChunked ((s.inode i).contents s.disk) off addr n =
        writeOnce ((s.inode i).contents s.disk) off (window addr 0 n) ↔
      (n = 0 → off ≤ (s.inode i).size) ∧
        (0 < n → off ≤ (s.inode i).size → off + n ≤ MAXFILE * BSIZE ∨
          MAXFILE * BSIZE < off + min n Syscall.filewriteMax)) := by
  refine ⟨fun r t hrun => ?_, fun hquiet => ?_, fun r t hrun => ?_, ?_⟩
  · have hwp : wp (FsM.filewrite f addr n)
        (fun r t => (r, (t.inode i).contents t.disk, (t.user.ftable f).off) =
          writeChunked ((s.inode i).contents s.disk) off addr n) (fun _ => True) s :=
      Fs.wp_filewrite h hoff hn hlt hroom (.inl trivial) fun _ _ heq => heq
    exact (wp_of_ok hrun).mp hwp
  · have hwp : wp (FsM.filewrite f addr n) (fun _ _ => True) (fun _ => False) s :=
      Fs.wp_filewrite h hoff hn hlt hroom (.inr hquiet) fun _ _ _ => trivial
    obtain ⟨r, t, hrun, -⟩ := hwp.exists_ok
    exact ⟨r, t, hrun⟩
  · have hwp : wp (FsM.writeChunk f (window addr 0 n))
        (fun r t => (r, (t.inode i).contents t.disk, (t.user.ftable f).off) =
          writeOnce ((s.inode i).contents s.disk) off (window addr 0 n)) (fun _ => True) s :=
      Fs.wp_once h hoff (by rw [length_window]; exact hn) hlt (by rw [length_window]; exact hroom)
        trivial fun _ _ heq => heq
    exact (wp_of_ok hrun).mp hwp
  · have hsmall : ((s.inode i).contents s.disk).length ≤ MAXFILE * BSIZE := by
      rw [Fs.size_eq_length]
      exact h.wf.small
    rw [writeChunked_eq_iff hsmall, Fs.size_eq_length]

/-- 20000 bytes are written to an empty file in four chunks, as one `writei` would write them. -/
theorem filewrite_chunks_four : ∃ t,
    FsM.filewrite 0 (fun _ => 65) 20000 Fs.openedBlank = .ok (20000, t) ∧
    ((20000 : ℤ), (t.inode 0).contents t.disk, (t.user.ftable 0).off) =
      writeOnce ((Fs.openedBlank.inode 0).contents Fs.openedBlank.disk) 0
        (window (fun _ => 65) 0 20000) ∧
    (t.user.ftable 0).off = 20000 := by
  have hspan : (span 0 20000).length = 40 := length_span
  obtain ⟨hwritten, hreturns, -, hsame⟩ := @filewrite_chunks Fs.openedBlank 0 0 0 20000
    (fun _ => 65) (Fs.opened_blank 0) rfl (by decide) (by decide) (Fs.openedBlank_room (by omega))
  obtain ⟨r, t, hrun⟩ := hreturns Fs.quiet_blank
  have hempty : (Fs.openedBlank.inode 0).contents Fs.openedBlank.disk = [] := rfl
  have hall : chunked 0 0 20000 = 20000 := rfl
  have heq := hwritten r t hrun
  have honce := heq.trans (hsame.mpr ⟨fun hzero => absurd hzero (by decide),
    fun _ _ => .inl (by decide)⟩)
  unfold writeChunked at heq
  rw [hempty, List.length_nil] at heq
  simp only [hall, Prod.mk.injEq] at heq
  obtain ⟨rfl, -, hoff⟩ := heq
  exact ⟨t, hrun, honce, hoff⟩

/-- More bytes than a file can have are written to an empty file: `filewrite` returns `-1` after it
has written some. -/
theorem filewrite_splits : ∃ t,
    FsM.filewrite 0 (fun _ => 65) 71681 Fs.openedBlank = .ok (-1, t) ∧
    (t.user.ftable 0).off = 66560 ∧ ((t.inode 0).contents t.disk).length = 66560 ∧
    writeOnce ((Fs.openedBlank.inode 0).contents Fs.openedBlank.disk) 0
      (window (fun _ => 65) 0 71681) = (-1, [], 0) := by
  have hspan : (span 0 71681).length = 141 := length_span
  have hroom := @Fs.openedBlank_room 0 71681 (by omega)
  have hwp : wp (FsM.filewrite 0 (fun _ => 65) (71681 : ℕ))
      (fun r t => (r, (t.inode 0).contents t.disk, (t.user.ftable 0).off) =
        writeChunked ((Fs.openedBlank.inode 0).contents Fs.openedBlank.disk) 0 (fun _ => 65) 71681)
      (fun _ => False) Fs.openedBlank :=
    Fs.wp_filewrite (Fs.opened_blank 0) rfl (by decide) (by decide)
      hroom (.inr Fs.quiet_blank) fun _ _ heq => heq
  obtain ⟨r, t, hrun, heq⟩ := hwp.exists_ok
  have hempty : (Fs.openedBlank.inode 0).contents Fs.openedBlank.disk = [] := rfl
  have hw : chunked 0 0 71681 = 66560 := rfl
  unfold writeChunked at heq
  rw [hempty, List.length_nil] at heq
  simp only [hw, Prod.mk.injEq] at heq
  obtain ⟨rfl, hcontents, hoff⟩ := heq
  refine ⟨t, hrun, by rw [hoff], ?_, ?_⟩
  · rw [hcontents, length_splice (Nat.zero_le _), length_window]
    rfl
  · rw [hempty, writeOnce, if_pos]
    rw [length_window]
    exact .inr (.inr (by decide))

end Xv6
