import Xv6.Fs.Bmap

/-!
# Reading and writing files

The loops of `readi` and `writei` go from block to block. A round of the one shows a window of
the bytes of the file, and a round of the other patches them.
-/

namespace Xv6

open Foundation

namespace Block

def char (b : Block) (j : ℕ) : UInt8 := UInt8.ofNat (b.byte j)

theorem read_eq (b : Block) (o m : ℕ) : b.read o m = window b.char o m := rfl

theorem char_write {b : Block} {o j : ℕ} {bs : List UInt8} (hj : j < BSIZE) :
    (b.write o bs).char j = patch b.char o bs j := by
  unfold Block.char Block.byte
  rw [dif_pos hj, UInt8.ofNat_toNat, Block.write]
  by_cases hlow : o ≤ j
  · by_cases hhigh : j < o + bs.length
    · have hlen : j - o < bs.length := by omega
      rw [if_pos ⟨hlow, hhigh⟩, patch, if_pos hlow, List.getD_eq_getElem?_getD,
        List.getElem?_eq_getElem hlen]
      rfl
    · rw [if_neg fun hc => hhigh hc.2, patch_of_le (Nat.not_lt.mp hhigh), dif_pos hj,
        UInt8.ofNat_toNat]
  · rw [if_neg fun hc => hlow hc.1, patch_of_lt (Nat.not_le.mp hlow), dif_pos hj,
      UInt8.ofNat_toNat]

end Block

/-- `writei` returns `-1`. -/
def Dinode.Refused (d : Dinode) (off n : ℕ) : Prop :=
  off > d.size ∨ 2 ^ 32 ≤ off + n ∨ off + n > MAXFILE * BSIZE

instance (d : Dinode) (off n : ℕ) : Decidable (d.Refused off n) :=
  inferInstanceAs (Decidable (_ ∨ _))

namespace Fs

section Read

variable {i : Fin NINODE} {s : Fs} {off n k m fuel : ℕ} {d : Dinode} {disk : FsDisk}

theorem size_eq_length : (d.contents disk).length = d.size := length_window

theorem byteAt_eq (h : d.block disk (k / BSIZE) ≠ 0) :
    d.byteAt disk k = (disk.data (d.block disk (k / BSIZE))).char (k % BSIZE) := if_neg h

/-- What a block shows of the file. -/
theorem window_block (h : d.block disk (off / BSIZE) ≠ 0) (hm : m ≤ BSIZE - off % BSIZE) :
    (disk.data (d.block disk (off / BSIZE))).read (off % BSIZE) m =
      window (d.byteAt disk) off m := by
  rw [Block.read_eq, window, window]
  refine List.map_congr_left fun k hk => ?_
  rw [List.mem_range] at hk
  rw [BSIZE_eq] at hm
  have hdiv : (off + k) / BSIZE = off / BSIZE := by
    rw [BSIZE_eq]
    omega
  have hmod : (off + k) % BSIZE = off % BSIZE + k := by
    rw [BSIZE_eq]
    omega
  rw [byteAt_eq (by rw [hdiv]; exact h), hdiv, hmod]

/-- The loop of `readi` reads what is there, and changes nothing. -/
theorem wp_readBlocks {E : Stop → Prop} {Q : List UInt8 → Fs → Prop}
    (hwf : (s.dip i).WellFormed s.disk) (hfuel : n ≤ fuel) (hend : off + n ≤ (s.dip i).size)
    (hQ : Q (window ((s.dip i).byteAt s.disk) off n) s) :
    wp (FsM.readBlocks i fuel off n) Q E s := by
  induction fuel generalizing off n Q with
  | zero =>
      rw [Nat.le_zero.mp hfuel] at hQ
      exact wp_pure.mpr hQ
  | succ fuel ih =>
      rw [FsM.readBlocks, wp_ite]
      refine ⟨fun hn => ?_, fun hn => ?_⟩
      · rw [hn] at hQ
        exact wp_pure.mpr hQ
      · have hsmall := hwf.small
        rw [MAXFILE_eq, BSIZE_eq] at hsmall
        have hmapped : (s.dip i).block s.disk (off / BSIZE) ≠ 0 := by
          refine hwf.mapped _ ?_
          rw [BSIZE_eq]
          omega
        rw [wp_bind]
        refine wp_bmap_mapped ?_ hmapped ?_
        · rw [MAXFILE_eq, BSIZE_eq]
          omega
        · have hm : min n (BSIZE - off % BSIZE) ≤ n := Nat.min_le_left _ _
          have hpos : 0 < min n (BSIZE - off % BSIZE) := by
            rw [BSIZE_eq]
            omega
          rw [wp_bind, wp_get, wp_bind]
          refine ih (by omega) (by omega) (wp_pure.mpr ?_)
          rw [window_block hmapped (Nat.min_le_right _ _), ← window_add, Nat.add_sub_cancel' hm]
          exact hQ

/-- `off + n < off` -/
theorem wraps_iff (hoff : off < 2 ^ 32) (hn : n < 2 ^ 32) :
    (off + n) % 2 ^ 32 < off ↔ 2 ^ 32 ≤ off + n := by
  omega

/-- `readi` returns a part of the bytes of the file. -/
theorem readi_eq (hwf : (s.dip i).WellFormed s.disk) (htype : (s.dip i).type ≠ T_DEV)
    (hoff : off < 2 ^ 32) (hn : n < 2 ^ 32) :
    FsM.readi i off n s = .ok (if off > (s.dip i).size ∨ 2 ^ 32 ≤ off + n then (-1, [])
      else (((min n ((s.dip i).size - off) : ℕ) : ℤ),
        (((s.dip i).contents s.disk).drop off).take n), s) := by
  have hwp : wp (FsM.readi i off n) (fun r t => r = (if off > (s.dip i).size ∨ 2 ^ 32 ≤ off + n
      then (-1, []) else (((min n ((s.dip i).size - off) : ℕ) : ℤ),
        (((s.dip i).contents s.disk).drop off).take n)) ∧ t = s) (fun _ => False) s := by
    unfold FsM.readi
    rw [wp_bind, wp_ip]
    change wp (if (s.dip i).type = T_DEV then _ else _) _ _ s
    rw [if_neg htype, wp_ite]
    refine ⟨fun hbad => ?_, fun (hgood : ¬ (off > (s.dip i).size ∨ _)) => ?_⟩
    · rw [wraps_iff hoff hn] at hbad
      exact wp_pure.mpr ⟨(if_pos hbad).symm, rfl⟩
    · rw [wraps_iff hoff hn] at hgood
      have hle : off ≤ (s.dip i).size := by
        by_contra hlt
        exact hgood (.inl (Nat.not_le.mp hlt))
      have hcount : (if off + n > (s.dip i).size then (s.dip i).size - off else n) =
          min n ((s.dip i).size - off) := by
        split
        · omega
        · omega
      change wp (do
        let bs ← FsM.readBlocks i (if off + n > (s.dip i).size then (s.dip i).size - off else n)
          off (if off + n > (s.dip i).size then (s.dip i).size - off else n)
        return (((if off + n > (s.dip i).size then (s.dip i).size - off else n : ℕ) : ℤ), bs)) _ _ s
      rw [hcount, wp_bind]
      refine wp_readBlocks hwf (Nat.le_refl _) (by omega) (wp_pure.mpr ⟨?_, rfl⟩)
      rw [if_neg hgood, Dinode.contents, ← window_take_drop (m := (s.dip i).size) (by omega)]
      congr 1
      refine List.take_eq_take_iff.mpr ?_
      rw [List.length_drop, length_window]
      omega
  obtain ⟨r, t, hrun, hr, rfl⟩ := hwp.exists_ok
  rw [hrun, hr]

end Read

def writes (s : Fs) (i : Fin NINODE) (off n : ℕ) : Finset ℕ :=
  (s.dip i).touched s.disk (span off n) ∪
    if 0 < n ∧ (s.dip i).size < off + n then {IBLOCK (s.icache i).inum} else ∅

structure Written (i : Fin NINODE) (off : ℕ) (src : List UInt8) (s t : Fs) : Prop
    extends Frame i s t,
      Dinode.Maps (span off src.length) s.disk t.disk (s.dip i) (t.dip i) where
  wf : (t.dip i).WellFormed t.disk
  contents : (t.dip i).contents t.disk = splice ((s.dip i).contents s.disk) off src
  saved : s.disk.dinode (s.icache i).inum = s.dip i →
    t.disk.dinode (s.icache i).inum = t.dip i
  logs : s.log.Logs (s.writes i off src.length) t.log

/-- The file has the blocks that it had, and no block has been taken. -/
structure SameBlocks (i : Fin NINODE) (t u : Fs) : Prop where
  block : (u.dip i).block u.disk = (t.dip i).block t.disk
  table : (u.dip i).table = (t.dip i).table
  bitmap : u.disk.bitmap = t.disk.bitmap
  sb : u.disk.sb = t.disk.sb

namespace SameBlocks

variable {i : Fin NINODE} {s t u : Fs} {bns : List ℕ}

theorem has (hs : SameBlocks i t u) (b : ℕ) :
    (u.dip i).Has u.disk b ↔ (t.dip i).Has t.disk b := by
  rw [Dinode.Has, Dinode.Has, hs.block, hs.table]

theorem maps (hs : SameBlocks i t u)
    (h : Dinode.Maps bns s.disk t.disk (s.dip i) (t.dip i)) :
    Dinode.Maps bns s.disk u.disk (s.dip i) (u.dip i) where
  free := by
    rw [FsDisk.free, hs.sb, hs.bitmap]
    exact h.free
  inside := by
    rw [hs.block]
    exact h.inside
  kept := by
    rw [hs.block]
    exact h.kept
  outside := by
    rw [hs.block]
    exact h.outside
  tableKept := by
    rw [hs.table]
    exact h.tableKept
  tableNew := by
    rw [hs.table]
    exact h.tableNew

theorem wellFormed (hs : SameBlocks i t u) (h : (t.dip i).WellFormed t.disk)
    (hsmall : (u.dip i).size ≤ MAXFILE * BSIZE)
    (hmapped : ∀ bn, bn * BSIZE < (u.dip i).size → (t.dip i).block t.disk bn ≠ 0) :
    (u.dip i).WellFormed u.disk where
  small := hsmall
  mapped := by
    rw [hs.block]
    exact hmapped
  distinct := by
    rw [hs.block]
    exact h.distinct
  notTable := by
    rw [hs.block, hs.table]
    exact h.notTable
  used := fun b hb => by
    rw [hs.bitmap]
    exact h.used b ((hs.has b).mp hb)
  isData := fun b hb => by
    rw [hs.sb]
    exact h.isData b ((hs.has b).mp hb)

end SameBlocks

section Write

variable {i : Fin NINODE} {s t : Fs} {off fuel bn c : ℕ} {src bs : List UInt8} {bns : List ℕ}
  {x : Block} {U : Finset ℕ} {E : Stop → Prop}

theorem block_setData (hwf : (t.dip i).WellFormed t.disk)
    (hbn : (t.dip i).block t.disk bn ≠ 0) {u : Fs}
    (hu : u = (t.setData ((t.dip i).block t.disk bn) x).logged c) :
    (u.dip i).block u.disk = (t.dip i).block t.disk := by
  subst hu
  refine Dinode.block_of_data fun _ => ?_
  exact Function.update_of_ne (hwf.notTable bn hbn).symm _ _

theorem SameBlocks.write (hwf : (t.dip i).WellFormed t.disk)
    (hbn : (t.dip i).block t.disk bn ≠ 0) {u : Fs}
    (hu : u = (t.setData ((t.dip i).block t.disk bn) x).logged c) : SameBlocks i t u := by
  refine ⟨block_setData hwf hbn hu, ?_, ?_, ?_⟩ <;> rw [hu] <;> rfl

/-- Only the data of one block of the file changes. -/
theorem Frame.write (h : Frame i s t) {u : Fs} (hs : SameBlocks i t u)
    (hbn : (t.dip i).block t.disk bn ≠ 0)
    (hu : u = (t.setData ((t.dip i).block t.disk bn) x).logged c) : Frame i s u := by
  have hdip : u.dip i = t.dip i := by
    rw [hu]
    rfl
  have hcache : u.icache = t.icache := by
    rw [hu]
    rfl
  refine ⟨hs.sb.trans h.sb, ?_, ?_, ?_, ?_, ?_, ?_, ?_, fun b hb hown => ?_⟩
  · rw [hu]
    exact h.user
  · rw [hu]
    exact h.io
  · rw [hcache]
    exact h.icache
  · rw [hcache, hdip]
    exact h.entry
  · rw [hdip]
    exact h.fields
  · rw [hu]
    exact h.dinode
  · rw [hs.bitmap]
    exact h.marked
  · obtain ⟨hnot, hdata⟩ := h.others b hb hown
    refine ⟨fun hhas => hnot ((hs.has b).mp hhas), ?_⟩
    rw [← hdata, hu]
    refine Function.update_of_ne ?_ _ _
    rintro rfl
    exact hnot (.of_block hbn)

/-- A block of the file is written. -/
theorem Asks.write (h : Asks i bns s t) (hbn : bn ∈ bns) {u : Fs}
    (hu : u = (t.setData ((t.dip i).block t.disk bn) x).logged c) : Asks i bns s u := by
  have hne := h.inside bn hbn
  have hs : SameBlocks i t u := .write h.wf hne hu
  have hdip : u.dip i = t.dip i := by
    rw [hu]
    rfl
  refine ⟨h.toFrame.write hs hne hu, hs.maps h.toMaps, hs.wellFormed h.wf ?_ ?_, ?_, ?_, ?_⟩
  · rw [hdip]
    exact h.wf.small
  · rw [hdip]
    exact h.wf.mapped
  · rw [hdip]
    exact h.size
  · rw [hdip]
    exact h.same
  · rw [hu]
    exact h.dinodes

/-- The bytes of the file when bytes of one of its blocks are written. -/
theorem byteAt_write (hwf : (t.dip i).WellFormed t.disk)
    (hbn : (t.dip i).block t.disk (off / BSIZE) ≠ 0) (hlen : bs.length ≤ BSIZE - off % BSIZE)
    {u : Fs} (hu : u = (t.setData ((t.dip i).block t.disk (off / BSIZE))
      ((t.disk.data ((t.dip i).block t.disk (off / BSIZE))).write (off % BSIZE) bs)).logged c) :
    (u.dip i).byteAt u.disk = patch ((t.dip i).byteAt t.disk) off bs := by
  have hblock := block_setData hwf hbn hu
  rw [BSIZE_eq] at hlen
  funext k
  by_cases hk : k / BSIZE = off / BSIZE
  · have hkne : (t.dip i).block t.disk (k / BSIZE) ≠ 0 := by
      rw [hk]
      exact hbn
    have hdata : u.disk.data ((t.dip i).block t.disk (k / BSIZE)) =
        (t.disk.data ((t.dip i).block t.disk (k / BSIZE))).write (off % BSIZE) bs := by
      rw [hk, hu]
      exact Function.update_self ..
    rw [byteAt_eq (by rw [hblock]; exact hkne), hblock, hdata,
      Block.char_write (Nat.mod_lt _ (by decide)), patch, patch, ← byteAt_eq hkne]
    rw [BSIZE_eq] at hk ⊢
    by_cases hle : off ≤ k
    · have hmod : k % 512 - off % 512 = k - off := by omega
      rw [if_pos hle, if_pos (by omega), hmod]
    · rw [if_neg hle, if_neg (by omega)]
  · have hout : patch ((t.dip i).byteAt t.disk) off bs k = (t.dip i).byteAt t.disk k := by
      rw [BSIZE_eq] at hk
      by_cases hlow : k < off
      · exact patch_of_lt hlow
      · exact patch_of_le (by omega)
    rw [hout, Dinode.byteAt, Dinode.byteAt, hblock]
    by_cases hzero : (t.dip i).block t.disk (k / BSIZE) = 0
    · rw [if_pos hzero, if_pos hzero]
    · have hne : (t.dip i).block t.disk (k / BSIZE) ≠ (t.dip i).block t.disk (off / BSIZE) :=
        fun heq => hk (hwf.distinct _ _ hzero heq)
      have hdata : u.disk.data ((t.dip i).block t.disk (k / BSIZE)) =
          t.disk.data ((t.dip i).block t.disk (k / BSIZE)) := by
        rw [hu]
        exact Function.update_of_ne hne _ _
      rw [if_neg hzero, if_neg hzero, hdata]

/-- Nothing is left to write. -/
theorem writeBlocks_done {Q : ℕ → Fs → Prop} (hwf : (s.dip i).WellFormed s.disk)
    (hnil : src = [])
    (hQ : ∀ t, Asks i (span off src.length) s t →
      (t.dip i).byteAt t.disk = patch ((s.dip i).byteAt s.disk) off src →
      s.log.Logs ((s.dip i).touched s.disk (span off src.length)) t.log →
      Q (off + src.length) t) : Q off s := by
  subst hnil
  refine hQ s (.here hwf fun bn hbn => absurd hbn List.not_mem_nil) patch_nil.symm ?_
  rw [List.length_nil, span_zero, Dinode.touched_nil]
  exact .refl

/-- The loop of `writei` patches the bytes of the file. -/
theorem wp_writeBlocks {Q : ℕ → Fs → Prop} (hok : s.disk.Ok)
    (hwf : (s.dip i).WellFormed s.disk) (hfuel : src.length ≤ fuel)
    (hend : off + src.length ≤ MAXFILE * BSIZE)
    (hroom : (s.dip i).need s.disk (span off src.length) ≤ s.disk.free.length)
    (hbudget : Budget U E s) (hU : (s.dip i).touched s.disk (span off src.length) ⊆ U)
    (hQ : ∀ t, Asks i (span off src.length) s t →
      (t.dip i).byteAt t.disk = patch ((s.dip i).byteAt s.disk) off src →
      s.log.Logs ((s.dip i).touched s.disk (span off src.length)) t.log →
      Q (off + src.length) t) :
    wp (FsM.writeBlocks i fuel off src) Q E s := by
  induction fuel generalizing s off src with
  | zero =>
      have hnil : src = [] := List.length_eq_zero_iff.mp (Nat.le_zero.mp hfuel)
      exact wp_pure.mpr (writeBlocks_done hwf hnil hQ)
  | succ fuel ih =>
      rw [FsM.writeBlocks, wp_ite]
      refine ⟨fun hnil => wp_pure.mpr (writeBlocks_done hwf hnil hQ), fun hne => ?_⟩
      have hpos : src.length ≠ 0 := fun hzero => hne (List.length_eq_zero_iff.mp hzero)
      have hm : 0 < min src.length (BSIZE - off % BSIZE) := by
        rw [BSIZE_eq]
        omega
      have hle : min src.length (BSIZE - off % BSIZE) ≤ src.length := Nat.min_le_left _ _
      have hmax : min src.length (BSIZE - off % BSIZE) ≤ BSIZE - off % BSIZE :=
        Nat.min_le_right _ _
      have hspan : span off src.length = _ := span_cons hpos
      have hnodup : (span off src.length).Nodup := nodup_span
      generalize min src.length (BSIZE - off % BSIZE) = m at hm hle hmax hspan ⊢
      have htake : (src.take m).length = m := by
        rw [List.length_take, Nat.min_eq_left hle]
      have hdrop : (src.drop m).length = src.length - m := List.length_drop
      have hlast : off + m + (src.drop m).length = off + src.length := by omega
      rw [hspan, ← hdrop] at hroom hU hQ hnodup
      have hin : off / BSIZE < MAXFILE := by
        rw [MAXFILE_eq, BSIZE_eq] at *
        omega
      rw [wp_bind]
      refine wp_bmap hok hwf hin (Dinode.need_head.trans hroom) hbudget (Dinode.touched_head.trans hU)
        fun t hasks hbytes hnoted => ?_
      obtain ⟨T, hT, hTmem⟩ := hnoted
      obtain ⟨u, hu⟩ : ∃ u, u = (t.setData ((t.dip i).block t.disk (off / BSIZE))
        ((t.disk.data ((t.dip i).block t.disk (off / BSIZE))).write (off % BSIZE)
          (src.take m))).logged ((t.dip i).block t.disk (off / BSIZE)) := ⟨_, rfl⟩
      have hblock := hasks.inside (off / BSIZE) (List.mem_singleton_self _)
      have hwrite := hasks.write (List.mem_singleton_self _) hu
      have hbytes' := byteAt_write hasks.wf hblock (by rw [htake]; exact hmax) hu
      have hlogs : s.log.Logs ((s.dip i).touched s.disk [off / BSIZE]) u.log := by
        have hone : t.log.Logs {(t.dip i).block t.disk (off / BSIZE)} u.log := by
          rw [hu]
          exact .one
        rw [← hTmem, Finset.insert_eq, Finset.union_comm]
        exact hT.trans hone
      have hcons := hwrite.need_cons hnodup
      have htouched := hwrite.touched_cons hnodup
      have hbudget' := hbudget.logs hT ((Finset.subset_insert _ _).trans
        (hTmem.subset.trans (Dinode.touched_head.trans hU))) hasks.sb
      rw [wp_bind, wp_modify, wp_bind]
      refine wp_logWrite ⟨hbudget'.outstanding, hbudget'.room⟩ ?_
      rw [htouched] at hU
      rw [← hu]
      refine ih (hwrite.ok hok) hwrite.wf (by omega) (by omega) ?_
        (hbudget.logs hlogs (Finset.union_subset_left hU) hwrite.sb)
        (Finset.union_subset_right hU) fun v hv hvbytes hvlogs => ?_
      · have hleft : (s.disk.free.drop ((s.dip i).need s.disk [off / BSIZE])).length =
            s.disk.free.length - (s.dip i).need s.disk [off / BSIZE] := List.length_drop
        rw [hwrite.free]
        omega
      · rw [hlast]
        refine hQ v (hwrite.cons hv hnodup) ?_ ?_
        · have hpatch : patch ((s.dip i).byteAt s.disk) off (src.take m ++ src.drop m) = _ :=
            patch_append
          rw [List.take_append_drop, htake] at hpatch
          rw [hvbytes, hbytes', hbytes, hpatch]
        · rw [htouched]
          exact hlogs.trans hvlogs

end Write

end Fs

end Xv6
