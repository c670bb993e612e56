import Xv6.Fs.Content

/-!
# How much is logged

How many sectors a call of `writei` logs: the blocks that it writes, the bitmap blocks of those
that it allocates, the indirect block when an entry of it is set, and the block of the inode when
the file grows. Whatever is logged, the header of the log does not get too long.
-/

namespace Xv6

open Foundation

/-- A block behind the indirect block is written that the file does not have. -/
def Dinode.AddsEntry (d : Dinode) (disk : FsDisk) (bns : List ℕ) : Prop :=
  ∃ bn ∈ bns, NDIRECT ≤ bn ∧ d.block disk bn = 0

instance (d : Dinode) (disk : FsDisk) (bns : List ℕ) : Decidable (d.AddsEntry disk bns) :=
  inferInstanceAs (Decidable (∃ bn ∈ bns, _ ∧ _))

/-- The blocks of the bitmap in which the next `k` blocks that are free have their bits. -/
def FsDisk.bitmapBlocks (disk : FsDisk) (k : ℕ) : Finset ℕ :=
  ((disk.free.take k).map fun b => BBLOCK b disk.sb.ninodes).toFinset

namespace Fs

section Count

variable {i : Fin NINODE} {s : Fs} {off n : ℕ} {bns : List ℕ}

theorem ite_le_one {p : Prop} [Decidable p] : (if p then 1 else 0) ≤ 1 := by
  split
  · exact Nat.le_refl _
  · exact Nat.zero_le _

theorem free_nodup {disk : FsDisk} : disk.free.Nodup := List.nodup_range.filter _

/-- The number of blocks that are there, or are to be allocated. -/
theorem need_add_mapped :
    ((bns.map ((s.dip i).block s.disk)).filter (· ≠ 0)).length + (s.dip i).need s.disk bns =
      bns.length + if (s.dip i).table = 0 ∧ ∃ bn ∈ bns, NDIRECT ≤ bn then 1 else 0 := by
  have hfilter : ((bns.map ((s.dip i).block s.disk)).filter (· ≠ 0)).length =
      (bns.filter fun bn => ! decide ((s.dip i).block s.disk bn = 0)).length := by
    rw [List.filter_map, List.length_map]
    congr 1
    refine List.filter_congr fun bn _ => ?_
    simp
  have hsplit := List.length_eq_length_filter_add
    (l := bns) fun bn => decide ((s.dip i).block s.disk bn = 0)
  rw [hfilter, Dinode.need]
  omega

/-- Without an indirect block there are no blocks behind it. -/
theorem addsEntry_iff : (s.dip i).AddsEntry s.disk bns ↔
    ((s.dip i).table = 0 ∧ ∃ bn ∈ bns, NDIRECT ≤ bn) ∨
      ((s.dip i).table ≠ 0 ∧ ∃ bn ∈ bns, NDIRECT ≤ bn ∧ (s.dip i).block s.disk bn = 0) := by
  constructor
  · rintro ⟨bn, hbn, hle, hmiss⟩
    by_cases ht : (s.dip i).table = 0
    · exact .inl ⟨ht, bn, hbn, hle⟩
    · exact .inr ⟨ht, bn, hbn, hle, hmiss⟩
  · rintro (⟨ht, bn, hbn, hle⟩ | ⟨-, hmiss⟩)
    · exact ⟨bn, hbn, hle, Dinode.block_of_not_table hle ht⟩
    · exact hmiss

variable (hok : s.disk.Ok) (hwf : (s.dip i).WellFormed s.disk)

include hwf in
/-- The blocks that are there are different. -/
theorem mapped_nodup (hbns : bns.Nodup) :
    ((bns.map ((s.dip i).block s.disk)).filter (· ≠ 0)).Nodup := by
  rw [List.filter_map]
  refine List.Nodup.map_on ?_ (hbns.filter _)
  intro m hm n hn heq
  have hne : (s.dip i).block s.disk m ≠ 0 := of_decide_eq_true (List.mem_filter.mp hm).2
  exact hwf.distinct m n hne heq

include hok in
/-- A bitmap block is not a data block. -/
theorem bitmapBlocks_not_data {k b : ℕ} (hb : b ∈ s.disk.bitmapBlocks k) : ¬ s.disk.sb.IsData b := by
  obtain ⟨c, hc, rfl⟩ := List.mem_map.mp (List.mem_toFinset.mp hb)
  have hsize := (hok.isData (List.mem_of_mem_take hc)).other.2.2.2.2.1
  exact fun hdata => hdata.other.2.2.2.1 c hsize rfl

include hok in
/-- There are no more than the disk has. -/
theorem bitmapBlocks_card_le {k : ℕ} :
    (s.disk.bitmapBlocks k).card ≤ s.disk.sb.size / BPB + 1 := by
  have hsub : s.disk.bitmapBlocks k ⊆
      (Finset.range (s.disk.sb.size / BPB + 1)).image (· + s.disk.sb.ninodes / IPB + 3) := by
    intro c hc
    obtain ⟨b, hb, rfl⟩ := List.mem_map.mp (List.mem_toFinset.mp hc)
    have hlt := (hok.isData (List.mem_of_mem_take hb)).other.2.2.2.2.1
    exact Finset.mem_image.mpr ⟨b / BPB,
      Finset.mem_range.mpr (Nat.lt_succ_of_le (Nat.div_le_div_right hlt.le)), rfl⟩
  exact (Finset.card_le_card hsub).trans
    (Finset.card_image_le.trans (Finset.card_range _).le)

include hok hwf in
theorem touched_card (hbns : bns.Nodup)
    (hroom : (s.dip i).need s.disk bns ≤ s.disk.free.length) :
    ((s.dip i).touched s.disk bns).card =
      bns.length + (s.disk.bitmapBlocks ((s.dip i).need s.disk bns)).card +
        if (s.dip i).AddsEntry s.disk bns then 1 else 0 := by
  have hmapped : ∀ b ∈ ((bns.map ((s.dip i).block s.disk)).filter (· ≠ 0)).toFinset,
      (s.dip i).Has s.disk b ∧ b ≠ (s.dip i).table := by
    intro b hb
    obtain ⟨hmem, hne⟩ := List.mem_filter.mp (List.mem_toFinset.mp hb)
    obtain ⟨bn, -, rfl⟩ := List.mem_map.mp hmem
    have hbn : (s.dip i).block s.disk bn ≠ 0 := of_decide_eq_true hne
    exact ⟨.of_block hbn, hwf.notTable bn hbn⟩
  have hnew : ∀ b ∈ ((s.dip i).newBlocks s.disk bns).toFinset,
      s.disk.sb.IsData b ∧ s.disk.bitmap b = false := by
    intro b hb
    have hfree := List.mem_of_mem_take (List.mem_toFinset.mp hb)
    exact ⟨hok.isData hfree, (FsDisk.mem_free.mp hfree).2⟩
  have hbits : ((s.dip i).newBlocks s.disk bns ++
      ((s.dip i).newBlocks s.disk bns).map fun b => BBLOCK b s.disk.sb.ninodes).toFinset =
      ((s.dip i).newBlocks s.disk bns).toFinset ∪
        s.disk.bitmapBlocks ((s.dip i).need s.disk bns) := List.toFinset_append
  have hfirst : Disjoint ((s.dip i).newBlocks s.disk bns).toFinset
      (s.disk.bitmapBlocks ((s.dip i).need s.disk bns)) :=
    Finset.disjoint_left.mpr fun b hb hb' => bitmapBlocks_not_data hok hb' (hnew b hb).1
  have hsecond : Disjoint ((bns.map ((s.dip i).block s.disk)).filter (· ≠ 0)).toFinset
      (((s.dip i).newBlocks s.disk bns).toFinset ∪
        s.disk.bitmapBlocks ((s.dip i).need s.disk bns)) := by
    refine Finset.disjoint_left.mpr fun b hb hb' => ?_
    obtain ⟨hhas, -⟩ := hmapped b hb
    rcases Finset.mem_union.mp hb' with hb' | hb'
    · cases (hnew b hb').2.symm.trans (hwf.used b hhas)
    · exact bitmapBlocks_not_data hok hb' (hwf.isData b hhas)
  have hnewCard : ((s.dip i).newBlocks s.disk bns).toFinset.card =
      (s.dip i).need s.disk bns := by
    rw [Dinode.newBlocks, List.toFinset_card_of_nodup (free_nodup.sublist (List.take_sublist _ _)),
      List.length_take, Nat.min_eq_left hroom]
  have hmappedCard := List.toFinset_card_of_nodup (mapped_nodup hwf hbns)
  have hcount : ((bns.map ((s.dip i).block s.disk)).filter (· ≠ 0)).length +
      (s.dip i).need s.disk bns = _ := need_add_mapped
  rw [Dinode.touched, hbits]
  by_cases htable : (s.dip i).table ≠ 0 ∧
      ∃ bn ∈ bns, NDIRECT ≤ bn ∧ (s.dip i).block s.disk bn = 0
  · have hown := hwf.used _ (.of_table htable.1)
    have hthird : Disjoint (((bns.map ((s.dip i).block s.disk)).filter (· ≠ 0)).toFinset ∪
        (((s.dip i).newBlocks s.disk bns).toFinset ∪
          s.disk.bitmapBlocks ((s.dip i).need s.disk bns))) {(s.dip i).table} := by
      rw [Finset.disjoint_singleton_right]
      intro hmem
      rcases Finset.mem_union.mp hmem with hmem | hmem
      · exact (hmapped _ hmem).2 rfl
      · rcases Finset.mem_union.mp hmem with hmem | hmem
        · cases (hnew _ hmem).2.symm.trans hown
        · exact bitmapBlocks_not_data hok hmem (hwf.isData _ (.of_table htable.1))
    rw [if_neg fun hc => htable.1 hc.1] at hcount
    rw [if_pos htable, if_pos (addsEntry_iff.mpr (.inr htable)),
      Finset.card_union_of_disjoint hthird, Finset.card_union_of_disjoint hsecond,
      Finset.card_union_of_disjoint hfirst, hmappedCard, hnewCard, Finset.card_singleton]
    omega
  · rw [if_neg htable, Finset.union_empty, Finset.card_union_of_disjoint hsecond,
      Finset.card_union_of_disjoint hfirst, hmappedCard, hnewCard]
    by_cases hadds : (s.dip i).AddsEntry s.disk bns
    · rw [if_pos ((addsEntry_iff.mp hadds).resolve_right htable)] at hcount
      rw [if_pos hadds]
      omega
    · rw [if_neg fun hc => hadds (addsEntry_iff.mpr (.inl hc))] at hcount
      rw [if_neg hadds]
      omega

include hok hwf in
/-- The number of sectors that `writei` logs. -/
theorem writes_card (hinum : (s.icache i).inum < s.disk.sb.ninodes)
    (hroom : (s.dip i).need s.disk (span off n) ≤ s.disk.free.length) :
    (s.writes i off n).card = (span off n).length +
      (s.disk.bitmapBlocks ((s.dip i).need s.disk (span off n))).card +
      (if (s.dip i).AddsEntry s.disk (span off n) then 1 else 0) +
      if 0 < n ∧ (s.dip i).size < off + n then 1 else 0 := by
  have hinode : IBLOCK (s.icache i).inum ∉ (s.dip i).touched s.disk (span off n) := by
    have hother : ∀ b, s.disk.sb.IsData b → IBLOCK (s.icache i).inum ≠ b :=
      fun b hb => (hb.other.2.2.1 _ hinum).symm
    intro hmem
    rcases Dinode.mem_touched.mp hmem with ⟨bn, -, hne, hb⟩ | hb | ⟨a, -, hb⟩ | ⟨hb, ht, -⟩
    · exact hother _ (hwf.isData _ (.of_block hne)) hb
    · exact hother _ (hok.isData (List.mem_of_mem_take hb)) rfl
    · have hle : (s.icache i).inum / IPB ≤ s.disk.sb.ninodes / IPB :=
        Nat.div_le_div_right hinum.le
      have hpos := Nat.zero_le (a / BPB)
      unfold IBLOCK BBLOCK at hb
      omega
    · exact hother _ (hwf.isData _ (.of_table ht)) hb
  rw [writes]
  by_cases hgrow : 0 < n ∧ (s.dip i).size < off + n
  · rw [if_pos hgrow, if_pos hgrow, Finset.card_union_of_disjoint
      (Finset.disjoint_singleton_right.mpr hinode), touched_card hok hwf nodup_span hroom,
      Finset.card_singleton]
  · rw [if_neg hgrow, if_neg hgrow, Finset.union_empty, touched_card hok hwf nodup_span hroom]
    rfl

end Count

section Fits

variable {i : Fin NINODE} {s : Fs} {off bn c fuel : ℕ} {src : List UInt8}

/-! The header of the log never has more than `LOGSIZE` sectors. -/

theorem fits_logWrite {Q : Unit → Fs → Prop} (h : s.log.lh.length ≤ LOGSIZE)
    (hQ : ∀ t : Fs, t.log.lh.length ≤ LOGSIZE → Q ⟨⟩ t) :
    wp (FsM.logWrite c) Q (fun _ => True) s := by
  unfold FsM.logWrite FsM.panic
  rw [wp_bind, wp_get, wp_ite]
  refine ⟨fun _ => wp_throw.mpr trivial, fun hfit => ?_⟩
  rw [wp_ite]
  refine ⟨fun _ => wp_throw.mpr trivial, fun _ => wp_set.mpr (hQ _ ?_)⟩
  unfold FsLog.write
  by_cases hc : c ∈ s.log.lh
  · simp only [if_pos hc]
    exact h
  · simp only [if_neg hc, List.length_append, List.length_singleton]
    omega

theorem fits_balloc {Q : ℕ → Fs → Prop} (h : s.log.lh.length ≤ LOGSIZE)
    (hQ : ∀ b, ∀ t : Fs, t.log.lh.length ≤ LOGSIZE → Q b t) :
    wp FsM.balloc Q (fun _ => True) s := by
  unfold FsM.balloc FsM.bzero FsM.panic
  rw [wp_bind, wp_get]
  cases (List.range s.disk.sb.size).find? fun b => !s.disk.bitmap b with
  | none => exact wp_throw.mpr trivial
  | some b =>
      rw [wp_bind, wp_set, wp_bind]
      refine fits_logWrite h fun t ht => ?_
      rw [wp_bind, wp_bind, wp_modify]
      exact fits_logWrite ht fun u hu => wp_pure.mpr (hQ b u hu)

theorem fits_bmap {Q : ℕ → Fs → Prop} (h : s.log.lh.length ≤ LOGSIZE)
    (hQ : ∀ b, ∀ t : Fs, t.log.lh.length ≤ LOGSIZE → Q b t) :
    wp (FsM.bmap i bn) Q (fun _ => True) s := by
  unfold FsM.bmap FsM.bmapTable FsM.panic
  rw [wp_bind, wp_ip, wp_ite]
  refine ⟨fun _ => ?_, fun _ => ?_⟩
  · rw [wp_ite]
    refine ⟨fun _ => ?_, fun _ => wp_pure.mpr (hQ _ s h)⟩
    rw [wp_bind]
    refine fits_balloc h fun b t ht => ?_
    rw [wp_bind, wp_ip, wp_bind, wp_setIp]
    exact wp_pure.mpr (hQ b _ ht)
  · rw [wp_ite]
    refine ⟨fun _ => ?_, fun _ => wp_throw.mpr trivial⟩
    have hentry : ∀ (table : ℕ) (t : Fs), t.log.lh.length ≤ LOGSIZE → wp (do
        let s ← get
        if (s.disk.data table).word (bn - NDIRECT) = 0 then do
          let addr ← FsM.balloc
          modify fun s => s.setData table ((s.disk.data table).setWord (bn - NDIRECT) addr)
          FsM.logWrite table
          return addr
        else return (s.disk.data table).word (bn - NDIRECT)) Q (fun _ => True) t := by
      intro table t ht
      rw [wp_bind, wp_get, wp_ite]
      refine ⟨fun _ => ?_, fun _ => wp_pure.mpr (hQ _ t ht)⟩
      rw [wp_bind]
      refine fits_balloc ht fun b u hu => ?_
      rw [wp_bind, wp_modify, wp_bind]
      exact fits_logWrite hu fun v hv => wp_pure.mpr (hQ b v hv)
    rw [wp_bind, wp_bind, wp_ip, wp_ite]
    refine ⟨fun _ => ?_, fun _ => wp_pure.mpr (hentry _ s h)⟩
    rw [wp_bind]
    refine fits_balloc h fun b t ht => ?_
    rw [wp_bind, wp_ip, wp_bind, wp_setIp]
    exact wp_pure.mpr (hentry b _ ht)

theorem fits_writeBlocks {Q : ℕ → Fs → Prop} (h : s.log.lh.length ≤ LOGSIZE)
    (hQ : ∀ n, ∀ t : Fs, t.log.lh.length ≤ LOGSIZE → Q n t) :
    wp (FsM.writeBlocks i fuel off src) Q (fun _ => True) s := by
  induction fuel generalizing s off src with
  | zero => exact wp_pure.mpr (hQ _ s h)
  | succ fuel ih =>
      rw [FsM.writeBlocks, wp_ite]
      refine ⟨fun _ => wp_pure.mpr (hQ _ s h), fun _ => ?_⟩
      rw [wp_bind]
      refine fits_bmap h fun b t ht => ?_
      rw [wp_bind, wp_modify, wp_bind]
      exact fits_logWrite ht fun u hu => ih hu

theorem fits_writei {Q : ℤ → Fs → Prop} (h : s.log.lh.length ≤ LOGSIZE)
    (htype : (s.dip i).type ≠ T_DEV)
    (hQ : ∀ r, ∀ t : Fs, t.log.lh.length ≤ LOGSIZE → Q r t) :
    wp (FsM.writei i src off) Q (fun _ => True) s := by
  unfold FsM.writei
  rw [wp_bind, wp_ip]
  change wp (if (s.dip i).type = T_DEV then _ else _) _ _ s
  rw [if_neg htype, wp_ite]
  refine ⟨fun _ => wp_pure.mpr (hQ _ s h), fun _ => ?_⟩
  rw [wp_ite]
  refine ⟨fun _ => wp_pure.mpr (hQ _ s h), fun _ => ?_⟩
  rw [wp_bind]
  refine fits_writeBlocks h fun n t ht => ?_
  unfold FsM.iupdate
  rw [wp_bind, wp_ip, wp_bind, wp_when]
  refine ⟨fun _ => ?_, fun _ => wp_pure.mpr (hQ _ t ht)⟩
  rw [wp_bind, wp_setIp, wp_bind, wp_ip, wp_bind, wp_modify]
  exact fits_logWrite ht fun u hu => wp_pure.mpr (hQ _ u hu)

end Fits

end Fs

end Xv6
