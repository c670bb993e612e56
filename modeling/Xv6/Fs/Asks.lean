import Xv6.Fs.Extend

/-!
# Files with the blocks that were asked for

For a list of block numbers, `Asks` says what the file and the disk are like after `bmap` has
been asked for them one after the other, and which blocks the file has taken for that.
-/

namespace Xv6

namespace Dinode

/-- The blocks with these numbers are in the file, which has taken free blocks for those that were
not. -/
structure Maps (bns : List ℕ) (disk disk' : FsDisk) (d e : Dinode) : Prop where
  free : disk'.free = disk.free.drop (d.need disk bns)
  inside : ∀ bn ∈ bns, e.block disk' bn ≠ 0
  kept : ∀ bn, d.block disk bn ≠ 0 → e.block disk' bn = d.block disk bn
  outside : ∀ bn, bn ∉ bns → e.block disk' bn = d.block disk bn
  tableKept : d.table ≠ 0 → e.table = d.table
  tableNew : d.table = 0 → e.table ≠ 0 →
    (∃ bn ∈ bns, NDIRECT ≤ bn) ∧ e.table ∈ d.newBlocks disk bns

section Maps

variable {d e : Dinode} {disk disk' : FsDisk} {bn : ℕ} {bns : List ℕ}

theorem need_eq_zero (h : ∀ bn ∈ bns, d.block disk bn ≠ 0) :
    d.need disk bns = 0 := by
  have hnone : (bns.filter fun bn => d.block disk bn = 0) = [] :=
    List.filter_eq_nil_iff.mpr fun bn hbn hzero => h bn hbn (of_decide_eq_true hzero)
  rw [need, hnone, if_neg]
  · rfl
  · rintro ⟨ht, bn, hbn, hle⟩
    exact h bn hbn (block_of_not_table hle ht)

theorem touched_nil : d.touched disk [] = ∅ := by
  refine Finset.eq_empty_of_forall_notMem fun c hc => ?_
  rw [mem_touched, newBlocks, need_eq_zero fun bn hbn => absurd hbn List.not_mem_nil,
    List.take_zero] at hc
  rcases hc with ⟨m, hm, -⟩ | hc | ⟨a, ha, -⟩ | ⟨-, -, m, hm, -⟩
  · exact absurd hm List.not_mem_nil
  · exact absurd hc List.not_mem_nil
  · exact absurd ha List.not_mem_nil
  · exact absurd hm List.not_mem_nil

/-- Fewer blocks need less. -/
theorem need_le_of_subset {cs : List ℕ} (hcs : cs.Nodup)
    (hsub : cs ⊆ bns) : d.need disk cs ≤ d.need disk bns := by
  have hfilter : (cs.filter fun m => d.block disk m = 0).length ≤
      (bns.filter fun m => d.block disk m = 0).length := by
    refine ((hcs.filter _).subperm fun m hm => ?_).length_le
    obtain ⟨hmem, hmiss⟩ := List.mem_filter.mp hm
    exact List.mem_filter.mpr ⟨hsub hmem, hmiss⟩
  refine Nat.add_le_add hfilter ?_
  by_cases hcase : d.table = 0 ∧ ∃ m ∈ cs, NDIRECT ≤ m
  · obtain ⟨ht, m, hm, hle⟩ := hcase
    rw [if_pos ⟨ht, m, hm, hle⟩, if_pos ⟨ht, m, hsub hm, hle⟩]
  · rw [if_neg hcase]
    exact Nat.zero_le _

theorem need_head : d.need disk [bn] ≤ d.need disk (bn :: bns) :=
  need_le_of_subset (List.nodup_singleton bn)
    fun _ hm => List.mem_singleton.mp hm ▸ List.mem_cons_self

theorem touched_head :
    d.touched disk [bn] ⊆ d.touched disk (bn :: bns) := by
  have hnew : d.newBlocks disk [bn] ⊆ d.newBlocks disk (bn :: bns) :=
    (List.take_prefix_take_left need_head).subset
  intro c hc
  rw [mem_touched] at hc ⊢
  rcases hc with ⟨m, hm, hc⟩ | hc | ⟨a, ha, hc⟩ | ⟨hc, ht, m, hm, hrest⟩
  · exact .inl ⟨m, List.mem_singleton.mp hm ▸ List.mem_cons_self, hc⟩
  · exact .inr (.inl (hnew hc))
  · exact .inr (.inr (.inl ⟨a, hnew ha, hc⟩))
  · exact .inr (.inr (.inr ⟨hc, ht, m, List.mem_singleton.mp hm ▸ List.mem_cons_self, hrest⟩))

/-- A block that is there needs nothing. -/
theorem need_cons_mapped (h : d.block disk bn ≠ 0) :
    d.need disk (bn :: bns) = d.need disk bns := by
  have hfilter : ((bn :: bns).filter fun m => d.block disk m = 0) =
      bns.filter fun m => d.block disk m = 0 := List.filter_cons_of_neg (by simp [h])
  have htable : (d.table = 0 ∧ ∃ m ∈ bn :: bns, NDIRECT ≤ m) ↔
      (d.table = 0 ∧ ∃ m ∈ bns, NDIRECT ≤ m) := by
    refine and_congr_right fun ht => ⟨?_, ?_⟩
    · rintro ⟨m, hm, hle⟩
      rcases List.mem_cons.mp hm with rfl | hm
      · exact absurd (block_of_not_table hle ht) h
      · exact ⟨m, hm, hle⟩
    · rintro ⟨m, hm, hle⟩
      exact ⟨m, List.mem_cons_of_mem _ hm, hle⟩
  rw [need, need, hfilter]
  exact congrArg _ (if_congr htable rfl rfl)

theorem Maps.table_ne (h : Maps bns disk disk' d e) (hbn : bn ∈ bns) (hle : NDIRECT ≤ bn) :
    e.table ≠ 0 :=
  fun ht => h.inside bn hbn (block_of_not_table hle ht)

theorem table_zero_of (h : Maps bns disk disk' d e) (ht : d.table = 0)
    (hnone : ∀ m ∈ bns, ¬ NDIRECT ≤ m) : e.table = 0 := by
  by_contra hne
  obtain ⟨⟨m, hm, hle⟩, -⟩ := h.tableNew ht hne
  exact hnone m hm hle

/-- What the rest needs after some of the blocks. -/
theorem Maps.need_sub {cs : List ℕ} (h : Maps cs disk disk' d e) (hcs : cs.Nodup) (hbns : bns.Nodup)
    (hsub : cs ⊆ bns) :
    d.need disk bns = d.need disk cs + e.need disk' bns := by
  have hin : (bns.filter fun m => d.block disk m = 0 ∧ m ∈ cs).length =
      (cs.filter fun m => d.block disk m = 0).length := by
    refine List.Perm.length_eq ?_
    refine (List.perm_ext_iff_of_nodup (hbns.filter _) (hcs.filter _)).mpr fun m => ?_
    simp only [List.mem_filter, decide_eq_true_eq]
    exact ⟨fun ⟨_, hmiss, hm⟩ => ⟨hm, hmiss⟩, fun ⟨hm, hmiss⟩ => ⟨hsub hm, hmiss, hm⟩⟩
  have hout : (bns.filter fun m => e.block disk' m = 0) =
      bns.filter fun m => d.block disk m = 0 ∧ m ∉ cs := by
    refine List.filter_congr fun m _ => decide_eq_decide.mpr ?_
    by_cases hm : m ∈ cs
    · exact ⟨fun hzero => absurd hzero (h.inside m hm), fun hc => absurd hm hc.2⟩
    · rw [h.outside m hm]
      exact ⟨fun hzero => ⟨hzero, hm⟩, fun hc => hc.1⟩
  have hsplit : (bns.filter fun m => d.block disk m = 0).length =
      (bns.filter fun m => d.block disk m = 0 ∧ m ∈ cs).length +
        (bns.filter fun m => d.block disk m = 0 ∧ m ∉ cs).length := by
    have hparts := List.length_eq_length_filter_add
      (l := bns.filter fun m => d.block disk m = 0) fun m => decide (m ∈ cs)
    rw [hparts, List.filter_filter, List.filter_filter]
    congr 2
    · refine List.filter_congr fun m _ => ?_
      rw [Bool.decide_and, Bool.and_comm]
    · refine List.filter_congr fun m _ => ?_
      rw [Bool.decide_and, Bool.and_comm, decide_not]
  have htable : (if d.table = 0 ∧ ∃ m ∈ bns, NDIRECT ≤ m then 1 else 0) =
      (if d.table = 0 ∧ ∃ m ∈ cs, NDIRECT ≤ m then 1 else 0) +
        if e.table = 0 ∧ ∃ m ∈ bns, NDIRECT ≤ m then 1 else 0 := by
    by_cases ht : d.table = 0
    · by_cases hle : ∃ m ∈ cs, NDIRECT ≤ m
      · obtain ⟨m, hm, hlem⟩ := hle
        have ht' := h.table_ne hm hlem
        rw [if_pos ⟨ht, m, hsub hm, hlem⟩, if_pos ⟨ht, m, hm, hlem⟩, if_neg fun hc => ht' hc.1]
      · have ht' := table_zero_of h ht fun m hm hlem => hle ⟨m, hm, hlem⟩
        rw [if_neg (c := d.table = 0 ∧ ∃ m ∈ cs, NDIRECT ≤ m) fun hc => hle hc.2,
          Nat.zero_add, ht, ht']
    · rw [if_neg fun hc => ht hc.1, if_neg fun hc => ht hc.1,
        if_neg fun hc => ht ((h.tableKept ht).symm.trans hc.1)]
  rw [need, need, need, hout, hsplit, hin, htable]
  omega

end Maps

end Dinode

namespace Fs

structure Asks (i : Fin NINODE) (bns : List ℕ) (s t : Fs) : Prop
    extends Frame i s t, Dinode.Maps bns s.disk t.disk (s.dip i) (t.dip i) where
  wf : (t.dip i).WellFormed t.disk
  size : (t.dip i).size = (s.dip i).size
  same : (t.dip i).addrs = (s.dip i).addrs ∨ ∃ bn ∈ bns, (s.dip i).block s.disk bn = 0
  dinodes : t.disk.dinode = s.disk.dinode

section Asks

variable {i : Fin NINODE} {s t u : Fs} {b bn : ℕ} {bns : List ℕ}

/-- The blocks are there already. -/
theorem Asks.here (hwf : (s.dip i).WellFormed s.disk)
    (h : ∀ bn ∈ bns, (s.dip i).block s.disk bn ≠ 0) : Asks i bns s s where
  toFrame := .refl
  wf := hwf
  size := rfl
  same := .inl rfl
  free := by
    rw [Dinode.need_eq_zero h, List.drop_zero]
  inside := h
  kept := fun _ _ => rfl
  outside := fun _ _ => rfl
  tableKept := fun _ => rfl
  tableNew := fun ht ht' => absurd ht ht'
  dinodes := rfl

/-- After the file has taken the block with one number. -/
theorem Asks.of_block (hframe : Frame i s t) (hwf : (t.dip i).WellFormed t.disk)
    (hsize : (t.dip i).size = (s.dip i).size) (hdinode : t.disk.dinode = s.disk.dinode)
    (hb : b ≠ 0) (hmiss : (s.dip i).block s.disk bn = 0)
    (hblock : (t.dip i).block t.disk = Function.update ((s.dip i).block s.disk) bn b)
    (hfree : t.disk.free = s.disk.free.drop ((s.dip i).need s.disk [bn]))
    (hkept : (s.dip i).table ≠ 0 → (t.dip i).table = (s.dip i).table)
    (hnew : (s.dip i).table = 0 → (t.dip i).table ≠ 0 →
      NDIRECT ≤ bn ∧ (t.dip i).table ∈ (s.dip i).newBlocks s.disk [bn]) :
    Asks i [bn] s t where
  toFrame := hframe
  wf := hwf
  size := hsize
  same := .inr ⟨bn, List.mem_singleton_self bn, hmiss⟩
  free := hfree
  inside := fun m hm => by
    rw [List.mem_singleton.mp hm, hblock, Function.update_self]
    exact hb
  kept := fun m hm => by
    rw [hblock, Function.update_of_ne]
    rintro rfl
    exact hm hmiss
  outside := fun m hm => by
    rw [hblock, Function.update_of_ne]
    exact fun h => hm (List.mem_singleton.mpr h)
  tableKept := hkept
  tableNew := fun ht ht' =>
    ⟨⟨bn, List.mem_singleton_self bn, (hnew ht ht').1⟩, (hnew ht ht').2⟩
  dinodes := hdinode

/-- What the rest needs after the first. -/
theorem Asks.need_cons (h : Asks i [bn] s t) (hbns : (bn :: bns).Nodup) :
    (s.dip i).need s.disk (bn :: bns) =
      (s.dip i).need s.disk [bn] + (t.dip i).need t.disk bns := by
  rw [h.toMaps.need_sub (List.nodup_singleton bn) hbns fun _ hm =>
    List.mem_singleton.mp hm ▸ List.mem_cons_self,
    Dinode.need_cons_mapped (h.inside bn (List.mem_singleton_self bn))]

theorem Asks.newBlocks_cons (h : Asks i [bn] s t) (hbns : (bn :: bns).Nodup) :
    (s.dip i).newBlocks s.disk (bn :: bns) =
      (s.dip i).newBlocks s.disk [bn] ++ (t.dip i).newBlocks t.disk bns := by
  rw [Dinode.newBlocks, Dinode.newBlocks, Dinode.newBlocks, h.need_cons hbns, h.free,
    List.take_add]

/-- One number and then the others. -/
theorem Asks.cons (h : Asks i [bn] s t) (h' : Asks i bns t u) (hbns : (bn :: bns).Nodup) :
    Asks i (bn :: bns) s u where
  toFrame := h.toFrame.trans h'.toFrame
  wf := h'.wf
  size := h'.size.trans h.size
  same := by
    rcases h.same with hsame | ⟨m, hm, hmiss⟩
    · rcases h'.same with hsame' | ⟨m, hm, hmiss⟩
      · exact .inl (hsame'.trans hsame)
      · refine .inr ⟨m, List.mem_cons_of_mem _ hm, ?_⟩
        rw [← h.outside m]
        · exact hmiss
        · exact fun hmem => (List.nodup_cons.mp hbns).1 (List.mem_singleton.mp hmem ▸ hm)
    · exact .inr ⟨m, List.mem_singleton.mp hm ▸ List.mem_cons_self, hmiss⟩
  free := by
    rw [h'.free, h.free, List.drop_drop, h.need_cons hbns]
  inside := fun m hm => by
    rcases List.mem_cons.mp hm with rfl | hm
    · have hin := h.inside m (List.mem_singleton_self m)
      rw [h'.kept m hin]
      exact hin
    · exact h'.inside m hm
  kept := fun m hm => by
    have hkept := h.kept m hm
    rw [h'.kept m (by rw [hkept]; exact hm), hkept]
  outside := fun m hm => by
    rw [h'.outside m fun hmem => hm (List.mem_cons_of_mem _ hmem), h.outside m fun hmem =>
      hm (List.mem_singleton.mp hmem ▸ List.mem_cons_self)]
  tableKept := fun ht => by
    have hkept := h.tableKept ht
    rw [h'.tableKept (by rw [hkept]; exact ht), hkept]
  tableNew := fun ht hu => by
    rw [h.newBlocks_cons hbns]
    by_cases ht' : (t.dip i).table = 0
    · obtain ⟨⟨m, hm, hle⟩, hnew⟩ := h'.tableNew ht' hu
      exact ⟨⟨m, List.mem_cons_of_mem _ hm, hle⟩, List.mem_append_right _ hnew⟩
    · obtain ⟨⟨m, hm, hle⟩, hnew⟩ := h.tableNew ht ht'
      rw [h'.tableKept ht']
      exact ⟨⟨m, List.mem_singleton.mp hm ▸ List.mem_cons_self, hle⟩,
        List.mem_append_left _ hnew⟩
  dinodes := h'.dinodes.trans h.dinodes

/-- What is logged for the first and for the rest. -/
theorem Asks.touched_cons (h : Asks i [bn] s t) (hbns : (bn :: bns).Nodup) :
    (s.dip i).touched s.disk (bn :: bns) =
      (s.dip i).touched s.disk [bn] ∪ (t.dip i).touched t.disk bns := by
  have hout : ∀ m ∈ bns, (t.dip i).block t.disk m = (s.dip i).block s.disk m :=
    fun m hm => h.outside m fun hmem =>
      (List.nodup_cons.mp hbns).1 (List.mem_singleton.mp hmem ▸ hm)
  ext c
  rw [Finset.mem_union, Dinode.mem_touched, Dinode.mem_touched, Dinode.mem_touched,
    h.newBlocks_cons hbns, h.sb]
  constructor
  · rintro (⟨m, hm, hne, hc⟩ | hc | ⟨a, ha, hc⟩ | ⟨hc, ht, m, hm, hle, hmiss⟩)
    · rcases List.mem_cons.mp hm with rfl | hm
      · exact .inl (.inl ⟨m, List.mem_singleton_self m, hne, hc⟩)
      · rw [← hout m hm] at hne hc
        exact .inr (.inl ⟨m, hm, hne, hc⟩)
    · rcases List.mem_append.mp hc with hc | hc
      · exact .inl (.inr (.inl hc))
      · exact .inr (.inr (.inl hc))
    · rcases List.mem_append.mp ha with ha | ha
      · exact .inl (.inr (.inr (.inl ⟨a, ha, hc⟩)))
      · exact .inr (.inr (.inr (.inl ⟨a, ha, hc⟩)))
    · rcases List.mem_cons.mp hm with rfl | hm
      · exact .inl (.inr (.inr (.inr ⟨hc, ht, m, List.mem_singleton_self m, hle, hmiss⟩)))
      · rw [← hout m hm] at hmiss
        rw [← h.tableKept ht] at hc ht
        exact .inr (.inr (.inr (.inr ⟨hc, ht, m, hm, hle, hmiss⟩)))
  · have hhead : ∀ m ∈ [bn], m ∈ bn :: bns :=
      fun m hm => List.mem_singleton.mp hm ▸ List.mem_cons_self
    rintro ((⟨m, hm, hne, hc⟩ | hc | ⟨a, ha, hc⟩ | ⟨hc, ht, m, hm, hle, hmiss⟩) |
      (⟨m, hm, hne, hc⟩ | hc | ⟨a, ha, hc⟩ | ⟨hc, ht, m, hm, hle, hmiss⟩))
    · exact .inl ⟨m, hhead m hm, hne, hc⟩
    · exact .inr (.inl (List.mem_append_left _ hc))
    · exact .inr (.inr (.inl ⟨a, List.mem_append_left _ ha, hc⟩))
    · exact .inr (.inr (.inr ⟨hc, ht, m, hhead m hm, hle, hmiss⟩))
    · rw [hout m hm] at hne hc
      exact .inl ⟨m, List.mem_cons_of_mem _ hm, hne, hc⟩
    · exact .inr (.inl (List.mem_append_right _ hc))
    · exact .inr (.inr (.inl ⟨a, List.mem_append_right _ ha, hc⟩))
    · by_cases ht' : (s.dip i).table = 0
      · refine .inr (.inl (List.mem_append_left _ ?_))
        rw [hc]
        exact (h.tableNew ht' ht).2
      · rw [h.tableKept ht'] at hc
        rw [hout m hm] at hmiss
        exact .inr (.inr (.inr ⟨hc, ht', m, List.mem_cons_of_mem _ hm, hle, hmiss⟩))

end Asks

end Fs

end Xv6
