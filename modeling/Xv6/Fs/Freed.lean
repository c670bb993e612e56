import Xv6.Fs.Local
import Xv6.Fs.Sound

/-!
# What freeing an inode leaves

`itrunc` clears the bits of all blocks of the file and of no other block. So the disk is sound again
when `iput` has freed an inode.
-/

namespace Xv6

open Foundation

namespace Fs

/-- The file of the inode has given back the blocks in `B`. -/
structure Gives (i : Fin NINODE) (B : ℕ → Prop) (s t : Fs) : Prop where
  disk : t.disk = { s.disk with bitmap := t.disk.bitmap }
  bitmap : ∀ b, t.disk.bitmap b = true ↔ s.disk.bitmap b = true ∧ ¬ B b
  user : t.user = s.user
  icache : ∀ j, j ≠ i → t.icache j = s.icache j
  entry : t.icache i = { s.icache i with d := t.dip i }
  fields : t.dip i = { s.dip i with addrs := (t.dip i).addrs }

/-- What `iput` leaves when it frees the inode. -/
structure Freed (i : Fin NINODE) (s t : Fs) : Prop where
  user : t.user = s.user
  icache : ∀ j, j ≠ i → t.icache j = s.icache j
  ref : (t.icache i).ref = 0
  frees : s.disk.Frees (s.icache i).inum t.disk

section Freed

variable {s t u : Fs} {i : Fin NINODE} {b bn : ℕ} {B C : ℕ → Prop} {E : Stop → Prop}

theorem word_of_le {x : Block} {k : ℕ} (hk : NINDIRECT ≤ k) : x.word k = 0 := by
  have hbyte : ∀ j, BSIZE ≤ j → x.byte j = 0 := fun j hj => dif_neg (Nat.not_lt.mpr hj)
  have hle : BSIZE ≤ 4 * k := by
    rw [BSIZE_eq]
    have hn : NINDIRECT = 128 := rfl
    omega
  unfold Block.word
  rw [hbyte _ hle, hbyte _ (by omega), hbyte _ (by omega), hbyte _ (by omega)]
  rfl

namespace Gives

theorem none (hB : ∀ b, ¬ B b) : Gives i B s s where
  disk := rfl
  bitmap := fun b => (and_iff_left (hB b)).symm
  user := rfl
  icache := fun _ _ => rfl
  entry := rfl
  fields := rfl

theorem trans (h : Gives i B s t) (h' : Gives i C t u) : Gives i (fun b => B b ∨ C b) s u where
  disk := by
    rw [h'.disk, h.disk]
  bitmap := fun b => by
    rw [h'.bitmap, h.bitmap, not_or, and_assoc]
  user := h'.user.trans h.user
  icache := fun j hj => (h'.icache j hj).trans (h.icache j hj)
  entry := by
    rw [h'.entry, h.entry]
  fields := by
    rw [h'.fields, h.fields]

theorem congr (h : Gives i B s t) (hBC : ∀ b, B b ↔ C b) : Gives i C s t where
  disk := h.disk
  bitmap := fun b => by rw [h.bitmap, hBC]
  user := h.user
  icache := h.icache
  entry := h.entry
  fields := h.fields

/-- A block address is set to `0`. -/
theorem setIp {j : ℕ} (h : Gives i B s t) (hcache : t.icache = s.icache) :
    Gives i B s (t.setIp i { s.icache i with d := (s.dip i).setAddr j 0 }) where
  disk := h.disk
  bitmap := h.bitmap
  user := h.user
  icache := fun k hk => by rw [icache_setIp_ne hk, hcache]
  entry := by rw [icache_setIp, dip_setIp]
  fields := by
    rw [dip_setIp]
    rfl

end Gives

/-- The blocks of a file are those in its inode and in its indirect block. -/
theorem has_iff {d : Dinode} {disk : FsDisk} : d.Has disk b ↔
    (b ≠ 0 ∧ ∃ j ∈ List.range NDIRECT, b = d.addr j) ∨
      (b ≠ 0 ∧ d.table ≠ 0 ∧ (b = d.table ∨ ∃ k < NINDIRECT, b = (disk.data d.table).word k)) := by
  constructor
  · rintro ⟨hb, rfl | ⟨bn, rfl⟩⟩
    · exact .inr ⟨hb, hb, .inl rfl⟩
    · by_cases hbn : bn < NDIRECT
      · exact .inl ⟨hb, bn, List.mem_range.mpr hbn, Dinode.block_of_lt hbn⟩
      · have hle : NDIRECT ≤ bn := Nat.not_lt.mp hbn
        have htable : d.table ≠ 0 := fun hzero => hb (Dinode.block_of_not_table hle hzero)
        rw [Dinode.block_of_table hle htable] at hb ⊢
        exact .inr ⟨hb, htable,
          .inr ⟨bn - NDIRECT, Nat.not_le.mp fun hk => hb (word_of_le hk), rfl⟩⟩
  · rintro (⟨hb, j, hj, rfl⟩ | ⟨hb, htable, rfl | ⟨k, -, rfl⟩⟩)
    · exact ⟨hb, .inr ⟨j, (Dinode.block_of_lt (List.mem_range.mp hj)).symm⟩⟩
    · exact ⟨hb, .inl rfl⟩
    · refine ⟨hb, .inr ⟨NDIRECT + k, ?_⟩⟩
      rw [Dinode.block_of_table (Nat.le_add_right _ _) htable, Nat.add_sub_cancel_left]

section Rules

variable (hE : Lax E)

include hE

/-- A block that is in use is given back. -/
theorem wp_bfree_gives {Q : Unit → Fs → Prop}
    (hQ : ∀ t, Gives i (· = b) s t → t.icache = s.icache → Q ⟨⟩ t) :
    wp (FsM.bfree b) Q E s := by
  unfold FsM.bfree FsM.panic
  rw [wp_bind, wp_get, wp_ite]
  refine ⟨fun _ => wp_throw.mpr (hE _ (by decide)), fun _ => ?_⟩
  rw [wp_bind, wp_set]
  refine wp_logWrite (U := ∅) hE.budget (hQ _ ⟨rfl, fun c => ?_, rfl, fun _ _ => rfl, rfl, rfl⟩ rfl)
  change Function.update s.disk.bitmap b false c = true ↔ _
  by_cases hc : c = b
  · rw [hc, Function.update_self]
    exact iff_of_false Bool.false_ne_true fun hand => hand.2 rfl
  · rw [Function.update_of_ne hc, and_iff_left hc]

/-- The direct blocks. -/
theorem wp_itruncDirect_gives {Q : Unit → Fs → Prop} {js : List ℕ}
    (hjs : ∀ j ∈ js, j < NDIRECT + 1)
    (hQ : ∀ t, Gives i (fun b => b ≠ 0 ∧ ∃ j ∈ js, b = (s.dip i).addr j) s t →
      (∀ k, k ∉ js → (t.dip i).addr k = (s.dip i).addr k) → Q ⟨⟩ t) :
    wp (FsM.itruncDirect i js) Q E s := by
  induction js generalizing s with
  | nil =>
      refine wp_pure.mpr (hQ s (.none fun b hb => ?_) fun _ _ => rfl)
      obtain ⟨-, j, hj, -⟩ := hb
      exact List.not_mem_nil hj
  | cons j js ih =>
      have hrest : ∀ k ∈ js, k < NDIRECT + 1 := fun k hk => hjs k (List.mem_cons_of_mem _ hk)
      rw [FsM.itruncDirect, wp_bind, wp_ip, wp_bind, wp_when]
      refine ⟨fun hne => ?_, fun hzero => ih hrest fun t ht haddr => hQ t (ht.congr fun b => ?_)
        fun k hk => haddr k fun hmem => hk (List.mem_cons_of_mem _ hmem)⟩
      · rw [wp_bind]
        refine wp_bfree_gives hE (i := i) fun t ht hcache =>
          wp_setIp.mpr (ih hrest fun u hu hkeep => ?_)
        have haddr : ∀ k,
            ((t.setIp i { s.icache i with d := (s.icache i).d.setAddr j 0 }).dip i).addr k =
              if k = j then 0 else (s.dip i).addr k := fun k => by
          rw [dip_setIp, addr_setAddr (hjs j List.mem_cons_self)]
          rfl
        simp only [haddr] at hu hkeep
        refine hQ u (((ht.setIp hcache).trans hu).congr fun b => ⟨?_, ?_⟩) fun k hk => ?_
        · rintro (rfl | ⟨hb, k, hk, rfl⟩)
          · exact ⟨hne, j, List.mem_cons_self, rfl⟩
          · refine ⟨hb, k, List.mem_cons_of_mem _ hk, if_neg ?_⟩
            rintro rfl
            exact hb (if_pos rfl)
        · rintro ⟨hb, k, hk, rfl⟩
          by_cases hkj : k = j
          · rw [hkj]
            exact .inl rfl
          · exact .inr ⟨hb, k, (List.mem_cons.mp hk).resolve_left hkj, (if_neg hkj).symm⟩
        · rw [hkeep k fun hmem => hk (List.mem_cons_of_mem _ hmem), if_neg]
          rintro rfl
          exact hk List.mem_cons_self
      · have hj : (s.dip i).addr j = 0 := not_not.mp hzero
        refine and_congr_right fun hb => ⟨?_, ?_⟩
        · rintro ⟨k, hk, rfl⟩
          exact ⟨k, List.mem_cons_of_mem _ hk, rfl⟩
        · rintro ⟨k, hk, rfl⟩
          rcases List.mem_cons.mp hk with rfl | hk
          · exact absurd hj hb
          · exact ⟨k, hk, rfl⟩

/-- The blocks in the indirect block. -/
theorem wp_itruncEntries_gives {Q : Unit → Fs → Prop} {bs : List ℕ}
    (hQ : ∀ t, Gives i (fun b => b ≠ 0 ∧ b ∈ bs) s t → t.icache = s.icache → Q ⟨⟩ t) :
    wp (FsM.itruncEntries bs) Q E s := by
  induction bs generalizing s with
  | nil => exact wp_pure.mpr (hQ s (.none fun b hb => List.not_mem_nil hb.2) rfl)
  | cons c bs ih =>
      rw [FsM.itruncEntries, wp_bind, wp_when]
      refine ⟨fun hne => wp_bfree_gives hE (i := i) fun t ht hcache => ih fun u hu hcache' =>
        hQ u ((ht.trans hu).congr fun b => ⟨?_, ?_⟩) (hcache'.trans hcache),
        fun hzero => ih fun t ht hcache => hQ t (ht.congr fun b => ?_) hcache⟩
      · rintro (rfl | ⟨hb, hmem⟩)
        · exact ⟨hne, List.mem_cons_self⟩
        · exact ⟨hb, List.mem_cons_of_mem _ hmem⟩
      · rintro ⟨hb, hmem⟩
        exact (List.mem_cons.mp hmem).imp id fun hmem => ⟨hb, hmem⟩
      · refine and_congr_right fun hb => ⟨List.mem_cons_of_mem _, fun hmem => ?_⟩
        refine (List.mem_cons.mp hmem).resolve_left ?_
        rintro rfl
        exact hb (not_not.mp hzero)

/-- The indirect block. -/
theorem wp_itruncTable_gives {Q : Unit → Fs → Prop}
    (hQ : ∀ t, Gives i (fun b => b ≠ 0 ∧ (s.dip i).table ≠ 0 ∧ (b = (s.dip i).table ∨
      ∃ k < NINDIRECT, b = (s.disk.data (s.dip i).table).word k)) s t → Q ⟨⟩ t) :
    wp (FsM.itruncTable i) Q E s := by
  unfold FsM.itruncTable
  rw [wp_bind, wp_ip, wp_when]
  refine ⟨fun hne => ?_, fun hzero => hQ s (.none fun b hb => hb.2.1 (not_not.mp hzero))⟩
  rw [wp_bind, wp_get, wp_bind]
  refine wp_itruncEntries_gives hE (i := i) fun t ht hcache => ?_
  rw [wp_bind]
  refine wp_bfree_gives hE (i := i) fun u hu hcache' => wp_setIp.mpr (hQ _ ?_)
  refine ((ht.trans hu).setIp (hcache'.trans hcache)).congr fun b => ⟨?_, ?_⟩
  · rintro (⟨hb, hmem⟩ | rfl)
    · obtain ⟨k, hk, rfl⟩ := List.mem_map.mp hmem
      exact ⟨hb, hne, .inr ⟨k, List.mem_range.mp hk, rfl⟩⟩
    · exact ⟨hne, hne, .inl rfl⟩
  · rintro ⟨hb, -, rfl | ⟨k, hk, rfl⟩⟩
    · exact .inr rfl
    · exact .inl ⟨hb, List.mem_map.mpr ⟨k, List.mem_range.mpr hk, rfl⟩⟩

/-- All blocks of the file are given back. -/
theorem wp_itrunc_gives {α : Type} {rest : FsM α} {Q : α → Fs → Prop}
    (hQ : ∀ t, Gives i ((s.dip i).Has s.disk) s t → wp (do
      let x ← FsM.ip i
      FsM.setIp i { x with d := { x.d with size := 0 } }
      FsM.iupdate i
      rest) Q E t) :
    wp (FsM.itrunc i >>= fun _ => rest) Q E s := by
  unfold FsM.itrunc
  rw [wp_bind, wp_bind]
  refine wp_itruncDirect_gives hE (fun j hj => Nat.lt_succ_of_lt (List.mem_range.mp hj))
    fun t ht hkeep => ?_
  have htable : (t.dip i).table = (s.dip i).table :=
    hkeep NDIRECT fun hmem => lt_irrefl _ (List.mem_range.mp hmem)
  have hdata : t.disk.data = s.disk.data := by rw [ht.disk]
  rw [wp_bind]
  refine wp_itruncTable_gives hE fun u hu => ?_
  rw [htable, hdata] at hu
  have hall := hQ u ((ht.trans hu).congr fun b => has_iff.symm)
  simpa only [wp_bind] using hall

/-- The entry is set and written to the disk. -/
theorem wp_iupdate_set {Q : Unit → Fs → Prop} {x : Inode}
    (hQ : ∀ t, t.disk = { s.disk with dinode := Function.update s.disk.dinode x.inum x.d } →
      t.icache = Function.update s.icache i x → t.user = s.user → Q ⟨⟩ t) :
    wp (FsM.iupdate i) Q E (s.setIp i x) := by
  refine wp_iupdate (U := ∅) hE.budget (hQ _ ?_ rfl rfl)
  rw [updated, dip_setIp, icache_setIp]
  rfl

/-- The last reference to an inode without links is given back. -/
theorem wp_iput_free {Q : Unit → Fs → Prop}
    (hlast : (s.icache i).ref = 1 ∧ (s.icache i).valid ∧ (s.icache i).d.nlink = 0)
    (htype : (s.dip i).type ≠ 0) (hsynced : s.disk.dinode (s.icache i).inum = s.dip i)
    (hQ : (s.icache i).busy = false → ∀ t, Freed i s t → Q ⟨⟩ t) :
    wp (FsM.iput i) Q E s := by
  unfold FsM.iput FsM.ifree FsM.panic
  rw [wp_bind, wp_ip, wp_bind, wp_when]
  refine ⟨fun _ => ?_, fun hno => absurd hlast hno⟩
  rw [wp_bind, wp_ip, wp_ite]
  refine ⟨fun _ => wp_throw.mpr (hE _ (by decide)), fun hidle => ?_⟩
  rw [wp_bind, wp_setIp]
  refine wp_itrunc_gives hE fun t ht => ?_
  rw [dip_setIp] at ht
  have hentry := ht.entry
  rw [icache_setIp] at hentry
  have hdip := ht.fields
  rw [dip_setIp] at hdip
  rw [wp_bind, wp_ip, wp_bind, wp_setIp, wp_bind]
  refine wp_iupdate_set hE fun u hu hucache huuser => ?_
  rw [wp_bind, wp_ip, wp_bind, wp_setIp, wp_bind]
  refine wp_iupdate_set hE fun v hv hvcache hvuser => ?_
  rw [wp_bind, wp_ip, wp_setIp, wp_bind, wp_ip, wp_setIp]
  have huentry : u.icache i = { t.icache i with d := { (t.icache i).d with size := 0 } } := by
    rw [hucache, Function.update_self]
  have hventry : v.icache i = { u.icache i with d := { (u.icache i).d with type := 0 } } := by
    rw [hvcache, Function.update_self]
  have hinum : (u.icache i).inum = (s.icache i).inum := by
    rw [huentry, hentry]
  have hinum' : (t.icache i).inum = (s.icache i).inum := by
    rw [hentry]
  have hdinode : v.disk.dinode = Function.update s.disk.dinode (s.icache i).inum
      { (u.icache i).d with type := 0 } := by
    rw [hv, hinum, hu]
    change Function.update (Function.update t.disk.dinode (t.icache i).inum _) _ _ = _
    rw [hinum', Function.update_idem, ht.disk]
    rfl
  have howns : ∀ b, s.disk.Owns (s.icache i).inum b ↔ (s.icache i).d.Has s.disk b := by
    intro b
    rw [FsDisk.Owns, hsynced]
    exact and_iff_right htype
  refine hQ (Bool.eq_false_iff.mpr hidle) _ ⟨?_, fun j hj => ?_, ?_, ?_⟩
  · change v.user = s.user
    rw [hvuser, huuser, ht.user]
    rfl
  · rw [icache_setIp_ne hj, icache_setIp_ne hj, hvcache, Function.update_of_ne hj, hucache,
      Function.update_of_ne hj, ht.icache j hj, icache_setIp_ne hj]
  · rw [icache_setIp, icache_setIp, hventry, huentry, hentry]
    change (s.icache i).ref - 1 = 0
    rw [hlast.1]
    rfl
  · have hbitmap : ∀ b, v.disk.bitmap b = true ↔
        s.disk.bitmap b = true ∧ ¬ s.disk.Owns (s.icache i).inum b := by
      intro b
      rw [hv, hu, howns]
      exact ht.bitmap b
    have hself : v.disk.dinode (s.icache i).inum = { (u.icache i).d with type := 0 } := by
      rw [hdinode, Function.update_self]
    have hnlink : (u.icache i).d.nlink = 0 := by
      rw [huentry]
      change (t.dip i).nlink = 0
      rw [hdip]
      exact hlast.2.2
    change s.disk.Frees (s.icache i).inum v.disk
    exact {
      sb := by
        rw [hv, hu, ht.disk]
        rfl
      dinode := fun m hm => by
        rw [hdinode, Function.update_of_ne hm]
      data := fun _ _ _ => by
        rw [hv, hu, ht.disk]
        rfl
      marked := fun b hb hown => (hbitmap b).mpr ⟨hb, hown⟩
      type := by
        rw [hself]
      nlink := by
        rw [hself]
        exact hnlink
  }

end Rules

end Freed

end Fs

end Xv6
