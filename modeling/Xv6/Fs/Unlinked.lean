import Xv6.Fs.Made
import Xv6.Fs.Dirlink

/-!
# `unlink`

`unlink` zeroes an entry, in a block that the directory has, and gives the directory and the inode
back. Either of them may be freed then.
-/

namespace Xv6

open Foundation

namespace Fs

/-- A locked inode is given back, and may have been freed. -/
structure Released (i : Fin NINODE) (T : Finset ℕ) (s t : Fs) : Prop extends Local i T s t where
  data : t.disk.data = s.disk.data
  bound : T ⊆ {s.bitmapBlock, IBLOCK (s.icache i).inum}

section Unlinked

variable {s t u v w : Fs} {p : Fin NPROC} {i j dp : Fin NINODE} {k m n d : ℕ} {T U : Finset ℕ}
  {path name : List UInt8} {f : ℤ → ℤ}

/-! ### Giving back -/

theorem Low.of_addrs {d e : Dinode} (h : Low d s.disk) (haddrs : e.addrs = d.addrs)
    (hdata : t.disk.data = s.disk.data) : Low e t.disk where
  addr := fun k => by
    have haddr := h.addr k
    rw [Dinode.addr] at haddr ⊢
    rwa [haddrs]
  entry := by
    have htable : e.table = d.table := by
      rw [Dinode.table, Dinode.table, Dinode.addr, Dinode.addr, haddrs]
    rw [htable, hdata]
    exact h.entry

theorem wp_iunlockput_released {Q : Unit → Fs → Prop} (hbusy : (s.icache i).busy = true)
    (href : 1 ≤ (s.icache i).ref) (h : Low (s.dip i) s.disk)
    (hQ : ∀ t T, Released i T s t → Q ⟨⟩ t) :
    wp (FsM.iunlockput i) Q (fun _ => True) s := by
  have hdip : (s.unlocked i).dip i = s.dip i := by
    rw [dip, icache_unlocked]
    rfl
  unfold FsM.iunlockput
  rw [wp_bind]
  refine Fs.wp_iunlock hbusy href ?_
  refine wp_iput_any (fun _ _ => by rw [hdip]; exact h) fun t T ht => hQ t T ?_
  have hfirst : Local i ∅ s (s.unlocked i) := .setIp rfl rfl
  have hall := hfirst.trans ht.toLocal
  rw [Finset.empty_union] at hall
  refine ⟨hall, ht.data, ?_⟩
  have hbound := ht.bound
  rw [icache_unlocked] at hbound
  exact hbound

theorem local_counted : Local i {IBLOCK (s.icache i).inum} s (s.counted i f) := by
  have hset : Local i ∅ s (s.setIp i { s.icache i with
      d := { s.dip i with nlink := short (f (s.dip i).nlink) } }) := .setIp rfl rfl
  have hupdated := Local.updated (i := i) (s := s.setIp i { s.icache i with
    d := { s.dip i with nlink := short (f (s.dip i).nlink) } })
  rw [icache_setIp] at hupdated
  have hall := hset.trans hupdated
  rwa [Finset.empty_union] at hall

/-- The links are counted anew before the inode is given back. -/
theorem wp_counted_released {Q : Unit → Fs → Prop} (hbusy : (s.icache i).busy = true)
    (href : 1 ≤ (s.icache i).ref) (h : Low (s.dip i) s.disk)
    (hQ : ∀ t T, Released i T s t → Q ⟨⟩ t) :
    wp (FsM.iunlockput i) Q (fun _ => True) (s.counted i f) := by
  have hself : (s.counted i f).icache i = { s.icache i with
      d := { s.dip i with nlink := short (f (s.dip i).nlink) } } := icache_setIp
  have hdata : (s.counted i f).disk.data = s.disk.data := rfl
  refine wp_iunlockput_released (by rw [hself]; exact hbusy) (by rw [hself]; exact href) ?_
    fun t T ht => hQ t _ ⟨local_counted.trans ht.toLocal, ht.data.trans hdata, ?_⟩
  · rw [dip, hself]
    exact h.of_addrs rfl hdata
  · have hbound := ht.bound
    rw [hself, bitmapBlock, local_counted.sb] at hbound
    exact Finset.union_subset (by simp) hbound

/-! ### The entry -/

/-- An entry that is there is in one block of the directory. -/
theorem Directory.writes_card (h : s.Directory dp) (hk : k < (s.slots dp).size)
    (hinum : (s.icache dp).inum < s.disk.sb.ninodes) :
    (s.writes dp (Dirent.size * k) Dirent.size).card ≤ 1 := by
  have hneed := h.need_eq_zero hk
  have hspan : (span (Dirent.size * k) Dirent.size).length = 1 := by
    rw [span, if_neg (by decide), List.length_range', Dirent.size_eq, BSIZE_eq]
    omega
  have hend := h.mul_le (k := k + 1) hk
  have hadds : ¬ (s.dip dp).AddsEntry s.disk (span (Dirent.size * k) Dirent.size) := by
    rintro ⟨bn, hbn, -, hmiss⟩
    refine h.wf.mapped bn ?_ hmiss
    obtain ⟨-, -, hhigh⟩ := mem_span.mp hbn
    rw [Dirent.size_eq, BSIZE_eq] at *
    omega
  rw [Fs.writes_card h.ok h.wf hinum (by rw [hneed]; exact Nat.zero_le _), hspan, hneed,
    if_neg hadds, if_neg (by rw [Dirent.size_eq] at *; omega)]
  exact le_rfl

/-- A name is looked up in a locked directory, which stays as it is. -/
theorem Holds.wp_dirlookup_kept {Q : Option (Fin NINODE × ℕ) → Fs → Prop} (h : s.Holds t dp d)
    (hs : s.Graph) (htype : (s.view d).type = T_DIR) (hnone : Q none (t.locked dp))
    (hok : ∀ u j k m, ((s.view d).slots s.disk).find (Dirent.key name) = some (k, m) →
      (t.locked dp).Refers u j m → u.Directory dp → u.slots dp = (s.view d).slots s.disk →
      u.dip dp = s.view d → Q (some (j, Dirent.size * k)) u) :
    wp (FsM.dirlookup dp name) Q (fun _ => True) (t.locked dp) := by
  have hdir := h.directory hs.ok htype (hs.dir d h.kept.inum htype)
  have hdip : (t.locked dp).dip dp = s.view d := dip_locked.trans h.inode
  have hsame : wp (FsM.dirlookup dp name) (fun _ u => u.Directory dp ∧
      u.slots dp = (s.view d).slots s.disk ∧ u.dip dp = s.view d) (fun _ => True)
      (t.locked dp) := by
    cases hrun : FsM.dirlookup dp name (t.locked dp) with
    | error e => exact (wp_of_error hrun).mpr trivial
    | ok x =>
        obtain ⟨r, u⟩ := x
        obtain ⟨hdir', hslots⟩ := hdir.after_dirlookup hrun
        refine (wp_of_ok hrun).mpr ⟨hdir', hslots.trans h.slots, ?_⟩
        rw [hdir.dirlookup] at hrun
        rcases lookedUp_cases hrun with ⟨-, -, rfl⟩ | ⟨k, inum, i, icache, -, hget, -, rfl⟩
        · exact hdip
        · exact (iget_d hget).trans hdip
  have hfound : wp (FsM.dirlookup dp name) (fun r u => u.Directory dp →
      u.slots dp = (s.view d).slots s.disk → u.dip dp = s.view d → Q r u) (fun _ => True)
      (t.locked dp) :=
    h.wp_dirlookup hs htype (.inl trivial) (fun _ _ _ _ => hnone) fun u j k m => hok u j k m
  exact wp_mono (wp_and hsame hfound) (fun r u hu => hu.2 hu.1.1 hu.1.2.1 hu.1.2.2)
    fun _ _ => trivial

/-! ### `unlink` -/

/-- Both the directory and the inode that has lost its name are locked. -/
structure Unnames (dp i : Fin NINODE) (k : ℕ) (s : Fs) : Prop where
  one : s.OneBitmap
  dir : s.Directory dp
  slot : k < (s.slots dp).size
  inum : (s.icache dp).inum < s.disk.sb.ninodes
  busy : (s.icache dp).busy = true
  ne : i ≠ dp
  ref : 1 ≤ (s.icache i).ref
  locked : (s.icache i).busy = true
  wf : (s.dip i).WellFormed s.disk
  apart : (s.dip i).Apart s.disk (s.dip dp)

/-- The name goes, and both inodes are given back. -/
theorem Unnames.wp_unlinkEntry {Q : Unit → Fs → Prop} (h : Unnames dp i k s)
    (hQ : ∀ t T, s.log.Logs T t.log → T.card ≤ 4 → Q ⟨⟩ t) :
    wp (FsM.unlinkEntry dp i (Dirent.size * k)) Q (fun _ => True) s := by
  unfold FsM.unlinkEntry FsM.panic
  rw [wp_bind]
  refine h.dir.wp_writei h.slot.le (.inl h.slot) (U := s.writes dp (Dirent.size * k) Dirent.size)
    ⟨.inl trivial, .inl trivial⟩ (Finset.Subset.refl _) fun a ha => ?_
  have hone : a.OneBitmap := by
    rw [OneBitmap, ha.sb]
    exact h.one
  have hlow : Low (a.dip dp) a.disk := .of_wellFormed hone ha.wf
  have hbusy : (a.icache dp).busy = true := by
    rw [ha.entry]
    exact h.busy
  have href : 1 ≤ (a.icache dp).ref := by
    rw [ha.entry]
    exact h.dir.ref
  have hentry : a.icache i = s.icache i := ha.icache i h.ne
  have hlow' : Low (a.dip i) a.disk := by
    have hdip : a.dip i = s.dip i := congrArg Inode.d hentry
    rw [hdip]
    refine .of_wellFormed hone (h.wf.congr (fun b hb => ?_) ha.marked ha.sb)
    exact (ha.others b (h.wf.used b hb) (h.apart b hb)).2
  have hdir : (a.icache dp).inum = (s.icache dp).inum := by rw [ha.entry]
  have hbitmap : a.bitmapBlock = s.bitmapBlock := by rw [bitmapBlock, bitmapBlock, ha.sb]
  have hrest : ∀ b T, Released dp T a b → wp (do
      FsM.setNlink i (· - 1)
      FsM.iunlockput i) Q (fun _ => True) b := by
    intro b T hb
    have hentry' : b.icache i = s.icache i := (hb.icache i h.ne).trans hentry
    have hdip : b.dip i = a.dip i := by rw [dip, hentry', ← hentry, dip]
    rw [wp_bind]
    refine wp_setNlink .true (wp_counted_released ?_ ?_ ?_ fun t U ht => ?_)
    · rw [hentry']
      exact h.locked
    · rw [hentry']
      exact h.ref
    · rw [hdip]
      exact hlow'.congr hb.data
    · have hlogs := ha.logs.trans (hb.logs.trans ht.logs)
      have hbound := hb.bound
      have hbound' := ht.bound
      rw [hbitmap, hdir] at hbound
      rw [bitmapBlock, hb.sb, ha.sb, hentry'] at hbound'
      refine hQ t _ hlogs ?_
      have hsub : T ∪ U ⊆ {s.bitmapBlock, IBLOCK (s.icache dp).inum, IBLOCK (s.icache i).inum} := by
        refine Finset.union_subset (hbound.trans fun x hx => ?_) (hbound'.trans fun x hx => ?_)
        · simp only [Finset.mem_insert, Finset.mem_singleton] at hx ⊢
          exact hx.imp id .inl
        · simp only [Finset.mem_insert, Finset.mem_singleton] at hx ⊢
          exact hx.imp id .inr
      have hentries := h.dir.writes_card h.slot h.inum
      have hthree := (Finset.card_le_card hsub).trans Finset.card_le_three
      have hunion := Finset.card_union_le (s.writes dp (Dirent.size * k) Dirent.size) (T ∪ U)
      have hlen : (Dirent.bytes .zero).length = Dirent.size := Dirent.length_bytes
      rw [hlen]
      omega
  rw [if_neg (not_not.mpr rfl), wp_bind, wp_ip, wp_bind, wp_when]
  refine ⟨fun _ => wp_setNlink .true ?_, fun _ => ?_⟩
  · rw [wp_bind]
    exact wp_counted_released hbusy href hlow hrest
  · rw [wp_bind]
    exact wp_iunlockput_released hbusy href hlow hrest

/-- A directory with entries is not removed; looking for them changes nothing. -/
theorem wp_hasEntries {Q : Bool → Fs → Prop} {E : Stop → Prop}
    (hE : E (.panic .isdiremptyReadi)) (h : NoHoles (s.dip i) s.disk) (hQ : ∀ b, Q b s) :
    wp (FsM.hasEntries i) Q E s := by
  unfold FsM.hasEntries FsM.isdirempty
  rw [wp_bind, wp_ip, wp_ite]
  refine ⟨fun _ => ?_, fun _ => wp_pure.mpr (hQ _)⟩
  rw [wp_bind, wp_bind]
  exact wp_scanFrom_any hE h (by decide) (wp_pure.mpr (wp_pure.mpr (hQ _)))
    fun o de _ _ => wp_pure.mpr (wp_pure.mpr (hQ _))

/-- The inode that a name leads to is locked with its directory. -/
theorem Holds.unnames (hold : s.Holds t dp d) (h : s.Settled p)
    (hold' : (t.locked dp).Holds u i m) (hdir : u.Directory dp)
    (hslots : u.slots dp = (s.view d).slots s.disk) (hdip : u.dip dp = s.view d)
    (hk : k < ((s.view d).slots s.disk).size) : Unnames dp i k (u.locked i) := by
  have hpos : 0 < ((t.locked dp).icache dp).ref := by
    rw [ref_locked]
    exact hold.names.1
  have hsame := hold'.entry hpos
  have hbusy : (u.icache dp).busy = true := by rw [hsame.busy, icache_locked]
  have hne : i ≠ dp := by
    rintro rfl
    have hidle := hold'.idle
    rw [hbusy] at hidle
    cases hidle
  have hentry : (u.locked i).icache dp = u.icache dp := icache_setIp_ne hne.symm
  have hdisk : (u.locked i).disk = s.disk := hold'.disk.trans hold.disk
  have hview : (t.locked dp).view m = s.view m := by rw [view_locked, hold.view h.tidy]
  have hdip' : (u.locked i).dip i = s.view m := (dip_locked.trans hold'.inode).trans hview
  have hinum : (u.icache dp).inum = d := by
    rw [hsame.inum, icache_locked]
    exact hold.names.2.2
  have htype : (s.view m).type ≠ 0 := by
    rw [← hview]
    exact hold'.type
  have hm : m < s.disk.sb.ninodes := by
    have hlt : m < (t.locked dp).disk.sb.ninodes := hold'.kept.inum
    rwa [show (t.locked dp).disk = s.disk from hold.disk] at hlt
  have hdm : m ≠ d := by
    rintro rfl
    exact hne (hold'.only dp (names_locked.mpr hold.names)).symm
  obtain ⟨hdir', hslots'⟩ := hdir.congr (t := u.locked i) rfl (by rw [hentry])
    (by rw [hentry]; exact hdir.ref)
  exact {
    one := by
      rw [OneBitmap, hdisk]
      exact h.one
    dir := hdir'
    slot := by
      rw [hslots', hslots]
      exact hk
    inum := by
      rw [hentry, hinum, hdisk]
      exact hold.kept.inum
    busy := by
      rw [hentry]
      exact hbusy
    ne := hne
    ref := by
      rw [ref_locked]
      exact hold'.names.1
    locked := by rw [icache_locked]
    wf := by
      rw [hdip', hdisk]
      exact h.files m hm htype
    apart := by
      rw [hdip', dip, hentry, hdisk, show (u.icache dp).d = s.view d from hdip]
      exact h.apart m hm d hold.kept.inum hdm htype hold.type }

/-- The name is taken out of the directory, or nothing is changed. -/
theorem Settled.wp_unlinkName {Q : Bool → Fs → Prop} (h : s.Settled p) (hold : s.Holds t dp d)
    (htype : (s.view d).type = T_DIR) (hbad : ∀ u, (t.locked dp).Alike u → Q false u)
    (hgone : ∀ u T, s.log.Logs T u.log → T.card ≤ 4 → Q true u) :
    wp (FsM.unlinkName dp name) Q (fun _ => True) (t.locked dp) := by
  unfold FsM.unlinkName FsM.panic
  rw [wp_ite]
  refine ⟨fun _ => wp_pure.mpr (hbad _ .refl), fun _ => ?_⟩
  rw [wp_bind]
  refine hold.wp_dirlookup_kept h.toGraph htype (wp_pure.mpr (hbad _ .refl))
    fun u i k m hfind hu hdir hslots hdip => ?_
  have hslot := Slots.slot_of_find hfind
  have hkept : (t.locked dp).Kept m :=
    (hold.toRefers.kept h.tidy (h.entry d hold.kept.inum htype k _ m hslot)).locked
  change wp (FsM.ilock i >>= fun _ => _) _ _ _
  rw [wp_bind]
  refine hu.wp_ilock hkept (.inl trivial) (.inl trivial) fun hold' => ?_
  have hall := hold.unnames h hold' hdir hslots hdip (Slots.lt_size hslot)
  rw [wp_bind, wp_ip, wp_ite]
  refine ⟨fun _ => wp_throw.mpr trivial, fun _ => ?_⟩
  rw [wp_bind]
  refine wp_hasEntries trivial (.of_wellFormed hall.wf) fun found => wp_ite.mpr ⟨fun _ => ?_, fun _ => ?_⟩
  · rw [wp_bind]
    exact hold'.wp_iunlockput .refl fun v hv => wp_pure.mpr (hbad v hv)
  · rw [wp_bind]
    refine hall.wp_unlinkEntry fun v T hlog hT => wp_pure.mpr (hgone v T ?_ hT)
    have hsame : (u.locked i).log = s.log := hold'.back.log.trans hold.back.log
    rw [← hsame]
    exact hlog

theorem Settled.wp_sysUnlink {Q : ℤ → Fs → Prop} {path : Option (List UInt8)} (h : s.Settled p)
    (hQ : ∀ r t, s.log.Sections t.log → (r < 0 → s.Unchanged t) → Q r t) :
    wp (FsM.sysUnlink p path) Q (fun _ => True) s := by
  have hquiet : ∀ t, s.begun.Alike t →
      wp (FsM.endOp >>= fun _ => pure (-1 : ℤ)) Q (fun _ => True) t := by
    intro t ht
    rw [wp_bind, wp_endOp, wp_pure]
    exact hQ _ _ ht.sections fun _ => ht.unchanged
  unfold FsM.sysUnlink
  cases path with
  | none => exact wp_pure.mpr (hQ _ _ .refl fun _ => .refl)
  | some path =>
      change wp (FsM.beginOp >>= fun _ => FsM.nameiparent p path >>= fun _ => _) _ _ _
      rw [wp_bind, wp_beginOp, wp_bind]
      refine h.begun.toWalkable.wp_nameiparent (.inl trivial) (.inl trivial)
        (fun _ t ht => hquiet t ht) fun t dp d last _ _ ht hk htype => ?_
      change wp (FsM.ilock dp >>= fun _ => _) _ _ _
      rw [wp_bind]
      refine ht.wp_ilock hk (.inl trivial) (.inl trivial) fun hold => ?_
      rw [wp_bind]
      refine h.begun.wp_unlinkName hold htype (fun u hu => ?_) fun u T hlog hT => ?_
      · change wp (FsM.iunlockput dp >>= fun _ => _) _ _ _
        rw [wp_bind]
        exact hold.wp_iunlockput hu hquiet
      · change wp (FsM.endOp >>= fun _ => pure 0) _ _ _
        rw [wp_bind, wp_endOp, wp_pure]
        exact hQ _ _ (.one hlog (quota_of_le hT (by decide))) fun hneg => absurd hneg (by decide)

end Unlinked

end Fs

end Xv6
