import Xv6.Fs.Made

/-!
# `link`

`link` counts the link before it makes the entry, and takes the count back when it cannot make it.
In between, the inode has one link more, and the new path is looked up.
-/

namespace Xv6

open Foundation

namespace Dinode

variable {d : Dinode} {disk disk' : FsDisk}

theorem slots_congr (h : disk'.data = disk.data) : d.slots disk' = d.slots disk := by
  have hcontents : d.contents disk' = d.contents disk := contents_congr fun b _ => by rw [h]
  refine Slots.ext rfl ?_
  change (fun k => (Dirent.ofBytes (record Dirent.size (d.contents disk') k)).live) = _
  rw [hcontents]
  rfl

theorem DirOk.congr (h : d.DirOk disk) (hdata : disk'.data = disk.data)
    (hbitmap : disk'.bitmap = disk.bitmap) (hsb : disk'.sb = disk.sb) : d.DirOk disk' where
  wf := h.wf.congr (fun b _ => by rw [hdata]) (fun b hb => by rw [hbitmap]; exact hb) hsb
  aligned := h.aligned
  distinct := by
    rw [slots_congr hdata]
    exact h.distinct

end Dinode

namespace Fs

/-- The inode `n` is `e`, on the disk and in the entry `i`. -/
structure Saved (i : Fin NINODE) (n : ℕ) (e : Dinode) (s t : Fs) : Prop where
  disk : t.disk = { s.disk with dinode := Function.update s.disk.dinode n e }
  entry : t.icache i = { s.icache i with valid := true, d := e }
  icache : ∀ j, j ≠ i → t.icache j = s.icache j
  user : t.user = s.user
  io : t.io = s.io

section Linked

variable {s t u v w : Fs} {p : Fin NPROC} {i j dp : Fin NINODE} {m n : ℕ} {T : Finset ℕ}
  {path : List UInt8} {d e : Dinode} {z : ℤ}

/-! ### An inode that is saved -/

/-- What is on the disk is what is in the cache. -/
theorem Settled.disk_view (h : s.Settled p) : s.disk.dinode n = s.view n := by
  by_cases hn : ∃ j, (s.icache j).Names ROOTDEV n
  · obtain ⟨j, hj⟩ := hn
    rw [h.tidy.view hj, inode, ← hj.2.2]
    split
    · rename_i hvalid
      exact h.synced j hj.1 hvalid
    · rfl
  · exact (view_of_not_names fun j hj => hn ⟨j, hj⟩).symm

/-- A reference more does not matter to the lookup of paths. -/
theorem Refers.walkable (h : s.Refers t i n) (hs : s.Walkable p) : t.Walkable p where
  tidy := h.tidy hs.tidy
  ok := by
    rw [h.disk]
    exact hs.ok
  dir := fun m hm htype => by
    rw [h.disk] at hm ⊢
    rw [h.view hs.tidy] at htype ⊢
    exact hs.dir m hm htype
  entry := fun m hm htype k name m' hslot => by
    rw [h.disk] at hm hslot
    rw [h.view hs.tidy] at htype hslot
    exact h.kept hs.tidy (hs.entry m hm htype k name m' hslot)
  idle := h.idle hs.idle
  root := h.kept hs.tidy hs.root
  cwd := by
    have huser : t.user = s.user := h.back.user
    rw [huser]
    exact ((h.names_iff hs.tidy).mpr (.inl hs.names_cwd)).1
  here := by
    have huser : t.user = s.user := h.back.user
    rw [huser, h.disk, (h.entry hs.cwd).inum]
    exact hs.here

namespace Saved

theorem names (h : Saved i n e s t) : (t.icache j).Names m m' ↔ (s.icache j).Names m m' := by
  by_cases hj : j = i
  · rw [hj, h.entry]
    rfl
  · rw [h.icache j hj]

theorem inode_self (h : Saved i n e s t) : t.inode i = e := by
  rw [inode, h.entry, if_pos rfl]

theorem inode_ne (h : Saved i n e s t) (hs : s.Tidy) (hi : (s.icache i).Names ROOTDEV n)
    (hj : j ≠ i) (hpos : 0 < (s.icache j).ref) : t.inode j = s.inode j := by
  have hne : (s.icache j).inum ≠ n := fun heq =>
    hj (hs.unique j i n ⟨hpos, hs.dev j hpos, heq⟩ hi)
  rw [inode, inode, h.icache j hj, h.disk]
  change (if _ then _ else Function.update s.disk.dinode n e _) = _
  rw [Function.update_of_ne hne]

theorem view (h : Saved i n e s t) (hs : s.Tidy) (hi : (s.icache i).Names ROOTDEV n)
    (ht : t.Tidy) : t.view m = if m = n then e else s.view m := by
  by_cases hm : m = n
  · rw [if_pos hm, hm, ht.view (h.names.mpr hi), h.inode_self]
  · rw [if_neg hm]
    by_cases hex : ∃ j, (s.icache j).Names ROOTDEV m
    · obtain ⟨j, hj⟩ := hex
      have hji : j ≠ i := by
        rintro rfl
        exact hm (hj.2.2.symm.trans hi.2.2)
      rw [ht.view (h.names.mpr hj), hs.view hj, h.inode_ne hs hi hji hj.1]
    · rw [view_of_not_names fun j hj => hex ⟨j, h.names.mp hj⟩,
        view_of_not_names fun j hj => hex ⟨j, hj⟩, h.disk]
      exact Function.update_of_ne hm _ _

theorem tidy (h : Saved i n e s t) (hs : s.Tidy) (htype : e.type ≠ 0) : t.Tidy where
  dev := fun j hj => by
    by_cases hji : j = i
    · rw [hji, h.entry] at hj ⊢
      exact hs.dev i hj
    · rw [h.icache j hji] at hj ⊢
      exact hs.dev j hj
  nonneg := fun j => by
    by_cases hji : j = i
    · rw [hji, h.entry]
      exact hs.nonneg i
    · rw [h.icache j hji]
      exact hs.nonneg j
  unique := fun j k m hj hk => hs.unique j k m (h.names.mp hj) (h.names.mp hk)
  read := fun j hj => by
    by_cases hji : j = i
    · rw [hji, h.entry]
      exact fun hc => htype hc.2
    · rw [h.icache j hji] at hj ⊢
      exact hs.read j hj

theorem kept (h : Saved i n e s t) (hs : s.Tidy) (hi : (s.icache i).Names ROOTDEV n)
    (ht : t.Tidy) (hk : s.Kept m) : t.Kept m where
  inum := by
    rw [h.disk]
    exact hk.inum
  linked := fun htype => by
    by_cases hm : m = n
    · rw [hm]
      exact .inr ⟨i, h.names.mpr hi⟩
    · rw [h.view hs hi ht, if_neg hm] at htype ⊢
      exact (hk.linked htype).imp id fun ⟨k, hname⟩ => ⟨k, h.names.mpr hname⟩

/-- Paths can be looked up when no directory has been changed. -/
theorem walkable (h : Saved i n e s t) (hs : s.Walkable p) (hi : (s.icache i).Names ROOTDEV n)
    (htype : e.type ≠ 0) (hsame : e.type = T_DIR → e = s.view n) : t.Walkable p := by
  have ht := h.tidy hs.tidy htype
  have hview : ∀ m, (t.view m).type = T_DIR → t.view m = s.view m := fun m hdir => by
    rw [h.view hs.tidy hi ht] at hdir ⊢
    split at hdir
    · rename_i hm
      rw [if_pos hm, hm]
      exact hsame hdir
    · rename_i hm
      rw [if_neg hm]
  have hsb : t.disk.sb = s.disk.sb := by rw [h.disk]
  have hdata : t.disk.data = s.disk.data := by rw [h.disk]
  have hbitmap : t.disk.bitmap = s.disk.bitmap := by rw [h.disk]
  refine ⟨⟨ht, ?_, fun m hm hdir => ?_, fun m hm hdir k name m' hslot => ?_⟩, fun j hj => ?_,
    h.kept hs.tidy hi ht hs.root, ?_, ?_⟩
  · exact ⟨fun b hb => by rw [hbitmap]; exact hs.ok.marked b (by rwa [hsb] at hb),
      by rw [hsb]; exact hs.ok.small⟩
  · rw [hsb] at hm
    have hold := hview m hdir
    rw [hold] at hdir ⊢
    exact (hs.dir m hm hdir).congr hdata hbitmap hsb
  · rw [hsb] at hm
    have hold := hview m hdir
    rw [hold] at hdir hslot
    rw [Dinode.slots_congr hdata] at hslot
    exact h.kept hs.tidy hi ht (hs.entry m hm hdir k name m' hslot)
  · by_cases hji : j = i
    · rw [hji, h.entry] at hj ⊢
      exact hs.idle i hj
    · rw [h.icache j hji] at hj ⊢
      exact hs.idle j hj
  · rw [h.user]
    exact (h.names.mpr hs.names_cwd).1
  · rw [h.user, hsb, (h.names.mpr hs.names_cwd).2.2]
    exact hs.here

end Saved

/-! ### The entry -/

/-- The directory is locked, and an entry is written to it. -/
theorem Holds.wp_iunlockput_written {Q : Unit → Fs → Prop} {E : Stop → Prop} {o : ℕ}
    (hold : s.Holds t dp m) (ht : EntryWritten dp o T (t.locked dp) u)
    (hQ : Q ⟨⟩ ((u.unlocked dp).dropped dp)) : wp (FsM.iunlockput dp) Q E u := by
  have hentry : u.icache dp = { t.icache dp with busy := true, valid := true, d := u.dip dp } := by
    rw [ht.entry, icache_locked]
  have hlink : (u.dip dp).nlink = (s.view m).nlink := by
    rw [ht.fields, dip_locked, hold.inode]
  unfold FsM.iunlockput
  rw [wp_bind]
  refine Fs.wp_iunlock (by rw [hentry]) (by rw [hentry]; exact hold.names.1) (wp_iput_drop ?_ hQ)
  rw [icache_unlocked, hentry]
  rintro ⟨hone, -, hzero⟩
  change (u.dip dp).nlink = 0 at hzero
  rw [hlink] at hzero
  rcases hold.kept.linked hold.type with hne | ⟨k, hk⟩
  · exact hne hzero
  · have hpos := hk.1
    have href := hold.ref
    rw [hold.only k hk] at hpos
    change (t.icache dp).ref = 1 at hone
    omega

/-- The name is added to the directory, or nothing is changed. -/
theorem Walkable.wp_linkName {Q : Bool → Fs → Prop} (h : s.Walkable p) (hone : s.OneBitmap)
    (hi : (s.icache i).Names ROOTDEV n) (hfile : (s.view n).type ≠ T_DIR)
    (hbad : ∀ t, s.Alike t → Q false t)
    (hlinked : ∀ t T, s.log.Logs T t.log → T.card ≤ 4 →
      ((t.icache i).valid = true → t.dip i = s.view n) → Q true t) :
    wp (FsM.linkName p i path) Q (fun _ => True) s := by
  unfold FsM.linkName
  rw [wp_bind]
  refine h.wp_nameiparent (.inl trivial) (.inl trivial) (fun _ t ht => wp_pure.mpr (hbad t ht))
    fun t dp d last _ _ ht hk htype => ?_
  change wp (FsM.ilock dp >>= fun _ => _) _ _ _
  rw [wp_bind]
  refine ht.wp_ilock hk (.inl trivial) (.inl trivial) fun hold => ?_
  rw [wp_bind, wp_ip, wp_bind, wp_ip, wp_ite]
  refine ⟨fun _ => ?_, fun _ => ?_⟩
  · rw [wp_bind]
    exact hold.wp_iunlockput .refl fun u hu => wp_pure.mpr (hbad u hu)
  · unfold FsM.dirlink
    rw [wp_bind, wp_bind]
    refine hold.wp_dirlookup h.toGraph htype (.inl trivial) (fun _ => ?_) fun u j k m hfind hu => ?_
    · have hdip : (t.locked dp).dip dp = s.view d := dip_locked.trans hold.inode
      have hdisk : (t.locked dp).disk = s.disk := hold.disk
      have hwf := (h.dir d hold.kept.inum htype).wf
      refine wp_dirlinkNew_any (by rw [hdip, htype]; decide) ?_ fun o u T _ hu => ?_
      · rw [hdip, hdisk]
        exact .of_wellFormed hwf
      · rw [wp_bind]
        refine hold.wp_iunlockput_written hu (wp_pure.mpr ?_)
        have hdi : i ≠ dp := by
          rintro rfl
          have hname := (hold.names_iff h.tidy).mpr (.inl hi)
          rw [← hname.2.2, hold.names.2.2, htype] at hfile
          exact hfile rfl
        have hsame : ((u.unlocked dp).dropped dp).icache i = t.icache i := by
          rw [dropped, icache_setIp_ne hdi, unlocked, icache_setIp_ne hdi, hu.icache i hdi, locked,
            icache_setIp_ne hdi]
        obtain ⟨b, c, hT⟩ := hu.bound (by rw [OneBitmap, hdisk]; exact hone)
        refine hlinked _ T ?_ ((Finset.card_le_card hT).trans Finset.card_le_four) fun hvalid => ?_
        · rw [← hold.back.log]
          exact hu.logs
        · rw [hsame] at hvalid
          rw [dip, hsame, h.tidy.view hi, ← (hold.entry hi.1).inode, inode, if_pos hvalid]
    · change wp (FsM.iput j >>= fun _ => pure (-1)) _ _ _
      rw [wp_bind]
      have hkept : (t.locked dp).Kept m :=
        (hold.toRefers.kept h.tidy
          (h.entry d hold.kept.inum htype k _ m (Slots.slot_of_find hfind))).locked
      refine hu.wp_iput hkept fun v hv => ?_
      rw [wp_pure, wp_bind]
      exact hold.wp_iunlockput hv fun w hw => wp_pure.mpr (hbad w hw)

/-! ### Counting a link -/

theorem log_counted {f : ℤ → ℤ} :
    ((s.locked i).counted i f).log = s.log.write (IBLOCK (s.icache i).inum) := by
  rw [counted, log_saved, icache_locked]
  rfl

theorem saved_counted {f : ℤ → ℤ} (hidle : (t.icache i).busy = false)
    (hinum : (t.icache i).inum = n) :
    Saved i n { t.inode i with nlink := short (f (t.inode i).nlink) } t
      (((t.locked i).counted i f).unlocked i) where
  disk := by
    subst hinum
    change ((t.locked i).counted i f).disk = _
    rw [counted, disk_saved, icache_locked, dip_locked]
    rfl
  entry := by
    rw [icache_unlocked, icache_counted, icache_locked, dip_locked]
    simp only [hidle]
  icache := fun j hj => by
    rw [unlocked, icache_setIp_ne hj]
    change ((t.locked i).setIp i _).icache j = _
    rw [icache_setIp_ne hj, locked, icache_setIp_ne hj]
  user := rfl
  io := rfl

/-- An inode that has been read and not changed. -/
theorem saved_relocked (hidle : (t.icache i).busy = false)
    (hdisk : t.disk.dinode n = t.inode i) :
    Saved i n (t.inode i) t ((t.locked i).unlocked i) where
  disk := by
    change t.disk = _
    rw [← hdisk, Function.update_eq_self]
  entry := by
    rw [icache_unlocked, icache_locked]
    simp only [hidle]
  icache := fun j hj => by rw [unlocked, icache_setIp_ne hj, locked, icache_setIp_ne hj]
  user := rfl
  io := rfl

/-- What has been saved last counts. -/
theorem Saved.undone (ha : Saved i n d s t) (hb : Saved i n e s u) (hv : u.Alike v)
    (hw : Saved i n d v w) (hs : s.Tidy) (hi : (s.icache i).Names ROOTDEV n) (hd : d.type ≠ 0)
    (he : e.type ≠ 0) : t.Alike { w with log := t.log } where
  disk := by
    change w.disk = t.disk
    rw [hw.disk, hv.disk, hb.disk, ha.disk, Function.update_idem]
  log := rfl
  user := by
    change w.user = t.user
    rw [hw.user, hv.user, hb.user, ha.user]
  io := by
    change w.io = t.io
    rw [hw.io, hv.io, hb.io, ha.io]
  ref := fun j => by
    change (w.icache j).ref = (t.icache j).ref
    have href := hv.ref j
    by_cases hj : j = i
    · rw [hj] at href ⊢
      rw [hw.entry, ha.entry]
      rw [hb.entry] at href
      exact href
    · rw [hw.icache j hj, href, hb.icache j hj, ha.icache j hj]
  entry := fun j hpos => by
    by_cases hj : j = i
    · rw [hj, ha.entry] at hpos
      rw [hj]
      have hentry := hv.entry i (by rw [hb.entry]; exact hpos)
      have hu := hb.entry
      refine ⟨?_, ?_, ?_, ?_, ?_, fun _ => ?_⟩
      · change (w.icache i).dev = _
        rw [hw.entry, ha.entry, hentry.dev, hu]
      · change (w.icache i).inum = _
        rw [hw.entry, ha.entry, hentry.inum, hu]
      · change (w.icache i).busy = _
        rw [hw.entry, ha.entry, hentry.busy, hu]
      · change w.inode i = _
        rw [hw.inode_self, ha.inode_self]
      · change (w.icache i).Stale ↔ _
        rw [hw.entry, ha.entry]
        exact iff_of_false (fun hc => hd hc.2) fun hc => hd hc.2
      · change (w.icache i).valid = true
        rw [hw.entry]
    · rw [ha.icache j hj] at hpos
      have hu := hb.icache j hj
      have hentry := hv.entry j (by rw [hu]; exact hpos)
      have htidy := hv.tidy (hb.tidy hs he)
      refine ⟨?_, ?_, ?_, ?_, ?_, fun hvalid => ?_⟩
      · change (w.icache j).dev = _
        rw [hw.icache j hj, ha.icache j hj, hentry.dev, hu]
      · change (w.icache j).inum = _
        rw [hw.icache j hj, ha.icache j hj, hentry.inum, hu]
      · change (w.icache j).busy = _
        rw [hw.icache j hj, ha.icache j hj, hentry.busy, hu]
      · change w.inode j = _
        rw [hw.inode_ne htidy (hv.names.mpr (hb.names.mpr hi)) hj (by rw [hv.ref, hu]; exact hpos),
          hentry.inode, hb.inode_ne hs hi hj hpos, ha.inode_ne hs hi hj hpos]
      · change (w.icache j).Stale ↔ _
        rw [hw.icache j hj, ha.icache j hj, hentry.stale, hu]
      · change (w.icache j).valid = true
        rw [ha.icache j hj, ← hu] at hvalid
        rw [hw.icache j hj]
        exact hentry.valid hvalid

/-! ### `link` -/

/-- One link more and one less. -/
theorem short_pred_succ (hz : 0 ≤ z ∧ z < 32768) : short (short (z + 1) - 1) = z := by
  rw [short, short, Int.bmod_def, Int.bmod_def]
  split <;> split <;> omega

/-- The link is not there, and is not counted. -/
theorem Holds.wp_uncounted {Q : ℤ → Fs → Prop} (hold : s.begun.Holds t i n) (h : s.Settled p)
    (hb : Saved i n { t.inode i with nlink := short ((t.inode i).nlink + 1) } t u)
    (hw : u.Alike w) (hlog : s.begun.log.Logs {IBLOCK n} u.log)
    (hQ : ∀ r t, s.log.Sections t.log → (r < 0 → s.Unchanged t) → Q r t) :
    wp (do
      FsM.ilock i
      FsM.setNlink i (· - 1)
      FsM.iunlockput i
      FsM.endOp
      return -1) Q (fun _ => True) w := by
  have hnlink := h.begun.nlink n hold.kept.inum
  rw [← hold.inode] at hnlink
  have hpos : 0 < (u.icache i).ref := by
    rw [hb.entry]
    exact hold.names.1
  have hentry := hw.entry i hpos
  have hinode : w.inode i = { t.inode i with nlink := short ((t.inode i).nlink + 1) } :=
    hentry.inode.trans hb.inode_self
  have hinum : (w.icache i).inum = n := by
    rw [hentry.inum, hb.entry]
    exact hold.names.2.2
  have hidle : (w.icache i).busy = false := by
    rw [hentry.busy, hb.entry]
    exact hold.idle
  have href : (w.icache i).ref = (s.icache i).ref + 1 := by
    rw [hw.ref, hb.entry]
    exact hold.ref
  have hone : 1 ≤ (w.icache i).ref := by
    rw [hw.ref]
    exact hpos
  have hlast := saved_counted (f := (· - 1)) hidle hinum
  have hsame : { w.inode i with nlink := short ((w.inode i).nlink - 1) } = t.inode i := by
    rw [hinode]
    exact congrArg (fun z => { t.inode i with nlink := z }) (short_pred_succ hnlink)
  rw [hsame] at hlast
  rw [wp_bind]
  refine wp_ilock_of hone (.inl trivial) (.inl trivial) fun _ _ => ?_
  rw [wp_bind]
  refine wp_setNlink .true ?_
  unfold FsM.iunlockput
  rw [wp_bind, wp_bind]
  refine Fs.wp_iunlock ?_ ?_ (wp_iput_drop ?_ ?_)
  · rw [icache_counted, icache_locked]
  · rw [icache_counted, icache_locked]
    exact hone
  · rw [hlast.entry]
    rintro ⟨hlast, -, hzero⟩
    change (w.icache i).ref = 1 at hlast
    change (t.inode i).nlink = 0 at hzero
    rw [hold.inode] at hzero
    rcases hold.kept.linked hold.type with hne | ⟨k, hk⟩
    · exact hne hzero
    · have hk' := hk.1
      rw [hold.only k hk] at hk'
      change 0 < (s.icache i).ref at hk'
      omega
  · have hdisk : t.disk.dinode n = t.inode i := by
      rw [hold.disk, h.begun.disk_view, hold.inode]
    have hundone := (saved_relocked hold.idle hdisk).undone hb hw hlast (hold.tidy h.begun.tidy)
      hold.names hold.inode_type hold.inode_type
    rw [wp_bind, wp_endOp, wp_pure]
    refine hQ _ _ (.one (T := {IBLOCK n} ∪ {IBLOCK n}) ?_ ?_) fun _ => ?_
    · refine hlog.trans ?_
      change FsLog.Logs _ _ ((w.locked i).counted i (· - 1)).log
      rw [log_counted, hinum, hw.log]
      exact .one
    · rw [Finset.union_self, Finset.card_singleton]
      decide
    · exact (hold.relocked.back.trans hundone.dropped).unchanged

theorem Settled.wp_sysLink {Q : ℤ → Fs → Prop} {old new : Option (List UInt8)} (h : s.Settled p)
    (hQ : ∀ r t, s.log.Sections t.log → (r < 0 → s.Unchanged t) → Q r t) :
    wp (FsM.sysLink p old new) Q (fun _ => True) s := by
  have hargs : wp (pure (-1 : ℤ) : FsM ℤ) Q (fun _ => True) s :=
    wp_pure.mpr (hQ _ _ .refl fun _ => .refl)
  have hquiet : ∀ t, s.begun.Alike t →
      wp (FsM.endOp >>= fun _ => pure (-1 : ℤ)) Q (fun _ => True) t := by
    intro t ht
    rw [wp_bind, wp_endOp, wp_pure]
    exact hQ _ _ ht.sections fun _ => ht.unchanged
  unfold FsM.sysLink
  cases old with
  | none => exact hargs
  | some old =>
      cases new with
      | none => exact hargs
      | some new =>
          change wp (FsM.beginOp >>= fun _ => FsM.namei p old >>= fun _ => _) _ _ _
          rw [wp_bind, wp_beginOp, wp_bind]
          refine h.begun.toWalkable.wp_namei (.inl trivial) (.inl trivial)
            (fun _ t ht => hquiet t ht) fun t i n _ ht hk => ?_
          change wp (FsM.ilock i >>= fun _ => _) _ _ _
          rw [wp_bind]
          refine ht.wp_ilock hk (.inl trivial) (.inl trivial) fun hold => ?_
          rw [wp_bind, wp_ip, wp_ite]
          refine ⟨fun _ => ?_, fun hfile => ?_⟩
          · rw [wp_bind]
            exact hold.wp_iunlockput .refl hquiet
          · have hfile' : (t.inode i).type ≠ T_DIR := by
              rw [icache_locked] at hfile
              exact hfile
            have hb := saved_counted (f := (· + 1)) hold.idle hold.names.2.2
            have hwalk := hold.toRefers.walkable h.begun.toWalkable
            have hnew := hb.walkable hwalk hold.names hold.inode_type
              fun hdir => absurd hdir hfile'
            have hview := hb.view (m := n) hwalk.tidy hold.names hnew.tidy
            rw [if_pos rfl] at hview
            have hlog : s.begun.log.Logs {IBLOCK n}
                (((t.locked i).counted i (· + 1)).unlocked i).log := by
              change FsLog.Logs _ _ ((t.locked i).counted i (· + 1)).log
              rw [log_counted, hold.names.2.2, show t.log = s.begun.log from hold.back.log]
              exact .one
            rw [wp_bind]
            refine wp_setNlink .true ?_
            rw [wp_bind]
            refine Fs.wp_iunlock ?_ ?_ ?_
            · rw [icache_counted, icache_locked]
            · rw [icache_counted, icache_locked]
              exact hold.names.1
            rw [wp_bind]
            refine hnew.wp_linkName ?_ (hb.names.mpr hold.names) ?_ (fun w hw => ?_)
              fun u T hT hcard hkept => ?_
            · rw [OneBitmap, hb.disk]
              change t.disk.sb.size ≤ BPB
              rw [hold.disk]
              exact h.one
            · rw [hview]
              exact hfile'
            · exact hold.wp_uncounted h hb hw hlog hQ
            · change wp (FsM.iput i >>= fun _ => FsM.endOp >>= fun _ => pure 0) _ _ _
              rw [wp_bind]
              refine wp_iput_drop ?_ ?_
              · rintro ⟨-, hvalid, hzero⟩
                have hdip := hkept hvalid
                rw [hview] at hdip
                change (u.dip i).nlink = 0 at hzero
                rw [hdip, hold.inode] at hzero
                exact short_succ (h.begun.nlink n hold.kept.inum) hzero
              · rw [wp_bind, wp_endOp, wp_pure]
                refine hQ _ _ (.one (hlog.trans hT) ?_) fun hneg => absurd hneg (by decide)
                refine (Finset.card_union_le _ _).trans ?_
                rw [Finset.card_singleton]
                exact (Nat.add_le_add_left hcard 1).trans (by decide)

end Linked

end Fs

end Xv6
