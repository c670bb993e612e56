import Xv6.Fs.Linking
import Xv6.Fs.Opened

/-!
# The calls that make files

`create` makes an inode with one link, which is with the call until the name is in the directory. A
new directory counts a link of its parent first, for `..`, and then has its own two entries written.
The name goes into a directory in which it has not been found, so `dirlink` does not refuse it.
-/

namespace Xv6

open Foundation

namespace Fs

/-- The directory that the call has locked is as it was. -/
structure SameDir (dp : Fin NINODE) (s t : Fs) : Prop where
  user : t.user = s.user
  inum : (t.icache dp).inum = (s.icache dp).inum
  type : (t.dip dp).type = (s.dip dp).type
  size : (t.dip dp).size = (s.dip dp).size
  slots : t.slots dp = s.slots dp

section Creating

variable {s t u : Fs} {p : Fin NPROC} {i j dp : Fin NINODE} {n b c d k l m type off : ℕ}
  {e e' : Fin NINODE → ℤ} {L M : Finset (Fin NINODE)} {o o' : Multiset ℕ} {E : Stop → Prop}
  {path name last src : List UInt8} {f : ℤ → ℤ} {major minor : ℤ}

namespace SameDir

theorem trans (h : SameDir dp s t) (h' : SameDir dp t u) : SameDir dp s u where
  user := h'.user.trans h.user
  inum := h'.inum.trans h.inum
  type := h'.type.trans h.type
  size := h'.size.trans h.size
  slots := h'.slots.trans h.slots

theorem full (h : SameDir dp s t) : t.Full dp ↔ s.Full dp := by
  rw [Full, Full, h.slots, h.size]

/-- Its own links do not matter. -/
theorem counted : SameDir dp s (s.counted dp f) := by
  have hentry := icache_counted (s := s) (i := dp) (f := f)
  refine ⟨rfl, by rw [hentry], by rw [dip, hentry], by rw [dip, hentry], ?_⟩
  rw [Fs.slots, Fs.slots, dip, hentry, disk_counted]
  rfl

theorem made {x : Dinode} (hm : Made i n x s t) (hne : dp ≠ i) : SameDir dp s t := by
  have hentry := hm.icache_ne hne
  refine ⟨hm.user, by rw [hentry], by rw [dip, hentry, ← dip], by rw [dip, hentry, ← dip], ?_⟩
  rw [Fs.slots, Fs.slots, dip, hentry, hm.disk]
  rfl

/-- Another file has been written to. -/
theorem written (h : s.Running e L o b l) (hdp : dp ∈ L) (hi : i ∈ L) (hne : dp ≠ i)
    (hw : Written i off src s t) : SameDir dp s t := by
  have hentry : t.icache dp = s.icache dp := hw.icache dp hne
  have hdip : t.dip dp = s.dip dp := congrArg Inode.d hentry
  have htype := h.type_ne hdp
  have htype' := h.type_ne hi
  refine ⟨hw.user, by rw [hentry], by rw [hdip], by rw [hdip], ?_⟩
  rw [Fs.slots, Fs.slots, hdip]
  rw [h.dip_eq hdp] at htype ⊢
  rw [h.dip_eq hi] at htype'
  refine Dinode.slots_of_contents (Dinode.contents_congr fun c hc => ?_)
  refine (hw.others c ((h.sound.files _ (h.inum_lt hdp) htype).used c hc) fun hc' => ?_).2
  rw [h.dip_eq hi] at hc'
  exact h.sound.apart _ (h.inum_lt hdp) _ (h.inum_lt hi) (h.inum_ne hdp hi hne) c ⟨htype, hc⟩
    ⟨htype', hc'⟩

end SameDir

namespace Running

/-! ### `.` and `..` -/

/-- An entry of a new directory makes no link that is not there. -/
theorem wp_dirlink_dots {Q : ℤ → Fs → Prop} (hE : Lax E) (h : s.Running e L o (b + 2) l)
    (hi : i ∈ L) (htype : (s.dip i).type = T_DIR) (hpos : 0 < m) (hm : m < s.disk.sb.ninodes)
    (hname : ¬ Ordinary (Dirent.key name)) (hsize : (s.dip i).size ≤ Dirent.size)
    (hno : ∀ t, Q (-1) t)
    (hnew : ∀ t, t.Running e L o b l → Written i (Dirent.size * (s.slots i).vacant)
      (Dirent.bytes ⟨m, name⟩) s t → Q 0 t) :
    wp (FsM.dirlink i name m) Q E s := by
  refine h.wp_dirlink (r := o) hE hi htype hpos hm ?_ (.inr fun _ hfull => ?_) (fun _ t _ => hno t)
    hnew
  · rw [FsDisk.links, if_neg hname, zero_add]
  · rw [hfull.2] at hsize
    exact absurd hsize (by decide)

/-- The entries of a new directory, and the link of its parent. -/
theorem wp_createDots {Q : Unit → Fs → Prop} (hE : Lax E) (h : s.Running e L o (b + 4) (l + 1))
    (hdp : dp ∈ L) (hi : i ∈ L) (hne : dp ≠ i) (htype : (s.dip i).type = T_DIR)
    (hsize : (s.dip i).size = 0)
    (hQ : ∀ t, t.Running e L ((s.icache dp).inum ::ₘ o) b l → SameDir dp s t →
      (t.icache i).inum = (s.icache i).inum → Q ⟨⟩ t) :
    wp (FsM.createDots dp i) Q E s := by
  have hcounted := h.counted_succ hdp
  have hentry : (s.counted dp (· + 1)).icache i = s.icache i := by
    change (s.setIp dp _).icache i = s.icache i
    exact icache_setIp_ne hne.symm
  have hdip : (s.counted dp (· + 1)).dip i = s.dip i := congrArg Inode.d hentry
  have hsb : (s.counted dp (· + 1)).disk.sb = s.disk.sb := rfl
  have hslots : ((s.counted dp (· + 1)).slots i).size = 0 := by
    change (((s.counted dp (· + 1)).dip i).size + (Dirent.size - 1)) / Dirent.size = 0
    rw [hdip, hsize]
    rfl
  unfold FsM.createDots FsM.panic
  rw [wp_bind]
  refine wp_setNlink hE ?_
  rw [wp_bind, wp_ip, wp_bind, hentry]
  refine (hcounted : Running _ _ _ (b + 2 + 2) _ _).wp_dirlink_dots hE hi
    (by rw [hdip]; exact htype) (h.inum_pos (h.held i hi).1) (by rw [hsb]; exact h.inum_lt hi)
    (by decide) (by rw [hdip, hsize]; exact Nat.zero_le _) (fun t => ?_) fun t ht hw => ?_
  · exact wp_ite.mpr ⟨fun _ => wp_throw.mpr (hE _ (by decide)), fun hc => absurd (by decide) hc⟩
  · refine wp_ite.mpr ⟨fun hc => absurd hc (by decide), fun _ => ?_⟩
    have hparent : (t.icache dp).inum = (s.icache dp).inum := by
      rw [hw.icache dp hne, icache_counted]
    have hown : (t.icache i).inum = (s.icache i).inum := by rw [hw.entry, hentry]
    have hsize' : (t.dip i).size ≤ Dirent.size := by
      have hle := (s.counted dp (· + 1)).slots i |>.vacant_le
      rw [hslots] at hle
      rw [hw.size (by rw [hdip, hsize, Nat.le_zero.mp hle]; exact Nat.zero_le _), hdip, hsize,
        Nat.le_zero.mp hle, Dirent.length_bytes]
      exact le_rfl
    have htype' : (t.dip i).type = T_DIR := by
      rw [hw.fields, hdip]
      exact htype
    rw [wp_bind, wp_ip, wp_bind, hparent]
    refine ht.wp_dirlink_dots hE hi htype' (h.inum_pos (h.held dp hdp).1)
      (by rw [hw.sb, hsb]; exact h.inum_lt hdp) (by decide) hsize' (fun v => ?_)
      fun v hv hw' => ?_
    · exact wp_ite.mpr ⟨fun _ => wp_throw.mpr (hE _ (by decide)), fun hc => absurd (by decide) hc⟩
    · refine wp_ite.mpr ⟨fun hc => absurd hc (by decide), fun _ => wp_pure.mpr (hQ v hv ?_ ?_)⟩
      · exact (SameDir.counted.trans (.written hcounted hdp hi hne hw)).trans
          (.written ht hdp hi hne hw')
      · rw [hw'.entry, ← hown]

/-! ### `create` -/

/-- The name of the new inode is put in the directory, which does not have it. -/
theorem wp_enter {Q : Fin NINODE → Fs → Prop} (hE : Lax E) (h : s.Running e L o 2 l) (hdp : dp ∈ L)
    (hi : i ∈ L) (htype : (s.dip dp).type = T_DIR)
    (hfind : (s.slots dp).find (Dirent.key name) = none)
    (hspace : E (.panic .dirlink) ∨ ¬ s.Full dp)
    (ho : s.disk.links (s.icache dp).inum (s.icache i).inum (Dirent.key name) ≤ o)
    (hQ : ∀ t, t.Running (e - Pi.single dp 1) (L.erase dp) 0 0 l → t.user = s.user → Q i t) :
    wp (do
      let x ← FsM.ip i
      let r ← FsM.dirlink dp name x.inum
      if r < 0 then FsM.panic .createDirlink
      else do
        FsM.iunlockput dp
        return i) Q E s := by
  rw [wp_bind, wp_ip, wp_bind]
  refine (h : Running _ _ _ (0 + 2) _ _).wp_dirlink (r := 0) hE hdp htype
    (h.inum_pos (h.held i hi).1) (h.inum_lt hi) (by rw [add_zero]; exact ho)
    (hspace.imp id fun hfull _ => hfull) (fun hthere => absurd hfind hthere) fun t ht hw => ?_
  refine wp_ite.mpr ⟨fun hc => absurd hc (by decide), fun _ => ?_⟩
  rw [wp_bind]
  refine ht.wp_iunlockput hE hdp fun u hu _ huser => wp_pure.mpr (hQ u hu ?_)
  exact huser.trans hw.user

/-- `create`, from `ialloc` on. -/
theorem wp_createNew {Q : Fin NINODE → Fs → Prop} (hE : Lax E) (h : s.Running e L 0 6 1)
    (hdp : dp ∈ L) (htype : (s.dip dp).type = T_DIR)
    (hfind : (s.slots dp).find (Dirent.key name) = none)
    (hspace : E (.panic .dirlink) ∨ ¬ s.Full dp) (hnew : type ≠ 0)
    (hQ : ∀ i t, i ∉ L →
      t.Running (e + Pi.single i 1 - Pi.single dp 1) ((insert i L).erase dp) 0 0 0 →
        t.user = s.user → Q i t) :
    wp (FsM.createNew dp name type major minor) Q E s := by
  unfold FsM.createNew
  rw [wp_bind, wp_ip, (h.shows dp (h.held dp hdp).1).dev]
  refine wp_newInode hE (fun j hj => (h.shows j hj).alloc) fun n i a hm => ?_
  have hi : i ∉ L := fun hL => by
    have hpos := (h.held i hL).1
    rw [hm.unused] at hpos
    exact absurd hpos (lt_irrefl _)
  have hne : dp ≠ i := fun heq => hi (heq ▸ hdp)
  have hmade := h.made (by decide) hm hnew rfl rfl fun _ => rfl
  have hmem := Finset.mem_insert_of_mem (b := i) hdp
  have hself := Finset.mem_insert_self i L
  have hsame := SameDir.made hm hne
  have hinum : (a.icache i).inum = n := by rw [hm.icache_self]
  have hrest : ∀ t o, t.Running (e + Pi.single i 1) (insert i L) o 2 0 → SameDir dp s t →
      (t.icache i).inum = n →
      t.disk.links (s.icache dp).inum n (Dirent.key name) ≤ o → wp (do
        let x ← FsM.ip i
        let r ← FsM.dirlink dp name x.inum
        if r < 0 then FsM.panic .createDirlink
        else do
          FsM.iunlockput dp
          return i) Q E t := by
    intro t o ht hdir hnum ho
    refine ht.wp_enter hE hmem hself (by rw [hdir.type]; exact htype)
      (by rw [hdir.slots]; exact hfind) (hspace.imp id fun hfull => by rwa [hdir.full])
      (by rw [hdir.inum, hnum]; exact ho) fun u hu huser =>
        hQ i u hi hu (huser.trans hdir.user)
  rw [wp_bind, wp_when]
  refine ⟨fun hdir => ?_, fun hfile => ?_⟩
  · refine (hmade : Running _ _ _ (2 + 4) (0 + 1) _).wp_createDots hE hmem hself hne ?_ ?_
      fun t ht hdots hnum => hrest t _ ht (hsame.trans hdots) (hnum.trans hinum) ?_
    · rw [dip, hm.icache_self]
      exact hdir
    · rw [dip, hm.icache_self]
      rfl
    · rw [hsame.inum, Multiset.cons_swap]
      exact FsDisk.links_le_pair
  · refine hrest a _ (hmade.mono le_rfl (by decide) (by decide)) hsame hinum ?_
    refine FsDisk.links_le ?_
    rw [hm.disk]
    change (Function.update s.disk.dinode n _ n).type ≠ T_DIR
    rw [Function.update_self]
    exact hfile

theorem wp_create {Q : Option (Fin NINODE) → Fs → Prop} (hE : Lax E) (h : s.Running 0 ∅ 0 6 1)
    (hp : (s.user.proc p).state = .live) (hspace : E (.panic .dirlink) ∨ ¬ s.Crowds p path)
    (hnew : type ≠ 0) (hnone : ∀ t, t.Running 0 ∅ 0 0 0 → Q none t)
    (hsome : ∀ i t, t.Running (Pi.single i 1) {i} 0 0 0 → t.user = s.user → Q (some i) t) :
    wp (FsM.create p path type major minor) Q E s := by
  refine (h.walkable (fun _ => le_rfl) hp).wp_create hE (fun t ht => hnone t (h.alike ht).rest)
    (fun u i m hold => ?_) fun u dp d last hparent hlast _ hold hdir hmiss => ?_
  · have htype := hold.type
    rw [h.view_eq] at htype
    have hu := (h.refers hold.toRefers hold.kept.inum htype).locked hold.names.1
    rw [zero_add] at hu
    exact hsome i _ (hu.mono le_rfl (Nat.zero_le _) (Nat.zero_le _)) hold.back.user
  · have hu := (h.refers hold.toRefers hold.kept.inum (by
      rw [← h.view_eq, hdir]
      decide)).locked hold.names.1
    have hdip : (u.locked dp).dip dp = s.view d := dip_locked.trans hold.inode
    have hfind : ((u.locked dp).slots dp).find (Dirent.key last) = none := by
      rw [hold.toRefers.slots]
      exact hmiss
    refine hu.wp_createNew hE (Finset.mem_insert_self dp ∅) (by rw [hdip]; exact hdir) hfind
      (hspace.imp id fun hcrowds => hold.not_full hcrowds hparent hlast hfind) hnew
      fun i t hi ht huser => hsome i t ?_ (huser.trans hold.back.user)
    have hne : i ≠ dp := fun heq => hi (heq ▸ Finset.mem_insert_self i ∅)
    rw [zero_add, add_sub_cancel_left, Finset.erase_insert_of_ne hne,
      Finset.erase_insert (Finset.notMem_empty dp)] at ht
    exact ht

/-! ### `mkdir`, `mknod` and `open` -/

theorem wp_created {Q : ℤ → Fs → Prop} (hE : Lax E) (h : s.Running (Pi.single i 1) {i} 0 b l)
    (hQ : ∀ r t, t.Resting → Q r t) : wp (FsM.created (some i)) Q E s := by
  change wp (FsM.iunlockput i >>= fun _ => FsM.endOp >>= fun _ => pure 0) Q E s
  rw [wp_bind]
  refine h.wp_iunlockput hE (Finset.mem_singleton_self i) fun t ht _ _ => ?_
  rw [sub_self, Finset.erase_singleton] at ht
  rw [wp_bind, wp_endOp, wp_pure]
  exact hQ _ _ ht.ended.rest

theorem wp_created_none {Q : ℤ → Fs → Prop} (h : s.Running 0 ∅ 0 b l)
    (hQ : ∀ r t, t.Resting → Q r t) : wp (FsM.created none) Q E s := by
  change wp (FsM.endOp >>= fun _ => pure (-1)) Q E s
  rw [wp_bind, wp_endOp, wp_pure]
  exact hQ _ _ h.ended.rest

/-- What `mkdir` and `mknod` do. -/
theorem wp_makes {Q : ℤ → Fs → Prop} (hE : Lax E) (h : s.Running 0 ∅ 0 6 1)
    (hp : (s.user.proc p).state = .live) (hspace : E (.panic .dirlink) ∨ ¬ s.Crowds p path)
    (hnew : type ≠ 0) (hQ : ∀ r t, t.Resting → Q r t) :
    wp (do
      let i ← FsM.create p path type major minor
      FsM.created i) Q E s := by
  rw [wp_bind]
  exact h.wp_create hE hp hspace hnew (fun t ht => ht.wp_created_none hQ)
    fun i t ht _ => ht.wp_created hE hQ

theorem wp_sysMkdir {Q : ℤ → Fs → Prop} {path : Option (List UInt8)} (hE : Lax E)
    (h : s.Resting) (hp : (s.user.proc p).state = .live)
    (hroomy : ∀ path', path = some path' → s.Roomy)
    (hspace : E (.panic .dirlink) ∨ ∀ path', path = some path' → ¬ s.begun.Crowds p path')
    (hQ : ∀ r t, t.Resting → Q r t) : wp (FsM.sysMkdir p path) Q E s := by
  unfold FsM.sysMkdir
  rw [wp_bind, wp_beginOp]
  cases path with
  | none => exact (Running.begun h).wp_created_none hQ
  | some path =>
      exact (h.roomy (hroomy path rfl)).begun.wp_makes hE hp
        (hspace.imp id fun hcrowds => hcrowds path rfl) (by decide) hQ

theorem wp_sysMknod {Q : ℤ → Fs → Prop} {path : Option (List UInt8)} {major minor : Option ℤ}
    (hE : Lax E) (h : s.Resting) (hp : (s.user.proc p).state = .live)
    (hroomy : ∀ path', path = some path' → s.Roomy)
    (hspace : E (.panic .dirlink) ∨ ∀ path', path = some path' → ¬ s.begun.Crowds p path')
    (hQ : ∀ r t, t.Resting → Q r t) : wp (FsM.sysMknod p path major minor) Q E s := by
  unfold FsM.sysMknod
  rw [wp_bind, wp_beginOp]
  cases path with
  | none => exact (Running.begun h).wp_created_none hQ
  | some path =>
      cases major with
      | none => exact (Running.begun h).wp_created_none hQ
      | some major =>
          cases minor with
          | none => exact (Running.begun h).wp_created_none hQ
          | some minor =>
              exact (h.roomy (hroomy path rfl)).begun.wp_makes hE hp
                (hspace.imp id fun hcrowds => hcrowds path rfl) (by decide) hQ

/-- The inode that `open` finds or makes. -/
theorem wp_openInode {Q : Option (Fin NINODE) → Fs → Prop} {omode : UInt32} (hE : Lax E)
    (h : s.Running 0 ∅ 0 0 0) (hp : (s.user.proc p).state = .live)
    (hroomy : omode &&& O_CREATE ≠ 0 → s.Running 0 ∅ 0 6 1)
    (hspace : E (.panic .dirlink) ∨ (omode &&& O_CREATE ≠ 0 → ¬ s.Crowds p path))
    (hnone : ∀ t, t.Running 0 ∅ 0 0 0 → Q none t)
    (hsome : ∀ i t, t.Running (Pi.single i 1) {i} 0 0 0 → t.user = s.user → Q (some i) t) :
    wp (FsM.openInode p path omode) Q E s := by
  unfold FsM.openInode
  rw [wp_ite]
  refine ⟨fun hcreate => ?_, fun _ => ?_⟩
  · exact (hroomy hcreate).wp_create hE hp (hspace.imp id fun hcrowds => hcrowds hcreate)
      (by decide) hnone hsome
  · rw [wp_bind]
    refine (h.walkable (fun _ => le_rfl) hp).wp_namei (.inl (hE _ (by decide)))
      (.inl (hE _ (by decide))) (fun _ t ht => wp_pure.mpr (hnone t (h.alike ht).rest))
      fun t i n _ ht hk => ?_
    change wp (FsM.ilock i >>= fun _ => _) _ _ _
    rw [wp_bind]
    refine h.wp_ilock_found hE ht hk fun _ hold hlocked => ?_
    rw [wp_bind, wp_ip, wp_ite]
    refine ⟨fun _ => ?_, fun _ => wp_pure.mpr (hsome i _ ?_ hold.back.user)⟩
    · rw [wp_bind]
      exact hold.wp_iunlockput .refl fun u hu => wp_pure.mpr (hnone u (h.alike hu).rest)
    · rw [zero_add] at hlocked
      exact hlocked

/-- An open file is taken, and a descriptor for it. -/
theorem wp_openFile {Q : Option (Fin NFILE × Fin NOFILE) → Fs → Prop} (h : s.Running e L o b l)
    (hnone : Q none s)
    (hsome : ∀ f fd t, t.Running e L o b l → (t.user.ftable f).type = .none →
      (t.user.ftable f).ref = 1 → Q (some (f, fd)) t) :
    wp (FsM.openFile p) Q E s := by
  unfold FsM.openFile
  rw [wp_bind]
  refine wp_filealloc (fun _ => wp_pure.mpr hnone) fun f hfree => ?_
  have hclosed := h.closed f hfree
  have hset := h.setFile (f := f) (y := { s.user.ftable f with ref := 1 }) fun hc =>
    absurd hc one_ne_zero
  change Running (e + one (s.user.inodes (.inr f)) - one (s.user.inodes (.inr f))) _ _ _ _ _ at hset
  rw [add_sub_cancel_right] at hset
  rw [wp_bind]
  refine wp_fdalloc (fun _ => ?_) fun fd _ => ?_
  · rw [wp_bind]
    exact wp_fileclose_taken hfree hclosed (wp_pure.mpr hnone)
  · refine wp_pure.mpr (hsome f fd _ hset.setOfile ?_ ?_)
    · change (Function.update s.user.ftable f _ f).type = .none
      rw [Function.update_self]
      exact hclosed
    · change (Function.update s.user.ftable f _ f).ref = 1
      rw [Function.update_self]

theorem wp_sysOpen {Q : ℤ → Fs → Prop} {path : Option (List UInt8)} {omode : Option UInt32}
    (hE : Lax E) (h : s.Resting) (hp : (s.user.proc p).state = .live)
    (hroomy : ∀ path' omode', path = some path' → omode = some omode' →
      omode' &&& O_CREATE ≠ 0 → s.Roomy)
    (hspace : E (.panic .dirlink) ∨ ∀ path' omode', path = some path' → omode = some omode' →
      omode' &&& O_CREATE ≠ 0 → ¬ s.begun.Crowds p path')
    (hQ : ∀ r t, t.Resting → Q r t) : wp (FsM.sysOpen p path omode) Q E s := by
  unfold FsM.sysOpen
  cases path with
  | none => exact wp_pure.mpr (hQ _ _ h)
  | some path =>
      cases omode with
      | none => exact wp_pure.mpr (hQ _ _ h)
      | some omode =>
          change wp (FsM.beginOp >>= fun _ => FsM.openInode p path omode >>= fun _ => _) _ _ _
          rw [wp_bind, wp_beginOp, wp_bind]
          refine (Running.begun h).wp_openInode hE hp
            (fun hcreate => (h.roomy (hroomy path omode rfl rfl hcreate)).begun)
            (hspace.imp id fun hcrowds => hcrowds path omode rfl rfl) (fun t ht => ?_)
            fun i t ht _ => ?_
          · change wp (FsM.endOp >>= fun _ => pure (-1)) Q E t
            rw [wp_bind, wp_endOp, wp_pure]
            exact hQ _ _ ht.ended.rest
          · have hmem := Finset.mem_singleton_self i
            change wp (FsM.openFile p >>= fun _ => _) _ _ _
            rw [wp_bind]
            refine ht.wp_openFile ?_ fun f fd u hu hclosed href => ?_
            · change wp (FsM.iunlockput i >>= fun _ => FsM.endOp >>= fun _ => pure (-1)) Q E t
              rw [wp_bind]
              refine ht.wp_iunlockput hE hmem fun v hv _ _ => ?_
              rw [sub_self, Finset.erase_singleton] at hv
              rw [wp_bind, wp_endOp, wp_pure]
              exact hQ _ _ hv.ended.rest
            · change wp (FsM.iunlock i >>= fun _ => FsM.endOp >>= fun _ => _) _ _ _
              rw [wp_bind]
              refine hu.wp_iunlock hmem fun hv => ?_
              rw [Finset.erase_singleton] at hv
              rw [wp_bind, wp_endOp, wp_bind, wp_modify, wp_pure]
              have hset := hv.ended.setFile (f := f) (y := { u.user.ftable f with
                type := .inode, ip := i, off := 0
                readable := omode &&& O_WRONLY = 0
                writable := omode &&& O_WRONLY ≠ 0 ∨ omode &&& O_RDWR ≠ 0 }) fun hc =>
                  absurd (href.symm.trans hc) one_ne_zero
              have hcell : (u.unlocked i).ended.user.inodes (.inr f) = none := by
                change (if (u.user.ftable f).type = .inode then _ else none) = none
                rw [hclosed]
                rfl
              rw [hcell, one_none, if_pos rfl, one_some, add_zero, sub_self] at hset
              exact hQ _ _ hset.rest

end Running

end Creating

end Fs

end Xv6
