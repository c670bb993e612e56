import Xv6.Fs.Linked
import Xv6.Fs.Resting
import Xv6.Fs.Unlinked

/-!
# The calls that link and unlink

`link` counts a link of the file before it writes the name, and takes it back if it cannot write it.
`unlink` zeroes the name first and then takes back its links: that of the inode, and that of the
directory when the inode is a directory too. In between the links are with the call.
-/

namespace Xv6

open Foundation

namespace FsDisk

variable {disk : FsDisk} {d m : ℕ} {key : List UInt8}

/-- A name of a file makes one link. -/
theorem links_le (h : (disk.dinode m).type ≠ T_DIR) : disk.links d m key ≤ {m} := by
  unfold links
  split
  · exact le_rfl
  · exact Multiset.zero_le _

theorem links_le_pair : disk.links d m key ≤ {m, d} := by
  unfold links
  split
  · split
    · exact le_rfl
    · exact Multiset.singleton_le.mpr (Multiset.mem_cons_self m {d})
  · exact Multiset.zero_le _

end FsDisk

namespace Fs

/-- A name would be added to a directory that is full. -/
def Crowds (s : Fs) (p : Fin NPROC) (path : List UInt8) : Prop :=
  ∃ d last, s.resolveParent (s.start p path) (elements path) = some d ∧
    (elements path).getLast? = some last ∧
    ((s.view d).slots s.disk).find (Dirent.key last) = none ∧
    (∀ k < ((s.view d).slots s.disk).size, ((s.view d).slots s.disk).slot k ≠ none) ∧
    (s.view d).size = MAXFILE * BSIZE

section Linking

variable {s t u : Fs} {p : Fin NPROC} {i dp : Fin NINODE} {n b c d k l m : ℕ}
  {e e' : Fin NINODE → ℤ} {L M : Finset (Fin NINODE)} {o o' : Multiset ℕ} {E : Stop → Prop}
  {path name last : List UInt8} {f : ℤ → ℤ}

/-- The directory that the call has locked is not full if the name is to be added to it. -/
theorem Holds.not_full (hold : s.Holds t dp d) (hcrowds : ¬ s.Crowds p path)
    (hparent : s.resolveParent (s.start p path) (elements path) = some d)
    (hlast : (elements path).getLast? = some last)
    (hfind : ((t.locked dp).slots dp).find (Dirent.key last) = none) :
    ¬ (t.locked dp).Full dp := by
  rintro ⟨hall, hsize⟩
  have hslots := hold.toRefers.slots
  have hdip : (t.locked dp).dip dp = s.view d := dip_locked.trans hold.inode
  rw [hslots] at hfind hall
  rw [hdip] at hsize
  exact hcrowds ⟨d, last, hparent, hlast, hfind, hall, hsize⟩

namespace Running

/-- The links do not matter to a path. -/
theorem crowds_iff (h : s.Running e L o b l) (ht : t.Running e' M o' c k) {z : ℤ}
    (hdisk : t.disk = { s.disk with
      dinode := Function.update s.disk.dinode n { s.disk.dinode n with nlink := z } })
    (huser : t.user = s.user)
    (hcwd : (t.icache (s.user.proc p).cwd).inum = (s.icache (s.user.proc p).cwd).inum) :
    t.Crowds p path ↔ s.Crowds p path := by
  have hview : ∀ n, (t.view n).type = (s.view n).type ∧ (t.view n).size = (s.view n).size ∧
      (t.view n).slots t.disk = (s.view n).slots s.disk := by
    intro n
    rw [h.view_eq, ht.view_eq, FsDisk.fields_of_counted hdisk n, hdisk]
    exact ⟨rfl, rfl, rfl⟩
  have hlookup : t.lookup = s.lookup := by
    funext n name
    rw [lookup, lookup, (hview n).1, (hview n).2.2]
  have hstart : t.start p path = s.start p path := by rw [start, start, huser, hcwd]
  have hparent : t.resolveParent (t.start p path) (elements path) =
      s.resolveParent (s.start p path) (elements path) := by
    rw [resolveParent, resolveParent, resolve, resolve, hstart, hlookup]
    simp only [(hview _).1]
  unfold Crowds
  rw [hparent]
  refine exists_congr fun d => exists_congr fun x => ?_
  rw [(hview d).2.1, (hview d).2.2]

theorem crowds_saved (h : s.Running e L o b l) (hold : s.Holds t i n) {z : ℤ}
    (hb : Saved i n { t.inode i with nlink := z } t u) (hu : u.Running e' M o' c k)
    (hcwd : 0 < (s.icache (s.user.proc p).cwd).ref) : u.Crowds p path ↔ s.Crowds p path := by
  refine h.crowds_iff hu (n := n) (z := z) ?_ (hb.user.trans hold.back.user) ?_
  · have hinode : t.inode i = s.disk.dinode n := by rw [hold.inode, h.view_eq]
    rw [hb.disk, hinode, hold.disk]
  · have hsame := (hold.entry hcwd).inum
    by_cases hi : (s.user.proc p).cwd = i
    · rw [hi] at hsame ⊢
      rw [hb.entry, ← hsame]
    · rw [hb.icache _ hi]
      exact hsame

/-! ### `link` -/

/-- The name is added to the directory, or nothing is changed. -/
theorem wp_linkName {Q : Bool → Fs → Prop} (hE : Lax E) (h : s.Running e ∅ {n} (b + 2) l)
    (he : ∀ j, 0 ≤ e j) (hp : (s.user.proc p).state = .live) (hi : 0 < (s.icache i).ref)
    (hinum : (s.icache i).inum = n) (htype : (s.disk.dinode n).type ≠ T_DIR)
    (hspace : E (.panic .dirlink) ∨ ¬ s.Crowds p path) (hbad : ∀ t, s.Alike t → Q false t)
    (hlinked : ∀ t, t.Running e ∅ 0 0 l → Q true t) :
    wp (FsM.linkName p i path) Q E s := by
  have hx := h.shows i hi
  have halloc := hx.alloc
  have hn := hx.inum
  rw [hinum] at halloc hn
  unfold FsM.linkName
  rw [wp_bind]
  refine (h.walkable he hp).wp_nameiparent (.inl (hE _ (by decide))) (.inl (hE _ (by decide)))
    (fun _ t ht => wp_pure.mpr (hbad t ht)) fun t dp d last hparent hlast ht hk hdir => ?_
  change wp (FsM.ilock dp >>= fun _ => _) _ _ _
  rw [wp_bind]
  refine h.wp_ilock_found hE ht hk fun _ hold hlocked => ?_
  have hmem := Finset.mem_insert_self dp ∅
  have hdip : (t.locked dp).dip dp = s.view d := dip_locked.trans hold.inode
  have hdisk : (t.locked dp).disk = s.disk := hold.disk
  have hsame : ((t.locked dp).icache i).inum = n := by
    by_cases hid : i = dp
    · rw [hid, icache_locked, ← hid]
      change (t.icache i).inum = n
      rw [(hold.entry hi).inum, hinum]
    · rw [Fs.locked, icache_setIp_ne hid, (hold.entry hi).inum, hinum]
  rw [wp_bind, wp_ip, wp_bind, wp_ip, wp_ite]
  refine ⟨fun _ => ?_, fun _ => ?_⟩
  · rw [wp_bind]
    exact hold.wp_iunlockput .refl fun u hu => wp_pure.mpr (hbad u hu)
  · rw [wp_bind, hsame]
    refine hlocked.wp_dirlink (r := 0) hE hmem (by rw [hdip]; exact hdir) ?_ ?_ ?_
      (hspace.imp id fun hcrowds hfind => hold.not_full hcrowds hparent hlast hfind)
      (fun _ u hu => ?_) fun u hu _ => ?_
    · exact h.pos_of_type halloc
    · rw [hdisk]
      exact hn
    · rw [hdisk, add_zero]
      exact FsDisk.links_le htype
    · rw [wp_bind]
      exact hold.wp_iunlockput hu fun v hv => wp_pure.mpr (hbad v hv)
    · rw [wp_bind]
      refine hu.wp_iunlockput hE hmem fun v hv _ _ => wp_pure.mpr (hlinked v ?_)
      rwa [add_sub_cancel_right, Finset.erase_insert (Finset.notMem_empty dp)] at hv

/-- The link has no name, and is taken back. -/
theorem wp_uncounted {Q : ℤ → Fs → Prop} (hE : Lax E) (h : s.Running (Pi.single i 1) ∅ {n} b l)
    (hi : 0 < (s.icache i).ref) (hinum : (s.icache i).inum = n) (hQ : ∀ r t, t.Resting → Q r t) :
    wp (do
      FsM.ilock i
      FsM.setNlink i (· - 1)
      FsM.iunlockput i
      FsM.endOp
      return -1) Q E s := by
  have hmem := Finset.mem_insert_self i ∅
  rw [wp_bind]
  refine h.wp_ilock hE hi fun _ hlocked => ?_
  have hsame : ((s.locked i).icache i).inum = n := by
    rw [icache_locked]
    exact hinum
  rw [← Multiset.cons_zero, ← hsame] at hlocked
  rw [wp_bind]
  refine wp_setNlink hE ?_
  rw [wp_bind]
  refine (hlocked.counted_pred hmem).wp_iunlockput hE hmem fun t ht _ _ => ?_
  rw [sub_self, Finset.erase_insert (Finset.notMem_empty i)] at ht
  rw [wp_bind, wp_endOp, wp_pure]
  exact hQ _ _ ht.ended.rest

theorem wp_sysLink {Q : ℤ → Fs → Prop} {old new : Option (List UInt8)} (hE : Lax E)
    (h : s.Resting) (hp : (s.user.proc p).state = .live)
    (hroomy : ∀ path, new = some path → s.Roomy)
    (hspace : E (.panic .dirlink) ∨ ∀ path, new = some path → ¬ s.begun.Crowds p path)
    (hQ : ∀ r t, t.Resting → Q r t) : wp (FsM.sysLink p old new) Q E s := by
  have hquiet : ∀ t, t.Resting → ∀ r, wp (FsM.endOp >>= fun _ => pure (r : ℤ)) Q E t :=
    fun t ht r => by
      rw [wp_bind, wp_endOp, wp_pure]
      exact hQ _ _ (Running.ended ht)
  unfold FsM.sysLink
  cases old with
  | none => exact wp_pure.mpr (hQ _ _ h)
  | some old =>
      cases new with
      | none => exact wp_pure.mpr (hQ _ _ h)
      | some new =>
          have h := (h.roomy (hroomy new rfl)).mono le_rfl (show 2 ≤ 6 by decide) le_rfl
          change wp (FsM.beginOp >>= fun _ => FsM.namei p old >>= fun _ => _) _ _ _
          rw [wp_bind, wp_beginOp, wp_bind]
          refine (h.begun.walkable (fun _ => le_rfl) hp).wp_namei (.inl (hE _ (by decide)))
            (.inl (hE _ (by decide))) (fun _ t ht => hquiet t (h.begun.alike ht).rest _)
            fun t i n _ ht hk => ?_
          change wp (FsM.ilock i >>= fun _ => _) _ _ _
          rw [wp_bind]
          refine h.begun.wp_ilock_found hE ht hk fun _ hold hlocked => ?_
          have hmem := Finset.mem_insert_self i ∅
          have hempty := Finset.erase_insert (Finset.notMem_empty i)
          rw [wp_bind, wp_ip, wp_ite]
          refine ⟨fun _ => ?_, fun hfile => ?_⟩
          · rw [wp_bind]
            exact hold.wp_iunlockput .refl fun u hu => hquiet u (h.begun.alike hu).rest _
          · have hinum : ((t.locked i).icache i).inum = n := by
              rw [icache_locked]
              exact hold.names.2.2
            rw [wp_bind]
            refine wp_setNlink hE ?_
            rw [wp_bind]
            refine (hlocked.counted_succ hmem).wp_iunlock hmem fun hu => ?_
            rw [hinum, hempty, zero_add, Multiset.cons_zero] at hu
            have hb := saved_counted (f := (· + 1)) hold.idle hold.names.2.2
            have hpos : 0 < ((((t.locked i).counted i (· + 1)).unlocked i).icache i).ref := by
              rw [hb.entry]
              exact hold.names.1
            have hsame : ((((t.locked i).counted i (· + 1)).unlocked i).icache i).inum = n := by
              rw [hb.entry]
              exact hold.names.2.2
            rw [wp_bind]
            refine hu.wp_linkName (b := 0) hE (fun j => ?_) ?_ hpos hsame ?_
              (hspace.imp id fun hcrowds => ?_) (fun v hv => ?_) fun v hv => ?_
            · rw [Pi.single_apply]
              split <;> decide
            · rw [hb.user, show t.user = s.user from hold.back.user]
              exact hp
            · rw [hb.disk]
              change (Function.update t.disk.dinode n _ n).type ≠ T_DIR
              rw [Function.update_self]
              rw [icache_locked] at hfile
              exact hfile
            · rw [h.begun.crowds_saved hold hb hu (h.begun.cwd_pos le_rfl hp)]
              exact hcrowds new rfl
            · exact (hu.alike hv).wp_uncounted hE (by rw [hv.ref]; exact hpos)
                ((hv.entry i hpos).inum.trans hsame) hQ
            · change wp (FsM.iput i >>= fun _ => FsM.endOp >>= fun _ => pure 0) _ _ _
              rw [wp_bind]
              refine hv.wp_iput hE ?_ (Finset.notMem_empty i) fun w hw _ _ => hquiet w ?_ _
              · have href := hv.refs i
                rw [Pi.single_eq_same] at href
                omega
              · rw [sub_self] at hw
                exact hw.rest

/-! ### `unlink` -/

/-- The links of a name that has been zeroed are taken back. -/
theorem wp_unlinkEntry {Q : Unit → Fs → Prop} (hE : Lax E)
    (h : s.Running (e + Pi.single i 1) (insert i L) 0 b l) (hi : i ∉ L) (hdp : dp ∈ L)
    (htype : (s.dip dp).type = T_DIR)
    (hslot : (s.slots dp).slot k = some (name, (s.icache i).inum)) (hname : Ordinary name)
    (hQ : ∀ t, t.Running (e - Pi.single dp 1) (L.erase dp) 0 0 l → Q ⟨⟩ t) :
    wp (FsM.unlinkEntry dp i (Dirent.size * k)) Q E s := by
  have hne : dp ≠ i := fun heq => hi (heq ▸ hdp)
  have hmem := Finset.mem_insert_of_mem (b := i) hdp
  have hself := Finset.mem_insert_self i L
  have hrest : ∀ u c, u.Running (e + Pi.single i 1) (insert i L) {(s.icache i).inum} c l →
      (u.icache i).inum = (s.icache i).inum → wp (do
        FsM.iunlockput dp
        FsM.setNlink i (· - 1)
        FsM.iunlockput i) Q E u := by
    intro u c hu hinum
    rw [wp_bind]
    refine hu.wp_iunlockput hE hmem fun v hv hicache _ => ?_
    have hiL : i ∈ (insert i L).erase dp := Finset.mem_erase.mpr ⟨hne.symm, hself⟩
    rw [wp_bind]
    refine wp_setNlink hE ?_
    rw [← Multiset.cons_zero, ← hinum, ← hicache i hne.symm] at hv
    refine (hv.counted_pred hiL).wp_iunlockput hE hiL fun w hw _ _ => hQ w ?_
    rw [add_sub_right_comm, add_sub_cancel_right, Finset.erase_right_comm,
      Finset.erase_insert hi] at hw
    exact hw
  unfold FsM.unlinkEntry FsM.panic
  rw [wp_bind]
  refine h.wp_unname hE hmem htype hslot fun t ht hw => ?_
  have hentry : t.icache i = s.icache i := hw.icache i hne.symm
  have hdir : (t.icache dp).inum = (s.icache dp).inum := by rw [hw.entry]
  have hdip : (t.icache i).d.type = (s.disk.dinode (s.icache i).inum).type := by
    rw [hentry, ← dip, h.dip_eq hself]
  rw [add_zero, FsDisk.links, if_pos hname, ← hdip] at ht
  rw [if_neg (not_not.mpr rfl), wp_bind, wp_ip, wp_bind, wp_when]
  refine ⟨fun hdirs => wp_setNlink hE ?_, fun hfile => ?_⟩
  · rw [if_pos hdirs, Multiset.insert_eq_cons, ← Multiset.cons_zero (s.icache dp).inum,
      Multiset.cons_swap, ← hdir] at ht
    refine hrest _ b ?_ ?_
    · have hcount := ht.counted_pred hmem
      rwa [Multiset.cons_zero] at hcount
    · change ((t.setIp dp _).icache i).inum = _
      rw [icache_setIp_ne hne.symm, hentry]
  · rw [if_neg hfile] at ht
    exact hrest t b ht (by rw [hentry])

/-- The name is taken out of the directory, or nothing is changed. -/
theorem wp_unlinkName {Q : Bool → Fs → Prop} (hE : Lax E) (h : s.Running e L 0 b l) (hdp : dp ∈ L)
    (htype : (s.dip dp).type = T_DIR) (hbad : ∀ t, s.Alike t → Q false t)
    (hgone : ∀ t, t.Running (e - Pi.single dp 1) (L.erase dp) 0 0 l → Q true t) :
    wp (FsM.unlinkName dp name) Q E s := by
  have hdir := h.directory hdp htype
  have hdev : (s.icache dp).dev = ROOTDEV := (h.shows dp (h.held dp hdp).1).dev
  unfold FsM.unlinkName FsM.panic
  rw [wp_ite]
  refine ⟨fun _ => wp_pure.mpr (hbad _ .refl), fun hdots => ?_⟩
  have hname : Ordinary (Dirent.key name) := by
    refine ⟨fun heq => hdots (.inl ?_), fun heq => hdots (.inr ?_)⟩
    · exact (@Dirent.namecmp_iff name ⟨0, dot⟩).mpr heq
    · exact (@Dirent.namecmp_iff name ⟨0, dotdot⟩).mpr heq
  rw [wp_bind]
  cases hfind : (s.slots dp).find (Dirent.key name) with
  | none =>
      have hlookup : FsM.dirlookup dp name s = .ok (none, s) := by
        rw [hdir.dirlookup, lookedUp, hfind]
      rw [wp_of_ok hlookup]
      exact wp_pure.mpr (hbad _ .refl)
  | some x =>
      obtain ⟨k, m⟩ := x
      have hslot := Slots.slot_of_find hfind
      cases hget : s.icache.iget ROOTDEV m with
      | none =>
          have hlookup : FsM.dirlookup dp name s = .error (.panic .igetNoInodes) := by
            rw [hdir.dirlookup, lookedUp, hfind, hdev]
            simp only [hget]
          rw [wp_of_error hlookup]
          exact hE _ (by decide)
      | some y =>
          obtain ⟨i, c⟩ := y
          have hlookup : FsM.dirlookup dp name s =
              .ok (some (i, Dirent.size * k), { s with icache := c }) := by
            rw [hdir.dirlookup, lookedUp, hfind, hdev]
            simp only [hget]
          rw [wp_of_ok hlookup]
          have hr := iget_refers h.tidy hget
          change wp (FsM.ilock i >>= fun _ => _) _ _ _
          rw [wp_bind]
          refine h.wp_ilock_found hE hr (h.kept (h.entry_lt hdp htype hslot))
            fun hi hold hlocked => ?_
          have hne : dp ≠ i := fun heq => hi (heq ▸ hdp)
          have hinum : ((({ s with icache := c } : Fs).locked i).icache i).inum = m := by
            rw [icache_locked]
            exact hold.names.2.2
          have hsame := h.slots_congr hlocked hdp (Finset.mem_insert_of_mem hdp) hold.disk (by
            rw [Fs.locked, icache_setIp_ne hne]
            exact (hold.entry (h.held dp hdp).1).inum)
          rw [wp_bind, wp_ip, wp_ite]
          refine ⟨fun _ => wp_throw.mpr (hE _ (by decide)), fun _ => ?_⟩
          rw [wp_bind]
          refine wp_hasEntries (hE _ (by decide)) ?_ fun found =>
            wp_ite.mpr ⟨fun _ => ?_, fun _ => ?_⟩
          · rw [hlocked.dip_eq (Finset.mem_insert_self i L)]
            exact .of_wellFormed (hlocked.sound.files _
              (hlocked.inum_lt (Finset.mem_insert_self i L))
              (hlocked.shows i (hlocked.held i (Finset.mem_insert_self i L)).1).alloc)
          · rw [wp_bind]
            exact hold.wp_iunlockput .refl fun v hv => wp_pure.mpr (hbad v hv)
          · rw [wp_bind]
            refine hlocked.wp_unlinkEntry hE hi hdp (by rw [hsame.1]; exact htype) ?_ hname
              fun v hv => wp_pure.mpr (hgone v hv)
            rw [hsame.2, hslot, hinum]

theorem wp_sysUnlink {Q : ℤ → Fs → Prop} {path : Option (List UInt8)} (hE : Lax E)
    (h : s.Running 0 ∅ 0 b l) (hp : (s.user.proc p).state = .live) (hQ : ∀ r t, t.Resting → Q r t) :
    wp (FsM.sysUnlink p path) Q E s := by
  have hquiet : ∀ t, t.Resting → ∀ r, wp (FsM.endOp >>= fun _ => pure (r : ℤ)) Q E t :=
    fun t ht r => by
      rw [wp_bind, wp_endOp, wp_pure]
      exact hQ _ _ (Running.ended ht)
  unfold FsM.sysUnlink
  cases path with
  | none => exact wp_pure.mpr (hQ _ _ h.rest)
  | some path =>
      change wp (FsM.beginOp >>= fun _ => FsM.nameiparent p path >>= fun _ => _) _ _ _
      rw [wp_bind, wp_beginOp, wp_bind]
      refine (h.begun.walkable (fun _ => le_rfl) hp).wp_nameiparent
        (.inl (hE _ (by decide))) (.inl (hE _ (by decide)))
        (fun _ t ht => hquiet t (h.begun.alike ht).rest _) fun t dp d last _ _ ht hk htype => ?_
      change wp (FsM.ilock dp >>= fun _ => _) _ _ _
      rw [wp_bind]
      refine h.begun.wp_ilock_found hE ht hk fun _ hold hlocked => ?_
      have hmem := Finset.mem_insert_self dp ∅
      have hdip : (t.locked dp).dip dp = s.begun.view d := dip_locked.trans hold.inode
      rw [wp_bind]
      refine hlocked.wp_unlinkName hE hmem (by rw [hdip]; exact htype)
        (fun u hu => ?_) fun u hu => ?_
      · change wp (FsM.iunlockput dp >>= fun _ => _) _ _ _
        rw [wp_bind]
        exact hold.wp_iunlockput hu fun v hv => hquiet v (h.begun.alike hv).rest _
      · rw [zero_add, sub_self, Finset.erase_insert (Finset.notMem_empty dp)] at hu
        exact hquiet u hu.rest _

end Running

end Linking

end Fs

end Xv6
