import Xv6.Fs.View

/-!
# Directories as a graph

A directory leads to inodes by their names. In a graph that is well formed, a directory has the
blocks of its entries, no name twice, and only names of inodes that are there; looking names up
takes and gives back references and changes nothing.
-/

namespace Xv6

open Foundation

namespace Dinode

/-- The entries can be read, and no name is there twice. -/
structure DirOk (d : Dinode) (disk : FsDisk) : Prop where
  wf : d.WellFormed disk
  aligned : Dirent.size ∣ d.size
  distinct : (d.slots disk).Distinct

end Dinode

namespace Fs

/-- The inode is not freed when a reference to it is given back. -/
structure Kept (s : Fs) (n : ℕ) : Prop where
  /-- the bound of the superblock, which `ialloc` keeps and `iget` does not test -/
  inum : n < s.disk.sb.ninodes
  linked : (s.view n).type ≠ 0 →
    (s.view n).nlink ≠ 0 ∨ ∃ k, (s.icache k).Names ROOTDEV n

structure Graph (s : Fs) : Prop where
  tidy : s.Tidy
  ok : s.disk.Ok
  dir : ∀ n < s.disk.sb.ninodes, (s.view n).type = T_DIR → (s.view n).DirOk s.disk
  entry : ∀ n < s.disk.sb.ninodes, (s.view n).type = T_DIR → ∀ k name m,
    ((s.view n).slots s.disk).slot k = some (name, m) → s.Kept m

/-- There is one reference more to this inode, which can be locked. -/
structure Holds (s t : Fs) (i : Fin NINODE) (n : ℕ) : Prop extends Refers s t i n where
  idle : (t.icache i).busy = false
  type : (s.view n).type ≠ 0
  kept : s.Kept n

/-- The inode that a name in a directory leads to. -/
def lookup (s : Fs) (n : ℕ) (name : List UInt8) : Option ℕ :=
  if (s.view n).type = T_DIR then
    (((s.view n).slots s.disk).find (Dirent.key name)).map Prod.snd
  else none

section Rules

variable {s t u : Fs} {i j k : Fin NINODE} {m n : ℕ} {name : List UInt8} {E : Stop → Prop}

/-! ### `iget` and `iput` -/

theorem setIp_self : s.setIp i (s.icache i) = s := by
  rw [setIp, Function.update_eq_self]

/-- One reference more to an inode in the cache. -/
theorem dup_refers (hs : s.Tidy) (h : (s.icache i).Names ROOTDEV n) :
    s.Refers (s.setIp i { s.icache i with ref := (s.icache i).ref + 1 }) i n := by
  have hpos := h.1
  refine ⟨?_, ?_, fun k hk => hs.unique k i n hk h, fun hno => absurd hpos hno, ?_, ?_⟩
  · have hsame : (s.setIp i { s.icache i with ref := (s.icache i).ref + 1 }).dropped i = s := by
      rw [dropped, icache_setIp, setIp_setIp]
      change s.setIp i { s.icache i with ref := (s.icache i).ref + 1 - 1 } = s
      rw [add_sub_cancel_right]
      exact setIp_self
    rw [hsame]
    exact Alike.refl
  · rw [icache_setIp]
    exact ⟨Int.lt_add_one_of_le hpos.le, h.2⟩
  · rw [inode_setIp, hs.view h]
    rfl
  · rw [icache_setIp]
    exact hs.read i hpos

theorem iget_refers (hs : s.Tidy) {c : Icache} (h : s.icache.iget ROOTDEV n = some (i, c)) :
    s.Refers { s with icache := c } i n := by
  rcases Icache.iget_cases h with ⟨hname, rfl⟩ | ⟨hnot, hzero, rfl⟩
  · exact dup_refers hs hname
  · change s.Refers (s.setIp i _) i n
    refine ⟨⟨rfl, rfl, rfl, rfl, fun j => ?_, fun j hj => ?_⟩, ?_, fun k hk => absurd hk (hnot k),
      fun _ => ?_, ?_, ?_⟩
    · rw [dropped, icache_setIp, setIp_setIp]
      by_cases hj : j = i
      · rw [hj, icache_setIp, hzero]
        rfl
      · rw [icache_setIp_ne hj]
    · have hji : j ≠ i := by
        rintro rfl
        omega
      rw [dropped, setIp_setIp]
      exact SameInode.setIp_ne hji
    · rw [icache_setIp]
      exact ⟨Int.one_pos, rfl, rfl⟩
    · rw [icache_setIp]
    · rw [inode_setIp, view_of_not_names hnot]
      rfl
    · rw [icache_setIp]
      exact fun hc => Bool.false_ne_true hc.1

theorem Spare.iget_isSome (h : s.Spare 1) : (s.icache.iget ROOTDEV n).isSome = true := by
  obtain ⟨i, hi⟩ := Finset.card_pos.mp (Nat.lt_of_succ_le h)
  exact Icache.iget_isSome (Finset.mem_filter.mp hi).2

theorem wp_iget_refers {Q : Fin NINODE → Fs → Prop} (hs : s.Tidy)
    (hspare : E (.panic .igetNoInodes) ∨ s.Spare 1) (hok : ∀ i t, s.Refers t i n → Q i t) :
    wp (FsM.iget ROOTDEV n) Q E s := by
  rw [wp_iget]
  cases hget : s.icache.iget ROOTDEV n with
  | some x => exact hok x.1 _ (iget_refers hs hget)
  | none =>
      refine hspare.resolve_right fun hspare => ?_
      have hsome := hspare.iget_isSome (n := n)
      rw [hget] at hsome
      cases hsome

/-- There is one reference more. -/
theorem wp_idup {Q : Unit → Fs → Prop}
    (hQ : Q ⟨⟩ (s.setIp i { s.icache i with ref := (s.icache i).ref + 1 })) :
    wp (FsM.idup i) Q E s := by
  unfold FsM.idup
  rw [wp_bind, wp_ip, wp_setIp]
  exact hQ

theorem wp_iput_drop {Q : Unit → Fs → Prop}
    (hno : ¬ ((s.icache i).ref = 1 ∧ (s.icache i).valid ∧ (s.icache i).d.nlink = 0))
    (hQ : Q ⟨⟩ (s.dropped i)) : wp (FsM.iput i) Q E s := by
  unfold FsM.iput
  rw [wp_bind, wp_ip, wp_bind, wp_when]
  refine ⟨fun hyes => absurd hyes hno, fun _ => ?_⟩
  rw [wp_bind, wp_ip, wp_setIp]
  exact hQ

/-- An inode that is kept is not freed. -/
theorem Kept.not_freed (hk : s.Kept n) (hinode : t.inode i = s.view n)
    (hread : ¬ (t.icache i).Stale)
    (href : ∀ k, (s.icache k).Names ROOTDEV n → 1 < (t.icache i).ref) :
    ¬ ((t.icache i).ref = 1 ∧ (t.icache i).valid ∧ (t.icache i).d.nlink = 0) := by
  rintro ⟨hone, hvalid, hzero⟩
  have htype := type_of_not_stale hread hvalid
  rw [hinode] at htype
  rcases hk.linked htype with hne | ⟨k, hname⟩
  · rw [inode, if_pos hvalid] at hinode
    rw [← hinode] at hne
    exact hne hzero
  · have hlt := href k hname
    omega

theorem Kept.locked (hk : s.Kept n) : (s.locked i).Kept n where
  inum := hk.inum
  linked := fun htype => by
    rw [view_locked] at htype ⊢
    exact (hk.linked htype).imp id fun ⟨k, hname⟩ => ⟨k, names_locked.mpr hname⟩

namespace Refers

theorem not_freed (h : s.Refers t i n) (hk : s.Kept n) :
    ¬ ((t.icache i).ref = 1 ∧ (t.icache i).valid ∧ (t.icache i).d.nlink = 0) := by
  refine hk.not_freed h.inode h.read fun k hname => ?_
  have href := h.ref
  have hpos := hname.1
  rw [h.only k hname] at hpos
  omega

theorem wp_iput {Q : Unit → Fs → Prop} (h : s.Refers t i n) (hk : s.Kept n)
    (hQ : ∀ u, s.Alike u → Q ⟨⟩ u) : wp (FsM.iput i) Q E t :=
  wp_iput_drop (h.not_freed hk) (hQ _ h.back)

/-- What is kept stays kept. -/
theorem kept (h : s.Refers t i n) (hs : s.Tidy) (hk : s.Kept m) : t.Kept m where
  inum := by
    rw [h.disk]
    exact hk.inum
  linked := fun htype => by
    rw [h.view hs] at htype ⊢
    exact (hk.linked htype).imp id fun ⟨k, hname⟩ => ⟨k, (h.names_iff hs).mpr (.inl hname)⟩

/-- `ilock` returns when the inode is not locked and not free. -/
theorem wp_ilock {Q : Unit → Fs → Prop} (h : s.Refers t i n) (hk : s.Kept n)
    (hidle : E .asleep ∨ (t.icache i).busy = false)
    (htype : E (.panic .ilockNoType) ∨ (s.view n).type ≠ 0)
    (hQ : s.Holds t i n → Q ⟨⟩ (t.locked i)) : wp (FsM.ilock i) Q E t := by
  refine wp_ilock_of h.names.1 hidle (by rwa [h.inode]) fun hfree hnew => hQ ⟨h, hfree, ?_, hk⟩
  rw [← h.inode]
  cases hvalid : (t.icache i).valid with
  | true => exact type_of_not_stale h.read hvalid
  | false => exact hnew hvalid

end Refers

/-! ### Locked inodes -/

namespace Holds

theorem inode_type (h : s.Holds t i n) : (t.inode i).type ≠ 0 := by
  rw [h.inode]
  exact h.type

theorem relocked (h : s.Holds t i n) : s.Refers ((t.locked i).unlocked i) i n :=
  h.toRefers.alike (Alike.relocked h.idle h.inode_type)

theorem wp_iunlock {Q : Unit → Fs → Prop} (h : s.Holds t i n) (hu : (t.locked i).Alike u)
    (hQ : ∀ v, s.Refers v i n → Q ⟨⟩ v) : wp (FsM.iunlock i) Q E u := by
  have hpos : 0 < ((t.locked i).icache i).ref := by
    rw [ref_locked]
    exact h.names.1
  refine Fs.wp_iunlock ?_ ?_ (hQ _ (h.relocked.alike hu.unlocked))
  · rw [(hu.entry i hpos).busy, icache_locked]
  · rw [hu.ref i]
    exact hpos

/-- The inode is given back. -/
theorem wp_iunlockput {Q : Unit → Fs → Prop} (h : s.Holds t i n) (hu : (t.locked i).Alike u)
    (hQ : ∀ v, s.Alike v → Q ⟨⟩ v) : wp (FsM.iunlockput i) Q E u := by
  unfold FsM.iunlockput
  rw [wp_bind]
  exact h.wp_iunlock hu fun v hv => hv.wp_iput h.kept hQ

/-- The inode is given back after another one has been found in it. -/
theorem wp_iunlockput_found {Q : Unit → Fs → Prop} (h : s.Holds t i m)
    (h' : (t.locked i).Refers u j n) (hs : s.Tidy) (hQ : ∀ v, s.Refers v j n → Q ⟨⟩ v) :
    wp (FsM.iunlockput i) Q E u := by
  have hpos : 0 < ((t.locked i).icache i).ref := by
    rw [ref_locked]
    exact h.names.1
  have hentry := h'.entry hpos
  have href : (t.icache i).ref ≤ (u.icache i).ref := by
    by_cases hj : i = j
    · have hone := h'.ref
      rw [ref_locked, ← hj] at hone
      omega
    · rw [h'.ref_ne hj, ref_locked]
  have hfirst := h.names.1
  unfold FsM.iunlockput
  rw [wp_bind]
  refine Fs.wp_iunlock (by rw [hentry.busy, icache_locked]) (by omega) ?_
  refine wp_iput_drop (h.kept.not_freed ?_ ?_ fun k hk => ?_)
    (hQ _ (h.toRefers.swap h' hs h.idle h.type))
  · rw [inode_unlock, hentry.inode, inode_locked, h.inode]
  · rw [icache_unlocked]
    change ¬ (u.icache i).Stale
    rw [hentry.stale, icache_locked]
    exact fun hc => h.inode_type hc.2
  · have hone := h.ref
    have hk' := hk.1
    rw [h.only k hk] at hk'
    rw [icache_unlocked]
    change 1 < (u.icache i).ref
    omega

end Holds

/-! ### `dirlookup` -/

theorem Refers.directory (h : s.Refers t i n) (hok : s.disk.Ok) (htype : (s.view n).type = T_DIR)
    (hdir : (s.view n).DirOk s.disk) : (t.locked i).Directory i := by
  have hdip : (t.locked i).dip i = s.view n := dip_locked.trans h.inode
  have hdisk : (t.locked i).disk = s.disk := h.disk
  have hslots : (t.locked i).slots i = (s.view n).slots s.disk := by
    rw [← hdip, ← hdisk]
    rfl
  refine ⟨?_, by rw [hdip]; exact htype, by rw [hdisk]; exact hok, ?_, ?_, ?_⟩
  · rw [ref_locked]
    exact h.names.1
  · rw [hdip, hdisk]
    exact hdir.wf
  · rw [hdip]
    exact hdir.aligned
  · rw [hslots]
    exact hdir.distinct

theorem Refers.slots (h : s.Refers t i n) :
    (t.locked i).slots i = (s.view n).slots s.disk := by
  have hdip : (t.locked i).dip i = s.view n := dip_locked.trans h.inode
  rw [← h.disk, ← hdip]
  rfl

/-- A name is looked up in a locked directory. -/
theorem Holds.wp_dirlookup {Q : Option (Fin NINODE × ℕ) → Fs → Prop} (h : s.Holds t i n)
    (hs : s.Graph) (htype : (s.view n).type = T_DIR)
    (hspare : E (.panic .igetNoInodes) ∨ s.Spare 2)
    (hnone : ((s.view n).slots s.disk).find (Dirent.key name) = none → Q none (t.locked i))
    (hok : ∀ u j k m, ((s.view n).slots s.disk).find (Dirent.key name) = some (k, m) →
      (t.locked i).Refers u j m → Q (some (j, Dirent.size * k)) u) :
    wp (FsM.dirlookup i name) Q E (t.locked i) := by
  have hdir := h.directory hs.ok htype (hs.dir n h.kept.inum htype)
  have hrun : FsM.dirlookup i name (t.locked i) = _ := hdir.dirlookup
  have hdev : ((t.locked i).icache i).dev = ROOTDEV := by
    rw [icache_locked]
    exact h.names.2.1
  rw [lookedUp, h.slots, hdev] at hrun
  cases hfind : ((s.view n).slots s.disk).find (Dirent.key name) with
  | none =>
      rw [hfind] at hrun
      exact (wp_of_ok hrun).mpr (hnone hfind)
  | some x =>
      obtain ⟨k, m⟩ := x
      rw [hfind] at hrun
      cases hget : (t.locked i).icache.iget ROOTDEV m with
      | some y =>
          simp only [hget] at hrun
          exact (wp_of_ok hrun).mpr (hok _ _ _ _ hfind
            (iget_refers ((h.tidy hs.tidy).locked h.inode_type) hget))
      | none =>
          simp only [hget] at hrun
          refine (wp_of_error hrun).mpr (hspare.resolve_right fun hspare => ?_)
          have hsome := ((h.spare hspare).locked (i := i)).iget_isSome (n := m)
          rw [hget] at hsome
          cases hsome

end Rules

end Fs

end Xv6
