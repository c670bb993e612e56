import Xv6.Fs.Walks

/-!
# New files

`create` makes an inode, then for a directory the entries `.` and `..`, then the entry in the
parent. All that it logs is the bitmap, the blocks of the two inodes and two blocks for each entry.
-/

namespace Xv6

open Foundation

namespace Fs

/-- The links of the inode are counted anew, in the cache and on the disk. -/
def counted (s : Fs) (i : Fin NINODE) (f : ℤ → ℤ) : Fs :=
  (s.setIp i { s.icache i with d := { s.dip i with nlink := short (f (s.dip i).nlink) } }).updated i

/-- The inode `n` has been made, and is locked in the entry `i`. -/
structure Made (i : Fin NINODE) (n : ℕ) (d : Dinode) (s t : Fs) : Prop where
  inum : 1 ≤ n ∧ n < s.disk.sb.ninodes
  free : (s.disk.dinode n).type = 0
  unused : (s.icache i).ref = 0
  disk : t.disk = { s.disk with dinode := Function.update s.disk.dinode n d }
  icache : t.icache = Function.update s.icache i ⟨ROOTDEV, n, 1, true, true, d⟩
  user : t.user = s.user
  logs : s.log.Logs {IBLOCK n} t.log

/-- Two sectors for each of `k` entries are logged besides those in `R`. -/
def Fits (R : Finset ℕ) (k : ℕ) (T : Finset ℕ) : Prop :=
  ∃ X : Finset ℕ, X.card ≤ 2 * k ∧ T ⊆ R ∪ X

/-- The file has its blocks, which are not free. -/
structure Stays (d : Dinode) (s : Fs) : Prop where
  noHoles : NoHoles d s.disk
  used : ∀ b, d.Has s.disk b → s.disk.bitmap b = true

/-- What `create` logs besides the blocks of entries. -/
def createBlocks (s : Fs) (dp : Fin NINODE) (n : ℕ) : Finset ℕ :=
  {s.bitmapBlock, IBLOCK n, IBLOCK (s.icache dp).inum}

/-- The new inode is ready for its entry in the directory; `k` entries have been written to it. -/
structure Ready (dp i : Fin NINODE) (n k : ℕ) (T : Finset ℕ) (s t : Fs) : Prop where
  sb : t.disk.sb = s.disk.sb
  user : t.user = s.user
  logs : s.log.Logs T t.log
  fits : Fits (s.createBlocks dp n) k T
  /-- only the links of the directory have been counted anew -/
  dir : ∃ z, t.icache dp = { s.icache dp with d := { s.dip dp with nlink := z } } ∧
    ((s.dip dp).nlink ≠ 0 → z ≠ 0)
  stays : Stays (t.dip dp) t
  new : t.icache i = ⟨ROOTDEV, n, 1, true, true, t.dip i⟩
  nlink : (t.dip i).nlink = 1

/-- `create` may make an inode in this directory. -/
structure Parent (dp : Fin NINODE) (s : Fs) : Prop where
  one : s.OneBitmap
  ok : s.disk.Ok
  alloc : ∀ j, 0 < (s.icache j).ref → (s.disk.dinode (s.icache j).inum).type ≠ 0
  ref : 0 < (s.icache dp).ref
  busy : (s.icache dp).busy = true
  dev : (s.icache dp).dev = ROOTDEV
  type : (s.dip dp).type = T_DIR
  stays : Stays (s.dip dp) s
  nlink : 0 ≤ (s.dip dp).nlink ∧ (s.dip dp).nlink < 32768
  /-- it is not freed -/
  kept : (s.icache dp).ref = 1 → (s.dip dp).nlink ≠ 0

/-- The inode that `create` has made is locked. -/
structure Created (i : Fin NINODE) (type : ℕ) (T : Finset ℕ) (s t : Fs) : Prop where
  user : t.user = s.user
  logs : s.log.Logs T t.log
  card : T.card ≤ 9
  entry : (t.icache i).busy = true ∧ (t.icache i).ref = 1 ∧ (t.dip i).nlink = 1
  /-- it was free -/
  made : type ≠ T_DIR → ∃ n, (s.disk.dinode n).type = 0 ∧ (t.disk.dinode n).type = type

/-- Entries may be written to the new inode. -/
structure Fillable (dp i : Fin NINODE) (k : ℕ) (t : Fs) : Prop where
  ok : t.disk.Ok
  type : (t.dip i).type = T_DIR
  size : (t.dip i).size ≤ k * Dirent.size
  first : (t.dip i).addr 0 ≠ 0 ∨ (t.dip i).size = 0
  other : ¬ (t.dip dp).Has t.disk ((t.dip i).addr 0)

section Made

variable {s t u : Fs} {p : Fin NPROC} {dp i j : Fin NINODE} {k n b bn : ℕ} {T U : Finset ℕ}
  {d : Dinode} {f : ℤ → ℤ} {z : ℤ}

theorem icache_counted : (s.counted i f).icache i =
    { s.icache i with d := { s.dip i with nlink := short (f (s.dip i).nlink) } } := icache_setIp

theorem wp_setNlink {Q : Unit → Fs → Prop} {E : Stop → Prop} (hE : Lax E)
    (hQ : Q ⟨⟩ (s.counted i f)) : wp (FsM.setNlink i f) Q E s := by
  unfold FsM.setNlink
  rw [wp_bind, wp_ip, wp_bind, wp_setIp]
  exact wp_iupdate (U := ∅) hE.budget hQ

/-! ### The inode -/

theorem disk_saved {x : Inode} : ((s.setIp i x).updated i).disk =
    { s.disk with dinode := Function.update s.disk.dinode x.inum x.d } := by
  rw [updated, dip_setIp, icache_setIp]
  rfl

theorem disk_counted : (s.counted i f).disk = { s.disk with
    dinode := Function.update s.disk.dinode (s.icache i).inum
      { s.dip i with nlink := short (f (s.dip i).nlink) } } := disk_saved

theorem log_saved {x : Inode} : ((s.setIp i x).updated i).log = s.log.write (IBLOCK x.inum) := by
  rw [updated, icache_setIp]
  rfl

theorem wp_ialloc {Q : Fin NINODE → Fs → Prop} {E : Stop → Prop} (hE : Lax E) {type : ℕ}
    (halloc : ∀ j, 0 < (s.icache j).ref → (s.disk.dinode (s.icache j).inum).type ≠ 0)
    (hQ : ∀ n i, 1 ≤ n ∧ n < s.disk.sb.ninodes → (s.disk.dinode n).type = 0 →
      (s.icache i).ref = 0 → Q i (((s.setDinode n (Dinode.fresh type)).logged (IBLOCK n)).setIp i
        { s.icache i with dev := ROOTDEV, inum := n, ref := 1, busy := false, valid := false })) :
    wp (FsM.ialloc ROOTDEV type) Q E s := by
  unfold FsM.ialloc FsM.panic
  rw [wp_bind, wp_get]
  cases hfind : (List.range s.disk.sb.ninodes).find? fun inum =>
      1 ≤ inum ∧ (s.disk.dinode inum).type = 0 with
  | none => exact wp_throw.mpr (hE _ (by decide))
  | some n =>
      obtain ⟨hpos, hfree⟩ : 1 ≤ n ∧ (s.disk.dinode n).type = 0 := by
        have hn := List.find?_some hfind
        simpa only [decide_eq_true_eq] using hn
      have hlt := List.mem_range.mp (List.mem_of_find?_eq_some hfind)
      rw [wp_bind, wp_set, wp_bind]
      refine wp_logWrite (U := ∅) hE.budget (wp_iget.mpr ?_)
      have hcache : ((s.setDinode n (Dinode.fresh type)).logged (IBLOCK n)).icache = s.icache := rfl
      rw [hcache]
      cases hget : s.icache.iget ROOTDEV n with
      | none => exact hE _ (by decide)
      | some x =>
          obtain ⟨i, c⟩ := x
          rcases Icache.iget_cases hget with ⟨hname, -⟩ | ⟨-, hzero, rfl⟩
          · refine absurd hfree ?_
            have hne := halloc i hname.1
            rwa [hname.2.2] at hne
          · exact hQ n i ⟨hpos, hlt⟩ hfree hzero

/-- `create`, up to `iupdate`. -/
theorem wp_newInode {α : Type} {rest : Fin NINODE → FsM α} {Q : α → Fs → Prop}
    {E : Stop → Prop} (hE : Lax E) {type : ℕ} {major minor : ℤ}
    (halloc : ∀ j, 0 < (s.icache j).ref → (s.disk.dinode (s.icache j).inum).type ≠ 0)
    (hQ : ∀ n i t, Made i n { Dinode.fresh type with major := major, minor := minor, nlink := 1 }
      s t → wp (rest i) Q E t) :
    wp (do
      let i ← FsM.ialloc ROOTDEV type
      FsM.ilock i
      let x ← FsM.ip i
      FsM.setIp i { x with d := { x.d with major := major, minor := minor, nlink := 1 } }
      FsM.iupdate i
      rest i) Q E s := by
  rw [wp_bind]
  refine wp_ialloc hE halloc fun n i hinum hfree hzero => ?_
  rw [wp_bind]
  refine wp_ilock_of ?_ (.inl (hE _ (by decide))) (.inl (hE _ (by decide))) fun _ _ => ?_
  · rw [icache_setIp]
  · have hinode : ((((s.setDinode n (Dinode.fresh type)).logged (IBLOCK n)).setIp i
        { s.icache i with dev := ROOTDEV, inum := n, ref := 1, busy := false,
                          valid := false }).inode i) = Dinode.fresh type := by
      rw [inode_setIp, if_neg Bool.false_ne_true]
      exact Function.update_self ..
    rw [wp_bind, wp_ip, wp_bind, wp_setIp, wp_bind]
    refine wp_iupdate (U := ∅) hE.budget (hQ n i _ ?_)
    unfold locked
    rw [hinode, setIp_setIp, icache_setIp, icache_setIp, setIp_setIp]
    refine ⟨hinum, hfree, hzero, disk_saved.trans ?_, rfl, rfl, ?_⟩
    · exact congrArg (fun f => { s.disk with dinode := f }) (Function.update_idem ..)
    · have hlogs : s.log.Logs ({IBLOCK n} ∪ {IBLOCK n})
          ((s.log.write (IBLOCK n)).write (IBLOCK n)) :=
        FsLog.Logs.trans .one .one
      rw [Finset.union_self] at hlogs
      rw [log_saved]
      exact hlogs

/-! ### The entries of a new directory -/

/-- A file of at most one block. -/
theorem NoHoles.short {disk : FsDisk} (hsize : d.size ≤ BSIZE) (haddr : d.addr 0 ≠ 0 ∨ d.size = 0) :
    NoHoles d disk where
  small := hsize.trans (by decide)
  mapped := fun bn hbn => by
    obtain rfl : bn = 0 := by
      rw [BSIZE_eq] at hsize hbn
      omega
    rw [Dinode.block, if_pos (by decide)]
    exact haddr.resolve_right (by omega)

theorem EntryAt.le {o : ℕ} (h : EntryAt d o) (hsize : d.size ≤ Dirent.size) : o ≤ Dirent.size := by
  rcases h.2 with hlt | rfl
  · exact hlt.le.trans hsize
  · rw [Dirent.size_eq] at hsize ⊢
    omega

/-- A block that another file does not have is written for the first time. -/
theorem FirstBlock.block_eq (h : FirstBlock i s t) (hnot : ¬ d.Has s.disk ((t.dip i).addr 0)) :
    d.block t.disk bn = d.block s.disk bn := by
  unfold Dinode.block
  by_cases htable : d.table = 0
  · rw [if_pos htable, if_pos htable]
  · rw [h.data d.table fun heq => hnot (heq ▸ ⟨htable, .inl rfl⟩)]

theorem FirstBlock.has_iff (h : FirstBlock i s t) (hnot : ¬ d.Has s.disk ((t.dip i).addr 0)) :
    d.Has t.disk b ↔ d.Has s.disk b := by
  simp only [Dinode.Has, h.block_eq hnot]

theorem Stays.firstBlock (hd : Stays d s) (h : FirstBlock i s t)
    (hnot : ¬ d.Has s.disk ((t.dip i).addr 0)) : Stays d t where
  noHoles := ⟨hd.noHoles.small, fun bn hbn => by
    rw [h.block_eq hnot]
    exact hd.noHoles.mapped bn hbn⟩
  used := fun b hb => h.marked b (hd.used b ((h.has_iff hnot).mp hb))

/-- A block that is written for the first time is not in the other file. -/
theorem Stays.not_has (hd : Stays d s) (h : FirstBlock i s t)
    (hold : ¬ d.Has s.disk ((s.dip i).addr 0)) : ¬ d.Has s.disk ((t.dip i).addr 0) := by
  intro hhas
  rcases h.new with heq | hfree
  · exact hold (heq ▸ hhas)
  · have hmarked := hd.used _ hhas
    rw [hfree] at hmarked
    cases hmarked

theorem Stays.congr {e : Dinode} (h : Stays d s) (haddrs : e.addrs = d.addrs)
    (hsize : e.size = d.size) (hdata : t.disk.data = s.disk.data)
    (hbitmap : t.disk.bitmap = s.disk.bitmap) : Stays e t := by
  have htable : e.table = d.table := by
    rw [Dinode.table, Dinode.table, Dinode.addr, Dinode.addr, haddrs]
  have hblock : ∀ bn, e.block t.disk bn = d.block s.disk bn := fun bn => by
    rw [Dinode.block, Dinode.block, htable, hdata, Dinode.addr, Dinode.addr, haddrs]
  refine ⟨⟨?_, fun bn hbn => ?_⟩, fun b hb => ?_⟩
  · rw [hsize]
    exact h.noHoles.small
  · rw [hblock]
    rw [hsize] at hbn
    exact h.noHoles.mapped bn hbn
  · rw [hbitmap]
    refine h.used b ⟨hb.1, hb.2.imp (fun heq => heq.trans htable) fun hex => ?_⟩
    obtain ⟨bn, heq⟩ := hex
    exact ⟨bn, heq.trans (hblock bn)⟩

/-! ### What is logged -/

theorem Fits.root {R : Finset ℕ} (h : T ⊆ R) : Fits R 0 T :=
  ⟨∅, le_rfl, h.trans Finset.subset_union_left⟩

theorem Fits.entry {R : Finset ℕ} {r r' c : ℕ} (h : Fits R k T) (hr : r ∈ R) (hr' : r' ∈ R)
    (hU : U ⊆ {r, r', b, c}) : Fits R (k + 1) (T ∪ U) := by
  obtain ⟨X, hX, hT⟩ := h
  refine ⟨X ∪ {b, c}, ?_, Finset.union_subset (hT.trans ?_) (hU.trans fun x hx => ?_)⟩
  · have hcard : ({b, c} : Finset ℕ).card ≤ 2 := Finset.card_le_two
    have hunion := Finset.card_union_le X {b, c}
    omega
  · exact Finset.union_subset_union_right Finset.subset_union_left
  · simp only [Finset.mem_insert, Finset.mem_singleton] at hx
    simp only [Finset.mem_union, Finset.mem_insert, Finset.mem_singleton]
    rcases hx with rfl | rfl | hx
    · exact .inl hr
    · exact .inl hr'
    · exact .inr (.inr hx)

theorem Fits.card_le {R : Finset ℕ} (h : Fits R k T) : T.card ≤ R.card + 2 * k := by
  obtain ⟨X, hX, hT⟩ := h
  have hcard := (Finset.card_le_card hT).trans (Finset.card_union_le R X)
  omega

theorem createBlocks_card : (s.createBlocks dp n).card ≤ 3 := Finset.card_le_three

/-! ### `.` and `..` -/

/-- An entry is written to the new directory. -/
theorem Ready.wp_dirlink {Q : ℤ → Fs → Prop} {name : List UInt8} {m : ℕ} {a : Fs}
    (h : Ready dp i n k T a s) (hf : Fillable dp i k s) (hk : k ≤ 1) (hne : dp ≠ i)
    (hone : a.OneBitmap) (hneg : ∀ t, Q (-1) t)
    (hQ : ∀ U t, Ready dp i n (k + 1) (T ∪ U) a t → Fillable dp i (k + 1) t → Q 0 t) :
    wp (FsM.dirlink i name m) Q (fun _ => True) s := by
  have hsize : (s.dip i).size ≤ Dirent.size := hf.size.trans (by rw [Dirent.size_eq]; omega)
  have hholes : NoHoles (s.dip i) s.disk := .short (hsize.trans (by decide)) hf.first
  refine wp_dirlink_any (by rw [hf.type]; decide) hholes hneg fun o t U ho ht => ?_
  have hole := ho.le hsize
  have hlt : o < BSIZE := lt_of_le_of_lt hole (by decide)
  have hfirst := ht.first hlt
  have hinside := hfirst.inside hf.ok
  have hdir : t.icache dp = s.icache dp := ht.icache dp hne
  have hdip : t.dip dp = s.dip dp := congrArg Inode.d hdir
  have hother := h.stays.not_has hfirst hf.other
  have hfields : (t.dip i).type = (s.dip i).type ∧ (t.dip i).nlink = (s.dip i).nlink := by
    rw [ht.fields]
    exact ⟨rfl, rfl⟩
  refine hQ U t ⟨ht.sb.trans h.sb, ht.user.trans h.user, h.logs.trans ht.logs, ?_, ?_, ?_, ?_, ?_⟩
    ⟨?_, ?_, ?_, .inl hinside, ?_⟩
  · have hones : s.OneBitmap := by
      rw [OneBitmap, h.sb]
      exact hone
    obtain ⟨b, c, hU⟩ := ht.bound hones
    have hbitmap : s.bitmapBlock ∈ a.createBlocks dp n := by
      rw [bitmapBlock, h.sb]
      exact Finset.mem_insert_self _ _
    have hown : IBLOCK (s.icache i).inum ∈ a.createBlocks dp n := by
      rw [h.new]
      exact Finset.mem_insert_of_mem (Finset.mem_insert_self _ _)
    exact h.fits.entry hbitmap hown hU
  · rw [hdir]
    exact h.dir
  · rw [hdip]
    exact h.stays.firstBlock hfirst hother
  · rw [ht.entry, h.new]
  · rw [hfields.2, h.nlink]
  · exact ⟨fun b hb => hfirst.marked b (hf.ok.marked b (by rwa [ht.sb] at hb)),
      by rw [ht.sb]; exact hf.ok.small⟩
  · rw [hfields.1, hf.type]
  · have hbound := hf.size
    rw [Dirent.size_eq] at hbound hole ⊢
    rcases ht.size with hsame | hend
    · omega
    · rw [hend, Dirent.size_eq]
      rcases ho.2 with hlt | rfl
      · have hdvd := ho.1
        rw [Dirent.size_eq] at hdvd
        omega
      · rw [Dirent.size_eq]
        omega
  · rw [hdip, hfirst.has_iff hother]
    exact hother

/-- One link more is not none. -/
theorem short_succ (hz : 0 ≤ z ∧ z < 32768) : short (z + 1) ≠ 0 := by
  rw [short, Int.bmod_def]
  split
  · omega
  · omega

namespace Made

variable {a e : Fs}

theorem icache_self (hm : Made i n d a e) : e.icache i = ⟨ROOTDEV, n, 1, true, true, d⟩ := by
  rw [hm.icache, Function.update_self]

theorem icache_ne (hm : Made i n d a e) (hj : j ≠ i) : e.icache j = a.icache j := by
  rw [hm.icache, Function.update_of_ne hj]

theorem stays (hm : Made i n d a e) (hne : dp ≠ i) (hs : Stays (a.dip dp) a) :
    Stays (e.dip dp) e := by
  rw [dip, hm.icache_ne hne]
  exact hs.congr rfl rfl (by rw [hm.disk]) (by rw [hm.disk])

/-- Any other inode may get its name at once. -/
theorem ready (hm : Made i n d a e) (hne : dp ≠ i) (hs : Stays (a.dip dp) a) (hd : d.nlink = 1) :
    Ready dp i n 0 {IBLOCK n} a e where
  sb := by rw [hm.disk]
  user := hm.user
  logs := hm.logs
  fits := .root (Finset.singleton_subset_iff.mpr (Finset.mem_insert_of_mem
    (Finset.mem_insert_self _ _)))
  dir := ⟨(a.dip dp).nlink, hm.icache_ne hne, id⟩
  stays := hm.stays hne hs
  new := by rw [dip, hm.icache_self]
  nlink := by rw [dip, hm.icache_self, hd]

/-- The entry `..` of the new directory is counted. -/
theorem counted (hm : Made i n d a e) (hne : dp ≠ i) (hs : Stays (a.dip dp) a) (hd : d.nlink = 1)
    (hz : 0 ≤ (a.dip dp).nlink ∧ (a.dip dp).nlink < 32768) :
    Ready dp i n 0 ({IBLOCK n} ∪ {IBLOCK (a.icache dp).inum}) a (e.counted dp (· + 1)) := by
  have hdir : e.icache dp = a.icache dp := hm.icache_ne hne
  have hself : (e.counted dp (· + 1)).icache dp = { a.icache dp with
      d := { a.dip dp with nlink := short ((a.dip dp).nlink + 1) } } := by
    change (e.setIp dp _).icache dp = _
    rw [icache_setIp, dip, hdir]
    rfl
  have hnew : (e.counted dp (· + 1)).icache i = e.icache i := icache_setIp_ne hne.symm
  have hdisk : (e.counted dp (· + 1)).disk.data = a.disk.data ∧
      (e.counted dp (· + 1)).disk.bitmap = a.disk.bitmap ∧
      (e.counted dp (· + 1)).disk.sb = a.disk.sb := by
    rw [Fs.counted, disk_saved, hm.disk]
    exact ⟨rfl, rfl, rfl⟩
  refine ⟨hdisk.2.2, hm.user, ?_, .root ?_, ⟨_, hself, fun _ => short_succ hz⟩, ?_, ?_, ?_⟩
  · rw [Fs.counted, log_saved]
    have hlog := hm.logs.trans (FsLog.Logs.one (c := IBLOCK (e.icache dp).inum))
    rwa [hdir] at hlog ⊢
  · refine Finset.union_subset ?_ ?_
    · exact Finset.singleton_subset_iff.mpr (Finset.mem_insert_of_mem (Finset.mem_insert_self _ _))
    · rw [Finset.singleton_subset_iff, createBlocks]
      simp
  · rw [dip, hself]
    exact hs.congr rfl rfl hdisk.1 hdisk.2.1
  · rw [dip, hnew, hm.icache_self]
  · rw [dip, hnew, hm.icache_self, hd]

end Made

/-- `create`, the entries `.` and `..`. -/
theorem wp_createDots {Q : Unit → Fs → Prop} {a e : Fs} (hm : Made i n d a e) (hne : dp ≠ i)
    (ha : Parent dp a) (htype : d.type = T_DIR) (hlink : d.nlink = 1) (hsize : d.size = 0)
    (haddr : d.addr 0 = 0) (hQ : ∀ T t, Ready dp i n 2 T a t → Q ⟨⟩ t) :
    wp (FsM.createDots dp i) Q (fun _ => True) e := by
  have hready := hm.counted hne ha.stays hlink ha.nlink
  have hdip : (e.counted dp (· + 1)).dip i = d := by
    rw [dip, counted, updated, dip_setIp]
    change ((e.setIp dp _).icache i).d = d
    rw [icache_setIp_ne hne.symm, hm.icache_self]
  have hfill : Fillable dp i 0 (e.counted dp (· + 1)) := by
    refine ⟨⟨fun b hb => ?_, ?_⟩, by rw [hdip, htype], by rw [hdip, hsize]; exact Nat.zero_le _,
      .inr (by rw [hdip, hsize]), fun hhas => hhas.1 (by rw [hdip, haddr])⟩
    · rw [hready.sb] at hb
      have hmarked := ha.ok.marked b hb
      rw [counted, disk_saved, hm.disk]
      exact hmarked
    · rw [hready.sb]
      exact ha.ok.small
  unfold FsM.createDots FsM.panic
  rw [wp_bind]
  refine wp_setNlink .true ?_
  rw [wp_bind, wp_ip, wp_bind]
  refine hready.wp_dirlink hfill (Nat.zero_le 1) hne ha.one (fun t => ?_) fun U t ht hfill' => ?_
  · rw [if_pos (by decide)]
    exact wp_throw.mpr trivial
  · rw [if_neg (by decide), wp_bind, wp_ip, wp_bind]
    refine ht.wp_dirlink hfill' le_rfl hne ha.one (fun t => ?_) fun V u hu _ => ?_
    · rw [if_pos (by decide)]
      exact wp_throw.mpr trivial
    · rw [if_neg (by decide)]
      exact wp_pure.mpr (hQ _ u hu)

/-- `create`, the entry of the new inode. -/
theorem Ready.wp_enter {Q : Fin NINODE → Fs → Prop} {a g : Fs} {type : ℕ} {name : List UInt8}
    (hg : Ready dp i n k T a g) (ha : Parent dp a) (hk : k ≤ 2) (hne : dp ≠ i)
    (hmade : type ≠ T_DIR → (a.disk.dinode n).type = 0 ∧ (g.disk.dinode n).type = type)
    (hQ : ∀ U t, Created i type U a t → Q i t) :
    wp (do
      let x ← FsM.ip i
      let r ← FsM.dirlink dp name x.inum
      if r < 0 then FsM.panic .createDirlink
      else do
        FsM.iunlockput dp
        return i) Q (fun _ => True) g := by
  obtain ⟨z, hdir, hz⟩ := hg.dir
  have hdip : g.dip dp = { a.dip dp with nlink := z } := by rw [dip, hdir]
  have htype : (g.dip dp).type ≠ T_DEV := by
    rw [hdip]
    change (a.dip dp).type ≠ T_DEV
    rw [ha.type]
    decide
  unfold FsM.panic
  rw [wp_bind, wp_ip, wp_bind]
  refine wp_dirlink_any htype hg.stays.noHoles (fun t => ?_) fun o t U _ ht => ?_
  · rw [if_pos (by decide)]
    exact wp_throw.mpr trivial
  · have hentry : t.icache dp = { a.icache dp with d := t.dip dp } := by rw [ht.entry, hdir]
    have hlink : (t.dip dp).nlink = z := by rw [ht.fields, hdip]
    have hnew : t.icache i = g.icache i := ht.icache i hne.symm
    rw [if_neg (by decide), wp_bind]
    unfold FsM.iunlockput
    rw [wp_bind]
    refine Fs.wp_iunlock (by rw [hentry]; exact ha.busy) (by rw [hentry]; exact ha.ref) ?_
    refine wp_iput_drop ?_ (wp_pure.mpr
      (hQ (T ∪ U) _ ⟨?_, hg.logs.trans ht.logs, ?_, ?_, fun hfile => ?_⟩))
    · rw [icache_unlocked, hentry]
      rintro ⟨hone, -, hzero⟩
      change (t.dip dp).nlink = 0 at hzero
      exact hz (ha.kept hone) (hlink.symm.trans hzero)
    · exact ht.user.trans hg.user
    · have hones : g.OneBitmap := by
        rw [OneBitmap, hg.sb]
        exact ha.one
      obtain ⟨b, c, hU⟩ := ht.bound hones
      have hbitmap : g.bitmapBlock ∈ a.createBlocks dp n := by
        rw [bitmapBlock, hg.sb]
        exact Finset.mem_insert_self _ _
      have hown : IBLOCK (g.icache dp).inum ∈ a.createBlocks dp n := by
        rw [hdir, createBlocks]
        simp
      have hfits := (hg.fits.entry hbitmap hown hU).card_le
      have hroot : (a.createBlocks dp n).card ≤ 3 := createBlocks_card
      omega
    · have hsame : (((t.unlocked dp).dropped dp).icache i) = g.icache i := by
        rw [dropped, icache_setIp_ne hne.symm, unlocked, icache_setIp_ne hne.symm, hnew]
      rw [dip, hsame]
      exact ⟨by rw [hg.new], by rw [hg.new], hg.nlink⟩
    · obtain ⟨hfree, hgtype⟩ := hmade hfile
      refine ⟨n, hfree, ?_⟩
      change (t.disk.dinode n).type = type
      rw [ht.dinode n, hgtype]
      rintro rfl
      rw [hdir] at hfree
      exact ha.alloc dp ha.ref hfree

/-- `create`, from `ialloc` on. -/
theorem Parent.wp_createNew {Q : Fin NINODE → Fs → Prop} {a : Fs} {type : ℕ} {major minor : ℤ}
    {name : List UInt8} (ha : Parent dp a) (hQ : ∀ i U t, Created i type U a t → Q i t) :
    wp (FsM.createNew dp name type major minor) Q (fun _ => True) a := by
  unfold FsM.createNew
  rw [wp_bind, wp_ip, ha.dev]
  refine wp_newInode .true ha.alloc fun n i e hm => ?_
  have hne : dp ≠ i := by
    rintro rfl
    have hpos := ha.ref
    rw [hm.unused] at hpos
    exact absurd hpos (lt_irrefl _)
  rw [wp_bind, wp_when]
  refine ⟨fun hdir => ?_, fun hfile => ?_⟩
  · refine wp_createDots hm hne ha hdir rfl rfl rfl fun T g hg => ?_
    exact hg.wp_enter ha le_rfl hne (fun hno => absurd hdir hno) fun U t ht => hQ i U t ht
  · refine (hm.ready hne ha.stays rfl).wp_enter ha (Nat.zero_le 2) hne (fun _ => ⟨hm.free, ?_⟩)
      fun U t ht => hQ i U t ht
    rw [hm.disk]
    change (Function.update a.disk.dinode n _ n).type = type
    rw [Function.update_self]
    rfl

/-! ### `create` -/

/-- The directory that `create` has locked. -/
theorem Holds.parent (hold : s.Holds t dp n) (h : s.Settled p) (htype : (s.view n).type = T_DIR) :
    Parent dp (t.locked dp) := by
  have hdisk : (t.locked dp).disk = s.disk := hold.disk
  have hdip : (t.locked dp).dip dp = s.view n := dip_locked.trans hold.inode
  have href : ((t.locked dp).icache dp).ref = (s.icache dp).ref + 1 := by
    rw [ref_locked, hold.ref]
  refine ⟨?_, ?_, fun j hj => ?_, ?_, ?_, ?_, ?_, ?_, ?_, fun hone => ?_⟩
  · rw [OneBitmap, hdisk]
    exact h.one
  · rw [hdisk]
    exact h.ok
  · rw [hdisk]
    by_cases hjd : j = dp
    · rw [hjd, icache_locked]
      change (s.disk.dinode (t.icache dp).inum).type ≠ 0
      rw [hold.names.2.2]
      by_cases hname : ∃ k, (s.icache k).Names ROOTDEV n
      · obtain ⟨k, hk⟩ := hname
        have hne := h.alloc k hk.1
        rwa [hk.2.2] at hne
      · rw [← view_of_not_names fun k hk => hname ⟨k, hk⟩]
        exact hold.type
    · rw [ref_locked, hold.ref_ne hjd] at hj
      rw [locked, icache_setIp_ne hjd, (hold.entry hj).inum]
      exact h.alloc j hj
  · rw [ref_locked]
    exact hold.names.1
  · rw [icache_locked]
  · rw [icache_locked]
    exact hold.names.2.1
  · rw [hdip, htype]
  · have hwf := h.files n hold.kept.inum hold.type
    rw [hdip]
    exact ⟨by rw [hdisk]; exact .of_wellFormed hwf, by rw [hdisk]; exact hwf.used⟩
  · rw [hdip]
    exact h.nlink n hold.kept.inum
  · rw [hdip]
    rcases hold.kept.linked hold.type with hne | ⟨k, hk⟩
    · exact hne
    · have hpos := hk.1
      rw [hold.only k hk] at hpos
      omega

/-- What `create` returns: nothing, and nothing has changed; or an inode that was there; or a new
one, of a name that led nowhere. -/
structure Answers (p : Fin NPROC) (path : List UInt8) (type : ℕ) (s : Fs) (r : Option (Fin NINODE))
    (t : Fs) : Prop where
  none : r = none → s.Alike t
  some : ∀ i, r = some i → (∃ u n, s.Holds u i n ∧ t = u.locked i) ∨
    s.resolve (s.start p path) (elements path) = Option.none ∧ ∃ T, Created i type T s t

/-- `create` finds the name, or makes an inode for it in a directory that does not have it. -/
theorem Walkable.wp_create {Q : Option (Fin NINODE) → Fs → Prop} {E : Stop → Prop} (hE : Lax E)
    {path : List UInt8} {type : ℕ} {major minor : ℤ} (h : s.Walkable p)
    (hnone : ∀ t, s.Alike t → Q none t)
    (hthere : ∀ u i m, s.Holds u i m → Q (some i) (u.locked i))
    (hnew : ∀ u dp d last, s.resolveParent (s.start p path) (elements path) = some d →
      (elements path).getLast? = some last → s.resolve (s.start p path) (elements path) = none →
      s.Holds u dp d → (s.view d).type = T_DIR →
      ((s.view d).slots s.disk).find (Dirent.key last) = none →
        wp (FsM.createNew dp last type major minor) (fun i t => Q (some i) t) E (u.locked dp)) :
    wp (FsM.create p path type major minor) Q E s := by
  have hstop : ∀ {e : Stop}, ¬ DirFull e → E e := fun he => hE _ he
  unfold FsM.create
  rw [wp_bind]
  refine h.wp_nameiparent (.inl (hstop (by decide))) (.inl (hstop (by decide)))
    (fun _ t ht => ?_) fun u dp d last hparent hlast hu hk htype => ?_
  · exact wp_pure.mpr (hnone t ht)
  · change wp (FsM.ilock dp >>= fun _ => _) _ _ _
    rw [wp_bind]
    refine hu.wp_ilock hk (.inl (hstop (by decide))) (.inl (hstop (by decide))) fun hold => ?_
    rw [wp_bind]
    refine hold.wp_dirlookup h.toGraph htype (.inl (hstop (by decide))) (fun hmiss => ?_)
      fun v j k m hfound hv => ?_
    · have hresolve : s.resolve (s.start p path) (elements path) = none := by
        have hne : elements path ≠ [] := by
          intro hnil
          rw [hnil] at hlast
          cases hlast
        have hname : (elements path).getLast hne = last :=
          Option.some.inj ((List.getLast?_eq_some_getLast hne).symm.trans hlast)
        rw [resolve_eq_parent hne, hparent, Option.bind_some, hname, lookup_of_dir htype, hmiss]
        rfl
      change wp (FsM.createNew dp last type major minor >>= fun i => pure (some i)) _ _ _
      rw [wp_bind]
      refine wp_mono (hnew u dp d last hparent hlast hresolve hold htype hmiss) (fun i t hi => ?_)
        fun _ he => he
      exact wp_pure.mpr hi
    · change wp (FsM.iunlockput dp >>= fun _ => _) _ _ _
      rw [wp_bind]
      refine hold.wp_iunlockput_found hv h.tidy fun w hw => ?_
      rw [wp_bind]
      have hkept : s.Kept m := h.entry d hold.kept.inum htype k _ m (Slots.slot_of_find hfound)
      refine hw.wp_ilock hkept (.inl (hstop (by decide))) (.inl (hstop (by decide)))
        fun hold' => ?_
      rw [wp_bind, wp_ip, wp_ite]
      refine ⟨fun _ => wp_pure.mpr (hthere w j m hold'), fun _ => ?_⟩
      rw [wp_bind]
      exact hold'.wp_iunlockput .refl fun t ht => wp_pure.mpr (hnone t ht)

theorem Settled.wp_create {Q : Option (Fin NINODE) → Fs → Prop} {path : List UInt8} {type : ℕ}
    {major minor : ℤ} (h : s.Settled p) (hQ : ∀ r t, s.Answers p path type r t → Q r t) :
    wp (FsM.create p path type major minor) Q (fun _ => True) s := by
  refine h.toWalkable.wp_create .true
    (fun t ht => hQ none t ⟨fun _ => ht, fun i hi => (by cases hi)⟩)
    (fun u i m hold => hQ _ _ ⟨fun hc => (by cases hc), fun i' hi => ?_⟩)
    fun u dp d last _ _ hresolve hold htype _ => ?_
  · cases hi
    exact .inl ⟨u, m, hold, rfl⟩
  · refine (hold.parent h htype).wp_createNew fun i T t ht => hQ _ _ ?_
    refine ⟨fun hc => (by cases hc), fun i' hi' => .inr ⟨hresolve, T, ?_⟩⟩
    cases hi'
    refine ⟨ht.user.trans hold.back.user, ?_, ht.card, ht.entry, fun hfile => ?_⟩
    · rw [← hold.back.log]
      exact ht.logs
    · obtain ⟨n, hfree, hmade⟩ := ht.made hfile
      refine ⟨n, ?_, hmade⟩
      rw [← hold.disk]
      exact hfree

end Made

end Fs

end Xv6
