import Xv6.Fs.Directory
import Xv6.Fs.File

/-!
# References to inodes

An inode is the copy in the cache as long as an entry is in use for it, and what is on the disk
otherwise. Looking at inodes takes references and gives them back. In between, a state is like
another when the entries that are in use there show the same inodes; what is left in the entries
without references does not count.
-/

namespace Xv6

open Foundation

/-- The copy has been read, of an inode that is free. -/
def Inode.Stale (x : Inode) : Prop := x.valid = true ∧ x.d.type = 0

namespace Fs

/-- The inode with this number, in the cache or on the disk. -/
def view (s : Fs) (inum : ℕ) : Dinode :=
  match (List.finRange NINODE).find? fun i => (s.icache i).Names ROOTDEV inum with
  | some i => s.inode i
  | none => s.disk.dinode inum

/-- The inode cache: no inode is in two entries. -/
structure Tidy (s : Fs) : Prop where
  dev : ∀ i, 0 < (s.icache i).ref → (s.icache i).dev = ROOTDEV
  nonneg : ∀ i, 0 ≤ (s.icache i).ref
  unique : ∀ i j inum, (s.icache i).Names ROOTDEV inum → (s.icache j).Names ROOTDEV inum → i = j
  read : ∀ i, 0 < (s.icache i).ref → ¬ (s.icache i).Stale

def Idle (s : Fs) : Prop := ∀ i, 0 < (s.icache i).ref → (s.icache i).busy = false

/-- The two entries show the same inode. -/
structure SameInode (s t : Fs) (j : Fin NINODE) : Prop where
  dev : (t.icache j).dev = (s.icache j).dev
  inum : (t.icache j).inum = (s.icache j).inum
  busy : (t.icache j).busy = (s.icache j).busy
  inode : t.inode j = s.inode j
  stale : (t.icache j).Stale ↔ (s.icache j).Stale
  /-- what has been read stays -/
  valid : (s.icache j).valid = true → (t.icache j).valid = true

/-- The states differ only in what is left in entries that are not in use, and in copies of
inodes that have been read. -/
structure Alike (s t : Fs) : Prop where
  disk : t.disk = s.disk
  log : t.log = s.log
  user : t.user = s.user
  io : t.io = s.io
  ref : ∀ j, (t.icache j).ref = (s.icache j).ref
  entry : ∀ j, 0 < (s.icache j).ref → SameInode s t j

/-- What `iput` leaves when it does not free the inode. -/
def dropped (s : Fs) (i : Fin NINODE) : Fs :=
  s.setIp i { s.icache i with ref := (s.icache i).ref - 1 }

/-- There is one reference more, to this inode. -/
structure Refers (s t : Fs) (i : Fin NINODE) (inum : ℕ) : Prop where
  back : s.Alike (t.dropped i)
  names : (t.icache i).Names ROOTDEV inum
  only : ∀ k, (s.icache k).Names ROOTDEV inum → k = i
  fresh : ¬ 0 < (s.icache i).ref → (t.icache i).busy = false
  inode : t.inode i = s.view inum
  read : ¬ (t.icache i).Stale

/-- There are `n` entries that are not in use. -/
def Spare (s : Fs) (n : ℕ) : Prop :=
  n ≤ (Finset.univ.filter fun i => (s.icache i).ref = 0).card

section View

variable {s t u : Fs} {i j k : Fin NINODE} {inum m n : ℕ} {E : Stop → Prop}

/-! ### States that are alike -/

theorem icache_setIp_ne {x : Inode} (h : j ≠ i) : (s.setIp i x).icache j = s.icache j :=
  Function.update_of_ne h _ _

theorem inode_setIp_ne {x : Inode} (h : j ≠ i) : (s.setIp i x).inode j = s.inode j := by
  rw [inode, inode, icache_setIp_ne h]
  rfl

theorem view_congr (hdisk : t.disk.dinode = s.disk.dinode)
    (hnames : ∀ j, (t.icache j).Names ROOTDEV n ↔ (s.icache j).Names ROOTDEV n)
    (hinode : ∀ j, (s.icache j).Names ROOTDEV n → t.inode j = s.inode j) :
    t.view n = s.view n := by
  have hpred : (fun i => decide ((t.icache i).Names ROOTDEV n)) =
      fun i => decide ((s.icache i).Names ROOTDEV n) := by
    funext i
    exact decide_eq_decide.mpr (hnames i)
  unfold Fs.view
  rw [hpred, hdisk]
  cases hfind : (List.finRange NINODE).find? fun i => decide ((s.icache i).Names ROOTDEV n) with
  | none => rfl
  | some i => exact hinode i (by simpa using List.find?_some hfind)

namespace SameInode

theorem refl : SameInode s s j := ⟨rfl, rfl, rfl, rfl, .rfl, id⟩

theorem trans (h : SameInode s t j) (h' : SameInode t u j) : SameInode s u j :=
  ⟨h'.dev.trans h.dev, h'.inum.trans h.inum, h'.busy.trans h.busy, h'.inode.trans h.inode,
    h'.stale.trans h.stale, h'.valid ∘ h.valid⟩

theorem setIp_ne {x : Inode} (h : j ≠ i) : SameInode s (s.setIp i x) j := by
  have hentry : (s.setIp i x).icache j = s.icache j := icache_setIp_ne h
  exact ⟨by rw [hentry], by rw [hentry], by rw [hentry], inode_setIp_ne h, by rw [hentry],
    by rw [hentry]; exact id⟩

end SameInode

namespace Alike

theorem refl : s.Alike s := ⟨rfl, rfl, rfl, rfl, fun _ => rfl, fun _ _ => .refl⟩

theorem trans (h : s.Alike t) (h' : t.Alike u) : s.Alike u where
  disk := h'.disk.trans h.disk
  log := h'.log.trans h.log
  user := h'.user.trans h.user
  io := h'.io.trans h.io
  ref := fun j => (h'.ref j).trans (h.ref j)
  entry := fun j hj => (h.entry j hj).trans (h'.entry j (by rwa [h.ref]))

theorem names (h : s.Alike t) : (t.icache j).Names m n ↔ (s.icache j).Names m n := by
  have href := h.ref j
  constructor
  · rintro ⟨hpos, hdev, hinum⟩
    have hj := h.entry j (by omega)
    exact ⟨by omega, hj.dev.symm.trans hdev, hj.inum.symm.trans hinum⟩
  · rintro ⟨hpos, hdev, hinum⟩
    have hj := h.entry j hpos
    exact ⟨by omega, hj.dev.trans hdev, hj.inum.trans hinum⟩

/-- The inodes are the same. -/
theorem view (h : s.Alike t) : t.view n = s.view n :=
  view_congr (by rw [h.disk]) (fun _ => h.names) fun _ hj => (h.entry _ hj.1).inode

theorem tidy (h : s.Alike t) (hs : s.Tidy) : t.Tidy where
  dev := fun i hi => by
    rw [h.ref] at hi
    rw [(h.entry i hi).dev, hs.dev i hi]
  nonneg := fun i => by
    rw [h.ref]
    exact hs.nonneg i
  unique := fun i j n hi hj => hs.unique i j n (h.names.mp hi) (h.names.mp hj)
  read := fun i hi => by
    rw [h.ref] at hi
    rw [(h.entry i hi).stale]
    exact hs.read i hi

theorem idle (h : s.Alike t) (hs : s.Idle) : t.Idle := fun i hi => by
  rw [h.ref] at hi
  rw [(h.entry i hi).busy, hs i hi]

theorem spare (h : s.Alike t) (hs : s.Spare n) : t.Spare n := by
  have hrefs : (Finset.univ.filter fun i => (t.icache i).ref = 0) =
      Finset.univ.filter fun i => (s.icache i).ref = 0 :=
    Finset.filter_congr fun i _ => by rw [h.ref]
  rw [Spare, hrefs]
  exact hs

/-- One entry is set in both states. -/
theorem setIp {x y : Inode} (h : s.Alike t) (href : y.ref = x.ref)
    (hsame : 0 < x.ref → SameInode (s.setIp i x) (t.setIp i y) i) :
    (s.setIp i x).Alike (t.setIp i y) where
  disk := h.disk
  log := h.log
  user := h.user
  io := h.io
  ref := fun j => by
    by_cases hj : j = i
    · rw [hj, icache_setIp, icache_setIp, href]
    · rw [icache_setIp_ne hj, icache_setIp_ne hj, h.ref]
  entry := fun j hpos => by
    by_cases hj : j = i
    · rw [hj, icache_setIp] at hpos
      rw [hj]
      exact hsame hpos
    · rw [icache_setIp_ne hj] at hpos
      have hentry := h.entry j hpos
      refine ⟨?_, ?_, ?_, ?_, ?_, ?_⟩
      · rw [icache_setIp_ne hj, icache_setIp_ne hj, hentry.dev]
      · rw [icache_setIp_ne hj, icache_setIp_ne hj, hentry.inum]
      · rw [icache_setIp_ne hj, icache_setIp_ne hj, hentry.busy]
      · rw [inode_setIp_ne hj, inode_setIp_ne hj, hentry.inode]
      · rw [icache_setIp_ne hj, icache_setIp_ne hj, hentry.stale]
      · rw [icache_setIp_ne hj, icache_setIp_ne hj]
        exact hentry.valid

end Alike

/-! ### Locks and references -/

theorem icache_dropped : (s.dropped i).icache i =
    { s.icache i with ref := (s.icache i).ref - 1 } := icache_setIp

theorem inode_setIp {x : Inode} : (s.setIp i x).inode i =
    if x.valid then x.d else s.disk.dinode x.inum := by
  rw [inode, icache_setIp]
  rfl

theorem inode_dropped : (s.dropped i).inode j = s.inode j := by
  by_cases hj : j = i
  · rw [hj, dropped, inode_setIp]
    rfl
  · exact inode_setIp_ne hj

theorem inode_unlock : (s.unlocked i).inode j = s.inode j := by
  by_cases hj : j = i
  · rw [hj, unlocked, inode_setIp]
    rfl
  · exact inode_setIp_ne hj

theorem inode_locked : (s.locked i).inode j = s.inode j := by
  by_cases hj : j = i
  · rw [hj, locked, inode_setIp, if_pos rfl]
  · exact inode_setIp_ne hj

theorem icache_locked : (s.locked i).icache i =
    { s.icache i with busy := true, valid := true, d := s.inode i } := icache_setIp

theorem icache_unlocked : (s.unlocked i).icache i = { s.icache i with busy := false } :=
  icache_setIp

theorem not_stale (htype : (s.inode i).type ≠ 0) : ¬ (s.icache i).Stale := by
  rintro ⟨hvalid, hzero⟩
  rw [inode, if_pos hvalid] at htype
  exact htype hzero

theorem type_of_not_stale (hread : ¬ (s.icache i).Stale) (hvalid : (s.icache i).valid = true) :
    (s.inode i).type ≠ 0 := by
  rw [inode, if_pos hvalid]
  exact fun hzero => hread ⟨hvalid, hzero⟩

theorem SameInode.dropped : SameInode s (s.dropped i) j := by
  by_cases hj : j = i
  · rw [hj]
    exact ⟨by rw [icache_dropped], by rw [icache_dropped], by rw [icache_dropped], inode_dropped,
      by rw [icache_dropped]; rfl, by rw [icache_dropped]; exact id⟩
  · exact SameInode.setIp_ne hj

/-- The entry shows what it did before a reference was given back. -/
theorem SameInode.undropped : SameInode (s.dropped i) s j := by
  have h : SameInode s (s.dropped i) j := .dropped
  refine ⟨h.dev.symm, h.inum.symm, h.busy.symm, h.inode.symm, h.stale.symm, fun hvalid => ?_⟩
  by_cases hj : j = i
  · rw [hj, icache_dropped] at hvalid
    rwa [hj]
  · rwa [Fs.dropped, icache_setIp_ne hj] at hvalid

namespace Alike

theorem dropped (h : s.Alike t) : (s.dropped i).Alike (t.dropped i) := by
  have href := h.ref i
  refine h.setIp (by rw [href]) fun hpos => ?_
  have hpos' : 0 < (s.icache i).ref - 1 := hpos
  have hentry := h.entry i (by omega)
  refine ⟨?_, ?_, ?_, ?_, ?_, ?_⟩
  · rw [icache_setIp, icache_setIp]
    exact hentry.dev
  · rw [icache_setIp, icache_setIp]
    exact hentry.inum
  · rw [icache_setIp, icache_setIp]
    exact hentry.busy
  · rw [inode_setIp, inode_setIp]
    exact hentry.inode
  · rw [icache_setIp, icache_setIp]
    exact hentry.stale
  · rw [icache_setIp, icache_setIp]
    exact hentry.valid

theorem unlocked (h : s.Alike t) : (s.unlocked i).Alike (t.unlocked i) := by
  refine h.setIp (h.ref i) fun hpos => ?_
  have hentry := h.entry i hpos
  refine ⟨?_, ?_, ?_, ?_, ?_, ?_⟩
  · rw [icache_setIp, icache_setIp]
    exact hentry.dev
  · rw [icache_setIp, icache_setIp]
    exact hentry.inum
  · rw [icache_setIp, icache_setIp]
  · rw [inode_setIp, inode_setIp]
    exact hentry.inode
  · rw [icache_setIp, icache_setIp]
    exact hentry.stale
  · rw [icache_setIp, icache_setIp]
    exact hentry.valid

/-- An inode that has been locked and unlocked has been read. -/
theorem relocked (hidle : (s.icache i).busy = false) (htype : (s.inode i).type ≠ 0) :
    s.Alike ((s.locked i).unlocked i) where
  disk := rfl
  log := rfl
  user := rfl
  io := rfl
  ref := fun j => by
    by_cases hj : j = i
    · rw [hj, icache_unlocked, icache_locked]
    · rw [Fs.unlocked, icache_setIp_ne hj, Fs.locked, icache_setIp_ne hj]
  entry := fun j _ => by
    have hinode : ((s.locked i).unlocked i).inode j = s.inode j := by
      rw [inode_unlock, inode_locked]
    by_cases hj : j = i
    · have hentry : ((s.locked i).unlocked i).icache i =
          { s.icache i with busy := false, valid := true, d := s.inode i } := by
        rw [icache_unlocked, icache_locked]
      rw [hj] at hinode ⊢
      refine ⟨by rw [hentry], by rw [hentry], by rw [hentry, hidle], hinode, ?_,
        fun _ => by rw [hentry]⟩
      rw [hentry]
      exact iff_of_false (fun hc => htype hc.2) (not_stale htype)
    · have hentry : ((s.locked i).unlocked i).icache j = s.icache j := by
        rw [Fs.unlocked, icache_setIp_ne hj, Fs.locked, icache_setIp_ne hj]
      exact ⟨by rw [hentry], by rw [hentry], by rw [hentry], hinode, by rw [hentry],
        by rw [hentry]; exact id⟩

end Alike

theorem setIp_comm {x y : Inode} (h : i ≠ j) : (s.setIp i x).setIp j y = (s.setIp j y).setIp i x := by
  unfold setIp
  rw [Function.update_comm h]

theorem dropped_comm : (s.dropped i).dropped j = (s.dropped j).dropped i := by
  by_cases h : i = j
  · rw [h]
  · rw [dropped, dropped, dropped, dropped, icache_setIp_ne fun hc => h hc.symm, icache_setIp_ne h,
      setIp_comm h]

theorem dropped_unlocked : (s.unlocked i).dropped j = (s.dropped j).unlocked i := by
  by_cases h : i = j
  · rw [h, unlocked, dropped, dropped, unlocked, icache_setIp, icache_setIp, setIp_setIp, setIp_setIp]
  · rw [unlocked, dropped, dropped, unlocked, icache_setIp_ne fun hc => h hc.symm, icache_setIp_ne h,
      setIp_comm h]

/-! ### The inode of an entry -/

theorem Tidy.view (hs : s.Tidy) (h : (s.icache i).Names ROOTDEV n) : s.view n = s.inode i := by
  unfold Fs.view
  cases hfind : (List.finRange NINODE).find? fun i => decide ((s.icache i).Names ROOTDEV n) with
  | none => exact absurd h (by simpa using List.find?_eq_none.mp hfind i (List.mem_finRange i))
  | some j =>
      have hj : (s.icache j).Names ROOTDEV n := by simpa using List.find?_some hfind
      rw [hs.unique i j n h hj]

theorem view_of_not_names (h : ∀ i, ¬ (s.icache i).Names ROOTDEV n) :
    s.view n = s.disk.dinode n := by
  have hfind : (List.finRange NINODE).find? (fun i => decide ((s.icache i).Names ROOTDEV n)) =
      none := List.find?_eq_none.mpr fun i _ hi => h i (of_decide_eq_true hi)
  unfold Fs.view
  rw [hfind]

namespace Refers

theorem ref (h : s.Refers t i m) : (t.icache i).ref = (s.icache i).ref + 1 := by
  have href := h.back.ref i
  rw [icache_dropped] at href
  change (t.icache i).ref - 1 = _ at href
  omega

theorem ref_ne (h : s.Refers t i m) (hj : j ≠ i) : (t.icache j).ref = (s.icache j).ref := by
  rw [← h.back.ref j, dropped, icache_setIp_ne hj]

/-- The entries that were in use show what they did. -/
theorem entry (h : s.Refers t i m) (hj : 0 < (s.icache j).ref) : SameInode s t j :=
  (h.back.entry j hj).trans .undropped

theorem disk (h : s.Refers t i m) : t.disk = s.disk := h.back.disk

theorem busy (h : s.Refers t i m) (hs : s.Idle) : (t.icache i).busy = false := by
  by_cases hpos : 0 < (s.icache i).ref
  · rw [(h.entry hpos).busy, hs i hpos]
  · exact h.fresh hpos

/-- The same inodes are in the cache, and that one. -/
theorem names_iff (h : s.Refers t i m) (hs : s.Tidy) :
    (t.icache j).Names ROOTDEV n ↔ (s.icache j).Names ROOTDEV n ∨ j = i ∧ n = m := by
  have hi := h.names
  constructor
  · intro hj
    by_cases hji : j = i
    · rw [hji] at hj
      exact .inr ⟨hji, hj.2.2.symm.trans hi.2.2⟩
    · refine .inl (h.back.names.mp ?_)
      rw [dropped, icache_setIp_ne hji]
      exact hj
  · rintro (hj | ⟨rfl, rfl⟩)
    · have hentry := h.entry hj.1
      refine ⟨?_, hentry.dev.trans hj.2.1, hentry.inum.trans hj.2.2⟩
      by_cases hji : j = i
      · have href := h.ref
        have hnonneg := hs.nonneg i
        rw [hji]
        omega
      · rw [h.ref_ne hji]
        exact hj.1
    · exact hi

theorem tidy (h : s.Refers t i m) (hs : s.Tidy) : t.Tidy where
  dev := fun j hj => by
    by_cases hji : j = i
    · rw [hji]
      exact h.names.2.1
    · rw [h.ref_ne hji] at hj
      rw [(h.entry hj).dev, hs.dev j hj]
  nonneg := fun j => by
    by_cases hji : j = i
    · have hnonneg := hs.nonneg i
      rw [hji, h.ref]
      omega
    · rw [h.ref_ne hji]
      exact hs.nonneg j
  unique := fun j k n hj hk => by
    rcases (h.names_iff hs).mp hj with hj | ⟨rfl, rfl⟩
    · rcases (h.names_iff hs).mp hk with hk | ⟨rfl, rfl⟩
      · exact hs.unique j k n hj hk
      · exact h.only j hj
    · rcases (h.names_iff hs).mp hk with hk | ⟨rfl, -⟩
      · exact (h.only k hk).symm
      · rfl
  read := fun j hj => by
    by_cases hji : j = i
    · rw [hji]
      exact h.read
    · rw [h.ref_ne hji] at hj
      rw [(h.entry hj).stale]
      exact hs.read j hj

/-- All inodes are what they were. -/
theorem view (h : s.Refers t i m) (hs : s.Tidy) : t.view n = s.view n := by
  by_cases hn : ∃ j, (t.icache j).Names ROOTDEV n
  · obtain ⟨j, hj⟩ := hn
    rw [(h.tidy hs).view hj]
    rcases (h.names_iff hs).mp hj with hj | ⟨rfl, rfl⟩
    · rw [hs.view hj, (h.entry hj.1).inode]
    · exact h.inode
  · rw [view_of_not_names fun j hj => hn ⟨j, hj⟩, view_of_not_names fun j hj =>
      hn ⟨j, (h.names_iff hs).mpr (.inl hj)⟩, h.disk]

theorem idle (h : s.Refers t i m) (hs : s.Idle) : t.Idle := fun j hj => by
  by_cases hji : j = i
  · rw [hji]
    exact h.busy hs
  · rw [h.ref_ne hji] at hj
    rw [(h.entry hj).busy, hs j hj]

theorem spare (h : s.Refers t i m) (hs : s.Spare (n + 1)) : t.Spare n := by
  have hsub : (Finset.univ.filter fun j => (s.icache j).ref = 0) ⊆
      insert i (Finset.univ.filter fun j => (t.icache j).ref = 0) := by
    intro j hj
    have hzero := (Finset.mem_filter.mp hj).2
    by_cases hji : j = i
    · rw [hji]
      exact Finset.mem_insert_self _ _
    · refine Finset.mem_insert_of_mem (Finset.mem_filter.mpr ⟨Finset.mem_univ j, ?_⟩)
      rw [h.ref_ne hji, hzero]
  have hcard := (Finset.card_le_card hsub).trans (Finset.card_insert_le _ _)
  unfold Spare at hs ⊢
  omega

/-- A state that is like another has the same reference. -/
theorem alike (h : s.Refers t i m) (ht : t.Alike u) : s.Refers u i m where
  back := h.back.trans ht.dropped
  names := ht.names.mpr h.names
  only := h.only
  fresh := fun hno => by rw [(ht.entry i h.names.1).busy, h.fresh hno]
  inode := (ht.entry i h.names.1).inode.trans h.inode
  read := by
    rw [(ht.entry i h.names.1).stale]
    exact h.read

end Refers

/-! ### An inode that is locked -/

theorem ref_locked : ((s.locked i).icache j).ref = (s.icache j).ref := by
  by_cases hj : j = i
  · rw [hj, icache_locked]
  · rw [locked, icache_setIp_ne hj]

theorem names_locked :
    ((s.locked i).icache j).Names m n ↔ (s.icache j).Names m n := by
  by_cases hj : j = i
  · rw [hj, icache_locked]
    rfl
  · rw [locked, icache_setIp_ne hj]

theorem view_locked : (s.locked i).view n = s.view n :=
  view_congr rfl (fun _ => names_locked) fun _ _ => inode_locked

theorem Tidy.locked (hs : s.Tidy) (htype : (s.inode i).type ≠ 0) : (s.locked i).Tidy where
  dev := fun j hj => by
    rw [ref_locked] at hj
    by_cases hji : j = i
    · rw [hji] at hj ⊢
      rw [icache_locked]
      exact hs.dev i hj
    · rw [Fs.locked, icache_setIp_ne hji]
      exact hs.dev j hj
  nonneg := fun j => by
    rw [ref_locked]
    exact hs.nonneg j
  unique := fun j k n hj hk => hs.unique j k n (names_locked.mp hj) (names_locked.mp hk)
  read := fun j hj => by
    by_cases hji : j = i
    · rw [hji, icache_locked]
      exact fun hc => htype hc.2
    · rw [ref_locked] at hj
      rw [Fs.locked, icache_setIp_ne hji]
      exact hs.read j hj

theorem Spare.locked (hs : s.Spare n) : (s.locked i).Spare n := by
  have hrefs : (Finset.univ.filter fun j => ((s.locked i).icache j).ref = 0) =
      Finset.univ.filter fun j => (s.icache j).ref = 0 :=
    Finset.filter_congr fun j _ => by rw [ref_locked]
  rw [Spare, hrefs]
  exact hs

namespace Refers

/-- The reference to a locked inode is given back after another one has been taken. -/
theorem swap (h : s.Refers t i m) (h' : (t.locked i).Refers u j n) (hs : s.Tidy)
    (hidle : (t.icache i).busy = false) (htype : (s.view m).type ≠ 0) :
    s.Refers ((u.unlocked i).dropped i) j n := by
  have hback : s.Alike (((u.unlocked i).dropped i).dropped j) := by
    rw [dropped_comm, dropped_unlocked]
    have htype' : (t.inode i).type ≠ 0 := by
      rw [h.inode]
      exact htype
    exact h.back.trans ((Alike.relocked hidle htype').dropped.trans h'.back.unlocked.dropped)
  have hident : (((u.unlocked i).dropped i).icache j).dev = ROOTDEV ∧
      (((u.unlocked i).dropped i).icache j).inum = n ∧
        (j = i ∨ ((u.unlocked i).dropped i).icache j = u.icache j) := by
    by_cases hj : j = i
    · have hname := h'.names
      rw [hj] at hname ⊢
      rw [icache_dropped, icache_unlocked]
      exact ⟨hname.2.1, hname.2.2, .inl rfl⟩
    · rw [Fs.dropped, icache_setIp_ne hj, Fs.unlocked, icache_setIp_ne hj]
      exact ⟨h'.names.2.1, h'.names.2.2, .inr rfl⟩
  refine ⟨hback, ⟨?_, hident.1, hident.2.1⟩, fun k hk => ?_, fun hno => ?_, ?_, ?_⟩
  · have href := hback.ref j
    have hnonneg := hs.nonneg j
    rw [icache_dropped] at href
    change (((u.unlocked i).dropped i).icache j).ref - 1 = _ at href
    omega
  · exact h'.only k (names_locked.mpr ((h.names_iff hs).mpr (.inl hk)))
  · by_cases hj : j = i
    · rw [hj, icache_dropped, icache_unlocked]
    · rw [hident.2.2.resolve_left hj]
      refine h'.fresh ?_
      rwa [ref_locked, h.ref_ne hj]
  · rw [inode_dropped, inode_unlock, h'.inode, view_locked, h.view hs]
  · by_cases hj : j = i
    · have hread := h'.read
      rw [hj] at hread ⊢
      rw [icache_dropped, icache_unlocked]
      exact hread
    · rw [hident.2.2.resolve_left hj]
      exact h'.read

end Refers

end View

end Fs

end Xv6
