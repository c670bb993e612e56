import Xv6.Fs.ByteArray
import Xv6.Fs.Path

/-!
# `namei` and `nameiparent`

The two functions return what their path resolves to, and the name that `nameiparent` returns can
be looked up in the directory that it returns. They stop in a panic only when the inode cache runs
out of entries.
-/

namespace Xv6

open Foundation

namespace Fs

/-- What a lookup of a path returns: the inode that it has found, with one reference more. -/
def Got (s t : Fs) (inum : Option ℕ) (i : Option (Fin NINODE)) : Prop :=
  inum = none ∧ i = none ∧ s.Alike t ∨ ∃ m j, inum = some m ∧ i = some j ∧ s.Refers t j m

/-- A lookup stops only where it needs an entry of the inode cache and all are in use. -/
def OutOfInodes (s : Fs) (e : Stop) : Prop := e = .panic .igetNoInodes ∧ ¬ s.Spare 2

section Lookups

variable {s t : Fs} {p : Fin NPROC} {i : Fin NINODE} {n : ℕ} {path name : List UInt8}

theorem outOfInodes (s : Fs) : s.OutOfInodes (.panic .igetNoInodes) ∨ s.Spare 2 := by
  by_cases h : s.Spare 2
  · exact .inr h
  · exact .inl ⟨rfl, h⟩

/-- `namei` returns what the path resolves to. -/
theorem Walkable.namei_got (h : s.Walkable p) (ha : s.Alive p) : wp (FsM.namei p path)
    (fun r t => s.Got t (s.resolve (s.start p path) (elements path)) r) s.OutOfInodes s :=
  h.wp_namei s.outOfInodes (.inr ha) (fun hnone _ ht => .inl ⟨hnone, rfl, ht⟩)
    fun _ j m hfound ht _ => .inr ⟨m, j, hfound, rfl, ht⟩

/-- A name is looked up in a directory that is not locked. -/
theorem Refers.wp_lookup (h : s.Refers t i n) (hs : s.Graph) (hidle : s.Idle) (hk : s.Kept n)
    (htype : (s.view n).type = T_DIR) :
    wp (FsM.ilock i) (fun _ u => wp (FsM.dirlookup i name)
      (fun r v => u.Got v (s.lookup n name) (r.map Prod.fst)) s.OutOfInodes u)
      (fun _ => False) t := by
  refine h.wp_ilock hk (.inr (h.busy hidle)) (.inr (by rw [htype]; decide)) fun hold => ?_
  rw [lookup_of_dir htype]
  refine hold.wp_dirlookup hs htype s.outOfInodes (fun hnone => ?_) fun u j k m hfind hu => ?_
  · rw [hnone]
    exact .inl ⟨rfl, rfl, .refl⟩
  · rw [hfind]
    exact .inr ⟨m, j, rfl, rfl, hu⟩

theorem Walkable.nameiparent_got (h : s.Walkable p) (ha : s.Alive p) :
    wp (FsM.nameiparent p path)
      (fun r t => s.Got t (s.resolveParent (s.start p path) (elements path)) (r.map Prod.fst) ∧
        ∀ i name, r = some (i, name) → (elements path).getLast? = some name ∧
          wp (FsM.ilock i) (fun _ u => wp (FsM.dirlookup i name)
            (fun x v => u.Got v (s.resolve (s.start p path) (elements path)) (x.map Prod.fst))
            s.OutOfInodes u) (fun _ => False) t)
      s.OutOfInodes s := by
  refine h.wp_nameiparent s.outOfInodes (.inr ha) (fun hnone t ht => ?_)
    fun t j d last hfound hlast ht hk htype => ?_
  · exact ⟨.inl ⟨hnone, rfl, ht⟩, fun i name hc => by cases hc⟩
  · refine ⟨.inr ⟨d, j, hfound, rfl, ht⟩, fun i name heq => ?_⟩
    obtain ⟨rfl, rfl⟩ := Prod.mk.inj (Option.some.inj heq)
    have hne : elements path ≠ [] := by
      intro hnil
      rw [hnil] at hlast
      cases hlast
    have hname : (elements path).getLast hne = last :=
      Option.some.inj ((List.getLast?_eq_some_getLast hne).symm.trans hlast)
    refine ⟨hlast, ?_⟩
    rw [resolve_eq_parent hne, hfound, Option.bind_some, hname]
    exact ht.wp_lookup h.toGraph h.idle hk htype

end Lookups

/-! ### A root directory with the entry `.` -/

def rootDir : Dinode :=
  { Dinode.fresh T_DIR with
    nlink := 1, size := Dirent.size, addrs := fun k => if k = 0 then 29 else 0 }

/-- The file system has a root directory, in which the processes are. -/
def rooted : Fs where
  disk :=
    { sb := mkfsSuperblock
      dinode := fun _ => Dinode.zero
      bitmap := fun b => b < mkfsSuperblock.dataStart ∨ b = 29
      data := fun b => if b = 29 then Block.zero.write 0 (Dirent.bytes ⟨ROOTINO, dot⟩)
        else Block.zero }
  icache := fun i => ⟨ROOTDEV, ROOTINO, if i = 0 then 1 else 0, false, true, rootDir⟩
  log := ⟨1, [], []⟩
  user := ⟨fun _ => ⟨.none, 0, false, false, 0, 0, 0⟩, fun _ => ⟨.live, fun _ => none, 0⟩⟩
  io := ⟨fun _ => none, fun _ => none, fun _ _ => -1, fun _ _ => -1⟩

section Rooted

variable {n k : ℕ}

theorem rooted_names {j : Fin NINODE} (h : (rooted.icache j).Names ROOTDEV n) :
    j = 0 ∧ n = ROOTINO := by
  refine ⟨?_, h.2.2.symm⟩
  by_contra hj
  have hpos : (if j = 0 then (1 : ℤ) else 0) > 0 := h.1
  rw [if_neg hj] at hpos
  omega

theorem rooted_tidy : rooted.Tidy where
  dev := fun _ _ => rfl
  nonneg := fun i => by
    change 0 ≤ if i = 0 then (1 : ℤ) else 0
    split <;> decide
  unique := fun i j n hi hj => (rooted_names hi).1.trans (rooted_names hj).1.symm
  read := fun _ _ hc => Nat.one_ne_zero hc.2

theorem rooted_root : (rooted.icache 0).Names ROOTDEV ROOTINO := ⟨by decide, rfl, rfl⟩

theorem rooted_view : rooted.view ROOTINO = rootDir := rooted_tidy.view rooted_root

theorem rooted_view_ne (h : n ≠ ROOTINO) : rooted.view n = Dinode.zero :=
  view_of_not_names fun _ hi => h (rooted_names hi).2

theorem rootDir_hasOne : rootDir.HasOne 29 := fun _ => if_congr (Fin.ext_iff (b := 0)) rfl rfl

theorem rooted_slot {x : List UInt8 × ℕ} (h : (rootDir.slots rooted.disk).slot k = some x) :
    k = 0 ∧ x = (dot, ROOTINO) := by
  have hsize : (rootDir.slots rooted.disk).size = 1 := rfl
  have hlt : k < 1 := by
    by_contra hge
    rw [(rootDir.slots rooted.disk).beyond k (by omega)] at h
    cases h
  obtain rfl : k = 0 := by omega
  have hdot : (rootDir.slots rooted.disk).slot 0 = some (dot, ROOTINO) := by decide
  exact ⟨rfl, Option.some.inj (h.symm.trans hdot)⟩

theorem rooted_dirOk : rootDir.DirOk rooted.disk where
  wf := rootDir_hasOne.wellFormed (by decide) (by decide) rfl (by decide)
  aligned := dvd_refl _
  distinct := fun i j k v w hi hj => (rooted_slot hi).1.trans (rooted_slot hj).1.symm

theorem rooted_kept : rooted.Kept ROOTINO := ⟨by decide, fun _ => .inr ⟨0, rooted_root⟩⟩

/-- The only entry is `.`. -/
theorem rooted_entry {x : List UInt8 × ℕ} (htype : (rooted.view n).type = T_DIR)
    (hslot : ((rooted.view n).slots rooted.disk).slot k = some x) : x.2 = ROOTINO := by
  by_cases h : n = ROOTINO
  · rw [h, rooted_view] at hslot
    rw [(rooted_slot hslot).2]
  · rw [rooted_view_ne h] at htype
    cases htype

theorem rooted_walkable {p : Fin NPROC} : rooted.Walkable p where
  tidy := rooted_tidy
  ok := ⟨fun _ hb => decide_eq_true (.inl hb), by decide⟩
  dir := fun n hn htype => by
    by_cases h : n = ROOTINO
    · rw [h, rooted_view]
      exact rooted_dirOk
    · rw [rooted_view_ne h] at htype
      cases htype
  entry := fun n _ htype k name m hslot => by
    obtain rfl : m = ROOTINO := rooted_entry htype hslot
    exact rooted_kept
  idle := fun _ _ => rfl
  root := rooted_kept
  cwd := rooted_root.1
  here := rooted_kept.inum

theorem rooted_type : (rooted.view ROOTINO).type = T_DIR := by rw [rooted_view]; rfl

theorem rooted_alive {p : Fin NPROC} : rooted.Alive p where
  entry := fun n _ htype k name m hslot => by
    obtain rfl : m = ROOTINO := rooted_entry htype hslot
    rw [rooted_type]
    decide
  root := by
    rw [rooted_type]
    decide
  here := by
    change (rooted.view ROOTINO).type ≠ 0
    rw [rooted_type]
    decide

theorem rooted_lookup {name : List UInt8} : rooted.lookup ROOTINO name =
    ((rootDir.slots rooted.disk).find (Dirent.key name)).map Prod.snd := by
  rw [lookup_of_dir rooted_type, rooted_view]

theorem rooted_spare : rooted.Spare 2 := by
  have hsub : ({1, 2} : Finset (Fin NINODE)) ⊆
      Finset.univ.filter fun i => (rooted.icache i).ref = 0 := by
    intro i hi
    rcases Finset.mem_insert.mp hi with rfl | hi
    · exact Finset.mem_filter.mpr ⟨Finset.mem_univ _, rfl⟩
    · rw [Finset.mem_singleton.mp hi]
      exact Finset.mem_filter.mpr ⟨Finset.mem_univ _, rfl⟩
  exact Finset.card_le_card hsub

/-- The lookup returns. -/
theorem rooted_returns {α : Type} {m : FsM α} {Q : α → Fs → Prop}
    (h : wp m Q rooted.OutOfInodes rooted) : ∃ a t, m rooted = .ok (a, t) ∧ Q a t := by
  have hnever : wp m Q (fun _ => False) rooted :=
    wp_mono h (fun _ _ hq => hq) fun _ he => he.2 rooted_spare
  exact hnever.exists_ok

end Rooted

/-! ### A root directory when the inode cache is full -/

def plainFile : Dinode := { Dinode.fresh T_FILE with nlink := 1 }

def twoNames : Dinode := { rootDir with size := 2 * Dirent.size }

/-- The root has the names `.` and `a`, and every entry of the inode cache is in use, none of them
for `a`. -/
def busyRoot : Fs :=
  { rooted with
    disk := { rooted.disk with
      dinode := fun _ => plainFile
      data := fun b =>
        if b = 29 then
          (Block.zero.write 0 (Dirent.bytes ⟨ROOTINO, dot⟩)).write 16 (Dirent.bytes ⟨60, [97]⟩)
        else Block.zero }
    icache := fun i =>
      ⟨ROOTDEV, ROOTINO + i, 1, false, true, if i = 0 then twoNames else plainFile⟩ }

section Busy

variable {n k : ℕ}

theorem busyRoot_names {j : Fin NINODE} (h : (busyRoot.icache j).Names ROOTDEV n) :
    n = ROOTINO + j := h.2.2.symm

theorem busyRoot_tidy : busyRoot.Tidy where
  dev := fun _ _ => rfl
  nonneg := fun _ => Int.one_nonneg
  unique := fun i j n hi hj => by
    have hsame := (busyRoot_names hi).symm.trans (busyRoot_names hj)
    exact Fin.ext (Nat.add_left_cancel hsame)
  read := fun i _ hc => by
    have htype : (if i = 0 then twoNames else plainFile).type = 0 := hc.2
    split at htype
    · cases htype
    · cases htype

theorem busyRoot_root : (busyRoot.icache 0).Names ROOTDEV ROOTINO := ⟨by decide, rfl, rfl⟩

theorem busyRoot_view : busyRoot.view ROOTINO = twoNames := busyRoot_tidy.view busyRoot_root

theorem busyRoot_view_ne (h : n ≠ ROOTINO) : busyRoot.view n = plainFile := by
  by_cases hin : ∃ i, (busyRoot.icache i).Names ROOTDEV n
  · obtain ⟨i, hi⟩ := hin
    rw [busyRoot_tidy.view hi]
    change (if i = 0 then twoNames else plainFile) = plainFile
    refine if_neg fun hzero => h ?_
    rw [busyRoot_names hi, hzero]
    rfl
  · exact view_of_not_names fun i hi => hin ⟨i, hi⟩

theorem busyRoot_only (h : (busyRoot.view n).type = T_DIR) : n = ROOTINO := by
  by_contra hne
  rw [busyRoot_view_ne hne] at h
  cases h

theorem busyRoot_alive : (busyRoot.view n).type ≠ 0 := by
  by_cases h : n = ROOTINO
  · rw [h, busyRoot_view]
    decide
  · rw [busyRoot_view_ne h]
    decide

theorem busyRoot_kept (h : n < 200) : busyRoot.Kept n := by
  refine ⟨h, fun _ => ?_⟩
  by_cases hn : n = ROOTINO
  · exact .inr ⟨0, hn ▸ busyRoot_root⟩
  · rw [busyRoot_view_ne hn]
    exact .inl (by decide)

theorem twoNames_slot {x : List UInt8 × ℕ} (h : (twoNames.slots busyRoot.disk).slot k = some x) :
    k = 0 ∧ x = (dot, ROOTINO) ∨ k = 1 ∧ x = ([97], 60) := by
  have hsize : (twoNames.slots busyRoot.disk).size = 2 := rfl
  have hlt : k < 2 := by
    by_contra hge
    rw [(twoNames.slots busyRoot.disk).beyond k (by omega)] at h
    cases h
  have hslots : (twoNames.slots busyRoot.disk).slot 0 = some (dot, ROOTINO) ∧
      (twoNames.slots busyRoot.disk).slot 1 = some ([97], 60) := by decide
  obtain rfl | rfl : k = 0 ∨ k = 1 := by omega
  · exact .inl ⟨rfl, Option.some.inj (h.symm.trans hslots.1)⟩
  · exact .inr ⟨rfl, Option.some.inj (h.symm.trans hslots.2)⟩

theorem twoNames_dirOk : twoNames.DirOk busyRoot.disk where
  wf := by
    have hone : twoNames.HasOne 29 := rootDir_hasOne
    exact hone.wellFormed (by decide) (by decide) rfl (by decide)
  aligned := by decide
  distinct := fun i j k v w hi hj => by
    have hne : ([97] : List UInt8) ≠ dot := by decide
    rcases twoNames_slot hi with ⟨rfl, hx⟩ | ⟨rfl, hx⟩ <;>
      rcases twoNames_slot hj with ⟨rfl, hy⟩ | ⟨rfl, hy⟩ <;>
      obtain ⟨rfl, -⟩ := Prod.mk.inj hx
    · rfl
    · exact absurd (Prod.mk.inj hy).1.symm hne
    · exact absurd (Prod.mk.inj hy).1 hne
    · rfl

theorem busyRoot_walkable {p : Fin NPROC} : busyRoot.Walkable p where
  tidy := busyRoot_tidy
  ok := ⟨fun _ hb => decide_eq_true (.inl hb), by decide⟩
  dir := fun n _ htype => by
    rw [busyRoot_only htype, busyRoot_view]
    exact twoNames_dirOk
  entry := fun n _ htype k name m hslot => by
    rw [busyRoot_only htype, busyRoot_view] at hslot
    rcases twoNames_slot hslot with ⟨-, hx⟩ | ⟨-, hx⟩
    · obtain rfl : m = ROOTINO := congrArg Prod.snd hx
      exact busyRoot_kept (by decide)
    · obtain rfl : m = 60 := congrArg Prod.snd hx
      exact busyRoot_kept (by decide)
  idle := fun _ _ => rfl
  root := busyRoot_kept (by decide)
  cwd := Int.one_pos
  here := (busyRoot_kept (by decide) : busyRoot.Kept ROOTINO).inum

end Busy

end Fs

/-- Paths are looked up by a fold over their elements, from the root or the current directory on:
`skipelem` takes them apart, `namei` returns the inode that the fold comes to, referenced, or
fails exactly if on the way there is a file that is not a directory or a name that is missing, and
`nameiparent` stops one element before. The only other outcome is the panic of `iget`, and it
needs that fewer than two entries of the inode cache are free. -/
theorem namei_folds {s : Fs} {p : Fin NPROC} (h : s.Walkable p) (ha : s.Alive p)
    (path : List UInt8) :
    skipelems path = elements path ∧
    wp (FsM.namei p path)
      (fun r t => s.Got t (s.resolve (s.start p path) (elements path)) r) s.OutOfInodes s ∧
    (s.resolve (s.start p path) (elements path) = none ↔ ∃ before name after d,
      elements path = before ++ name :: after ∧ s.resolve (s.start p path) before = some d ∧
        ((s.view d).type ≠ T_DIR ∨
          ((s.view d).slots s.disk).find (Dirent.key name) = none)) ∧
    wp (FsM.nameiparent p path)
      (fun r t => s.Got t (s.resolveParent (s.start p path) (elements path)) (r.map Prod.fst) ∧
        ∀ i name, r = some (i, name) → (elements path).getLast? = some name ∧
          wp (FsM.ilock i) (fun _ u => wp (FsM.dirlookup i name)
            (fun x v => u.Got v (s.resolve (s.start p path) (elements path)) (x.map Prod.fst))
            s.OutOfInodes u) (fun _ => False) t)
      s.OutOfInodes s := by
  refine ⟨skipelems_eq path, h.namei_got ha, ?_, h.nameiparent_got ha⟩
  rw [Fs.resolve_eq_none]
  simp only [Fs.lookup_eq_none]

/-- The root has itself under the name `.`, and no file `a`. -/
theorem namei_folds_root : (∃ t, FsM.namei 0 [46, 47, 46] Fs.rooted = .ok (some 0, t)) ∧
    (∃ t, FsM.namei 0 [47, 97] Fs.rooted = .ok (none, t)) ∧
      ∃ t, FsM.nameiparent 0 [46, 47, 47, 97, 47] Fs.rooted = .ok (some (0, [97]), t) := by
  have hdot : Fs.rooted.lookup ROOTINO dot = some ROOTINO := by
    rw [Fs.rooted_lookup]
    decide
  have hname : Fs.rooted.lookup ROOTINO [97] = none := by
    rw [Fs.rooted_lookup]
    decide
  refine ⟨?_, ?_, ?_⟩
  · obtain ⟨r, t, hrun, hgot⟩ := Fs.rooted_returns
      (namei_folds (p := 0) Fs.rooted_walkable Fs.rooted_alive [46, 47, 46]).2.1
    have hpath : Fs.rooted.resolve ROOTINO [dot, dot] = some ROOTINO := by
      rw [Fs.resolve_cons, hdot, Option.bind_some, Fs.resolve_cons, hdot]
      rfl
    rcases hgot with ⟨hnone, -⟩ | ⟨m, j, hsome, rfl, href⟩
    · exact absurd (hpath.symm.trans hnone) (Option.some_ne_none _)
    · obtain rfl := Option.some.inj (hpath.symm.trans hsome)
      exact ⟨t, by rw [hrun, href.only 0 Fs.rooted_root]⟩
  · obtain ⟨r, t, hrun, hgot⟩ := Fs.rooted_returns
      (namei_folds (p := 0) Fs.rooted_walkable Fs.rooted_alive [47, 97]).2.1
    have hpath : Fs.rooted.resolve ROOTINO [[97]] = none := by
      rw [Fs.resolve_cons, hname]
      rfl
    rcases hgot with ⟨-, rfl, -⟩ | ⟨m, j, hsome, -⟩
    · exact ⟨t, hrun⟩
    · exact absurd (hsome.symm.trans hpath) (Option.some_ne_none _)
  · obtain ⟨r, t, hrun, hgot, hlast⟩ := Fs.rooted_returns
      (namei_folds (p := 0) Fs.rooted_walkable Fs.rooted_alive [46, 47, 47, 97, 47]).2.2.2
    have hpath : Fs.rooted.resolveParent ROOTINO [dot, [97]] = some ROOTINO := by
      rw [Fs.resolveParent_cons (by decide), hdot, Option.bind_some, Fs.resolveParent_singleton,
        if_pos Fs.rooted_type]
    rcases hgot with ⟨hnone, -⟩ | ⟨m, j, hsome, hr, href⟩
    · exact absurd (hpath.symm.trans hnone) (Option.some_ne_none _)
    · obtain rfl := Option.some.inj (hpath.symm.trans hsome)
      obtain ⟨⟨i, name⟩, rfl, rfl⟩ := Option.map_eq_some_iff.mp hr
      obtain rfl : [97] = name := Option.some.inj (hlast i name rfl).1
      exact ⟨t, by rw [hrun, href.only 0 Fs.rooted_root]⟩

/-- `namei` panics when it comes to an inode that is not cached and every entry of the inode cache
is in use. -/
theorem namei_stops : ∃ s : Fs, s.Walkable 0 ∧ s.Alive 0 ∧
    s.resolve (s.start 0 [47, 97]) (elements [47, 97]) = some 60 ∧
      FsM.namei 0 [47, 97] s = .error (.panic .igetNoInodes) := by
  refine ⟨Fs.busyRoot, Fs.busyRoot_walkable, ⟨fun _ _ _ _ _ _ _ => Fs.busyRoot_alive,
    Fs.busyRoot_alive, Fs.busyRoot_alive⟩, ?_, ?_⟩
  · have hname : Fs.busyRoot.lookup ROOTINO [97] = some 60 := by
      have htype : (Fs.busyRoot.view ROOTINO).type = T_DIR := by
        rw [Fs.busyRoot_view]
        rfl
      rw [Fs.lookup_of_dir htype, Fs.busyRoot_view]
      decide
    have hpath : Fs.busyRoot.resolve ROOTINO [[97]] = some 60 := by
      rw [Fs.resolve_cons, hname]
      rfl
    exact hpath
  · have hstop : (match FsM.namei 0 [47, 97] Fs.busyRoot with
        | .ok _ => none
        | .error e => some e) = some (.panic .igetNoInodes) := by
      decide +kernel
    cases hrun : FsM.namei 0 [47, 97] Fs.busyRoot with
    | ok x =>
        rw [hrun] at hstop
        cases hstop
    | error e =>
        rw [hrun] at hstop
        exact congrArg Except.error (Option.some.inj hstop)

end Xv6
