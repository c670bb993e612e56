import Xv6.Fs.Settled
import Xv6.Mkfs.Consistent

/-!
# The kernel on an image of `mkfs`

The first process is in the root directory of the image. What the kernel looks up there and reads
are the files that have been given to `mkfs`.
-/

namespace Xv6

namespace Mkfs

open Foundation

def rootEntries (files : List Input) : List Dirent :=
  ⟨ROOTINO, dot⟩ :: ⟨ROOTINO, dotdot⟩ ::
    files.mapIdx fun i f => ⟨i + 2, skipUnderscore f.name⟩

/-- What the kernel looks up in the root directory. -/
def names (files : List Input) : List (List UInt8) :=
  files.map fun f => Dirent.key (skipUnderscore f.name)

/-- The kernel has been booted: nothing is open, and there is nothing in the inode cache, as
`iinit` leaves it. -/
def iinited (img : ℕ → Block) (io : Io) : Fs where
  disk := disk img
  icache := fun _ => ⟨0, 0, 0, false, false, Dinode.zero⟩
  log := ⟨0, [], []⟩
  user := ⟨fun _ => ⟨.none, 0, false, false, 0, 0, 0⟩,
    fun p => ⟨if p = 0 then .live else .unused, fun _ => none, 0⟩⟩
  io := io

/-- `userinit` has looked `/` up for the first process. -/
def booted (img : ℕ → Block) (io : Io) : Fs :=
  { iinited img io with
    icache := Function.update (fun _ => ⟨0, 0, 0, false, false, Dinode.zero⟩) 0
      ⟨ROOTDEV, ROOTINO, 1, false, false, Dinode.zero⟩ }

/-- It gets the first entry of the cache, which is what `cwd` is in `iinited`. -/
theorem namei_root {img : ℕ → Block} {io : Io} :
    FsM.namei 0 [slash] (iinited img io) = .ok (some 0, booted img io) := rfl

section Root

variable {s t : State} {files : List Input} {k n : ℕ}

theorem entries_eq : entries n files = ((files.mapIdx fun i f =>
    (⟨n + i, skipUnderscore f.name⟩ : Dirent)).map Dirent.bytes).flatten := by
  induction files generalizing n with
  | nil => rfl
  | cons f files ih =>
      have hshift : (fun i (f : Input) => (⟨n + (i + 1), skipUnderscore f.name⟩ : Dirent)) =
          fun i f => ⟨n + 1 + i, skipUnderscore f.name⟩ := by
        funext i f
        congr 1
        omega
      rw [entries, ih, List.mapIdx_cons, List.map_cons, List.flatten_cons, hshift]
      rfl

theorem rootBytes_eq : rootBytes files = ((rootEntries files).map Dirent.bytes).flatten := by
  have hswap : (fun i (f : Input) => (⟨2 + i, skipUnderscore f.name⟩ : Dirent)) =
      fun i f => ⟨i + 2, skipUnderscore f.name⟩ := by
    funext i f
    rw [Nat.add_comm]
  have htwo : ROOTINO + 1 = 2 := rfl
  rw [rootBytes, htwo, entries_eq, hswap, rootEntries, List.map_cons, List.map_cons,
    List.flatten_cons, List.flatten_cons, List.append_assoc]

theorem length_rootEntries : (rootEntries files).length = files.length + 2 := by
  rw [rootEntries, List.length_cons, List.length_cons, List.length_mapIdx]

/-- The bytes behind the last entry are zeroes. -/
theorem Final.root_contents (h : Final files t s) :
    ∃ pad, ((disk s.img).dinode ROOTINO).contents (disk s.img) =
      rootBytes files ++ List.replicate pad 0 := by
  have hsize := h.root_size
  have hlen : (rootBytes files).length = 16 * (files.length + 2) := length_rootBytes
  rw [BSIZE_eq] at hsize
  refine ⟨((disk s.img).dinode ROOTINO).size - (rootBytes files).length, ?_⟩
  have hsplit : ((disk s.img).dinode ROOTINO).size = (rootBytes files).length +
      (((disk s.img).dinode ROOTINO).size - (rootBytes files).length) := by omega
  rw [Dinode.contents, h.byteAt (by decide), hsplit, window_add, Nat.add_sub_cancel_left,
    Nat.zero_add]
  congr 1
  · refine List.ext_getElem length_window fun k hk hk' => ?_
    rw [getElem_window, Nat.zero_add]
    exact (List.getD_eq_getElem _ _ hk')
  · refine List.eq_replicate_iff.mpr ⟨length_window, fun b hb => ?_⟩
    obtain ⟨k, -, rfl⟩ := List.mem_map.mp hb
    exact List.getD_eq_default _ _ (Nat.le_add_right _ _)

theorem inum_rootEntries {de : Dirent} (hde : de ∈ rootEntries files) :
    0 < de.inum ∧ de.inum < files.length + 2 := by
  have hroot : ROOTINO = 1 := rfl
  rcases List.mem_cons.mp hde with rfl | hde
  · exact ⟨by decide, by change ROOTINO < _; omega⟩
  · rcases List.mem_cons.mp hde with rfl | hde
    · exact ⟨by decide, by change ROOTINO < _; omega⟩
    · obtain ⟨i, hi, rfl⟩ := List.mem_mapIdx.mp hde
      exact ⟨Nat.succ_pos _, Nat.add_lt_add_right hi 2⟩

theorem inum_zeroes {bs : List UInt8} (h : ∀ b ∈ bs, b = 0) : (Dirent.ofBytes bs).inum = 0 := by
  have hzero : ∀ k, bs.getD k 0 = 0 := fun k => by
    by_cases hk : k < bs.length
    · rw [List.getD_eq_getElem _ _ hk]
      exact h _ (List.getElem_mem hk)
    · exact List.getD_eq_default _ _ (Nat.not_lt.mp hk)
  rw [Dirent.ofBytes, hzero, hzero]
  rfl

/-- What the slots of the root directory hold. -/
theorem Final.slot (h : Final files t s) (k : ℕ) :
    (((disk s.img).dinode ROOTINO).slots (disk s.img)).slot k =
      (rootEntries files)[k]?.map fun de => (Dirent.key de.name, de.inum) := by
  obtain ⟨pad, hcontents⟩ := h.root_contents
  have hlens : ∀ xs ∈ (rootEntries files).map Dirent.bytes, xs.length = Dirent.size := by
    intro xs hxs
    obtain ⟨de, -, rfl⟩ := List.mem_map.mp hxs
    exact Dirent.length_bytes
  change (Dirent.ofBytes (record Dirent.size _ k)).live = _
  rw [hcontents, rootBytes_eq]
  by_cases hk : k < (rootEntries files).length
  · have hfew := h.few
    have hde := inum_rootEntries (List.getElem_mem hk)
    have hinodes := inodes_eq
    rw [record_flatten hlens (by rwa [List.length_map]), List.getElem_map,
      List.getElem?_eq_getElem hk, Option.map_some]
    exact Dirent.live_ofBytes_bytes hde.1 (by omega)
  · rw [List.getElem?_eq_none (Nat.not_lt.mp hk), Option.map_none]
    have hlen : ((rootEntries files).map Dirent.bytes).flatten.length ≤ Dirent.size * k := by
      rw [← rootBytes_eq, length_rootBytes, Dirent.size_eq]
      rw [length_rootEntries] at hk
      omega
    refine Dirent.live_eq_none.mpr (inum_zeroes fun b hb => ?_)
    have hmem := List.mem_of_mem_take hb
    rw [List.drop_append, List.drop_eq_nil_of_le hlen, List.nil_append] at hmem
    exact List.eq_of_mem_replicate (List.mem_of_mem_drop hmem)

theorem names_rootEntries : (rootEntries files).map (fun de => Dirent.key de.name) =
    dot :: dotdot :: names files := by
  have hnames : (files.mapIdx fun i f => (⟨i + 2, skipUnderscore f.name⟩ : Dirent)).map
      (fun de => Dirent.key de.name) = names files := by
    refine List.ext_getElem? fun i => ?_
    rw [List.getElem?_map, List.getElem?_mapIdx, names, List.getElem?_map, Option.map_map]
    rfl
  rw [rootEntries, List.map_cons, List.map_cons, hnames]
  rfl

theorem Final.slots_distinct (h : Final files t s)
    (hnames : (dot :: dotdot :: names files).Nodup) :
    (((disk s.img).dinode ROOTINO).slots (disk s.img)).Distinct := by
  intro i j k v w hi hj
  rw [h.slot] at hi hj
  obtain ⟨de, hde, heq⟩ := Option.map_eq_some_iff.mp hi
  obtain ⟨de', hde', heq'⟩ := Option.map_eq_some_iff.mp hj
  have hlt : i < (rootEntries files).length := (List.getElem?_eq_some_iff.mp hde).1
  rw [← names_rootEntries] at hnames
  refine (List.getElem?_inj (by rwa [List.length_map]) hnames).mp ?_
  rw [List.getElem?_map, List.getElem?_map, hde, hde', Option.map_some, Option.map_some,
    (Prod.mk.inj heq).1, (Prod.mk.inj heq').1]

end Root

/-! ### The first state -/

section Booted

variable {s t : State} {files : List Input} {img : ℕ → Block} {io : Io} {n : ℕ}
  {i j : Fin NINODE} {p : Fin NPROC}

theorem booted_icache : (booted img io).icache =
    Function.update (fun _ => ⟨0, 0, 0, false, false, Dinode.zero⟩) 0
      ⟨ROOTDEV, ROOTINO, 1, false, false, Dinode.zero⟩ := rfl

theorem booted_free (h : i ≠ 0) :
    (booted img io).icache i = ⟨0, 0, 0, false, false, Dinode.zero⟩ := by
  rw [booted_icache, Function.update_of_ne h]

theorem booted_used (h : 0 < ((booted img io).icache i).ref) : i = 0 := by
  by_contra hi
  rw [booted_free hi] at h
  exact absurd h (by decide)

theorem booted_names (h : ((booted img io).icache j).Names ROOTDEV n) : j = 0 ∧ n = ROOTINO := by
  have hj := booted_used h.1
  refine ⟨hj, ?_⟩
  rw [hj] at h
  exact h.2.2.symm

theorem booted_closed : ((booted img io).icache i).busy = false ∧
    ((booted img io).icache i).valid = false := by
  by_cases hi : i = 0
  · rw [hi]
    exact ⟨rfl, rfl⟩
  · rw [booted_free hi]
    exact ⟨rfl, rfl⟩

theorem booted_root : ((booted img io).icache 0).Names ROOTDEV ROOTINO :=
  ⟨Int.one_pos, rfl, rfl⟩

theorem booted_tidy : (booted img io).Tidy where
  dev := fun i hi => by
    rw [booted_used hi]
    rfl
  nonneg := fun i => by
    by_cases hi : i = 0
    · rw [hi]
      exact Int.one_nonneg
    · rw [booted_free hi]
  unique := fun i j n hi hj => (booted_names hi).1.trans (booted_names hj).1.symm
  read := fun i _ hc => Bool.false_ne_true (booted_closed.2.symm.trans hc.1)

/-- No inode has been read yet. -/
theorem booted_view : (booted img io).view n = (disk img).dinode n := by
  by_cases hn : n = ROOTINO
  · rw [hn, booted_tidy.view booted_root]
    rfl
  · exact Fs.view_of_not_names fun j hj => hn (booted_names hj).2

theorem booted_spare : (booted img io).Spare 2 := by
  have hsub : ({1, 2} : Finset (Fin NINODE)) ⊆
      Finset.univ.filter fun i => ((booted img io).icache i).ref = 0 := by
    intro i hi
    rcases Finset.mem_insert.mp hi with rfl | hi
    · exact Finset.mem_filter.mpr ⟨Finset.mem_univ _, rfl⟩
    · rw [Finset.mem_singleton.mp hi]
      exact Finset.mem_filter.mpr ⟨Finset.mem_univ _, rfl⟩
  exact Finset.card_le_card hsub

/-- What the files have to be like for the kernel to run on the image. -/
structure Bootable (files : List Input) : Prop where
  /-- the inodes of the files are below `sb.ninodes`; `mkfs` itself would go up to `inodes` -/
  few : files.length + 2 ≤ ninodes
  space : allCost files ≤ nblocks
  round : (files.length + 2) % 32 ≠ 0
  names : (dot :: dotdot :: names files).Nodup

/-- The kind of an inode. -/
theorem Final.kind (h : Final files t s) (hn : n < inodes) :
    ((disk s.img).dinode n).type = (Mkfs.kind (files.length + 2) n).type ∧
      ((disk s.img).dinode n).nlink = (Mkfs.kind (files.length + 2) n).nlink := by
  obtain ⟨k, addrs, hfields⟩ := h.fields n hn
  rw [h.dinode hn, hfields, h.freeinode]
  exact ⟨rfl, rfl⟩

theorem root_lt : ROOTINO < files.length + 2 := Nat.lt_add_left _ (Nat.lt_succ_self 1)

theorem Final.root_type (h : Final files t s) : ((disk s.img).dinode ROOTINO).type = T_DIR := by
  rw [(h.kind (by decide)).1, Mkfs.kind, if_pos ⟨Nat.le_refl 1, root_lt⟩]
  rfl

theorem Final.dir_eq (h : Final files t s) (hn : n < inodes)
    (htype : ((disk s.img).dinode n).type = T_DIR) : n = ROOTINO := by
  by_contra hne
  rw [(h.kind hn).1, Mkfs.kind] at htype
  by_cases hlt : 1 ≤ n ∧ n < files.length + 2
  · rw [if_pos hlt, if_neg hne] at htype
    exact absurd htype (by decide)
  · rw [if_neg hlt] at htype
    exact absurd htype (by decide)

/-- An inode that is listed has a link. -/
theorem Final.nlink (h : Final files t s) (hn : 1 ≤ n) (hlt : n < files.length + 2) :
    ((disk s.img).dinode n).nlink = 1 ∧ ((disk s.img).dinode n).type ≠ 0 := by
  have hin : n < inodes := lt_of_lt_of_le hlt h.few
  rw [(h.kind hin).1, (h.kind hin).2, Mkfs.kind, if_pos ⟨hn, hlt⟩]
  refine ⟨rfl, ?_⟩
  change (if n = ROOTINO then T_DIR else T_FILE) ≠ 0
  split <;> decide

/-- The root directory can be read. -/
theorem Final.dirOk (h : Final files t s) (hb : Bootable files) :
    ((disk s.img).dinode ROOTINO).DirOk (disk s.img) where
  wf := h.wellFormed (by decide) hb.space hb.round
  aligned := by
    rw [h.root_size, BSIZE_eq]
    exact Dvd.dvd.mul_left (by decide) _
  distinct := h.slots_distinct hb.names

/-- What the kernel takes for an inode is in front of the bitmap. -/
theorem lt_inodes (hn : n < ninodes) : n < inodes := lt_trans hn (by decide)

/-- An inode that is listed is kept. -/
theorem Final.kept (h : Final files t s) (hb : Bootable files) (hn : 1 ≤ n)
    (hlt : n < files.length + 2) : (booted s.img io).Kept n where
  inum := by
    change n < (disk s.img).sb.ninodes
    rw [h.sb]
    exact lt_of_lt_of_le hlt hb.few
  linked := fun _ => by
    rw [booted_view, (h.nlink hn hlt).1]
    exact .inl one_ne_zero

/-- The entries of the root directory lead to the root and to the files. -/
theorem Final.entry (h : Final files t s) (hn : n < ninodes)
    (htype : ((booted s.img io).view n).type = T_DIR) {k m : ℕ} {name : List UInt8}
    (hslot : (((booted s.img io).view n).slots (booted s.img io).disk).slot k = some (name, m)) :
    1 ≤ m ∧ m < files.length + 2 := by
  rw [booted_view] at htype hslot
  rw [h.dir_eq (lt_inodes hn) htype] at hslot
  change (((disk s.img).dinode ROOTINO).slots (disk s.img)).slot k = _ at hslot
  rw [h.slot] at hslot
  obtain ⟨de, hde, heq⟩ := Option.map_eq_some_iff.mp hslot
  rw [← (Prod.mk.inj heq).2]
  exact inum_rootEntries (List.mem_of_getElem? hde)

theorem Final.inum_lt (h : Final files t s) (hn : n < (booted s.img io).disk.sb.ninodes) :
    n < ninodes := by
  change n < (disk s.img).sb.ninodes at hn
  rw [h.sb] at hn
  exact hn

theorem Final.walkable (h : Final files t s) (hb : Bootable files) :
    (booted s.img io).Walkable p where
  tidy := booted_tidy
  ok := {
    marked := fun b hlt => by
      change b < (disk s.img).sb.dataStart at hlt
      rw [h.sb] at hlt
      have hlow := h.low
      have hsmall := h.small
      exact (h.bitmap (by omega)).trans (decide_eq_true (by omega))
    small := by
      change (disk s.img).sb.size ≤ _
      rw [h.sb]
      decide }
  dir := fun n hn htype => by
    rw [booted_view] at htype ⊢
    rw [h.dir_eq (lt_inodes (h.inum_lt hn)) htype]
    exact h.dirOk hb
  entry := fun n hn htype k name m hslot => by
    have hm := h.entry (h.inum_lt hn) htype hslot
    exact h.kept hb hm.1 hm.2
  idle := fun _ _ => booted_closed.1
  root := h.kept hb (Nat.le_refl 1) root_lt
  cwd := booted_root.1
  here := by
    have hroot : (booted s.img io).Kept ROOTINO := h.kept hb (Nat.le_refl 1) root_lt
    exact hroot.inum

theorem Final.alive (h : Final files t s) : (booted s.img io).Alive p where
  entry := fun n hn htype k name m hslot => by
    have hm := h.entry (h.inum_lt hn) htype hslot
    rw [booted_view]
    exact (h.nlink hm.1 hm.2).2
  root := by
    rw [booted_view]
    exact (h.nlink (Nat.le_refl 1) root_lt).2
  here := by
    rw [booted_view]
    exact (h.nlink (Nat.le_refl 1) root_lt).2

/-- No inode has too many links. -/
theorem Final.nlink_bound (h : Final files t s) (hn : n < inodes) :
    0 ≤ ((disk s.img).dinode n).nlink ∧ ((disk s.img).dinode n).nlink < 32768 := by
  rw [(h.kind hn).2, Mkfs.kind]
  split
  · exact (by decide : (0 : ℤ) ≤ 1 ∧ (1 : ℤ) < 32768)
  · exact (by decide : (0 : ℤ) ≤ 0 ∧ (0 : ℤ) < 32768)

theorem Final.settled (h : Final files t s) (hb : Bootable files) :
    (booted s.img io).Settled p where
  toWalkable := h.walkable hb
  one := by
    change (disk s.img).sb.size ≤ BPB
    rw [h.sb]
    decide
  files := fun n hn _ => by
    rw [booted_view]
    exact h.wellFormed (lt_inodes (h.inum_lt hn)) hb.space hb.round
  apart := fun m hm n hn hne _ _ => by
    rw [booted_view, booted_view]
    exact (h.consistent hb.space hb.round).apart m n (front_iff.mpr (lt_inodes (h.inum_lt hm)))
      (front_iff.mpr (lt_inodes (h.inum_lt hn))) hne
  nlink := fun n hn => by
    rw [booted_view]
    exact h.nlink_bound (lt_inodes (h.inum_lt hn))
  inum := fun i hi => by
    rw [booted_used hi]
    exact (h.walkable (p := p) hb).here
  alloc := fun i hi => by
    rw [booted_used hi]
    exact (h.nlink (Nat.le_refl 1) root_lt).2
  synced := fun i _ hvalid => absurd (booted_closed.2.symm.trans hvalid) Bool.false_ne_true
  closed := fun _ _ => rfl

end Booted

/-! ### Looking a file up -/

section Lookup

variable {s t : State} {files : List Input} {io : Io} {p : Fin NPROC} {i : ℕ} {f : Input}
  {name : List UInt8}

theorem elements_name (hne : name ≠ []) (hslash : slash ∉ name) :
    elements (slash :: name) = [name.take DIRSIZ] := by
  have hnot : ∀ c ∈ name, (!decide (c = slash)) = true := fun c hc => by
    rw [Bool.not_eq_true', decide_eq_false_iff_not]
    rintro rfl
    exact hslash hc
  have htake : name.takeWhile (fun c => !decide (c = slash)) = name :=
    List.takeWhile_eq_self_iff.mpr hnot
  have hdrop : name.dropWhile (fun c => !decide (c = slash)) = [] :=
    List.dropWhile_eq_nil_iff.mpr hnot
  have hskip : fields (fun c => decide (c = slash)) (slash :: name) =
      fields (fun c => decide (c = slash)) name := fields_sep (decide_eq_true rfl)
  rw [elements, hskip]
  cases name with
  | nil => exact absurd rfl hne
  | cons c name =>
      have hc : decide (c = slash) = false := by
        rw [decide_eq_false_iff_not]
        rintro rfl
        exact hslash List.mem_cons_self
      have hfirst : fields (fun c => decide (c = slash)) (c :: name) =
          (c :: name).takeWhile (fun c => !decide (c = slash)) ::
            fields (fun c => decide (c = slash))
              ((c :: name).dropWhile fun c => !decide (c = slash)) := fields_cons hc
      rw [hfirst, htake, hdrop]
      rfl

theorem key_take : Dirent.key (name.take DIRSIZ) = Dirent.key name := by
  rw [Dirent.key, Dirent.key, List.take_take, Nat.min_self]

theorem Final.lookup_eq (h : Final files t s) : (booted s.img io).lookup ROOTINO name =
    ((((disk s.img).dinode ROOTINO).slots (disk s.img)).find (Dirent.key name)).map Prod.snd := by
  have htype : ((booted s.img io).view ROOTINO).type = T_DIR := by
    rw [booted_view]
    exact h.root_type
  rw [Fs.lookup_of_dir htype, booted_view]
  rfl

theorem Final.lookup_file (h : Final files t s) (hb : Bootable files) (hi : files[i]? = some f)
    (hkey : Dirent.key name = Dirent.key (skipUnderscore f.name)) :
    (booted s.img io).lookup ROOTINO (name.take DIRSIZ) = some (i + 2) := by
  have hslot : (((disk s.img).dinode ROOTINO).slots (disk s.img)).slot (i + 2) =
      some (Dirent.key (skipUnderscore f.name), i + 2) := by
    rw [h.slot, rootEntries, List.getElem?_cons_succ, List.getElem?_cons_succ,
      List.getElem?_mapIdx, hi]
    rfl
  rw [h.lookup_eq, key_take, hkey, ((h.slots_distinct hb.names).find_eq_some).mpr hslot]
  rfl

theorem Final.lookup_none (h : Final files t s)
    (hname : Dirent.key name ∉ dot :: dotdot :: names files) :
    (booted s.img io).lookup ROOTINO (name.take DIRSIZ) = none := by
  rw [h.lookup_eq, key_take, Slots.find_eq_none.mpr fun i v hslot => ?_, Option.map_none]
  rw [h.slot] at hslot
  obtain ⟨de, hde, heq⟩ := Option.map_eq_some_iff.mp hslot
  refine hname ?_
  rw [← names_rootEntries, ← (Prod.mk.inj heq).1]
  exact List.mem_map_of_mem (List.mem_of_getElem? hde)

theorem resolve_name (hne : name ≠ []) (hslash : slash ∉ name) :
    (booted s.img io).resolve ((booted s.img io).start p (slash :: name))
      (elements (slash :: name)) = (booted s.img io).lookup ROOTINO (name.take DIRSIZ) := by
  have hstart : (booted s.img io).start p (slash :: name) = ROOTINO := if_pos rfl
  rw [elements_name hne hslash, hstart, Fs.resolve_cons]
  cases (booted s.img io).lookup ROOTINO (name.take DIRSIZ) with
  | none => rfl
  | some n => rfl

/-- The inode of a file. -/
theorem Final.file (h : Final files t s) (hi : files[i]? = some f) :
    ((disk s.img).dinode (i + 2)).type = T_FILE ∧
      ((disk s.img).dinode (i + 2)).size = f.bytes.length ∧
      ((disk s.img).dinode (i + 2)).contents (disk s.img) = f.bytes := by
  have hlt : i < files.length := (List.getElem?_eq_some_iff.mp hi).1
  have hin : i + 2 < inodes := lt_of_lt_of_le (Nat.add_lt_add_right hlt 2) h.few
  have hcontents : contents files (i + 2) = f.bytes := by
    rw [contents, hi]
    rfl
  have hsize := h.size_of_ne hin (by change i + 2 ≠ 1; omega)
  rw [hcontents] at hsize
  refine ⟨?_, hsize, ?_⟩
  · rw [(h.kind hin).1, Mkfs.kind, if_pos ⟨by omega, Nat.add_lt_add_right hlt 2⟩]
    change (if i + 2 = ROOTINO then T_DIR else T_FILE) = T_FILE
    rw [if_neg (by change i + 2 ≠ 1; omega)]
  · rw [Dinode.contents, h.byteAt hin, hcontents, hsize]
    refine List.ext_getElem length_window fun k hk hk' => ?_
    rw [getElem_window, Nat.zero_add]
    exact List.getD_eq_getElem _ _ hk'

/-- What is read at the offset `off` of a file that has these bytes. -/
def readOf (bytes : List UInt8) (off n : ℕ) : ℤ × List UInt8 :=
  if off > bytes.length ∨ 2 ^ 32 ≤ off + n then (-1, [])
  else (((min n (bytes.length - off) : ℕ) : ℤ), (bytes.drop off).take n)

/-- A state in which the entry `j` is the locked inode of the file `f`. -/
structure ReadsAs (f : Input) (j : Fin NINODE) (u : Fs) : Prop where
  type : (u.dip j).type = T_FILE
  size : (u.dip j).size = f.bytes.length
  read : ∀ off < 2 ^ 32, ∀ n < 2 ^ 32, FsM.readi j off n u = .ok (readOf f.bytes off n, u)

theorem Final.readsAs (h : Final files t s) (hb : Bootable files) (hi : files[i]? = some f)
    {u : Fs} {j : Fin NINODE} (hu : (booted s.img io).Holds u j (i + 2)) :
    ReadsAs f j (u.locked j) := by
  have hlt : i < files.length := (List.getElem?_eq_some_iff.mp hi).1
  have hin : i + 2 < inodes := lt_of_lt_of_le (Nat.add_lt_add_right hlt 2) h.few
  have hdisk : (u.locked j).disk = disk s.img := by
    change u.disk = (booted s.img io).disk
    exact hu.disk
  have hdip : (u.locked j).dip j = (disk s.img).dinode (i + 2) := by
    rw [Fs.dip_locked, hu.inode, booted_view]
  obtain ⟨htype, hsize, hcontents⟩ := h.file hi
  refine ⟨by rw [hdip, htype], by rw [hdip, hsize], fun off hoff n hn => ?_⟩
  have hwf : ((u.locked j).dip j).WellFormed (u.locked j).disk := by
    rw [hdip, hdisk]
    exact h.wellFormed hin hb.space hb.round
  have hdev : ((u.locked j).dip j).type ≠ T_DEV := by
    rw [hdip, htype]
    decide
  rw [Fs.readi_eq hwf hdev hoff hn, hdip, hdisk, hsize, hcontents]
  rfl

theorem Bootable.final (hb : Bootable files) (h : mkfs files = .ok s) : ∃ t, Final files t s :=
  mkfs_final h (lt_of_le_of_lt hb.few (by decide)).le

/-- What the calls need is true of every process when the kernel has been booted on an image of
`mkfs`, whatever files it was given: no inode is locked, the files own their blocks apart, every
entry leads to an inode in use, and the inode cache has the root only, as it is on the disk. -/
theorem mkfs_settled (h : mkfs files = .ok s) (hb : Bootable files) (io : Io) (p : Fin NPROC) :
    (booted s.img io).Settled p := by
  obtain ⟨t, ht⟩ := hb.final h
  exact ht.settled hb

def noDevices : Io := ⟨fun _ => none, fun _ => none, fun _ _ => -1, fun _ _ => -1⟩

theorem bootable_oneFile : Bootable [oneFile] where
  few := by decide
  space := by decide +kernel
  round := by decide
  names := by decide +kernel

/-- A process can run on an image of one file. -/
theorem mkfs_settled_one : ∃ s, mkfs [oneFile] = .ok s ∧
    (booted s.img noDevices).Settled 0 := by
  obtain ⟨s, hs⟩ := exists_of_isOk [oneFile] (by decide +kernel)
  exact ⟨s, hs, mkfs_settled hs bootable_oneFile _ _⟩

/-- The first process finds in `/` the files that have been given to `mkfs`, with the bytes they
had, and no others. -/
theorem mkfs_namei (h : mkfs files = .ok s) (hb : Bootable files) (io : Io) (p : Fin NPROC)
    (hne : name ≠ []) (hslash : slash ∉ name) :
    (∀ (i : ℕ) (f : Input), files[i]? = some f →
        Dirent.key name = Dirent.key (skipUnderscore f.name) →
      wp (FsM.namei p (slash :: name))
        (fun r t => ∃ j, r = some j ∧
          wp (FsM.ilock j) (fun _ u => ReadsAs f j u) (fun _ => False) t)
        (fun _ => False) (booted s.img io)) ∧
    (Dirent.key name ∉ dot :: dotdot :: names files →
      wp (FsM.namei p (slash :: name)) (fun r t => r = none ∧ (booted s.img io).Alike t)
        (fun _ => False) (booted s.img io)) := by
  obtain ⟨t, ht⟩ := hb.final h
  have hwalk : (booted s.img io).Walkable p := ht.walkable hb
  have hspare : False ∨ (booted s.img io).Spare 2 := .inr booted_spare
  constructor
  · intro i f hi hkey
    have hfound : (booted s.img io).lookup ROOTINO (name.take DIRSIZ) = some (i + 2) :=
      ht.lookup_file hb hi hkey
    refine hwalk.wp_namei hspare (.inr ht.alive) (fun hmiss _ _ => ?_) fun u j m hm hu hk => ?_
    · rw [resolve_name hne hslash, hfound] at hmiss
      cases hmiss
    · rw [resolve_name hne hslash, hfound] at hm
      cases hm
      have htype : ((booted s.img io).view (i + 2)).type ≠ 0 := by
        rw [booted_view, (ht.file hi).1]
        decide
      exact ⟨j, rfl, hu.wp_ilock hk (.inr (hu.busy hwalk.idle)) (.inr htype) fun hholds =>
        ht.readsAs hb hi hholds⟩
  · intro hname
    refine hwalk.wp_namei hspare (.inr ht.alive) (fun _ u hu => ⟨rfl, hu⟩) fun u j m hm _ _ => ?_
    rw [resolve_name hne hslash, ht.lookup_none hname] at hm
    cases hm

/-- The file `_a` is found under the name `/a`, and there is no `/b`. -/
theorem mkfs_namei_one : ∃ s, mkfs [oneFile] = .ok s ∧
    wp (FsM.namei 0 [47, 97])
      (fun r t => ∃ j, r = some j ∧
        wp (FsM.ilock j) (fun _ u => ReadsAs oneFile j u) (fun _ => False) t)
      (fun _ => False) (booted s.img noDevices) ∧
    wp (FsM.namei 0 [47, 98]) (fun r t => r = none ∧ (booted s.img noDevices).Alike t)
      (fun _ => False) (booted s.img noDevices) := by
  obtain ⟨s, hs⟩ := exists_of_isOk [oneFile] (by decide +kernel)
  refine ⟨s, hs, ?_, ?_⟩
  · exact (mkfs_namei hs bootable_oneFile noDevices 0 (by decide) (by decide)).1 0 oneFile
      rfl (by decide +kernel)
  · exact (mkfs_namei hs bootable_oneFile noDevices 0 (by decide) (by decide)).2
      (by decide +kernel)

end Lookup

end Mkfs

end Xv6
