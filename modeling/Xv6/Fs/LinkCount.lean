import Xv6.Fs.Sound

/-!
# Names and links

A name in a directory is a link to an inode, and so is the entry `..` of a directory that has its
name there. An inode has at least as many links as that. It may have more: the names in a directory
that has been removed are lost with it.
-/

namespace Xv6

open Foundation

/-- A name that is neither `.` nor `..`. -/
def Ordinary (name : List UInt8) : Prop := name ≠ dot ∧ name ≠ dotdot

instance : DecidablePred Ordinary := fun _ => inferInstanceAs (Decidable (_ ∧ _))

namespace FsDisk

/-- How many names in the directory `d` lead to the inode `n`. -/
def leads (disk : FsDisk) (d n : ℕ) : ℕ :=
  if (disk.dinode d).type = T_DIR then ((disk.dinode d).slots disk).leads Ordinary n else 0

/-- How many names lead to the inode. -/
def names (disk : FsDisk) (n : ℕ) : ℕ := ∑ d ∈ Finset.range disk.sb.ninodes, disk.leads d n

/-- How many directories have their name in this one. -/
def subdirs (disk : FsDisk) (n : ℕ) : ℕ :=
  ∑ m ∈ Finset.range disk.sb.ninodes, if (disk.dinode m).type = T_DIR then disk.leads n m else 0

/-- The links that a name `key` for the inode `m` in the directory `e` makes. -/
def links (disk : FsDisk) (e m : ℕ) (key : List UInt8) : Multiset ℕ :=
  if Ordinary key then
    if (disk.dinode m).type = T_DIR then {m, e} else {m}
  else 0

/-- Every inode has the links that the names make, and those in `o`. -/
structure Linked (disk : FsDisk) (o : Multiset ℕ) : Prop where
  free : ∀ n < disk.sb.ninodes, (disk.dinode n).type = 0 → (disk.dinode n).nlink = 0
  enough : ∀ n < disk.sb.ninodes,
    ((disk.names n + disk.subdirs n + o.count n : ℕ) : ℤ) ≤ (disk.dinode n).nlink

/-- There is one name more: `key` for the inode `m`, in the directory `e`. -/
structure Adds (e m : ℕ) (key : List UInt8) (disk disk' : FsDisk) : Prop where
  sb : disk'.sb = disk.sb
  type : ∀ n, (disk'.dinode n).type = (disk.dinode n).type
  leads : ∀ d < disk.sb.ninodes, ∀ n,
    disk'.leads d n = disk.leads d n + if d = e ∧ Ordinary key ∧ m = n then 1 else 0

variable {disk disk' : FsDisk} {d e m n : ℕ} {key : List UInt8} {o o' : Multiset ℕ}

/-! ### Counting -/

theorem leads_of_not_dir (h : (disk.dinode d).type ≠ T_DIR) : disk.leads d n = 0 := if_neg h

theorem leads_of_dir (h : (disk.dinode d).type = T_DIR) :
    disk.leads d n = ((disk.dinode d).slots disk).leads Ordinary n := if_pos h

theorem leads_le_names (hd : d < disk.sb.ninodes) : disk.leads d n ≤ disk.names n :=
  Finset.single_le_sum (f := fun d => disk.leads d n) (fun _ _ => Nat.zero_le _)
    (Finset.mem_range.mpr hd)

/-- A name leads to the inode. -/
theorem names_pos (hd : d < disk.sb.ninodes) (htype : (disk.dinode d).type = T_DIR) {k : ℕ}
    (hslot : ((disk.dinode d).slots disk).slot k = some (key, n)) (hkey : Ordinary key) :
    0 < disk.names n := by
  refine (Slots.leads_pos hslot hkey).trans_le ?_
  rw [← leads_of_dir htype]
  exact leads_le_names hd

namespace Adds

variable (h : Adds e m key disk disk')

include h

theorem names (he : e < disk.sb.ninodes) :
    disk'.names n = disk.names n + if Ordinary key ∧ m = n then 1 else 0 := by
  unfold FsDisk.names
  rw [h.sb, Finset.sum_congr rfl fun d hd => h.leads d (Finset.mem_range.mp hd) n,
    Finset.sum_add_distrib]
  congr 1
  simp only [ite_and]
  rw [Finset.sum_ite_eq', if_pos (Finset.mem_range.mpr he)]

theorem subdirs (hm : m < disk.sb.ninodes) (hn : n < disk.sb.ninodes) :
    disk'.subdirs n = disk.subdirs n +
      if Ordinary key ∧ n = e ∧ (disk.dinode m).type = T_DIR then 1 else 0 := by
  have hterm : ∀ w ∈ Finset.range disk.sb.ninodes,
      (if (disk'.dinode w).type = T_DIR then disk'.leads n w else 0) =
        (if (disk.dinode w).type = T_DIR then disk.leads n w else 0) +
          if w = m then if Ordinary key ∧ n = e ∧ (disk.dinode m).type = T_DIR then 1 else 0
            else 0 := by
    intro w _
    rw [h.type, h.leads n hn]
    by_cases hw : w = m
    · subst hw
      by_cases hdir : (disk.dinode w).type = T_DIR
      · rw [if_pos hdir, if_pos hdir, if_pos rfl]
        congr 1
        exact if_congr ⟨fun hc => ⟨hc.2.1, hc.1, hdir⟩, fun hc => ⟨hc.2.1, hc.1, rfl⟩⟩ rfl rfl
      · rw [if_neg hdir, if_neg hdir, if_pos rfl, if_neg fun hc => hdir hc.2.2]
    · rw [if_neg hw, if_neg (c := n = e ∧ _) fun hc => hw hc.2.2.symm, Nat.add_zero, Nat.add_zero]
  unfold FsDisk.subdirs
  rw [h.sb, Finset.sum_congr rfl hterm, Finset.sum_add_distrib, Finset.sum_ite_eq',
    if_pos (Finset.mem_range.mpr hm)]

/-- The links that are made. -/
theorem links (he : e < disk.sb.ninodes) (hm : m < disk.sb.ninodes) (hn : n < disk.sb.ninodes) :
    disk'.names n + disk'.subdirs n =
      disk.names n + disk.subdirs n + (disk.links e m key).count n := by
  have hcount : (disk.links e m key).count n = (if Ordinary key ∧ m = n then 1 else 0) +
      if Ordinary key ∧ n = e ∧ (disk.dinode m).type = T_DIR then 1 else 0 := by
    unfold FsDisk.links
    by_cases hkey : Ordinary key
    · by_cases hdir : (disk.dinode m).type = T_DIR
      · simp [hkey, hdir, Multiset.count_singleton, Multiset.count_cons, eq_comm, Nat.add_comm]
      · simp [hkey, hdir, Multiset.count_singleton, eq_comm]
    · simp [hkey]
  rw [h.names he, h.subdirs hm hn, hcount]
  omega

/-- A link that was there for the name is used. -/
theorem linked (he : e < disk.sb.ninodes) (hm : m < disk.sb.ninodes)
    (hl : disk.Linked (disk.links e m key + o))
    (hnlink : ∀ n, (disk'.dinode n).nlink = (disk.dinode n).nlink) : disk'.Linked o where
  free := fun n hn htype => by
    rw [h.sb] at hn
    rw [h.type] at htype
    rw [hnlink]
    exact hl.free n hn htype
  enough := fun n hn => by
    rw [h.sb] at hn
    have hold := hl.enough n hn
    rw [Multiset.count_add] at hold
    rw [hnlink, h.links he hm hn]
    omega

/-- The name is taken away again, and its links are left. -/
theorem unlinked (he : e < disk.sb.ninodes) (hm : m < disk.sb.ninodes) (hl : disk'.Linked o)
    (hnlink : ∀ n, (disk'.dinode n).nlink = (disk.dinode n).nlink) :
    disk.Linked (disk.links e m key + o) where
  free := fun n hn htype => by
    rw [← h.sb] at hn
    rw [← h.type] at htype
    rw [← hnlink]
    exact hl.free n hn htype
  enough := fun n hn => by
    have hold := hl.enough n (by rwa [h.sb])
    rw [hnlink, h.links he hm hn] at hold
    rw [Multiset.count_add]
    omega

end Adds

/-! ### What keeps the links -/

theorem Changes.leads (h : Changes n disk disk') (hs : disk.Sound) (hn : n < disk.sb.ninodes)
    (hmn : m ≠ n) (hm : m < disk.sb.ninodes) : disk'.leads m e = disk.leads m e := by
  by_cases htype : (disk.dinode m).type = T_DIR
  · have htype' : (disk'.dinode m).type = T_DIR := by
      rw [h.dinode m hmn]
      exact htype
    have hne : (disk.dinode m).type ≠ 0 := by
      rw [htype]
      decide
    rw [leads_of_dir htype, leads_of_dir htype', h.dinode m hmn, h.slots hs hn hmn hm hne]
  · rw [leads_of_not_dir htype, leads_of_not_dir (by rwa [h.dinode m hmn])]

namespace Linked

theorem nonneg (hl : disk.Linked o) (hn : n < disk.sb.ninodes) : 0 ≤ (disk.dinode n).nlink :=
  le_trans (by omega) (hl.enough n hn)

/-- An inode with a link is in use. -/
theorem type_ne (hl : disk.Linked o) (hn : n < disk.sb.ninodes) (hpos : 0 < (disk.dinode n).nlink) :
    (disk.dinode n).type ≠ 0 := fun htype => by
  rw [hl.free n hn htype] at hpos
  exact lt_irrefl _ hpos

theorem pos_of_mem (hl : disk.Linked o) (hn : n < disk.sb.ninodes) (ho : n ∈ o) :
    0 < (disk.dinode n).nlink := by
  have hpos := Multiset.count_pos.mpr ho
  have henough := hl.enough n hn
  omega

/-- A name that is neither `.` nor `..` leads to an inode in use. -/
theorem named (hl : disk.Linked o) (hs : disk.Sound) (hd : d < disk.sb.ninodes)
    (htype : (disk.dinode d).type = T_DIR) {k : ℕ}
    (hslot : ((disk.dinode d).slots disk).slot k = some (key, n)) (hkey : Ordinary key) :
    0 < (disk.dinode n).nlink ∧ (disk.dinode n).type ≠ 0 := by
  have hn := hs.listed d hd htype k key n hslot
  have hpos := names_pos hd htype hslot hkey
  have henough := hl.enough n hn
  have hnlink : 0 < (disk.dinode n).nlink := by omega
  exact ⟨hnlink, hl.type_ne hn hnlink⟩

theorem mono (hl : disk.Linked o) (ho : o' ≤ o) : disk.Linked o' where
  free := hl.free
  enough := fun n hn => by
    have hcount := Multiset.count_le_of_le n ho
    have henough := hl.enough n hn
    omega

/-- The directories are what they were; one inode may have other links. -/
theorem congr (hl : disk.Linked o) (hsb : disk'.sb = disk.sb)
    (htype : ∀ m, (disk'.dinode m).type = (disk.dinode m).type)
    (hleads : ∀ d < disk.sb.ninodes, ∀ m, disk'.leads d m = disk.leads d m)
    (hne : ∀ m, m ≠ n → (disk'.dinode m).nlink = (disk.dinode m).nlink ∧ o'.count m = o.count m)
    (hn : (disk'.dinode n).nlink - o'.count n = (disk.dinode n).nlink - o.count n)
    (hfree : (disk'.dinode n).type = 0 → (disk'.dinode n).nlink = 0) : disk'.Linked o' := by
  have hadds : Adds 0 0 dot disk disk' := ⟨hsb, htype, fun d hd m => by
    rw [hleads d hd m, if_neg fun hc => hc.2.1.1 rfl, Nat.add_zero]⟩
  refine ⟨fun m hm hzero => ?_, fun m hm => ?_⟩
  · by_cases hmn : m = n
    · subst hmn
      exact hfree hzero
    · rw [hsb] at hm
      rw [htype] at hzero
      rw [(hne m hmn).1]
      exact hl.free m hm hzero
  · rw [hsb] at hm
    have hpos : 0 < disk.sb.ninodes := Nat.zero_lt_of_lt hm
    have hsum := hadds.links hpos hpos hm
    have hnone : (disk.links 0 0 dot).count m = 0 := rfl
    have hold := hl.enough m hm
    by_cases hmn : m = n
    · subst hmn
      omega
    · obtain ⟨hnlink, hcount⟩ := hne m hmn
      omega

/-- The root is the only directory, and no name in it leads to it. -/
theorem of_root {r : ℕ} (hr : r < disk.sb.ninodes)
    (hfree : ∀ n < disk.sb.ninodes, (disk.dinode n).type = 0 → (disk.dinode n).nlink = 0)
    (hdir : ∀ n < disk.sb.ninodes, (disk.dinode n).type = T_DIR → n = r)
    (hroot : disk.leads r r = 0)
    (hnames : ∀ n < disk.sb.ninodes, (disk.leads r n : ℤ) ≤ (disk.dinode n).nlink) :
    disk.Linked 0 where
  free := hfree
  enough := fun n hn => by
    have hother : ∀ d < disk.sb.ninodes, d ≠ r → ∀ m, disk.leads d m = 0 := fun d hd hdr m =>
      leads_of_not_dir fun htype => hdr (hdir d hd htype)
    have hsum : disk.names n = disk.leads r n := by
      refine Finset.sum_eq_single r (fun d hd hdr => ?_) fun hc => ?_
      · exact hother d (Finset.mem_range.mp hd) hdr n
      · exact absurd (Finset.mem_range.mpr hr) hc
    have hsubdirs : disk.subdirs n = 0 := by
      refine Finset.sum_eq_zero fun m hm => ?_
      split
      · rename_i htype
        rw [hdir m (Finset.mem_range.mp hm) htype]
        by_cases hnr : n = r
        · rw [hnr, hroot]
        · exact hother n hn hnr r
      · rfl
    rw [hsum, hsubdirs, Multiset.count_zero, Nat.add_zero]
    exact hnames n hn

end Linked

/-- An inode without links is freed. -/
theorem Frees.linked (h : Frees n disk disk') (hs : disk.Sound) (hn : n < disk.sb.ninodes)
    (hl : disk.Linked o) (hnlink : (disk.dinode n).nlink = 0) : disk'.Linked o := by
  have hle : ∀ d < disk.sb.ninodes, ∀ m, disk'.leads d m ≤ disk.leads d m := by
    intro d hd m
    by_cases hdn : d = n
    · subst hdn
      have hnot : (disk'.dinode d).type ≠ T_DIR := by
        rw [h.type]
        decide
      rw [leads_of_not_dir hnot]
      exact Nat.zero_le _
    · exact (h.toChanges.leads hs hn hdn hd).le
  refine ⟨fun m hm htype => ?_, fun m hm => ?_⟩
  · by_cases hmn : m = n
    · rw [hmn]
      exact h.nlink
    · rw [h.sb] at hm
      rw [h.dinode m hmn] at htype ⊢
      exact hl.free m hm htype
  · rw [h.sb] at hm
    have hnames : disk'.names m ≤ disk.names m := by
      unfold names
      rw [h.sb]
      exact Finset.sum_le_sum fun d hd => hle d (Finset.mem_range.mp hd) m
    have hsubdirs : disk'.subdirs m ≤ disk.subdirs m := by
      unfold subdirs
      rw [h.sb]
      refine Finset.sum_le_sum fun w hw => ?_
      by_cases hwn : w = n
      · rw [hwn, h.type]
        exact Nat.zero_le _
      · rw [h.dinode w hwn]
        split
        · exact hle m hm w
        · exact le_rfl
    have hold := hl.enough m hm
    have hsame : (disk'.dinode m).nlink = (disk.dinode m).nlink := by
      by_cases hmn : m = n
      · rw [hmn, h.nlink, hnlink]
      · rw [h.dinode m hmn]
    rw [hsame]
    omega

/-- An inode that was free has one link, and no name yet. -/
theorem Sets.linked_new (h : Sets n disk disk') (hs : disk.Sound) (hn : n < disk.sb.ninodes)
    (hl : disk.Linked o) (hfree : (disk.dinode n).type = 0) (hnlink : (disk'.dinode n).nlink = 1)
    (hempty : ∀ m, disk'.leads n m = 0) : disk'.Linked (n ::ₘ o) := by
  have hzero := hl.enough n hn
  rw [hl.free n hn hfree] at hzero
  have hleads : ∀ d < disk.sb.ninodes, ∀ m, disk'.leads d m = disk.leads d m := by
    intro d hd m
    by_cases hdn : d = n
    · subst hdn
      have hnot : (disk.dinode d).type ≠ T_DIR := by
        rw [hfree]
        decide
      rw [hempty, leads_of_not_dir hnot]
    · exact h.toChanges.leads hs hn hdn hd
  refine ⟨fun m hm htype => ?_, fun m hm => ?_⟩
  · rw [h.sb] at hm
    by_cases hmn : m = n
    · rw [hmn] at htype
      exact absurd htype h.type
    · rw [h.dinode m hmn] at htype ⊢
      exact hl.free m hm htype
  · rw [h.sb] at hm
    have hnames : disk'.names m = disk.names m := by
      unfold names
      rw [h.sb]
      exact Finset.sum_congr rfl fun d hd => hleads d (Finset.mem_range.mp hd) m
    have hsubdirs : disk'.subdirs m = disk.subdirs m := by
      unfold subdirs
      rw [h.sb]
      refine Finset.sum_congr rfl fun w hw => ?_
      by_cases hwn : w = n
      · -- no name led to the free inode
        have hle := leads_le_names (n := n) hm
        have hnot : (disk.dinode n).type ≠ T_DIR := by
          rw [hfree]
          decide
        rw [hwn, hleads m hm, if_neg hnot]
        split
        · omega
        · rfl
      · rw [h.dinode w hwn, hleads m hm]
    have hold := hl.enough m hm
    by_cases hmn : m = n
    · subst hmn
      rw [hnlink, hnames, hsubdirs, Multiset.count_cons_self]
      omega
    · rw [h.dinode m hmn, hnames, hsubdirs, Multiset.count_cons_of_ne hmn]
      exact hold

end FsDisk

end Xv6
