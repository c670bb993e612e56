import Xv6.Fs.Chunks
import Xv6.Fs.FullDirectory
import Xv6.Fs.Running

/-!
# Links and names in a call

What a call may do to the links: it counts one or takes one back, it writes a name in a directory
and with it uses the links that it has counted, it zeroes a name and has the links of it to take
back, and it makes an inode with one link. The names are counted before and after, so that an inode
has a link for every name whatever the calls are.
-/

namespace Xv6

open Foundation

namespace FsDisk

variable {disk disk' : FsDisk} {d m n : ℕ} {z : ℤ} {o o' : Multiset ℕ}

/-- Nothing but the links of an inode is changed. -/
theorem fields_of_counted (hdisk : disk' = { disk with
      dinode := Function.update disk.dinode n { disk.dinode n with nlink := z } }) (m : ℕ) :
    disk'.dinode m = { disk.dinode m with nlink := (disk'.dinode m).nlink } := by
  by_cases hm : m = n
  · have hself : disk'.dinode n = { disk.dinode n with nlink := z } := by
      rw [hdisk]
      exact Function.update_self ..
    rw [hm, hself]
  · have hother : disk'.dinode m = disk.dinode m := by
      rw [hdisk]
      exact Function.update_of_ne hm _ _
    rw [hother]

/-- One inode has other links; some of them may have no name. -/
theorem Linked.counted (hl : disk.Linked o) (htype : (disk.dinode n).type ≠ 0)
    (hdisk : disk' = { disk with
      dinode := Function.update disk.dinode n { disk.dinode n with nlink := z } })
    (hne : ∀ m, m ≠ n → o'.count m = o.count m)
    (hn : z - o'.count n = (disk.dinode n).nlink - o.count n) : disk'.Linked o' := by
  have hself : disk'.dinode n = { disk.dinode n with nlink := z } := by
    rw [hdisk]
    exact Function.update_self ..
  have hother : ∀ m, m ≠ n → disk'.dinode m = disk.dinode m := fun m hm => by
    rw [hdisk]
    exact Function.update_of_ne hm _ _
  have hfields := fields_of_counted hdisk
  have htypes : ∀ m, (disk'.dinode m).type = (disk.dinode m).type := fun m => by rw [hfields m]
  have hleads : ∀ d m, disk'.leads d m = disk.leads d m := by
    intro d m
    unfold leads
    rw [htypes d, hfields d, hdisk]
    rfl
  refine hl.congr (by rw [hdisk]) htypes (fun d _ m => hleads d m) (fun m hm => ⟨?_, hne m hm⟩)
    (by rw [hself]; exact hn) fun hzero => ?_
  · rw [hother m hm]
  · rw [htypes] at hzero
    exact absurd hzero htype

end FsDisk

namespace Fs

/-- Nothing that is in use has been touched. -/
theorem Untouched.alike {s t : Fs} (hu : s.Untouched t) : s.Alike t where
  disk := hu.disk
  log := hu.log
  user := hu.user
  io := hu.io
  ref := fun j => by
    rcases hu.icache j with hsame | ⟨hzero, hzero'⟩
    · rw [hsame]
    · rw [hzero, hzero']
  entry := fun j hj => by
    rcases hu.icache j with hsame | ⟨hzero, -⟩
    · refine ⟨by rw [hsame], by rw [hsame], by rw [hsame], ?_, by rw [hsame], ?_⟩
      · rw [inode, inode, hsame, hu.disk]
      · rw [hsame]
        exact id
    · rw [hzero] at hj
      exact absurd hj (lt_irrefl 0)

section Naming

variable {s t u : Fs} {p : Fin NPROC} {i j dp : Fin NINODE} {m n b c l k off : ℕ}
  {e e' : Fin NINODE → ℤ} {L M : Finset (Fin NINODE)} {o o' : Multiset ℕ} {E : Stop → Prop}
  {name src : List UInt8} {f : ℤ → ℤ}

namespace Running

/-! ### Counting links -/

theorem type_ne (h : s.Running e L o b l) (hi : i ∈ L) : (s.dip i).type ≠ 0 := by
  rw [h.dip_eq hi]
  exact (h.shows i (h.held i hi).1).alloc

/-- The number of a locked inode. -/
theorem inum_lt (h : s.Running e L o b l) (hi : i ∈ L) : (s.icache i).inum < s.disk.sb.ninodes :=
  (h.shows i (h.held i hi).1).inum

theorem inum_ne (h : s.Running e L o b l) (hi : i ∈ L) (hj : j ∈ L) (hne : i ≠ j) :
    (s.icache i).inum ≠ (s.icache j).inum :=
  fun heq => hne (h.unique i j (h.held i hi).1 (h.held j hj).1 heq)

/-- The links of a locked inode are counted anew. -/
theorem counted (h : s.Running e L o b l) (hi : i ∈ L)
    (hne : ∀ m, m ≠ (s.icache i).inum → o'.count m = o.count m)
    (hn : short (f (s.dip i).nlink) - o'.count (s.icache i).inum =
      (s.dip i).nlink - o.count (s.icache i).inum)
    (hfew : short (f (s.dip i).nlink) + k < 32768) (hk : k ≤ l) :
    (s.counted i f).Running e L o' b k := by
  obtain ⟨hpos, hvalid⟩ := h.held i hi
  have hx := h.shows i hpos
  have hdip := h.dip_eq hi
  have hdisk : (s.counted i f).disk = { s.disk with
      dinode := Function.update s.disk.dinode (s.icache i).inum
        { s.disk.dinode (s.icache i).inum with nlink := short (f (s.dip i).nlink) } } := by
    rw [← hdip]
    exact disk_counted
  have hself : (s.counted i f).disk.dinode (s.icache i).inum =
      { s.dip i with nlink := short (f (s.dip i).nlink) } := by
    rw [hdisk, hdip]
    exact Function.update_self ..
  have hentry : (s.counted i f).icache i =
      { s.icache i with d := { s.dip i with nlink := short (f (s.dip i).nlink) } } := icache_counted
  have hall : (s.counted i f).Running (e + Pi.single i 0) L o' b k := by
    refine h.edit (t := s.counted i f)
      ⟨h.inum_pos hpos, rfl, fun m hm => ?_, rfl, fun j hj => ?_, h.only hpos⟩
      ((h.sound.counted (z := short (f (s.dip i).nlink)) hx.inum hx.alloc hdisk).sound h.sound
        hx.inum)
      (h.linked.counted (z := short (f (s.dip i).nlink)) hx.alloc hdisk hne ?_) ?_ ?_ hk ?_ ?_
      (fun _ => ?_) (fun _ _ => .rfl) (fun _ => ?_) fun _ => .inr ?_
    · rw [hdisk]
      exact Function.update_of_ne hm _ _
    · change (s.setIp i _).icache j = s.icache j
      exact icache_setIp_ne hj
    · rw [← hdip]
      exact hn
    · have hfree : (s.counted i f).disk.free = s.disk.free := by
        rw [hdisk]
        rfl
      rw [hfree]
      exact h.room
    · rw [hself]
      exact hfew
    · rw [hentry, add_zero]
    · rw [hentry]
      exact hpos.le
    · rw [hentry]
      exact ⟨rfl, ⟨hx.dev, hx.inum, by rw [hself]; exact h.type_ne hi, fun _ => hself,
        fun _ => hvalid⟩, h.busy i hpos⟩
    · rw [hentry]
      exact ⟨hpos, hvalid⟩
    · rw [hentry]
      exact hpos
  rwa [Pi.single_zero, add_zero] at hall

/-- A link is counted, for a name that is not there yet. -/
theorem counted_succ (h : s.Running e L o b (l + 1)) (hi : i ∈ L) :
    (s.counted i (· + 1)).Running e L ((s.icache i).inum ::ₘ o) b l := by
  have hdip := h.dip_eq hi
  have hlt := h.few _ (h.inum_lt hi)
  have hle := h.linked.nonneg (h.inum_lt hi)
  rw [← hdip] at hlt hle
  have hshort : short ((s.dip i).nlink + 1) = (s.dip i).nlink + 1 := by
    rw [short, Int.bmod_def]
    split <;> omega
  refine h.counted hi (fun m hm => Multiset.count_cons_of_ne hm o) ?_ ?_ (Nat.le_succ l)
  · rw [hshort, Multiset.count_cons_self]
    push_cast
    ring
  · rw [hshort]
    push_cast at hlt
    omega

/-- A link that has no name is not counted any more. -/
theorem counted_pred (h : s.Running e L ((s.icache i).inum ::ₘ o) b l) (hi : i ∈ L) :
    (s.counted i (· - 1)).Running e L o b l := by
  have hdip := h.dip_eq hi
  have hlt := h.few _ (h.inum_lt hi)
  have hpos := h.linked.pos_of_mem (h.inum_lt hi) (Multiset.mem_cons_self _ _)
  rw [← hdip] at hlt hpos
  have hshort : short ((s.dip i).nlink - 1) = (s.dip i).nlink - 1 := by
    rw [short, Int.bmod_def]
    split <;> omega
  refine h.counted hi (fun m hm => (Multiset.count_cons_of_ne hm o).symm) ?_ ?_ le_rfl
  · rw [hshort, Multiset.count_cons_self]
    push_cast
    ring
  · rw [hshort]
    omega

/-! ### New inodes -/

/-- An inode with one link has been made, and is locked. -/
theorem made (h : s.Running e L o b l) (hl : l < 32767) {d : Dinode} (hm : Made i n d s t)
    (htype : d.type ≠ 0) (hnlink : d.nlink = 1) (hsize : d.size = 0) (haddrs : ∀ k, d.addrs k = 0) :
    t.Running (e + Pi.single i 1) (insert i L) (n ::ₘ o) b l := by
  have hself : t.disk.dinode n = d := by
    rw [hm.disk]
    exact Function.update_self ..
  have hother : ∀ m, m ≠ n → t.disk.dinode m = s.disk.dinode m := fun m hm' => by
    rw [hm.disk]
    exact Function.update_of_ne hm' _ _
  have hslot : ∀ k, (d.slots t.disk).slot k = none := fun k => by
    refine (d.slots t.disk).beyond k ?_
    change (d.size + (Dirent.size - 1)) / Dirent.size ≤ k
    rw [hsize]
    exact Nat.zero_le k
  have hsets : s.disk.Sets n t.disk := {
    sb := by rw [hm.disk]
    dinode := hother
    data := fun _ _ _ => by rw [hm.disk]
    marked := fun _ hb _ => by
      rw [hm.disk]
      exact hb
    file := by
      rw [hself]
      exact wellFormed_empty hsize haddrs
    type := by
      rw [hself]
      exact htype
    fresh := fun b _ _ => by
      rw [hself]
      exact not_has_empty haddrs
    aligned := fun _ => by
      rw [hself, hsize]
      exact Nat.dvd_zero _
    distinct := fun _ => by
      rw [hself]
      intro a a' x v w ha
      rw [hslot a] at ha
      cases ha
    listed := fun _ k x v hk => by
      rw [hself, hslot k] at hk
      cases hk }
  have hempty : ∀ m, t.disk.leads n m = 0 := fun m => by
    by_cases hdir : d.type = T_DIR
    · rw [FsDisk.leads_of_dir (by rw [hself]; exact hdir), hself]
      exact Slots.leads_eq_zero fun k x hk => by
        rw [hslot k] at hk
        cases hk
    · exact FsDisk.leads_of_not_dir (by rw [hself]; exact hdir)
  have hused : ∀ j, 0 < (s.icache j).ref → (s.icache j).inum ≠ n := fun j hj heq =>
    (h.shows j hj).alloc (by rw [heq]; exact hm.free)
  have hentry := hm.icache_self
  refine h.edit (t := t) ⟨hm.inum.1, hsets.sb, hother, hm.user, fun j hj => hm.icache_ne hj,
      fun j hj => iff_of_false (hused j hj) fun heq => ?_⟩
    (hsets.sound h.sound hm.inum.2)
    (hsets.linked_new h.sound hm.inum.2 h.linked hm.free (by rw [hself, hnlink]) hempty)
    ?_ ?_ le_rfl ?_ ?_ (fun _ => ?_) (fun j hj => by rw [Finset.mem_insert, or_iff_right hj])
    (fun _ => ?_) fun _ => .inl ?_
  · rw [heq, hm.unused] at hj
    exact absurd hj (lt_irrefl 0)
  · have hfree : t.disk.free = s.disk.free := by
      rw [hm.disk]
      rfl
    rw [hfree]
    exact h.room
  · rw [hself, hnlink]
    omega
  · rw [hentry, hm.unused]
    rfl
  · rw [hentry]
    exact zero_le_one
  · rw [hentry]
    refine ⟨rfl, ⟨rfl, by rw [hsets.sb]; exact hm.inum.2, by rw [hself]; exact htype,
      fun _ => hself, fun _ => rfl⟩, ?_⟩
    exact iff_of_true rfl (Finset.mem_insert_self i L)
  · rw [hentry]
    exact ⟨zero_lt_one, rfl⟩
  · rw [hself, hnlink]
    exact one_ne_zero

/-! ### Names -/

/-- A locked directory has the entries that it has on the disk. -/
theorem slots_congr (h : s.Running e L o b l) (h' : t.Running e' M o' c k) (hdp : dp ∈ L)
    (hdp' : dp ∈ M) (hdisk : t.disk = s.disk) (hinum : (t.icache dp).inum = (s.icache dp).inum) :
    t.dip dp = s.dip dp ∧ t.slots dp = s.slots dp := by
  have hdip : t.dip dp = s.dip dp := by rw [h.dip_eq hdp, h'.dip_eq hdp', hdisk, hinum]
  exact ⟨hdip, by rw [slots, slots, hdip, hdisk]⟩

/-- A locked directory has been written to. -/
theorem sets (h : s.Running e L o b l) (hdp : dp ∈ L) (hw : Written dp off src s t)
    (hdir : t.Directory dp) (hlisted : ∀ k x v, (t.slots dp).slot k = some (x, v) →
      v < s.disk.sb.ninodes) : s.disk.Sets (s.icache dp).inum t.disk := by
  have hdip := h.dip_eq hdp
  have hself := hw.saved hdip.symm
  have howns : ∀ b, (s.dip dp).Has s.disk b → s.disk.Owns (s.icache dp).inum b := fun b hb => by
    rw [hdip] at hb
    exact ⟨(h.shows dp (h.held dp hdp).1).alloc, hb⟩
  exact {
    sb := hw.sb
    dinode := hw.dinode
    data := fun b hb hown => (hw.others b hb fun hhas => hown (howns b hhas)).2
    marked := fun b hb _ => hw.marked b hb
    file := by
      rw [hself]
      exact hw.wf
    type := by
      rw [hself, hdir.type]
      decide
    fresh := fun b hb hown => by
      rw [hself]
      exact (hw.others b hb fun hhas => hown (howns b hhas)).1
    aligned := fun _ => by
      rw [hself]
      exact hdir.aligned
    distinct := fun _ => by
      rw [hself]
      exact hdir.distinct
    listed := fun _ k x v hk => by
      rw [hself] at hk
      exact hlisted k x v hk }

/-- The number of links is what it was. -/
theorem nlink_written (h : s.Running e L o b l) (hdp : dp ∈ L) (hw : Written dp off src s t) :
    (t.disk.dinode n).nlink = (s.disk.dinode n).nlink ∧
      (t.disk.dinode n).type = (s.disk.dinode n).type := by
  by_cases hn : n = (s.icache dp).inum
  · have hdip := h.dip_eq hdp
    rw [hn, hw.saved hdip.symm, hw.fields, hdip]
    exact ⟨rfl, rfl⟩
  · rw [hw.dinode n hn]
    exact ⟨rfl, rfl⟩

theorem written (h : s.Running e L o b l) (hdp : dp ∈ L) (hw : Written dp off src s t)
    (hsound : t.disk.Sound) (hlinked : t.disk.Linked o') (hroom : c ≤ t.disk.free.length) :
    t.Running e L o' c l := by
  obtain ⟨hpos, hvalid⟩ := h.held dp hdp
  have hx := h.shows dp hpos
  have hself := hw.saved (h.dip_eq hdp).symm
  have hentry : t.icache dp = { s.icache dp with d := t.dip dp } := hw.entry
  have hall : t.Running (e + Pi.single dp 0) L o' c l := by
    refine h.edit (t := t)
      ⟨h.inum_pos hpos, hw.sb, hw.dinode, hw.user, hw.icache, h.only hpos⟩ hsound hlinked hroom
      ?_ le_rfl ?_ ?_ (fun _ => ?_) (fun _ _ => .rfl) (fun _ => ?_) fun _ => .inr ?_
    · rw [(h.nlink_written hdp hw).1]
      exact h.few _ hx.inum
    · rw [hentry, add_zero]
    · rw [hentry]
      exact hpos.le
    · rw [hentry]
      refine ⟨rfl, ⟨hx.dev, by rw [hw.sb]; exact hx.inum, ?_, fun _ => hself, fun _ => hvalid⟩,
        h.busy dp hpos⟩
      rw [(h.nlink_written hdp hw).2]
      exact hx.alloc
    · rw [hentry]
      exact ⟨hpos, hvalid⟩
    · rw [hentry]
      exact hpos
  rwa [Pi.single_zero, add_zero] at hall

theorem leads_written (h : s.Running e L o b l) (hdp : dp ∈ L) (hw : Written dp off src s t)
    (hsets : s.disk.Sets (s.icache dp).inum t.disk) (htype : (s.dip dp).type = T_DIR) {d : ℕ}
    (hd : d < s.disk.sb.ninodes) : if d = (s.icache dp).inum then
      s.disk.leads d n = (s.slots dp).leads Ordinary n ∧
        t.disk.leads d n = (t.slots dp).leads Ordinary n
    else t.disk.leads d n = s.disk.leads d n := by
  have hdip := h.dip_eq hdp
  split
  · rename_i heq
    subst heq
    have hself := hw.saved hdip.symm
    have htype' : (t.dip dp).type = T_DIR := by
      rw [hw.fields]
      exact htype
    refine ⟨?_, ?_⟩
    · rw [FsDisk.leads_of_dir (by rw [← hdip]; exact htype), ← hdip]
      rfl
    · rw [FsDisk.leads_of_dir (by rw [hself]; exact htype'), hself]
      rfl
  · rename_i hne
    exact hsets.toChanges.leads h.sound (h.inum_lt hdp) hne hd

/-- A name is in the directory, and one is not. -/
theorem entry_lt (h : s.Running e L o b l) (hdp : dp ∈ L) (htype : (s.dip dp).type = T_DIR)
    (hslot : (s.slots dp).slot k = some (name, m)) : m < s.disk.sb.ninodes := by
  have hdip := h.dip_eq hdp
  refine h.sound.listed _ (h.inum_lt hdp) (by rw [← hdip]; exact htype) k name m ?_
  rw [← hdip]
  exact hslot

/-- `dirlink` adds a name, whose links have been counted. -/
theorem wp_dirlink {Q : ℤ → Fs → Prop} {r : Multiset ℕ} (hE : Lax E)
    (h : s.Running e L o (b + 2) l) (hdp : dp ∈ L) (htype : (s.dip dp).type = T_DIR)
    (hpos : 0 < m) (hm : m < s.disk.sb.ninodes)
    (ho : s.disk.links (s.icache dp).inum m (Dirent.key name) + r ≤ o)
    (hspace : E (.panic .dirlink) ∨
      ((s.slots dp).find (Dirent.key name) = none → ¬ s.Full dp))
    (hthere : (s.slots dp).find (Dirent.key name) ≠ none → ∀ t, s.Alike t → Q (-1) t)
    (hnew : ∀ t, t.Running e L r b l → Written dp (Dirent.size * (s.slots dp).vacant)
      (Dirent.bytes ⟨m, name⟩) s t → Q 0 t) :
    wp (FsM.dirlink dp name m) Q E s := by
  have hdir := h.directory hdp htype
  cases hfind : (s.slots dp).find (Dirent.key name) with
  | some x =>
      obtain ⟨k, v⟩ := x
      cases hget : s.icache.iget (s.icache dp).dev v with
      | none =>
          rw [wp_of_error (hdir.dirlink_no_inodes hfind hget)]
          exact hE _ (by decide)
      | some y =>
          obtain ⟨t, hrun, hu⟩ := @Directory.dirlink_present dp s m name k v hdir hfind y.1 y.2 hget
          rw [wp_of_ok hrun]
          exact hthere (by rw [hfind]; exact Option.some_ne_none _) t hu.alike
  | none =>
      by_cases hfull : s.Full dp
      · rw [wp_of_error (hdir.dirlink_panics hfind hfull)]
        exact hspace.resolve_right fun hnot => hnot hfind hfull
      · have hone : ∀ q, Dirent.size ∣ q → (span q Dirent.size).length ≤ 1 := by
          intro q hq
          rw [span, if_neg (by decide), List.length_range']
          rw [Dirent.size_eq] at *
          rw [BSIZE_eq]
          omega
        have hneed : ∀ q, Dirent.size ∣ q → (s.dip dp).need s.disk (span q Dirent.size) ≤ 2 :=
          fun q hq => need_le_length.trans (Nat.succ_le_succ (hone q hq))
        have hroom := h.room
        have hle := (s.slots dp).vacant_le
        have hmul := hdir.mul_le hle
        have hgrow := hdir.grow (hdir.hasSpace
          (fun _ => (hneed _ hdir.aligned).trans (by omega)) hfull)
        rw [hdir.wp_dirlink hfind]
        refine hdir.wp_writei hle hgrow hE.budget (Finset.Subset.refl _) fun t hw => ?_
        rw [if_neg (not_not.mpr rfl)]
        have hput := hw.put hmul hpos (hm.trans_le h.sound.few)
        have hdir' := hdir.written hw hle (by rw [hput]; exact hdir.distinct.put hfind)
        have hsets := h.sets hdp hw hdir' fun k x v hslot => by
          rw [hput] at hslot
          by_cases hk : k = (s.slots dp).vacant
          · have hat : ((s.slots dp).put (s.slots dp).vacant (Dirent.key name) m).slot k =
                some (Dirent.key name, m) := by
              rw [hk]
              exact Function.update_self ..
            cases hat.symm.trans hslot
            exact hm
          · have hold : (s.slots dp).slot k = some (x, v) := by
              rw [← hslot]
              exact (Function.update_of_ne hk _ _).symm
            exact h.entry_lt hdp htype hold
        have hadds : FsDisk.Adds (s.icache dp).inum m (Dirent.key name) s.disk t.disk := by
          refine ⟨hw.sb, fun n => (h.nlink_written hdp hw).2, fun d hd n => ?_⟩
          have hleads := h.leads_written (n := n) hdp hw hsets htype hd
          by_cases hd' : d = (s.icache dp).inum
          · rw [if_pos hd'] at hleads
            rw [hleads.1, hleads.2, hput, Slots.leads_put Slots.slot_vacant]
            simp only [hd', true_and]
          · rw [if_neg hd'] at hleads
            rw [hleads, if_neg fun hc => hd' hc.1, Nat.add_zero]
        refine hnew t (h.written hdp hw (hsets.sound h.sound (h.inum_lt hdp))
          (hadds.linked (h.inum_lt hdp) hm (h.linked.mono ho)
            fun n => (h.nlink_written hdp hw).1) ?_) hw
        rw [hw.free, List.length_drop]
        have hused := hneed (Dirent.size * (s.slots dp).vacant) (Nat.dvd_mul_right _ _)
        rw [Dirent.length_bytes]
        omega

/-- An entry is zeroed. The links that its name had are still counted. -/
theorem wp_unname {Q : ℤ → Fs → Prop} (hE : Lax E) (h : s.Running e L o b l) (hdp : dp ∈ L)
    (htype : (s.dip dp).type = T_DIR) (hslot : (s.slots dp).slot k = some (name, m))
    (hQ : ∀ t, t.Running e L (s.disk.links (s.icache dp).inum m name + o) b l →
      Written dp (Dirent.size * k) (Dirent.bytes .zero) s t → Q (Dirent.size : ℕ) t) :
    wp (FsM.writei dp (Dirent.bytes .zero) (Dirent.size * k)) Q E s := by
  have hdir := h.directory hdp htype
  have hk := Slots.lt_size hslot
  refine hdir.wp_writei hk.le (.inl hk) hE.budget (Finset.Subset.refl _) fun t hw => hQ t ?_ hw
  have hclear := hw.clear hk (hdir.mul_le hk.le)
  have hdir' := hdir.written hw hk.le (by rw [hclear]; exact hdir.distinct.clear)
  have hsets := h.sets hdp hw hdir' fun k' x v hslot' => by
    rw [hclear] at hslot'
    by_cases hk' : k' = k
    · rw [hk'] at hslot'
      have hnone : ((s.slots dp).clear k).slot k = none := Function.update_self ..
      rw [hnone] at hslot'
      cases hslot'
    · have hold : (s.slots dp).slot k' = some (x, v) := by
        rw [← hslot']
        exact (Function.update_of_ne hk' _ _).symm
      exact h.entry_lt hdp htype hold
  have hlinks : t.disk.links (s.icache dp).inum m name =
      s.disk.links (s.icache dp).inum m name := by
    unfold FsDisk.links
    rw [(h.nlink_written hdp hw).2]
  -- with the name again it is what it was
  have hadds : FsDisk.Adds (s.icache dp).inum m name t.disk s.disk := by
    refine ⟨hw.sb.symm, fun n => (h.nlink_written hdp hw).2.symm, fun d hd n => ?_⟩
    rw [hw.sb] at hd
    have hleads := h.leads_written (n := n) hdp hw hsets htype hd
    by_cases hd' : d = (s.icache dp).inum
    · rw [if_pos hd'] at hleads
      rw [hleads.1, hleads.2, hclear, ← Slots.leads_clear hslot]
      simp only [hd', true_and]
    · rw [if_neg hd'] at hleads
      rw [hleads, if_neg fun hc => hd' hc.1, Nat.add_zero]
  refine h.written hdp hw (hsets.sound h.sound (h.inum_lt hdp)) ?_ ?_
  · rw [← hlinks]
    refine hadds.unlinked ?_ ?_ h.linked fun n => (h.nlink_written hdp hw).1.symm
    · rw [hw.sb]
      exact h.inum_lt hdp
    · rw [hw.sb]
      exact h.entry_lt hdp htype hslot
  · rw [hw.free, List.length_drop, Dirent.length_bytes, hdir.need_eq_zero hk]
    exact h.room

end Running

end Naming

end Fs

end Xv6
