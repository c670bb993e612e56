import Xv6.Fs.Dirents

/-!
# Directories are finite maps

`dirlookup` finds what the slots of the directory hold, `dirlink` puts a name in the first empty
slot or appends it, and writing a zeroed entry at the offset that `dirlookup` has reported, as
`sys_unlink` does, removes the name.
-/

namespace Xv6

open Foundation

namespace Dirent

variable {name : List UInt8} {de : Dirent}

theorem any_live : (live de).any (fun x => x.1 = key name) =
    decide (de.inum ≠ 0 ∧ namecmp name de.name) := by
  unfold live
  by_cases h : de.inum = 0
  · rw [if_pos h, decide_eq_false fun hc => hc.1 h]
    rfl
  · rw [if_neg h, Option.any_some]
    exact decide_eq_decide.mpr ⟨fun heq => ⟨h, namecmp_iff.mpr heq.symm⟩,
      fun hc => (namecmp_iff.mp hc.2).symm⟩

theorem isNone_live : (live de).isNone = decide (de.inum = 0) := by
  by_cases h : de.inum = 0
  · rw [live_eq_none.mpr h, decide_eq_true h]
    rfl
  · rw [live, if_neg h, decide_eq_false h]
    rfl

end Dirent

namespace Fs

/-- What `dirlookup` makes of the slot with the name. -/
def lookedUp (s : Fs) (dp : Fin NINODE) (name : List UInt8) :
    Except Stop (Option (Fin NINODE × ℕ) × Fs) :=
  match (s.slots dp).find (Dirent.key name) with
  | none => .ok (none, s)
  | some (k, inum) =>
      match s.icache.iget (s.icache dp).dev inum with
      | some (i, icache) => .ok (some (i, Dirent.size * k), { s with icache })
      | none => .error (.panic .igetNoInodes)

/-- Only entries of the inode cache without references are not what they were. -/
structure Untouched (s t : Fs) : Prop where
  disk : t.disk = s.disk
  log : t.log = s.log
  user : t.user = s.user
  io : t.io = s.io
  icache : ∀ j, t.icache j = s.icache j ∨ (s.icache j).ref = 0 ∧ (t.icache j).ref = 0

def HasSpace (s : Fs) (dp : Fin NINODE) : Prop :=
  (∃ k < (s.slots dp).size, (s.slots dp).slot k = none) ∨
    (s.dip dp).size < MAXFILE * BSIZE ∧
      (s.dip dp).need s.disk (span (s.dip dp).size Dirent.size) ≤ s.disk.free.length

/-- An entry can be written to the slot in the transaction of the caller. -/
def MayLog (s : Fs) (dp : Fin NINODE) (k : ℕ) : Prop :=
  1 ≤ s.log.outstanding ∧ s.Room (s.writes dp (Dirent.size * k) Dirent.size)

section Lookup

variable {dp : Fin NINODE} {s t : Fs} {k inum dev : ℕ} {name : List UInt8} {E : Stop → Prop}

theorem wp_iget {Q : Fin NINODE → Fs → Prop} : wp (FsM.iget dev inum) Q E s ↔
    match s.icache.iget dev inum with
    | some (i, icache) => Q i { s with icache }
    | none => E (.panic .igetNoInodes) := by
  unfold FsM.iget
  rw [wp_bind, wp_get]
  cases s.icache.iget dev inum with
  | none => exact wp_throw
  | some x => rw [wp_bind, wp_set, wp_pure]

theorem Directory.dirlookup (h : s.Directory dp) : FsM.dirlookup dp name s = s.lookedUp dp name := by
  refine wp.eq ?_
  unfold FsM.dirlookup
  rw [wp_bind, wp_ip]
  change wp (if (s.dip dp).type ≠ T_DIR then _ else _) _ _ s
  have hpred : (fun j => decide ((s.dirent dp j).inum ≠ 0 ∧ namecmp name (s.dirent dp j).name)) =
      (s.slots dp).holds (Dirent.key name) := by
    funext j
    exact Dirent.any_live.symm
  rw [if_neg (not_not.mpr h.type), wp_bind, wp_of_ok h.scanFrom, hpred]
  unfold lookedUp Slots.find
  cases hfind : (List.range (s.slots dp).size).find? ((s.slots dp).holds (Dirent.key name)) with
  | none => exact wp_pure.mpr rfl
  | some j =>
      obtain ⟨inum, hslot⟩ := Slots.holds_iff.mp (List.find?_some hfind)
      have hinum : (s.dirent dp j).inum = inum := by
        change Dirent.live (s.dirent dp j) = _ at hslot
        unfold Dirent.live at hslot
        split at hslot
        · cases hslot
        · exact (Prod.mk.inj (Option.some.inj hslot)).2
      rw [Option.bind_some, hslot]
      change wp (do
        let i ← FsM.iget (s.icache dp).dev (s.dirent dp j).inum
        return some (i, Dirent.size * j)) _ _ s
      rw [wp_bind, wp_iget, hinum, Option.map_some]
      cases hget : s.icache.iget (s.icache dp).dev inum with
      | none => simp only [hget]
      | some x => exact wp_pure.mpr (by simp only [hget])

theorem iget_d {c c' : Icache} {i j : Fin NINODE} (h : c.iget dev inum = some (i, c')) :
    (c' j).d = (c j).d := by
  by_cases hj : j = i
  · rcases Icache.iget_cases h with ⟨-, rfl⟩ | ⟨-, -, rfl⟩
    · rw [hj, Function.update_self]
    · rw [hj, Function.update_self]
  · rcases Icache.iget_cases h with ⟨-, rfl⟩ | ⟨-, -, rfl⟩
    · rw [Function.update_of_ne hj]
    · rw [Function.update_of_ne hj]

theorem iget_ref {c c' : Icache} {i j : Fin NINODE} (h : c.iget dev inum = some (i, c'))
    (hj : 1 ≤ (c j).ref) : 1 ≤ (c' j).ref := by
  by_cases hij : j = i
  · rw [hij] at hj ⊢
    rcases Icache.iget_cases h with ⟨-, rfl⟩ | ⟨-, -, rfl⟩
    · rw [Function.update_self]
      exact hj.trans (Int.le_add_one (Int.le_refl _))
    · rw [Function.update_self]
  · rcases Icache.iget_cases h with ⟨-, rfl⟩ | ⟨-, -, rfl⟩
    · rw [Function.update_of_ne hij]
      exact hj
    · rw [Function.update_of_ne hij]
      exact hj

/-- Only the inode cache has changed. -/
theorem Directory.congr (h : s.Directory dp) (hdisk : t.disk = s.disk)
    (hd : (t.icache dp).d = (s.icache dp).d) (href : 1 ≤ (t.icache dp).ref) :
    t.Directory dp ∧ t.slots dp = s.slots dp := by
  have hdip : t.dip dp = s.dip dp := hd
  have hslots : t.slots dp = s.slots dp := by
    have hdirent : t.dirent dp = s.dirent dp := by
      funext k
      rw [dirent, dirent, hdip, hdisk]
    refine Slots.ext ?_ ?_
    · change ((t.dip dp).size + _) / _ = _
      rw [hdip]
      rfl
    · change (fun k => (t.dirent dp k).live) = _
      rw [hdirent]
      rfl
  refine ⟨?_, hslots⟩
  exact {
    ref := href
    type := by
      rw [hdip]
      exact h.type
    ok := by
      rw [hdisk]
      exact h.ok
    wf := by
      rw [hdip, hdisk]
      exact h.wf
    aligned := by
      rw [hdip]
      exact h.aligned
    distinct := by
      rw [hslots]
      exact h.distinct }

theorem lookedUp_cases {r : Option (Fin NINODE × ℕ)} (h : s.lookedUp dp name = .ok (r, t)) :
    ((s.slots dp).find (Dirent.key name) = none ∧ r = none ∧ t = s) ∨
    ∃ k inum i icache, (s.slots dp).find (Dirent.key name) = some (k, inum) ∧
      s.icache.iget (s.icache dp).dev inum = some (i, icache) ∧
      r = some (i, Dirent.size * k) ∧ t = { s with icache } := by
  unfold lookedUp at h
  split at h
  · rename_i hfind
    cases h
    exact .inl ⟨hfind, rfl, rfl⟩
  · rename_i k inum hfind
    split at h
    · rename_i i icache hget
      cases h
      exact .inr ⟨k, inum, i, icache, hfind, hget, rfl, rfl⟩
    · cases h

/-- `dirlookup` leaves the directory as it is. -/
theorem Directory.after_dirlookup {r : Option (Fin NINODE × ℕ)} (h : s.Directory dp)
    (hrun : FsM.dirlookup dp name s = .ok (r, t)) : t.Directory dp ∧ t.slots dp = s.slots dp := by
  rw [h.dirlookup] at hrun
  rcases lookedUp_cases hrun with ⟨-, -, rfl⟩ | ⟨k, inum, i, icache, -, hget, -, rfl⟩
  · exact ⟨h, rfl⟩
  · exact h.congr rfl (iget_d hget) (iget_ref hget h.ref)

/-- `iput` takes back what `iget` has done. -/
theorem iput_iget {i : Fin NINODE} {icache : Icache}
    (hget : s.icache.iget dev inum = some (i, icache)) :
    ∃ t, FsM.iput i { s with icache } = .ok (⟨⟩, t) ∧ s.Untouched t := by
  have hwp : wp (FsM.iput i) (fun _ t => s.Untouched t) (fun _ => False) { s with icache } := by
    have hno : ¬ ((icache i).ref = 1 ∧ (icache i).valid = true ∧ (icache i).d.nlink = 0) := by
      rcases Icache.iget_cases hget with ⟨⟨hpos, -⟩, rfl⟩ | ⟨-, -, rfl⟩
      · rw [Function.update_self]
        rintro ⟨hone, -⟩
        change (s.icache i).ref + 1 = 1 at hone
        omega
      · rw [Function.update_self]
        rintro ⟨-, hvalid, -⟩
        cases hvalid
    unfold FsM.iput
    rw [wp_bind, wp_ip, wp_bind, wp_when]
    refine ⟨fun hyes => absurd hyes hno, fun _ => ?_⟩
    rw [wp_bind, wp_ip, wp_setIp]
    refine ⟨rfl, rfl, rfl, rfl, fun j => ?_⟩
    change Function.update icache i { icache i with ref := (icache i).ref - 1 } j = s.icache j ∨
      (s.icache j).ref = 0 ∧
        (Function.update icache i { icache i with ref := (icache i).ref - 1 } j).ref = 0
    by_cases hj : j = i
    · rw [hj, Function.update_self]
      rcases Icache.iget_cases hget with ⟨-, rfl⟩ | ⟨-, hzero, rfl⟩
      · rw [Function.update_self]
        left
        change { s.icache i with ref := (s.icache i).ref + 1 - 1 } = s.icache i
        rw [add_sub_cancel_right]
      · rw [Function.update_self]
        exact .inr ⟨hzero, rfl⟩
    · rw [Function.update_of_ne hj]
      left
      rcases Icache.iget_cases hget with ⟨-, rfl⟩ | ⟨-, -, rfl⟩
      · exact Function.update_of_ne hj _ _
      · exact Function.update_of_ne hj _ _
  obtain ⟨⟨⟩, t, hrun, ht⟩ := hwp.exists_ok
  exact ⟨t, hrun, ht⟩

end Lookup

end Fs

end Xv6
