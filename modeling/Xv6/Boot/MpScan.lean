import Xv6.Boot.Mp

/-!
# The scan of the configuration table

`Entries` reads the entries of a table one after the other, as long as their types are
known. `mpinit` gets to the end of the table, with at least one processor and no more than
fit into `cpus`, exactly where the entries do: the case of an unknown type does not move on,
so that the loop stays there for ever, and nothing bounds the number of processors.
-/

namespace Xv6

namespace Mp

open Foundation

variable {m : Memory} {e p q conf mp : UInt32} {ts us : List UInt8} {s t : Cpus} {fuel : ℕ}

def entrySize (type : UInt8) : Option UInt32 :=
  if type = MPPROC then some 20
  else if type = MPIOAPIC ∨ type = MPBUS ∨ type = MPIOINTR ∨ type = MPLINTR then some 8
  else none

/-- From `p` on there are entries of the known types `ts` before the end `e`; `q` comes
behind them. -/
inductive Entries (m : Memory) (e : UInt32) : UInt32 → List UInt8 → UInt32 → Prop
  | nil {p : UInt32} : Entries m e p [] p
  | cons {p q k : UInt32} {ts : List UInt8} (hlt : p < e) (hsize : entrySize (m p) = some k)
      (hrest : Entries m e (p + k) ts q) : Entries m e p (m p :: ts) q

/-- The entries of the table at `conf`, up to its end. -/
def Table (m : Memory) (conf : UInt32) (ts : List UInt8) : Prop :=
  ∃ q, Entries m (conf + length m conf) (conf + 44) ts q ∧ ¬ q < conf + length m conf

/-- The table at `conf` has an entry of an unknown type. -/
def HasUnknown (m : Memory) (conf : UInt32) : Prop :=
  ∃ ts q, Entries m (conf + length m conf) (conf + 44) ts q ∧ q < conf + length m conf ∧
    entrySize (m q) = none

theorem Entries.not_unknown (h : Entries m e p ts q) (hend : ¬ q < e) (hlt : p < e) :
    entrySize (m p) ≠ none := by
  cases h with
  | nil => exact absurd hlt hend
  | cons _ hsize _ => exact Option.ne_none_iff_exists'.mpr ⟨_, hsize⟩

/-- Entries that come to the end meet no unknown type. -/
theorem Entries.known {r : UInt32} (hts : Entries m e p ts q) (hend : ¬ q < e)
    (hus : Entries m e p us r) (hlt : r < e) : entrySize (m r) ≠ none := by
  induction hus generalizing ts with
  | nil => exact hts.not_unknown hend hlt
  | cons hlt' hsize _ ih =>
      cases hts with
      | nil => exact absurd hlt' hend
      | cons _ hsize' hrest =>
          rw [hsize] at hsize'
          cases hsize'
          exact ih hrest hlt

/-- A table that has been read to its end has no unknown entry. -/
theorem Table.not_hasUnknown (h : Table m conf ts) : ¬ HasUnknown m conf := by
  rintro ⟨us, r, hus, hlt, hnone⟩
  obtain ⟨q, hts, hend⟩ := h
  exact hts.known hend hus hlt hnone

/-! ### One round -/

theorem mpproc_fits (h : s.ncpu < NCPU) :
    ∃ t, mpproc m p s = .ok ((), t) ∧ t.ncpu = s.ncpu + 1 := by
  refine ⟨{ s with
    ismp := s.ismp && s.ncpu = (m (p + 1)).toNat
    bcpu := if m (p + 3) &&& MPBOOT ≠ 0 then s.ncpu else s.bcpu
    id := Function.update s.id ⟨s.ncpu, h⟩ (UInt8.ofNat s.ncpu)
    ncpu := s.ncpu + 1 }, ?_, rfl⟩
  change (dite (s.ncpu < NCPU) (fun h => set _) (fun _ => throw _) : MpM Unit) s = _
  rw [dif_pos h]
  rfl

theorem mpproc_outside (h : ¬ s.ncpu < NCPU) : mpproc m p s = .error .outside := by
  change (dite (s.ncpu < NCPU) (fun h => set _) (fun _ => throw _) : MpM Unit) s = _
  rw [dif_neg h]
  rfl

/-- A processor is counted if there is room for it in `cpus`. -/
theorem mpentry_proc (hlt : p < e) (hproc : m p = MPPROC) (hroom : s.ncpu < NCPU) :
    ∃ t, mpentry m e p s = .ok (.inl (p + 20), t) ∧ t.ncpu = s.ncpu + 1 := by
  obtain ⟨t, ht, hncpu⟩ := mpproc_fits (m := m) (p := p) hroom
  refine ⟨t, ?_, hncpu⟩
  rw [mpentry, if_pos hlt, if_pos hproc]
  change (mpproc m p s >>= _) = _
  rw [ht]
  rfl

/-- Otherwise the store is outside of `cpus`. -/
theorem mpentry_outside (hlt : p < e) (hproc : m p = MPPROC) (hroom : ¬ s.ncpu < NCPU) :
    mpentry m e p s = .error .outside := by
  rw [mpentry, if_pos hlt, if_pos hproc]
  change (mpproc m p s >>= _) = _
  rw [mpproc_outside hroom]
  rfl

/-- Entries of the other known types change neither `ncpu` nor `ismp`. -/
theorem mpentry_other (hlt : p < e) (hproc : m p ≠ MPPROC) (hsize : entrySize (m p) ≠ none) :
    entrySize (m p) = some 8 ∧ ∃ t, mpentry m e p s = .ok (.inl (p + 8), t) ∧
      t.ncpu = s.ncpu ∧ t.ismp = s.ismp := by
  rw [entrySize, if_neg hproc] at hsize ⊢
  by_cases hioapic : m p = MPIOAPIC
  · refine ⟨if_pos (.inl hioapic), { s with ioapicid := m (p + 1) }, ?_, rfl, rfl⟩
    rw [mpentry, if_pos hlt, if_neg hproc, if_pos hioapic]
    rfl
  · by_cases hother : m p = MPBUS ∨ m p = MPIOINTR ∨ m p = MPLINTR
    · refine ⟨if_pos (.inr hother), s, ?_, rfl, rfl⟩
      rw [mpentry, if_pos hlt, if_neg hproc, if_neg hioapic, if_pos hother]
      rfl
    · exact absurd (if_neg (not_or.mpr ⟨hioapic, hother⟩)) hsize

/-- An entry of an unknown type is looked at again. -/
theorem mpentry_unknown (hlt : p < e) (hsize : entrySize (m p) = none) :
    mpentry m e p s = .ok (.inl p, { s with ismp := false }) := by
  rw [entrySize] at hsize
  by_cases hproc : m p = MPPROC
  · rw [if_pos hproc] at hsize
    exact absurd hsize (Option.some_ne_none _)
  · rw [if_neg hproc] at hsize
    by_cases hother : m p = MPIOAPIC ∨ m p = MPBUS ∨ m p = MPIOINTR ∨ m p = MPLINTR
    · rw [if_pos hother] at hsize
      exact absurd hsize (Option.some_ne_none _)
    · obtain ⟨hioapic, hother⟩ := not_or.mp hother
      rw [mpentry, if_pos hlt, if_neg hproc, if_neg hioapic, if_neg hother]
      rfl

theorem mpentry_end (hend : ¬ p < e) : mpentry m e p s = .ok (.inr (), s) := by
  rw [mpentry, if_neg hend]
  rfl

/-! ### The loop -/

theorem loop_next {s t : Cpus} (h : mpentry m e p s = .ok (.inl q, t)) :
    loop (mpentry m e) (fuel + 1) p s = loop (mpentry m e) fuel q t := by
  rw [loop]
  change (mpentry m e p s >>= _) = _
  rw [h]
  rfl

/-- With room for its processors, a table that can be read to its end is. -/
theorem Entries.loop (h : Entries m e p ts q) (hend : ¬ q < e)
    (hroom : s.ncpu + ts.count MPPROC ≤ NCPU) :
    ∃ t, loop (mpentry m e) (ts.length + 1) p s = .ok (some (), t) ∧
      t.ncpu = s.ncpu + ts.count MPPROC := by
  induction h generalizing s with
  | nil =>
      refine ⟨s, ?_, rfl⟩
      change (mpentry m e _ s >>= _) = _
      rw [mpentry_end hend]
      rfl
  | @cons p q k ts hlt hsize hrest ih =>
      by_cases hproc : m p = MPPROC
      · rw [hproc, List.count_cons_self] at hroom
        obtain ⟨t, ht, hncpu⟩ := mpentry_proc (s := s) hlt hproc (by omega)
        rw [entrySize, if_pos hproc] at hsize
        cases hsize
        obtain ⟨u, hu, hcount⟩ := ih (s := t) hend (by omega)
        refine ⟨u, ?_, ?_⟩
        · rw [List.length_cons, loop_next ht, hu]
        · rw [hproc, List.count_cons_self, hcount, hncpu]
          omega
      · have hne : entrySize (m p) ≠ none := by
          rw [hsize]
          exact Option.some_ne_none k
        obtain ⟨height, t, ht, hncpu, -⟩ := mpentry_other (s := s) hlt hproc hne
        rw [hsize] at height
        cases height
        rw [List.count_cons_of_ne hproc] at hroom ⊢
        obtain ⟨u, hu, hcount⟩ := ih (s := t) hend (by omega)
        exact ⟨u, by rw [List.length_cons, loop_next ht, hu], hcount.trans (by rw [hncpu])⟩

/-- A loop that ends has read the table to its end, and found room for its processors. If
there is only one CPU left, there was a processor. -/
theorem entries_of_loop (h : loop (mpentry m e) fuel p s = .ok (some (), t))
    (hroom : s.ncpu ≤ NCPU) :
    ∃ ts q, Entries m e p ts q ∧ ¬ q < e ∧ t.ncpu = s.ncpu + ts.count MPPROC ∧
      t.ncpu ≤ NCPU ∧ (t.ismp = false → s.ismp = false ∨ 0 < ts.count MPPROC) := by
  induction fuel generalizing p s with
  | zero => cases h
  | succ fuel ih =>
      by_cases hlt : p < e
      · cases hsize : entrySize (m p) with
        | none =>
            rw [loop_next (mpentry_unknown hlt hsize)] at h
            obtain ⟨ts, q, hts, hend, -⟩ := ih h hroom
            exact absurd hsize (hts.not_unknown hend hlt)
        | some k =>
            by_cases hproc : m p = MPPROC
            · by_cases hfull : s.ncpu < NCPU
              · obtain ⟨u, hu, hncpu⟩ := mpentry_proc (s := s) hlt hproc hfull
                rw [loop_next hu] at h
                obtain ⟨ts, q, hts, hend, hcount, hle, -⟩ := ih h (by omega)
                have hk := hsize
                rw [entrySize, if_pos hproc] at hk
                cases hk
                refine ⟨_, q, .cons hlt hsize hts, hend, ?_, hle, fun _ => .inr ?_⟩
                · rw [hproc, List.count_cons_self, hcount, hncpu]
                  omega
                · rw [hproc, List.count_cons_self]
                  exact Nat.succ_pos _
              · change (mpentry m e p s >>= _) = _ at h
                rw [mpentry_outside hlt hproc hfull] at h
                cases h
            · have hne : entrySize (m p) ≠ none := by
                rw [hsize]
                exact Option.some_ne_none k
              obtain ⟨height, u, hu, hncpu, hismp⟩ := mpentry_other (s := s) hlt hproc hne
              have hk := hsize
              rw [height] at hk
              cases hk
              rw [loop_next hu] at h
              obtain ⟨ts, q, hts, hend, hcount, hle, hone⟩ := ih h (by omega)
              refine ⟨_, q, .cons hlt hsize hts, hend, ?_, hle, ?_⟩
              · rw [List.count_cons_of_ne hproc, hcount, hncpu]
              · rwa [List.count_cons_of_ne hproc, ← hismp]
      · change (mpentry m e p s >>= _) = _ at h
        rw [mpentry_end hlt] at h
        cases h
        exact ⟨[], p, .nil, hlt, rfl, hroom, .inl⟩

/-! ### `mpinit` -/

/-- `mpinit` comes to an end, writes to `cpus` only, and leaves between 1 and `NCPU` CPUs: a
single one if it has met a type that it does not know. -/
def Sound (m : Memory) (conf : UInt32) : Prop :=
  ∃ fuel t, mpinit m fuel .zero = .ok (some (), t) ∧ 1 ≤ t.ncpu ∧ t.ncpu ≤ NCPU ∧
    (HasUnknown m conf → t.ncpu = 1)

def entered (m : Memory) (conf : UInt32) : Cpus :=
  { Cpus.zero with ismp := true, lapic := m.uint (conf + 36) }

/-- `mpinit` is its loop, and the fall back to one CPU. -/
theorem mpinit_eq_ok_iff (h : mpconfig m = some (mp, conf)) :
    mpinit m fuel .zero = .ok (some (), t) ↔
      ∃ u, loop (mpentry m (conf + length m conf)) fuel (conf + 44) (entered m conf) =
          .ok (some (), u) ∧ mpend m mp u = .ok ((), t) := by
  rw [mpinit, h]
  change (loop _ fuel (conf + 44) (entered m conf) >>= _) = _ ↔ _
  cases hloop : loop (mpentry m (conf + length m conf)) fuel (conf + 44) (entered m conf) with
  | error err =>
      refine iff_of_false (fun hrun => ?_) fun ⟨u, hu, _⟩ => ?_
      · cases hrun
      · cases hu
  | ok r =>
      obtain ⟨r, u⟩ := r
      cases r with
      | none =>
          refine iff_of_false (fun hrun => ?_) fun ⟨v, hv, _⟩ => ?_
          · cases hrun
          · cases hv
      | some c =>
          constructor
          · intro hrun
            refine ⟨u, rfl, ?_⟩
            cases hrun
            rfl
          · rintro ⟨v, hv, hend⟩
            cases hv
            cases hend
            rfl

theorem mpend_ncpu (m : Memory) (mp : UInt32) (s : Cpus) : ∃ t, mpend m mp s = .ok ((), t) ∧
    t.ncpu = if s.ismp then s.ncpu else 1 := by
  refine ⟨_, rfl, ?_⟩
  change (if s.ismp = true then _ else _ : Cpus).ncpu = _
  split_ifs <;> rfl

/-- An entry of an unknown type is never left behind. -/
theorem HasUnknown.not_ended (hunknown : HasUnknown m conf)
    (h : mpconfig m = some (mp, conf)) : mpinit m fuel .zero ≠ .ok (some (), t) := by
  intro hrun
  obtain ⟨u, hloop, -⟩ := (mpinit_eq_ok_iff h).mp hrun
  obtain ⟨ts, q, hts, hq, -⟩ := entries_of_loop hloop (Nat.zero_le _)
  exact Table.not_hasUnknown ⟨q, hts, hq⟩ hunknown

/-- Unless the table reaches the end of the address space, each known entry brings the scan
nearer to the end of the table. -/
theorem exists_entries (he : e.toNat + 20 ≤ 2 ^ 32) (p : UInt32) :
    ∃ ts q, Entries m e p ts q ∧ (q < e → entrySize (m q) = none) := by
  induction hn : e.toNat - p.toNat using Nat.strongRec generalizing p with
  | ind n ih =>
      by_cases hlt : p < e
      · have hlt' := UInt32.lt_iff_toNat_lt.mp hlt
        cases hsize : entrySize (m p) with
        | none => exact ⟨[], p, .nil, fun _ => hsize⟩
        | some k =>
            have hk : 0 < k.toNat ∧ k.toNat ≤ 20 := by
              rw [entrySize] at hsize
              split_ifs at hsize <;> cases hsize <;> decide
            have hadd : (p + k).toNat = p.toNat + k.toNat := by
              rw [UInt32.toNat_add]
              exact Nat.mod_eq_of_lt (by omega)
            obtain ⟨ts, q, hts, hq⟩ := ih _ (by omega) (p + k) rfl
            exact ⟨_, q, .cons hlt hsize hts, hq⟩
      · exact ⟨[], p, .nil, fun h => absurd h hlt⟩

/-- Such a table can be read to its end, or has an entry of an unknown type. -/
theorem exists_table_iff (h : conf.toNat + (length m conf).toNat + 20 ≤ 2 ^ 32) :
    (∃ ts, Table m conf ts) ↔ ¬ HasUnknown m conf := by
  constructor
  · rintro ⟨ts, hts⟩
    exact hts.not_hasUnknown
  · intro hknown
    have hend : (conf + length m conf).toNat = conf.toNat + (length m conf).toNat := by
      rw [UInt32.toNat_add]
      exact Nat.mod_eq_of_lt (by omega)
    obtain ⟨ts, q, hts, hq⟩ := exists_entries (m := m) (hend.symm ▸ h) (conf + 44)
    exact ⟨ts, q, hts, fun hlt => hknown ⟨ts, q, hts, hlt, hq hlt⟩⟩

/-- `mpinit` is sound exactly on the tables that can be read to their end and have between
1 and `NCPU` processors. -/
theorem Sound.iff_table (h : mpconfig m = some (mp, conf)) : Sound m conf ↔
    ∃ ts, Table m conf ts ∧ 1 ≤ ts.count MPPROC ∧ ts.count MPPROC ≤ NCPU := by
  constructor
  · rintro ⟨fuel, t, hrun, hone, -, -⟩
    obtain ⟨u, hloop, hend⟩ := (mpinit_eq_ok_iff h).mp hrun
    obtain ⟨ts, q, hts, hq, hcount, hle, hismp⟩ := entries_of_loop hloop (Nat.zero_le _)
    obtain ⟨t', ht', hncpu⟩ := mpend_ncpu m mp u
    rw [ht'] at hend
    cases hend
    have hzero : u.ncpu = ts.count MPPROC := hcount.trans (Nat.zero_add _)
    refine ⟨ts, ⟨q, hts, hq⟩, ?_, hzero ▸ hle⟩
    by_cases hu : u.ismp = true
    · rwa [hncpu, if_pos hu, hzero] at hone
    · exact (hismp (Bool.not_eq_true _ ▸ hu)).resolve_left Bool.noConfusion
  · rintro ⟨ts, ⟨q, hts, hq⟩, hone, hle⟩
    obtain ⟨u, hloop, hcount⟩ := hts.loop hq (s := entered m conf)
      ((Nat.zero_add _).trans_le hle)
    have hzero : u.ncpu = ts.count MPPROC := hcount.trans (Nat.zero_add _)
    obtain ⟨t, ht, hncpu⟩ := mpend_ncpu m mp u
    refine ⟨_, t, (mpinit_eq_ok_iff h).mpr ⟨u, hloop, ht⟩, ?_, ?_, fun hunknown => ?_⟩
    · rw [hncpu]
      split_ifs <;> omega
    · rw [hncpu]
      split_ifs
      · omega
      · decide
    · exact absurd hunknown (Table.not_hasUnknown ⟨q, hts, hq⟩)

/-- On a table that `mpconfig` accepts, `mpinit` is sound exactly if the table can be read to
its end and has between 1 and `NCPU` processors. Where the table does not reach the end of
the address space, it can be read to its end unless it has an entry of an unknown type. -/
theorem mpinit_scan (h : mpconfig m = some (mp, conf)) :
    (Sound m conf ↔
      ∃ ts, Table m conf ts ∧ 1 ≤ ts.count MPPROC ∧ ts.count MPPROC ≤ NCPU) ∧
    (conf.toNat + (length m conf).toNat + 20 ≤ 2 ^ 32 →
      ((∃ ts, Table m conf ts) ↔ ¬ HasUnknown m conf)) :=
  ⟨Sound.iff_table h, exists_table_iff⟩

/-- The memory in which a BIOS has left a floating pointer at `0x10`, with the table at
`0x1000`. -/
def bios (table : List UInt8) : Memory := fun a =>
  if a = p2v 0x40E then 1
  else if p2v 0x10 ≤ a ∧ a < p2v 0x20 then
    (mpSignature ++ [0, 16, 0, 0, 1, 4, 144]).getD (a - p2v 0x10).toNat 0
  else table.getD (a - p2v 0x1000).toNat 0

/-- A table of 64 bytes with one entry of the given type. -/
def oneEntry (checksum type : UInt8) : Memory :=
  bios (confSignature ++ [64, 0, 1, checksum] ++ List.replicate 36 0 ++ [type])

theorem mpconfig_oneProcessor :
    mpconfig (oneEntry 143 MPPROC) = some (p2v 0x10, p2v 0x1000) := by decide

theorem mpconfig_oneUnknown :
    mpconfig (oneEntry 138 5) = some (p2v 0x10, p2v 0x1000) := by decide

/-- With one processor, `mpinit` is sound. -/
theorem mpinit_scan_oneProcessor : Sound (oneEntry 143 MPPROC) (p2v 0x1000) :=
  ((mpinit_scan mpconfig_oneProcessor).1).mpr ⟨[MPPROC],
    ⟨p2v 0x1000 + 44 + 20, .cons (k := 20) (by decide) (by decide) .nil, by decide⟩,
    by decide, by decide⟩

/-- With one entry of type 5, `mpinit` never ends. -/
theorem mpinit_stuck :
    mpconfig (oneEntry 138 5) = some (p2v 0x10, p2v 0x1000) ∧
    HasUnknown (oneEntry 138 5) (p2v 0x1000) ∧
    ∀ fuel t, mpinit (oneEntry 138 5) fuel .zero ≠ .ok (some (), t) := by
  have hunknown : HasUnknown (oneEntry 138 5) (p2v 0x1000) :=
    ⟨[], p2v 0x1000 + 44, .nil, by decide, by decide⟩
  exact ⟨mpconfig_oneUnknown, hunknown, fun fuel t => hunknown.not_ended mpconfig_oneUnknown⟩

end Mp

end Xv6
