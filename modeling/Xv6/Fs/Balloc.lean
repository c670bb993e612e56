import Xv6.Foundation.Hoare
import Xv6.Fs.Extend

/-!
# What is logged, and what `balloc` does

The log absorbs a sector that it has already, so what counts is the set of the sectors that a call
logs. `balloc` takes the first free block, marks it and zeroes it.
-/

namespace Xv6

open Foundation

namespace FsLog

def Logs (l : FsLog) (T : Finset ℕ) (l' : FsLog) : Prop :=
  ∃ cs : List ℕ, cs.toFinset = T ∧ l' = cs.foldl write l

variable {l l' l'' : FsLog} {T U : Finset ℕ} {c : ℕ}

theorem Logs.refl : Logs l ∅ l := ⟨[], rfl, rfl⟩

theorem Logs.one : Logs l {c} (l.write c) := ⟨[c], rfl, rfl⟩

theorem Logs.trans (h : Logs l T l') (h' : Logs l' U l'') : Logs l (T ∪ U) l'' := by
  obtain ⟨cs, rfl, rfl⟩ := h
  obtain ⟨ds, rfl, rfl⟩ := h'
  exact ⟨cs ++ ds, List.toFinset_append, by rw [List.foldl_append]⟩

theorem write_lh : (l.write c).lh.toFinset = insert c l.lh.toFinset := by
  unfold write
  by_cases hc : c ∈ l.lh
  · simp only [if_pos hc]
    rw [Finset.insert_eq_of_mem (List.mem_toFinset.mpr hc)]
  · simp only [if_neg hc]
    rw [List.toFinset_append, List.toFinset_cons, List.toFinset_nil, Finset.union_comm]
    rfl

/-- What is in the log with what is still to come. -/
theorem write_length (hc : c ∈ U) :
    (l.write c).lh.length + (U \ (l.write c).lh.toFinset).card =
      l.lh.length + (U \ l.lh.toFinset).card := by
  rw [write_lh]
  by_cases hmem : c ∈ l.lh
  · rw [Finset.insert_eq_of_mem (List.mem_toFinset.mpr hmem)]
    simp only [write, if_pos hmem]
  · have hout : c ∈ U \ l.lh.toFinset :=
      Finset.mem_sdiff.mpr ⟨hc, fun h => hmem (List.mem_toFinset.mp h)⟩
    have hcard := Finset.card_erase_add_one hout
    rw [Finset.sdiff_insert, ← hcard]
    simp only [write, if_neg hmem, List.length_append, List.length_singleton]
    omega

theorem Logs.outstanding (h : Logs l T l') : l'.outstanding = l.outstanding := by
  obtain ⟨cs, -, rfl⟩ := h
  induction cs generalizing l with
  | nil => rfl
  | cons c cs ih => exact ih

theorem Logs.lh (h : Logs l T l') : l'.lh.toFinset = l.lh.toFinset ∪ T := by
  obtain ⟨cs, rfl, rfl⟩ := h
  induction cs generalizing l with
  | nil => exact (Finset.union_empty _).symm
  | cons c cs ih =>
      rw [List.foldl_cons, ih, write_lh, List.toFinset_cons, Finset.insert_union,
        Finset.union_insert]

theorem Logs.length (h : Logs l T l') (hU : T ⊆ U) :
    l'.lh.length + (U \ l'.lh.toFinset).card = l.lh.length + (U \ l.lh.toFinset).card := by
  obtain ⟨cs, rfl, rfl⟩ := h
  induction cs generalizing l with
  | nil => rfl
  | cons c cs ih =>
      have hc : c ∈ U := hU (List.mem_toFinset.mpr List.mem_cons_self)
      have hcs : cs.toFinset ⊆ U := fun d hd =>
        hU (List.mem_toFinset.mpr (List.mem_cons_of_mem _ (List.mem_toFinset.mp hd)))
      rw [List.foldl_cons, ih hcs, write_length hc]

end FsLog

namespace Fs

def logged (s : Fs) (c : ℕ) : Fs := { s with log := s.log.write c }

/-- What `balloc` leaves, when it returns `b`. -/
def allocated (s : Fs) (b : ℕ) : Fs :=
  (((s.setBit b true).logged (BBLOCK b s.disk.sb.ninodes)).setData b Block.zero).logged b

/-- The log has room for the sectors `U`. -/
def Room (s : Fs) (U : Finset ℕ) : Prop :=
  s.log.lh.length + (U \ s.log.lh.toFinset).card < LOGSIZE ∧
    s.log.lh.length + (U \ s.log.lh.toFinset).card + 1 < s.disk.sb.nlog

/-- `log_write` does not panic, or it may. -/
structure Budget (U : Finset ℕ) (E : Stop → Prop) (s : Fs) : Prop where
  outstanding : E (.panic .outsideTrans) ∨ 1 ≤ s.log.outstanding
  room : E (.panic .tooBig) ∨ s.Room U

section Log

variable {s t : Fs} {U T : Finset ℕ} {E : Stop → Prop} {c b : ℕ}

theorem Budget.logs (h : Budget U E s) (hlog : s.log.Logs T t.log) (hT : T ⊆ U)
    (hsb : t.disk.sb = s.disk.sb) : Budget U E t where
  outstanding := by
    rw [hlog.outstanding]
    exact h.outstanding
  room := h.room.imp id fun hroom => by
    unfold Room
    rw [hlog.length hT, hsb]
    exact hroom

theorem wp_logWrite {Q : Unit → Fs → Prop} (h : Budget U E s)
    (hQ : Q ⟨⟩ (s.logged c)) : wp (FsM.logWrite c) Q E s := by
  unfold FsM.logWrite FsM.panic
  rw [wp_bind, wp_get, wp_ite]
  refine ⟨fun hfull => ?_, fun _ => ?_⟩
  · rcases h.room with hE | ⟨hsize, hnlog⟩
    · exact wp_throw.mpr hE
    · rcases hfull with hfull | hfull
      · exact absurd (le_trans hfull (Nat.le_add_right _ _)) (Nat.not_le.mpr hsize)
      · omega
  · rw [wp_ite]
    refine ⟨fun hlt => ?_, fun _ => wp_set.mpr hQ⟩
    exact wp_throw.mpr (h.outstanding.resolve_right (Nat.not_le.mpr hlt))

theorem find_free {disk : FsDisk} {bs : List ℕ} (hfree : disk.free = b :: bs) :
    ((List.range disk.sb.size).find? fun c => !disk.bitmap c) = some b := by
  have hmem : b ∈ disk.free := by
    rw [hfree]
    exact List.mem_cons_self
  obtain ⟨hlt, hbit⟩ := FsDisk.mem_free.mp hmem
  rw [List.find?_range_eq_some]
  refine ⟨by rw [hbit]; rfl, List.mem_range.mpr (lt_of_lt_of_le hlt (Nat.sub_le _ _)), ?_⟩
  intro c hc
  rw [Bool.not_not]
  by_contra hclear
  have hcmem : c ∈ disk.free :=
    FsDisk.mem_free.mpr ⟨hc.trans hlt, Bool.not_eq_true _ ▸ hclear⟩
  have hpair : disk.free.Pairwise (· < ·) := FsDisk.free_pairwise
  rw [hfree] at hcmem hpair
  rcases List.mem_cons.mp hcmem with rfl | hcbs
  · exact absurd hc (Nat.lt_irrefl c)
  · exact absurd ((List.pairwise_cons.mp hpair).1 c hcbs) (Nat.lt_asymm hc)

theorem wp_balloc {Q : ℕ → Fs → Prop} {bs : List ℕ} (h : Budget U E s)
    (hfree : s.disk.free = b :: bs) (hbit : BBLOCK b s.disk.sb.ninodes ∈ U)
    (hQ : Q b (s.allocated b)) : wp FsM.balloc Q E s := by
  unfold FsM.balloc FsM.bzero
  rw [wp_bind, wp_get, find_free hfree]
  change wp (do
    set (s.setBit b true)
    FsM.logWrite (BBLOCK b s.disk.sb.ninodes)
    modify (·.setData b Block.zero)
    FsM.logWrite b
    pure b) Q E s
  rw [wp_bind, wp_set, wp_bind]
  have hset : Budget U E (s.setBit b true) := ⟨h.outstanding, h.room⟩
  refine wp_logWrite hset ?_
  have hlogged := hset.logs (t := (s.setBit b true).logged (BBLOCK b s.disk.sb.ninodes)) .one
    (Finset.singleton_subset_iff.mpr hbit) rfl
  rw [wp_bind, wp_modify, wp_bind]
  exact wp_logWrite ⟨hlogged.outstanding, hlogged.room⟩ (wp_pure.mpr hQ)

/-- What `balloc` logs. -/
theorem allocated_logs : s.log.Logs {BBLOCK b s.disk.sb.ninodes, b} (s.allocated b).log :=
  FsLog.Logs.trans .one .one

/-! ### The inode in its entry -/

@[simp] theorem wp_ip {i : Fin NINODE} {Q : Inode → Fs → Prop} :
    wp (FsM.ip i) Q E s ↔ Q (s.icache i) s := by
  unfold FsM.ip
  rw [wp_bind, wp_get, wp_pure]

@[simp] theorem wp_setIp {i : Fin NINODE} {x : Inode} {Q : Unit → Fs → Prop} :
    wp (FsM.setIp i x) Q E s ↔ Q ⟨⟩ (s.setIp i x) := wp_modify

theorem wp_when {p : Prop} [Decidable p] {m : FsM Unit} {Q : Unit → Fs → Prop} :
    wp (FsM.when p m) Q E s ↔ (p → wp m Q E s) ∧ (¬ p → Q ⟨⟩ s) := by
  unfold FsM.when
  rw [wp_ite, wp_pure]

end Log

end Fs

end Xv6
