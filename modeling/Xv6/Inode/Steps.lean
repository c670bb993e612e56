import Xv6.Inode.Invariant

/-!
# The steps of the inode cache keep its invariant

One lemma for each function, over the frame lemmas of the setters: a setter for the
entry `i` leaves everything about the other entries as it was.
-/

namespace Xv6

namespace InodeSys

open Foundation

namespace SameAt

variable {s t u : InodeSys} {i j : Fin NINODE}

theorem refl (s : InodeSys) : SameAt j s s where
  ip := rfl
  refs := rfl
  users := rfl
  putting := rfl
  changed := rfl
  holds := fun _ => rfl
  status := fun _ _ _ => Iff.rfl
  dip := fun _ => rfl

theorem trans (h : SameAt j s t) (h' : SameAt j t u) : SameAt j s u where
  ip := h'.ip.trans h.ip
  refs := h'.refs.trans h.refs
  users := h'.users.trans h.users
  putting := h'.putting.trans h.putting
  changed := h'.changed.trans h.changed
  holds := fun p => (h'.holds p).trans (h.holds p)
  status := fun p st ha => (h'.status p st ha).trans (h.status p st ha)
  dip := fun hr => (h'.dip (by rw [h.ip]; exact hr)).trans (h.dip hr)

theorem setIp (hj : j ≠ i) (x : Inode) : SameAt j s (s.setIp i x) where
  ip := Function.update_of_ne hj ..
  refs := rfl
  users := rfl
  putting := rfl
  changed := rfl
  holds := fun _ => rfl
  status := fun _ _ _ => Iff.rfl
  dip := fun _ => by simp [InodeSys.dip, InodeSys.ip, InodeSys.setIp, Function.update_of_ne hj]

theorem setHolds (hj : j ≠ i) (p : Pid) (b : Bool) : SameAt j s (s.setHolds p i b) :=
  { refl s with
    holds := by
      intro q
      rcases eq_or_ne q p with rfl | hq
      · simp [InodeSys.setHolds, Function.update_of_ne hj]
      · simp [InodeSys.setHolds, Function.update_of_ne hq] }

theorem setChanged (hj : j ≠ i) (b : Bool) : SameAt j s (s.setChanged i b) :=
  { refl s with changed := Function.update_of_ne hj .. }

theorem setRefs (hj : j ≠ i) (hs : List Holder) : SameAt j s (s.setRefs i hs) :=
  { refl s with refs := Function.update_of_ne hj .. }

theorem setUsers (hj : j ≠ i) (us : List (Pid × Holder)) : SameAt j s (s.setUsers i us) :=
  { refl s with users := Function.update_of_ne hj .. }

theorem setPutting (hj : j ≠ i) (n : ℕ) :
    SameAt j s { s with putting := Function.update s.putting i n } :=
  { refl s with putting := Function.update_of_ne hj .. }

theorem setFresh (dev inum : ℕ) (d : Option Dinode) : SameAt j s (s.setFresh dev inum d) :=
  { refl s with }

theorem setDisk {dev inum : ℕ} (hj : ¬ (s.ip j).Names dev inum) (d : Dinode) :
    SameAt j s (s.setDisk dev inum d) :=
  { refl s with
    dip := by
      intro hr
      rcases eq_or_ne (s.ip j).dev dev with hdev | hdev
      · have hinum : (s.ip j).inum ≠ inum := fun h => hj ⟨hr, hdev, h⟩
        simp [InodeSys.dip, InodeSys.ip, InodeSys.setDisk, hdev, Function.update_of_ne hinum]
      · simp [InodeSys.dip, InodeSys.ip, InodeSys.setDisk, Function.update_of_ne hdev] }

theorem setStatus {p : Pid} {st : InodeStatus} (hst : ¬ About j (s.status p))
    (hst' : ¬ About j st) : SameAt j s (s.setStatus p st) :=
  { refl s with
    status := by
      intro q st' ha
      rcases eq_or_ne q p with rfl | hq
      · simp only [InodeSys.setStatus, Function.update_self]
        constructor
        · rintro rfl
          exact absurd ha hst'
        · rintro rfl
          exact absurd ha hst
      · simp [InodeSys.setStatus, Function.update_of_ne hq] }

theorem wakeup (s : InodeSys) (i : Fin NINODE) : SameAt j s (s.wakeup i) :=
  { refl s with
    status := by
      intro q st ha
      simp only [InodeSys.wakeup]
      split
      · rename_i hq
        rw [hq]
        cases st <;> simp_all [About]
      · rfl }

end SameAt

/-- A status that is about `i` is not about another entry. -/
theorem not_about {i j : Fin NINODE} (hj : j ≠ i) {st : InodeStatus} (h : About i st) :
    ¬ About j st := by
  cases st with
  | loading k =>
      obtain rfl : k = i := h
      exact fun hk => hj hk.symm
  | freeing k stage =>
      obtain rfl : k = i := h
      exact fun hk => hj hk.symm
  | _ => exact id

namespace Inv

variable {s t : InodeSys} {p : Pid} {i : Fin NINODE}

/-- An entry with a reference that no `iput` is giving up is in use. -/
theorem ref_pos (h : Inv s) {g : Holder} (hg : g ∈ s.refs i) : (s.ip i).ref > 0 := by
  have hlen := List.length_pos_of_mem hg
  rw [(h.entry i).count]
  omega

/-- The identity of an entry that was in use is not that of another one. -/
theorem not_names (h : Inv s) (hi : (s.ip i).ref > 0) (j : Fin NINODE) (hj : j ≠ i) :
    ¬ (s.ip j).Names (s.ip i).dev (s.ip i).inum :=
  fun hn => hj (h.unique i j hi hn)

/-- References are taken or given up at an entry in use. -/
theorem recount (h : Inv s) (hpos : (s.ip i).ref > 0) {r : ℤ} {hs : List Holder}
    (hcount : r = hs.length + s.putting i) (husers : ∀ u ∈ s.users i, u.2 ∈ hs) :
    Inv ((s.setIp i { s.ip i with ref := r }).setRefs i hs) := by
  have he := h.entry i
  have hip : ((s.setIp i { s.ip i with ref := r }).setRefs i hs).ip i =
      { s.ip i with ref := r } := by
    simp [InodeSys.ip, setIp, setRefs]
  have hrefs : ((s.setIp i { s.ip i with ref := r }).setRefs i hs).refs i = hs := by
    simp [setIp, setRefs]
  have hdip : ((s.setIp i { s.ip i with ref := r }).setRefs i hs).dip i = s.dip i := by
    rw [InodeSys.dip, hip]
    rfl
  refine h.stepOn ∅ (i := i) (fun j hj => (SameAt.setIp hj _).trans (.setRefs hj _))
    ?entry ?unique (fun _ hq => hq.elim) (fun _ _ => .inl rfl) (fun _ _ _ hu => hu) ?keep id
    ?fresh h.panics
  case entry =>
    exact {
      count := by rw [hip, hrefs]; exact hcount
      users := by rw [hrefs]; exact husers
      alone := he.alone
      busy := by rw [hip]; exact he.busy
      holder := he.holder
      putting := he.putting
      locked := by rw [hip]; exact he.locked
      agrees := by rw [hip, hdip]; exact fun _ => he.agrees hpos
      changed := he.changed }
  case unique =>
    rw [hip]
    exact fun _ => h.not_names hpos
  case keep =>
    intro q _ hq
    rw [hip, hdip]
    exact ⟨hq, rfl, rfl, rfl, rfl⟩
  case fresh =>
    intro dev inum d hd
    rw [hip]
    exact ⟨hd, rfl, fun hn hv => (h.fresh dev inum d hd).2.2 i ⟨hpos, hn.2⟩ hv⟩

/-- An entry that is not in use is not used, held or changed by anyone. -/
theorem unused (h : Inv s) (hzero : (s.ip i).ref = 0) : s.refs i = [] ∧ s.putting i = 0 ∧
    s.users i = [] ∧ (∀ p, s.holds p i = false) ∧ s.changed i = false := by
  have hcount := (h.entry i).count
  have hrefs : s.refs i = [] := List.length_eq_zero_iff.mp (by omega)
  have hheld : ∀ p, s.holds p i = false := by
    intro p
    by_contra hp
    have hpos := h.ref_pos_of_holds (Bool.not_eq_false _ ▸ hp)
    omega
  refine ⟨hrefs, by omega, ?_, hheld, ?_⟩
  · rw [List.eq_nil_iff_forall_not_mem]
    intro u hu
    have hmem := (h.entry i).users u hu
    rw [hrefs] at hmem
    cases hmem
  · by_contra hc
    obtain ⟨p, hp, -⟩ := (h.entry i).changed (Bool.not_eq_false _ ▸ hc)
    rw [hheld p] at hp
    cases hp

/-- `iget` gives an entry that is not in use another identity. -/
theorem recycle (h : Inv s) {dev inum : ℕ} (g : Holder)
    (hnone : ∀ j, ¬ (s.ip j).Names dev inum) (hzero : (s.ip i).ref = 0) :
    Inv ((s.setIp i { s.ip i with
      dev := dev, inum := inum, ref := 1, busy := false, valid := false }).setRefs i
        (g :: s.refs i)) := by
  obtain ⟨hrefs, hputting, husers, hheld, hchanged⟩ := h.unused hzero
  set t := (s.setIp i { s.ip i with
    dev := dev, inum := inum, ref := 1, busy := false, valid := false }).setRefs i (g :: s.refs i)
    with ht
  have hip : t.ip i =
      { s.ip i with dev := dev, inum := inum, ref := 1, busy := false, valid := false } := by
    simp [ht, InodeSys.ip, setIp, setRefs]
  have hrefs' : t.refs i = [g] := by simp [ht, setIp, setRefs, hrefs]
  have hheld' : ∀ p, t.holds p i = false := hheld
  have husers' : t.users i = [] := husers
  have hputting' : t.putting i = 0 := hputting
  have hchanged' : t.changed i = false := hchanged
  refine h.stepOn ∅ (i := i) (fun j hj => (SameAt.setIp hj _).trans (.setRefs hj _))
    ?entry ?unique (fun _ hq => hq.elim) (fun _ _ => .inl rfl) (fun _ _ _ hu => hu) ?keep id
    ?fresh h.panics
  case entry => constructor <;> simp [hip, hrefs', hheld', husers', hputting', hchanged']
  case unique =>
    rw [hip]
    exact fun _ j _ => hnone j
  case keep =>
    intro q _ hq
    rw [hheld q] at hq
    cases hq
  case fresh =>
    intro dev' inum' d hd
    rw [hip]
    exact ⟨hd, rfl, fun _ hv => by cases hv⟩

theorem count_cons (h : Inv s) (g : Holder) :
    (s.ip i).ref + 1 = (g :: s.refs i).length + s.putting i := by
  have hcount := (h.entry i).count
  rw [List.length_cons]
  push_cast
  omega

theorem iget (h : Inv s) (g : Holder) (dev inum : ℕ) : Inv (s.iget g dev inum) := by
  unfold InodeSys.iget
  split
  · rename_i i c hget
    rcases Icache.iget_cases hget with ⟨⟨hpos, -⟩, rfl⟩ | ⟨hnone, hzero, rfl⟩
    · exact h.recount hpos (h.count_cons g)
        fun u hu => List.mem_cons_of_mem _ ((h.entry i).users u hu)
    · exact h.recycle g hnone hzero
  · exact h.panic (.inl rfl)

theorem idup (h : Inv s) {g : Holder} (hg : g ∈ s.refs i) (g' : Holder) : Inv (s.idup g' i) :=
  h.recount (h.ref_pos hg) (h.count_cons g')
    fun u hu => List.mem_cons_of_mem _ ((h.entry i).users u hu)

/-- A process moves between points of its code that are about no entry. -/
theorem setStatus (h : Inv s) {st : InodeStatus} (hold : ∀ i, ¬ About i (s.status p))
    (hnew : ∀ i, ¬ About i st) (hok : s.StatusOk p st) : Inv (s.setStatus p st) where
  entry := fun i => (SameAt.setStatus (hold i) (hnew i)).entryOk (h.entry i)
  unique := h.unique
  status := by
    have hsame : ∀ {q st'}, s.StatusOk q st' → (s.setStatus p st).StatusOk q st' :=
      fun hq => hq.frame id (fun _ _ hu => hu) fun _ hj _ => ⟨hj, rfl, rfl, rfl, rfl⟩
    intro q
    rcases eq_or_ne q p with rfl | hq
    · simp only [InodeSys.setStatus, Function.update_self]
      exact hsame hok
    · simp only [InodeSys.setStatus, Function.update_of_ne hq]
      exact hsame (h.status q)
  fresh := by
    intro dev inum d hd
    obtain ⟨hdip, htype, hall⟩ := h.fresh dev inum d hd
    refine ⟨hdip, htype, fun i hn hv => ?_⟩
    obtain ⟨q, hq⟩ := hall i hn hv
    have hsame : SameAt i s (s.setStatus p st) := .setStatus (hold i) (hnew i)
    exact ⟨q, (hsame.status q (.freeing i .finish) rfl).mpr hq⟩
  panics := h.panics

theorem ilock (h : Inv s) (hp : s.status p = .idle) {g : Holder} (hg : g ∈ s.refs i) :
    Inv (s.ilock p g i) := by
  have hpos := h.ref_pos hg
  unfold InodeSys.ilock
  rw [if_neg (by omega)]
  have he := h.entry i
  have husers : (s.setUsers i ((p, g) :: s.users i)).users i = (p, g) :: s.users i := by
    simp [setUsers]
  have hinv : Inv (s.setUsers i ((p, g) :: s.users i)) := by
    refine h.stepOn ∅ (i := i) (fun j hj => .setUsers hj _) ?entry (fun _ => h.not_names hpos)
      (fun _ hq => hq.elim) (fun _ _ => .inl rfl) ?users
      (fun _ _ hq => ⟨hq, rfl, rfl, rfl, rfl⟩) id ?fresh h.panics
    case entry =>
      exact {
        count := he.count
        users := by
          rw [husers, List.forall_mem_cons]
          exact ⟨hg, he.users⟩
        alone := he.alone
        busy := he.busy
        holder := by
          intro q hq
          rw [husers]
          exact (he.holder q hq).imp_right fun ⟨g', hg'⟩ => ⟨g', List.mem_cons_of_mem _ hg'⟩
        putting := he.putting
        locked := he.locked
        agrees := he.agrees
        changed := he.changed }
    case users =>
      intro q _ g' hg'
      rw [husers]
      exact List.mem_cons_of_mem _ hg'
    case fresh =>
      exact fun dev inum d hd => ⟨hd, rfl, (h.fresh dev inum d hd).2.2 i⟩
  refine hinv.setStatus (fun j => ?_) (fun j => id) ⟨g, ?_⟩
  · rw [show (s.setUsers i ((p, g) :: s.users i)).status p = .idle from hp]
    exact id
  · rw [husers]
    exact List.mem_cons_self

theorem lock (h : Inv s) (hp : s.status p = .waiting i) : Inv (s.lock p i) := by
  have hok := h.status p
  rw [hp] at hok
  obtain ⟨g, hg⟩ : ∃ g, (p, g) ∈ s.users i := hok
  have hnot : ∀ j, ¬ About j (s.status p) := fun j => by rw [hp]; exact id
  unfold InodeSys.lock
  split
  · exact h.setStatus hnot (fun _ => id) ⟨g, hg⟩
  rename_i hbusy
  have he := h.entry i
  have hpos := h.ref_pos (he.users _ hg)
  -- nobody holds the entry, so nobody is reading or freeing it
  have hfree : ∀ q, s.holds q i = false := by
    intro q
    by_contra hq
    exact hbusy (he.busy.mpr ⟨q, Bool.not_eq_false _ ▸ hq⟩)
  have habout : ∀ q, ¬ About i (s.status q) := fun q hq => by
    have := h.holds_of_about hq
    rw [hfree q] at this
    cases this
  have hchanged : s.changed i = false := by
    by_contra hc
    obtain ⟨q, hq, -⟩ := he.changed (Bool.not_eq_false _ ▸ hc)
    rw [hfree q] at hq
    cases hq
  set t := ((s.setIp i { s.ip i with busy := true }).setHolds p i true).setStatus p (.loading i)
    with ht
  have hip : t.ip i = { s.ip i with busy := true } := by
    simp [ht, InodeSys.ip, setIp, setHolds, InodeSys.setStatus]
  have hdip : t.dip i = s.dip i := by
    rw [InodeSys.dip, hip]
    rfl
  have hholds : ∀ q, t.holds q i = true ↔ q = p := by
    intro q
    rcases eq_or_ne q p with rfl | hq
    · simp [ht, setIp, setHolds, InodeSys.setStatus]
    · simp [ht, setIp, setHolds, InodeSys.setStatus, hfree q, hq]
  have hstp : t.status p = .loading i := by simp [ht, InodeSys.setStatus]
  have hstq : ∀ q, q ≠ p → t.status q = s.status q := fun q hq => by
    simp [ht, InodeSys.setStatus, setHolds, setIp, Function.update_of_ne hq]
  refine h.stepOn {p} (i := i) ?frame ?entry ?unique ?self (fun q hq => .inl (hstq q hq))
    (fun _ _ _ hu => hu) ?keep id ?fresh h.panics
  case frame =>
    intro j hj
    exact ((SameAt.setIp hj _).trans (.setHolds hj p true)).trans
      (.setStatus (hnot j) (not_about hj rfl))
  case entry =>
    exact {
      count := by rw [hip]; exact he.count
      users := he.users
      alone := fun q q' hq hq' => by rw [(hholds q).mp hq, (hholds q').mp hq']
      busy := by rw [hip]; exact ⟨fun _ => ⟨p, (hholds p).mpr rfl⟩, fun _ => rfl⟩
      holder := by
        intro q hq
        rw [(hholds q).mp hq]
        exact .inr ⟨g, hg⟩
      putting := by
        intro hput
        obtain ⟨-, q, stage, hq⟩ := he.putting hput
        exact absurd (by rw [hq]; rfl) (habout q)
      locked := by
        intro q hq hst
        rw [(hholds q).mp hq] at hst
        exact absurd hstp hst
      agrees := fun _ _ hall => absurd (by rw [hstp]; rfl) (hall p)
      changed := by
        rw [show t.changed i = false from hchanged]
        exact fun hc => by cases hc }
  case unique =>
    rw [hip]
    exact fun _ => h.not_names hpos
  case self =>
    rintro q rfl
    rw [hstp]
    refine ⟨(hholds q).mpr rfl, ⟨g, hg⟩, fun _ hv => ?_⟩
    rw [hip] at hv ⊢
    rw [hdip]
    obtain ⟨-, htype, heq⟩ := he.agrees hpos hv habout
    exact ⟨heq hchanged, htype⟩
  case keep =>
    intro q _ hq
    rw [hfree q] at hq
    cases hq
  case fresh =>
    intro dev inum d hd
    refine ⟨hd, rfl, fun hn hv => ?_⟩
    rw [hip] at hn hv
    obtain ⟨q, hq⟩ := (h.fresh dev inum d hd).2.2 i hn hv
    exact absurd (by rw [hq]; rfl) (habout q)

/-- Who holds an entry is the only one who does. -/
theorem holder_unique (h : Inv s) (hp : s.holds p i = true) {q : Pid} (hq : q ∉ ({p} : Set Pid)) :
    ¬ s.holds q i = true :=
  fun hqi => hq ((h.entry i).alone q p hqi hp)

/-- While an idle process holds an entry, nobody is reading or freeing it. -/
theorem not_about_of_idle (h : Inv s) (hp : s.holds p i = true) (hst : s.status p = .idle)
    (q : Pid) : ¬ About i (s.status q) := by
  intro hq
  obtain rfl := (h.entry i).alone q p (h.holds_of_about hq) hp
  rw [hst] at hq
  exact hq

/-- `ilock` has read the inode. -/
theorem loaded (h : Inv s) (hst : s.status p = .loading i) (htype : (s.dip i).type ≠ 0) :
    Inv (((s.setIp i { s.ip i with d := s.dip i, valid := true }).setFresh (s.ip i).dev
      (s.ip i).inum none).setStatus p .idle) := by
  have he := h.entry i
  have hok := h.status p
  rw [hst] at hok
  obtain ⟨hp, ⟨g, hg⟩, -⟩ := hok
  have hpos := h.ref_pos_of_holds hp
  set t := ((s.setIp i { s.ip i with d := s.dip i, valid := true }).setFresh (s.ip i).dev
    (s.ip i).inum none).setStatus p .idle with ht
  have hip : t.ip i = { s.ip i with d := s.dip i, valid := true } := by
    simp [ht, InodeSys.ip, setIp, setFresh, InodeSys.setStatus]
  have hdip : t.dip i = s.dip i := by
    rw [InodeSys.dip, hip]
    rfl
  have hstp : t.status p = .idle := by simp [ht, InodeSys.setStatus]
  have hstq : ∀ q, q ≠ p → t.status q = s.status q := fun q hq => by
    simp [ht, InodeSys.setStatus, setFresh, setIp, Function.update_of_ne hq]
  have hchanged : s.changed i = false := by
    by_contra hc
    obtain ⟨q, hq, hnot⟩ := he.changed (Bool.not_eq_false _ ▸ hc)
    obtain rfl := he.alone q p hq hp
    exact hnot (by rw [hst]; rfl)
  refine h.stepOn {p} (i := i) ?frame ?entry ?unique ?self (fun q hq => .inl (hstq q hq))
    (fun _ _ _ hu => hu) (fun q hq hqi => (h.holder_unique hp hq hqi).elim) id ?fresh h.panics
  case frame =>
    intro j hj
    exact ((SameAt.setIp hj _).trans (.setFresh ..)).trans
      (.setStatus (not_about hj (by simp [setFresh, setIp, hst, About])) id)
  case entry =>
    exact {
      count := by rw [hip]; exact he.count
      users := he.users
      alone := he.alone
      busy := by rw [hip]; exact he.busy
      holder := by
        intro q hq
        obtain rfl := he.alone q p hq hp
        exact .inr ⟨g, hg⟩
      putting := by
        intro hput
        obtain ⟨-, q, stage, hq⟩ := he.putting hput
        have hqi : s.holds q i = true := h.holds_of_about (by rw [hq]; rfl)
        obtain rfl := he.alone q p hqi hp
        rw [hst] at hq
        cases hq
      locked := fun _ _ _ => by rw [hip]
      agrees := by
        intro _ _ _
        rw [hip, hdip]
        exact ⟨rfl, htype, fun _ => rfl⟩
      changed := by
        rw [show t.changed i = false from hchanged]
        exact fun hc => by cases hc }
  case unique =>
    rw [hip]
    exact fun _ => h.not_names hpos
  case self =>
    rintro q rfl
    rw [hstp]
    trivial
  case fresh =>
    intro dev inum d hd
    have hother : ¬ ((s.ip i).dev = dev ∧ (s.ip i).inum = inum) := by
      rintro ⟨rfl, rfl⟩
      simp [ht, setFresh, InodeSys.setStatus] at hd
    have hd' : s.fresh dev inum = some d := by
      rcases eq_or_ne dev (s.ip i).dev with rfl | hdev
      · have hinum : inum ≠ (s.ip i).inum := fun heq => hother ⟨rfl, heq.symm⟩
        simpa [ht, setFresh, InodeSys.setStatus, setIp, Function.update_of_ne hinum] using hd
      · simpa [ht, setFresh, InodeSys.setStatus, setIp, Function.update_of_ne hdev] using hd
    refine ⟨hd', rfl, fun hn => ?_⟩
    rw [hip] at hn
    exact absurd hn.2 hother

theorem load (h : Inv s) (hst : s.status p = .loading i) (hpanic : s.panicked = none) :
    Inv (s.load p i) := by
  have hok := h.status p
  rw [hst] at hok
  obtain ⟨hp, ⟨g, hg⟩, hvalid⟩ := hok
  unfold InodeSys.load
  by_cases hv : (s.ip i).valid = true
  · obtain ⟨heq, htype⟩ := hvalid hpanic hv
    have hsame : s.setIp i { s.ip i with d := s.dip i, valid := true } = s := by
      have hx : { s.ip i with d := s.dip i, valid := true } = s.ip i := by rw [← heq, ← hv]
      rw [hx, setIp, InodeSys.ip, Function.update_eq_self]
    have hinv := h.loaded hst htype
    rw [hsame] at hinv
    simpa [hv] using hinv
  · rw [Bool.not_eq_true] at hv
    have hd : ((s.setIp i { s.ip i with d := s.dip i, valid := true }).ip i).d = s.dip i := by
      simp [InodeSys.ip, setIp]
    simp only [hv, Bool.not_false, if_true, hd]
    split
    · rename_i htype
      have he := h.entry i
      set t := (s.setIp i { s.ip i with d := s.dip i, valid := true }).panic .ilockNoType with ht
      have hip : t.ip i = { s.ip i with d := s.dip i, valid := true } := by
        simp [ht, InodeSys.ip, setIp, InodeSys.panic]
      have hdip : t.dip i = s.dip i := by
        rw [InodeSys.dip, hip]
        rfl
      refine h.stepOn {p} (i := i) (fun j hj => (SameAt.setIp hj _).trans { SameAt.refl _ with })
        ?entry ?unique ?self (fun _ _ => .inl rfl) (fun _ _ _ hu => hu)
        (fun q hq hqi => (h.holder_unique hp hq hqi).elim) (fun hnone => by cases hnone) ?fresh
        (.inr (.inr (.inr rfl)))
      case entry =>
        exact {
          count := by rw [hip]; exact he.count
          users := he.users
          alone := he.alone
          busy := by rw [hip]; exact he.busy
          holder := he.holder
          putting := he.putting
          locked := fun _ _ _ => by rw [hip]
          agrees := fun _ _ hall => absurd (by rw [show t.status p = _ from hst]; rfl) (hall p)
          changed := he.changed }
      case unique =>
        rw [hip]
        exact fun _ => h.not_names (h.ref_pos_of_holds hp)
      case self =>
        rintro q rfl
        rw [show t.status q = _ from hst]
        exact ⟨hp, ⟨g, hg⟩, fun hnone => by cases hnone⟩
      case fresh =>
        intro dev inum d hd
        refine ⟨hd, rfl, fun hn => ?_⟩
        -- what is fresh has a type
        rw [hip] at hn
        obtain ⟨-, rfl, rfl⟩ := hn
        obtain ⟨heq, hne, -⟩ := h.fresh _ _ _ hd
        exact absurd (heq ▸ htype) hne
    · rename_i htype
      exact h.loaded hst htype

theorem modify (h : Inv s) (hst : s.status p = .idle) (hp : s.holds p i = true) {d : Dinode}
    (hd : d.type = (s.ip i).d.type) : Inv (s.modify i d) := by
  have he := h.entry i
  have hnot := h.not_about_of_idle hp hst
  have hfresh := h.not_fresh hp (by rw [hst]; simp) (by rw [hst]; simp)
  have hip : (s.modify i d).ip i = { s.ip i with d := d } := by
    simp [InodeSys.modify, InodeSys.ip, setIp, setChanged]
  have hdip : (s.modify i d).dip i = s.dip i := by
    rw [InodeSys.dip, hip]
    rfl
  have hchanged : (s.modify i d).changed i = true := by
    simp [InodeSys.modify, setIp, setChanged]
  have hstatus : (s.modify i d).status = s.status := rfl
  refine h.stepOn {p} (i := i) (fun j hj => (SameAt.setIp hj _).trans (.setChanged hj _)) ?entry
    ?unique ?self (fun _ _ => .inl rfl) (fun _ _ _ hu => hu)
    (fun q hq hqi => (h.holder_unique hp hq hqi).elim) id ?fresh h.panics
  case entry =>
    exact {
      count := by rw [hip]; exact he.count
      users := he.users
      alone := he.alone
      busy := by rw [hip]; exact he.busy
      holder := he.holder
      putting := he.putting
      locked := by rw [hip]; exact he.locked
      agrees := by
        rw [hip, hdip, hchanged]
        intro hr hv _
        obtain ⟨heq, htype, -⟩ := he.agrees hr hv hnot
        exact ⟨hd.trans heq, htype, fun hc => by cases hc⟩
      changed := fun _ => ⟨p, hp, hnot p⟩ }
  case unique =>
    rw [hip]
    exact fun _ => h.not_names (h.ref_pos_of_holds hp)
  case self =>
    rintro q rfl
    rw [hstatus, hst]
    trivial
  case fresh =>
    intro dev inum d' hd'
    refine ⟨hd', rfl, fun hn => ?_⟩
    rw [hip] at hn
    obtain ⟨-, rfl, rfl⟩ := hn
    exact absurd (hfresh.symm.trans hd') (by simp)

theorem setDisk_disk {dev inum : ℕ} (d : Dinode)
    (hne : ¬ ((s.ip i).dev = dev ∧ (s.ip i).inum = inum)) :
    (s.setDisk (s.ip i).dev (s.ip i).inum d).disk dev inum = s.disk dev inum := by
  rcases eq_or_ne dev (s.ip i).dev with rfl | hdev
  · have hinum : inum ≠ (s.ip i).inum := fun heq => hne ⟨rfl, heq.symm⟩
    simp [setDisk, Function.update_of_ne hinum]
  · simp [setDisk, Function.update_of_ne hdev]

theorem iupdate (h : Inv s) (hst : s.status p = .idle) (hp : s.holds p i = true) :
    Inv (s.iupdate i) := by
  have he := h.entry i
  have hpos := h.ref_pos_of_holds hp
  have hnot := h.not_about_of_idle hp hst
  have hfresh := h.not_fresh hp (by rw [hst]; simp) (by rw [hst]; simp)
  have hdip : (s.iupdate i).dip i = (s.ip i).d := by
    simp [InodeSys.iupdate, setChanged, InodeSys.dip, InodeSys.ip, setDisk]
  have hchanged : (s.iupdate i).changed i = false := by simp [InodeSys.iupdate, setChanged]
  have hstatus : (s.iupdate i).status = s.status := rfl
  refine h.stepOn {p} (i := i)
    (fun j hj => (SameAt.setDisk (h.not_names hpos j hj) _).trans (.setChanged hj _)) ?entry
    (fun _ => h.not_names hpos) ?self (fun _ _ => .inl rfl) (fun _ _ _ hu => hu)
    (fun q hq hqi => (h.holder_unique hp hq hqi).elim) id ?fresh h.panics
  case entry =>
    exact {
      count := he.count
      users := he.users
      alone := he.alone
      busy := he.busy
      holder := he.holder
      putting := he.putting
      locked := he.locked
      agrees := by
        rw [hdip]
        intro hr hv _
        obtain ⟨heq, htype, -⟩ := he.agrees hr hv hnot
        exact ⟨rfl, heq ▸ htype, fun _ => rfl⟩
      changed := by
        rw [hchanged]
        exact fun hc => by cases hc }
  case self =>
    rintro q rfl
    rw [hstatus, hst]
    trivial
  case fresh =>
    intro dev inum d hd
    have hother : ¬ ((s.ip i).dev = dev ∧ (s.ip i).inum = inum) := by
      rintro ⟨rfl, rfl⟩
      exact absurd (hfresh.symm.trans hd) (by simp)
    exact ⟨hd, setDisk_disk _ hother, fun hn => absurd hn.2 hother⟩

/-- Nobody is giving up a reference to an entry that an idle process holds. -/
theorem putting_of_idle (h : Inv s) (hp : s.holds p i = true) (hst : s.status p = .idle) :
    s.putting i = 0 := by
  by_contra hput
  obtain ⟨-, q, stage, hq⟩ := (h.entry i).putting hput
  exact h.not_about_of_idle hp hst q (by rw [hq]; rfl)

theorem wakeup_status (s : InodeSys) (i : Fin NINODE) (q : Pid) :
    (s.wakeup i).status q = s.status q ∨
      s.status q = .sleeping i ∧ (s.wakeup i).status q = .waiting i := by
  by_cases hq : s.status q = .sleeping i
  · exact .inr ⟨hq, by simp [wakeup, hq]⟩
  · exact .inl (by simp [wakeup, hq])

theorem iunlock (h : Inv s) (hst : s.status p = .idle) (hp : s.holds p i = true)
    (hchanged : s.changed i = false) : Inv (s.iunlock p i) := by
  have he := h.entry i
  have hpos := h.ref_pos_of_holds hp
  have hbusy : (s.ip i).busy = true := he.busy.mpr ⟨p, hp⟩
  have hnot := h.not_about_of_idle hp hst
  have hput := h.putting_of_idle hp hst
  unfold InodeSys.iunlock
  rw [if_neg (by simp [hbusy]; omega)]
  set u := ((s.setIp i { s.ip i with busy := false }).setHolds p i false).setUsers i
    ((s.users i).filter fun u => u.1 ≠ p) with hu
  have hip : (u.wakeup i).ip i = { s.ip i with busy := false } := by
    simp [hu, wakeup, InodeSys.ip, setIp, setHolds, setUsers]
  have hdip : (u.wakeup i).dip i = s.dip i := by
    rw [InodeSys.dip, hip]
    rfl
  have husers : (u.wakeup i).users i = (s.users i).filter fun u => u.1 ≠ p := by
    simp [hu, wakeup, setIp, setHolds, setUsers]
  have hholds : ∀ q, (u.wakeup i).holds q i = false := by
    intro q
    rcases eq_or_ne q p with rfl | hq
    · simp [hu, wakeup, setIp, setHolds, setUsers]
    · have hqi : s.holds q i = false := by
        rw [← Bool.not_eq_true]
        exact h.holder_unique hp hq
      simp [hu, wakeup, setIp, setHolds, setUsers, Function.update_of_ne hq, hqi]
  refine h.stepOn {p} (i := i) ?frame ?entry ?unique ?self (fun q _ => wakeup_status u i q) ?users
    (fun q hq hqi => (h.holder_unique hp hq hqi).elim) id ?fresh h.panics
  case frame =>
    intro j hj
    exact (((SameAt.setIp hj _).trans (.setHolds hj p false)).trans (.setUsers hj _)).trans
      (.wakeup ..)
  case entry =>
    exact {
      count := by rw [hip]; exact he.count
      users := by
        rw [husers]
        exact fun x hx => he.users x (List.mem_of_mem_filter hx)
      alone := fun q q' hq => by
        rw [hholds q] at hq
        cases hq
      busy := by
        rw [hip]
        simp [hholds]
      holder := fun q hq => by
        rw [hholds q] at hq
        cases hq
      putting := fun hne => absurd hput hne
      locked := fun q hq => by
        rw [hholds q] at hq
        cases hq
      agrees := by
        rw [hip, hdip]
        exact fun hr hv _ => he.agrees hr hv hnot
      changed := by
        rw [show (u.wakeup i).changed i = false from hchanged]
        exact fun hc => by cases hc }
  case unique =>
    rw [hip]
    exact fun _ => h.not_names hpos
  case self =>
    rintro q rfl
    rcases wakeup_status u i q with hq | ⟨hq, -⟩
    · rw [hq, show u.status q = .idle from hst]
      trivial
    · rw [show u.status q = .idle from hst] at hq
      cases hq
  case users =>
    intro q hq g hg
    rw [husers]
    exact List.mem_filter.mpr ⟨hg, by simpa using hq⟩
  case fresh =>
    intro dev inum d hd
    refine ⟨hd, rfl, fun hn hv => ?_⟩
    rw [hip] at hn hv
    obtain ⟨q, hq⟩ := (h.fresh dev inum d hd).2.2 i hn hv
    exact absurd (by rw [hq]; rfl) (hnot q)

/-- `iput` frees an inode only when the caller has the only reference, and then nobody
uses or holds the entry. -/
theorem only_reference (h : Inv s) {g : Holder} (hmay : s.MayPut g i) (hone : (s.ip i).ref = 1) :
    s.refs i = [g] ∧ s.putting i = 0 ∧ s.users i = [] ∧ (∀ q, s.holds q i = false) ∧
      (∀ q, ¬ About i (s.status q)) ∧ (s.ip i).busy = false ∧ s.changed i = false := by
  have he := h.entry i
  obtain ⟨hg, hrely⟩ := hmay
  have hlen := List.length_pos_of_mem hg
  have hcount := he.count
  have hrefs : s.refs i = [g] := by
    obtain ⟨g', hg'⟩ := List.length_eq_one_iff.mp (show (s.refs i).length = 1 by omega)
    rw [hg', List.mem_singleton] at hg
    rw [hg', hg]
  have hput : s.putting i = 0 := by omega
  have husers : s.users i = [] := by
    rw [List.eq_nil_iff_forall_not_mem]
    intro u hu
    have hmem := hrely u hu
    simp [hrefs] at hmem
  have hheld : ∀ q, s.holds q i = false := by
    intro q
    by_contra hq
    rcases he.holder q (Bool.not_eq_false _ ▸ hq) with ⟨stage, hst⟩ | ⟨g', hg'⟩
    · have hok := h.status q
      rw [hst] at hok
      have := hok.2.1
      omega
    · rw [husers] at hg'
      cases hg'
  refine ⟨hrefs, hput, husers, hheld, ?_, ?_, ?_⟩
  · intro q hq
    have hqi := h.holds_of_about hq
    rw [hheld q] at hqi
    cases hqi
  · by_contra hb
    obtain ⟨q, hq⟩ := he.busy.mp (Bool.not_eq_false _ ▸ hb)
    rw [hheld q] at hq
    cases hq
  · by_contra hc
    obtain ⟨q, hq, -⟩ := he.changed (Bool.not_eq_false _ ▸ hc)
    rw [hheld q] at hq
    cases hq

theorem iput (h : Inv s) (hst : s.status p = .idle) {g : Holder} (hmay : s.MayPut g i) :
    Inv (s.iput p g i) := by
  have he := h.entry i
  have hpos := h.ref_pos hmay.1
  unfold InodeSys.iput
  simp only
  split
  · rename_i hfree
    obtain ⟨hone, hvalid, hnlink⟩ := hfree
    obtain ⟨hrefs, hput, husers, hheld, hnot, hbusy, hchanged⟩ := h.only_reference hmay hone
    rw [if_neg (by simp [hbusy])]
    obtain ⟨-, htype, heq⟩ := he.agrees hpos hvalid hnot
    have heq := heq hchanged
    have hrefs' : (s.refs i).erase g = [] := by simp [hrefs]
    rw [hrefs']
    set t := { (((s.setIp i { s.ip i with busy := true }).setHolds p i true).setRefs i
      []).setStatus p (.freeing i .trunc) with
        putting := Function.update s.putting i (s.putting i + 1) } with ht
    have hip : t.ip i = { s.ip i with busy := true } := by
      simp [ht, InodeSys.ip, setIp, setHolds, setRefs, InodeSys.setStatus]
    have hdip : t.dip i = s.dip i := by
      rw [InodeSys.dip, hip]
      rfl
    have hput' : t.putting i = 1 := by simp [ht, hput]
    have hrefs'' : t.refs i = [] := by
      simp [ht, setIp, setHolds, setRefs, InodeSys.setStatus]
    have hstp : t.status p = .freeing i .trunc := by simp [ht, InodeSys.setStatus]
    have hstq : ∀ q, q ≠ p → t.status q = s.status q := fun q hq => by
      simp [ht, InodeSys.setStatus, setHolds, setIp, setRefs, Function.update_of_ne hq]
    have hholds : ∀ q, t.holds q i = true ↔ q = p := by
      intro q
      rcases eq_or_ne q p with rfl | hq
      · simp [ht, setIp, setHolds, setRefs, InodeSys.setStatus]
      · simp [ht, setIp, setHolds, setRefs, InodeSys.setStatus, hheld q, hq]
    refine h.stepOn {p} (i := i) ?frame ?entry ?unique ?self (fun q hq => .inl (hstq q hq))
      (fun _ _ _ hu => hu) ?keep id ?fresh h.panics
    case frame =>
      intro j hj
      exact ((((SameAt.setIp hj _).trans (.setHolds hj p true)).trans (.setRefs hj _)).trans
        (.setStatus (by simp [setRefs, setHolds, setIp, hst, About])
          (not_about hj (show About i (.freeing i .trunc) from rfl)))).trans (.setPutting hj _)
    case entry =>
      exact {
        count := by rw [hip, hrefs'', hput']; exact hone
        users := by
          rw [show t.users i = [] from husers]
          exact fun u hu => by cases hu
        alone := fun q q' hq hq' => by rw [(hholds q).mp hq, (hholds q').mp hq']
        busy := by rw [hip]; exact ⟨fun _ => ⟨p, (hholds p).mpr rfl⟩, fun _ => rfl⟩
        holder := by
          intro q hq
          rw [(hholds q).mp hq]
          exact .inl ⟨.trunc, hstp⟩
        putting := fun _ => ⟨hput', p, .trunc, hstp⟩
        locked := fun _ _ _ => by rw [hip]; exact hvalid
        agrees := fun _ _ hall => absurd (by rw [hstp]; rfl) (hall p)
        changed := by
          rw [show t.changed i = false from hchanged]
          exact fun hc => by cases hc }
    case unique =>
      rw [hip]
      exact fun _ => h.not_names hpos
    case self =>
      rintro q rfl
      rw [hstp]
      refine ⟨(hholds q).mpr rfl, hput', ?_⟩
      rw [hip, hdip]
      exact ⟨heq, htype, heq ▸ hnlink⟩
    case keep =>
      intro q _ hq
      rw [hheld q] at hq
      cases hq
    case fresh =>
      intro dev inum d hd
      refine ⟨hd, rfl, fun hn hv => ?_⟩
      rw [hip] at hn hv
      obtain ⟨q, hq⟩ := (h.fresh dev inum d hd).2.2 i hn hv
      exact absurd (by rw [hq]; rfl) (hnot q)
  · refine h.recount hpos ?_ hmay.2
    have hlen := List.length_erase_of_mem hmay.1
    have hlen' := List.length_pos_of_mem hmay.1
    have hcount : (s.ip i).ref = _ := he.count
    rw [hlen]
    change (s.ip i).ref - 1 = _
    omega

/-- What is so of an entry that a process is freeing. -/
theorem of_freeing (h : Inv s) {stage : FreeStage} (hst : s.status p = .freeing i stage) :
    s.holds p i = true ∧ s.putting i = 1 ∧ FreeOk (s.ip i).d (s.dip i) stage ∧
      (s.ip i).valid = true ∧ s.changed i = false := by
  have hok := h.status p
  rw [hst] at hok
  obtain ⟨hp, hput, hfree⟩ := hok
  refine ⟨hp, hput, hfree, (h.entry i).locked p hp (by rw [hst]; simp), ?_⟩
  by_contra hc
  obtain ⟨q, hq, hnot⟩ := (h.entry i).changed (Bool.not_eq_false _ ▸ hc)
  obtain rfl := (h.entry i).alone q p hq hp
  exact hnot (by rw [hst]; rfl)

/-- A stage of freeing an inode that goes on to another one. -/
theorem freeing (h : Inv s) {stage stage' : FreeStage} (hst : s.status p = .freeing i stage)
    (hne : stage ≠ .finish) {d dip : Dinode} (hok : FreeOk d dip stage') :
    Inv (((s.setIp i { s.ip i with d := d }).setDisk (s.ip i).dev (s.ip i).inum dip).setStatus p
      (.freeing i stage')) := by
  have he := h.entry i
  obtain ⟨hp, hput, -, hvalid, hchanged⟩ := h.of_freeing hst
  have hpos := h.ref_pos_of_holds hp
  have hfresh := h.not_fresh hp (by rw [hst]; simp)
    (by rw [hst]; simpa using hne)
  set t := ((s.setIp i { s.ip i with d := d }).setDisk (s.ip i).dev (s.ip i).inum dip).setStatus p
    (.freeing i stage') with ht
  have hip : t.ip i = { s.ip i with d := d } := by
    simp [ht, InodeSys.ip, setIp, setDisk, InodeSys.setStatus]
  have hdip : t.dip i = dip := by
    simp [ht, InodeSys.dip, InodeSys.ip, setIp, setDisk, InodeSys.setStatus]
  have hstp : t.status p = .freeing i stage' := by simp [ht, InodeSys.setStatus]
  have hstq : ∀ q, q ≠ p → t.status q = s.status q := fun q hq => by
    simp [ht, InodeSys.setStatus, setDisk, setIp, Function.update_of_ne hq]
  refine h.stepOn {p} (i := i) ?frame ?entry ?unique ?self (fun q hq => .inl (hstq q hq))
    (fun _ _ _ hu => hu) (fun q hq hqi => (h.holder_unique hp hq hqi).elim) id ?fresh h.panics
  case frame =>
    intro j hj
    have hsame : SameAt j s (s.setIp i { s.ip i with d := d }) := .setIp hj _
    exact (hsame.trans (.setDisk (by rw [hsame.ip]; exact h.not_names hpos j hj) _)).trans
      (.setStatus (not_about hj (by simp [setDisk, setIp, hst, About]))
        (not_about hj (show About i (.freeing i stage') from rfl)))
  case entry =>
    exact {
      count := by rw [hip]; exact he.count
      users := he.users
      alone := he.alone
      busy := by rw [hip]; exact he.busy
      holder := by
        intro q hq
        obtain rfl := he.alone q p hq hp
        exact .inl ⟨stage', hstp⟩
      putting := fun _ => ⟨hput, p, stage', hstp⟩
      locked := fun _ _ _ => by rw [hip]; exact hvalid
      agrees := fun _ _ hall => absurd (by rw [hstp]; rfl) (hall p)
      changed := by
        rw [show t.changed i = false from hchanged]
        exact fun hc => by cases hc }
  case unique =>
    rw [hip]
    exact fun _ => h.not_names hpos
  case self =>
    rintro q rfl
    rw [hstp]
    refine ⟨hp, hput, ?_⟩
    rw [hip, hdip]
    exact hok
  case fresh =>
    intro dev inum d' hd
    have hother : ¬ ((s.ip i).dev = dev ∧ (s.ip i).inum = inum) := by
      rintro ⟨rfl, rfl⟩
      exact absurd (hfresh.symm.trans hd) (by simp)
    refine ⟨hd, setDisk_disk _ hother, fun hn => ?_⟩
    rw [hip] at hn
    exact absurd hn.2 hother

theorem setIp_self (s : InodeSys) (i : Fin NINODE) : s.setIp i (s.ip i) = s := by
  rw [setIp, InodeSys.ip, Function.update_eq_self]

theorem setDisk_self (s : InodeSys) (dev inum : ℕ) :
    s.setDisk dev inum (s.disk dev inum) = s := by
  rw [setDisk, Function.update_eq_self, Function.update_eq_self]

/-- `iput` clears the flags and gives up the reference: the entry is not valid. -/
theorem finish (h : Inv s) (hst : s.status p = .freeing i .finish) :
    Inv (s.free p i .finish) := by
  have he := h.entry i
  obtain ⟨hp, hput, -, hvalid, hchanged⟩ := h.of_freeing hst
  have hpos := h.ref_pos_of_holds hp
  set u := ((s.setIp i { s.ip i with busy := false, valid := false, ref := (s.ip i).ref - 1 }).setHolds
    p i false).setStatus p .idle with hu
  have ht : s.free p i .finish =
      { u.wakeup i with putting := Function.update s.putting i (s.putting i - 1) } := rfl
  set t := s.free p i .finish
  have hip : t.ip i =
      { s.ip i with busy := false, valid := false, ref := (s.ip i).ref - 1 } := by
    simp [ht, hu, InodeSys.wakeup, InodeSys.ip, setIp, setHolds, InodeSys.setStatus]
  have hput' : t.putting i = 0 := by simp [ht, hput]
  have hholds : ∀ q, t.holds q i = false := by
    intro q
    rcases eq_or_ne q p with rfl | hq
    · simp [ht, hu, InodeSys.wakeup, setIp, setHolds, InodeSys.setStatus]
    · have hqi : s.holds q i = false := by
        rw [← Bool.not_eq_true]
        exact h.holder_unique hp hq
      simp [ht, hu, InodeSys.wakeup, setIp, setHolds, InodeSys.setStatus, Function.update_of_ne hq,
        hqi]
  have hstatus : ∀ q, t.status q = u.status q ∨
      u.status q = .sleeping i ∧ t.status q = .waiting i := wakeup_status u i
  have hup : u.status p = .idle := by simp [hu, InodeSys.setStatus]
  have huq : ∀ q, q ≠ p → u.status q = s.status q := fun q hq => by
    simp [hu, InodeSys.setStatus, setHolds, setIp, Function.update_of_ne hq]
  refine h.stepOn {p} (i := i) ?frame ?entry ?unique ?self ?others
    (fun _ _ _ hu => hu) (fun q hq hqi => (h.holder_unique hp hq hqi).elim) id ?fresh h.panics
  case frame =>
    intro j hj
    exact (((((SameAt.setIp hj _).trans (.setHolds hj p false)).trans
      (.setStatus (not_about hj (by simp [setHolds, setIp, hst, About])) id)).trans
        (.wakeup ..))).trans (.setPutting hj _)
  case entry =>
    exact {
      count := by
        rw [hip, hput']
        have hcount := he.count
        rw [hput] at hcount
        change (s.ip i).ref - 1 = _
        change _ = ((s.refs i).length : ℤ) + _
        omega
      users := he.users
      alone := fun q q' hq => by
        rw [hholds q] at hq
        cases hq
      busy := by
        rw [hip]
        simp [hholds]
      holder := fun q hq => by
        rw [hholds q] at hq
        cases hq
      putting := fun hne => absurd hput' hne
      locked := fun q hq => by
        rw [hholds q] at hq
        cases hq
      agrees := by
        rw [hip]
        exact fun _ hv => by cases hv
      changed := by
        rw [show t.changed i = false from hchanged]
        exact fun hc => by cases hc }
  case unique =>
    rw [hip]
    exact fun _ => h.not_names hpos
  case self =>
    rintro q rfl
    rcases hstatus q with hq | ⟨hq, -⟩
    · rw [hq, hup]
      trivial
    · rw [hup] at hq
      cases hq
  case others =>
    intro q hq
    rw [← huq q hq]
    exact hstatus q
  case fresh =>
    intro dev inum d hd
    refine ⟨hd, rfl, fun _ hv => ?_⟩
    rw [hip] at hv
    cases hv

theorem free (h : Inv s) {stage : FreeStage} (hst : s.status p = .freeing i stage) :
    Inv (s.free p i stage) := by
  obtain ⟨hp, hput, hok, hvalid, hchanged⟩ := h.of_freeing hst
  -- a stage changes either the entry or the inode on the disk
  have hip : ∀ {stage'} {d : Dinode}, stage ≠ .finish → FreeOk d (s.dip i) stage' →
      Inv ((s.setIp i { s.ip i with d := d }).setStatus p (.freeing i stage')) := by
    intro stage' d hne hok'
    have hinv := h.freeing hst hne hok'
    rwa [show s.dip i = (s.setIp i { s.ip i with d := d }).disk (s.ip i).dev (s.ip i).inum from rfl,
      setDisk_self] at hinv
  have hdip : ∀ {stage'}, stage ≠ .finish → FreeOk (s.ip i).d (s.ip i).d stage' →
      Inv ((s.setDisk (s.ip i).dev (s.ip i).inum (s.ip i).d).setStatus p (.freeing i stage')) := by
    intro stage' hne hok'
    have hinv := h.freeing hst hne hok'
    rwa [show { s.ip i with d := (s.ip i).d } = s.ip i from rfl, setIp_self] at hinv
  cases stage with
  | trunc =>
      obtain ⟨heq, htype, hnlink⟩ := hok
      exact hip (by simp) ⟨heq ▸ htype, heq ▸ hnlink, htype, hnlink⟩
  | truncUpdate => exact hdip (by simp) ⟨hok.1, hok.2.1⟩
  | clear => exact hip (by simp) hok
  | freeUpdate => exact hdip (by simp) trivial
  | finish => exact h.finish hst

/-- An entry of an inode that is free on the disk is at the end of being freed, unless
it is still to be read. -/
theorem freed_of_type (h : Inv s) (hpanic : s.panicked = none) (hpos : (s.ip i).ref > 0)
    (hv : (s.ip i).valid = true) (hzero : (s.dip i).type = 0) :
    ∃ q, s.status q = .freeing i .finish := by
  by_contra hno
  have hall : ∀ q, ¬ About i (s.status q) := by
    intro q hq
    have hok := h.status q
    rcases about_iff.mp hq with hq | ⟨stage, hq⟩
    · rw [hq] at hok
      exact (hok.2.2 hpanic hv).2 hzero
    · rw [hq] at hok
      cases stage with
      | finish => exact hno ⟨q, hq⟩
      | trunc => exact hok.2.2.2.1 hzero
      | truncUpdate => exact hok.2.2.2.2.1 hzero
      | clear => exact hok.2.2.1 hzero
      | freeUpdate => exact hok.2.2.1 hzero
  exact ((h.entry i).agrees hpos hv hall).2.1 hzero

/-- `ialloc` takes an inode that is free on the disk. -/
theorem claim (h : Inv s) (hpanic : s.panicked = none) {dev inum : ℕ} {d : Dinode}
    (hzero : (s.disk dev inum).type = 0) (hd : d.type ≠ 0) :
    Inv ((s.setDisk dev inum d).setFresh dev inum (some d)) := by
  have hfreed : ∀ j, (s.ip j).Names dev inum → (s.ip j).valid = true →
      ∃ q, s.status q = .freeing j .finish := by
    rintro j ⟨hpos, rfl, rfl⟩ hv
    exact h.freed_of_type hpanic hpos hv hzero
  set t := (s.setDisk dev inum d).setFresh dev inum (some d) with ht
  have hsame : ∀ j, ¬ (s.ip j).Names dev inum → SameAt j s t := fun j hj =>
    (SameAt.setDisk hj _).trans (.setFresh ..)
  refine ⟨?entry, h.unique, ?status, ?fresh, h.panics⟩
  case entry =>
    intro j
    have he := h.entry j
    by_cases hj : (s.ip j).Names dev inum
    · exact {
        count := he.count
        users := he.users
        alone := he.alone
        busy := he.busy
        holder := he.holder
        putting := he.putting
        locked := he.locked
        agrees := by
          intro _ hv hall
          obtain ⟨q, hq⟩ := hfreed j hj hv
          exact absurd (by rw [show t.status q = _ from hq]; rfl) (hall q)
        changed := he.changed }
    · exact (hsame j hj).entryOk he
  case status =>
    intro q
    have hok := h.status q
    change t.StatusOk q (s.status q)
    cases hst : s.status q with
    | loading j =>
        rw [hst] at hok
        obtain ⟨hq, hg, hv⟩ := hok
        refine ⟨hq, hg, fun hnone hval => ?_⟩
        by_cases hj : (s.ip j).Names dev inum
        · obtain ⟨q', hq'⟩ := hfreed j hj hval
          have hqj : s.holds q' j = true := h.holds_of_about (by rw [hq']; rfl)
          obtain rfl := (h.entry j).alone q q' hq hqj
          rw [hst] at hq'
          cases hq'
        · rw [(hsame j hj).dip (h.ref_pos_of_holds hq)]
          exact hv hnone hval
    | freeing j stage =>
        rw [hst] at hok
        obtain ⟨hq, hput, hfree⟩ := hok
        refine ⟨hq, hput, ?_⟩
        by_cases hj : (s.ip j).Names dev inum
        · have hval : (s.ip j).valid = true := (h.of_freeing hst).2.2.2.1
          obtain ⟨q', hq'⟩ := hfreed j hj hval
          have hqj : s.holds q' j = true := h.holds_of_about (by rw [hq']; rfl)
          obtain rfl := (h.entry j).alone q q' hq hqj
          rw [hst] at hq'
          obtain rfl : stage = .finish := by simpa using hq'
          trivial
        · rw [(hsame j hj).dip (h.ref_pos_of_holds hq)]
          exact hfree
    | _ =>
        rw [hst] at hok
        exact hok
  case fresh =>
    intro dev' inum' d' hd'
    by_cases heq : dev' = dev ∧ inum' = inum
    · obtain ⟨rfl, rfl⟩ := heq
      obtain rfl : d = d' := by simpa [ht, setFresh] using hd'
      exact ⟨by simp [ht, setFresh, setDisk], hd, hfreed⟩
    · have hsame' : t.fresh dev' inum' = s.fresh dev' inum' ∧
          t.disk dev' inum' = s.disk dev' inum' := by
        rcases eq_or_ne dev' dev with rfl | hdev
        · have hinum : inum' ≠ inum := fun hi => heq ⟨rfl, hi⟩
          simp [ht, setFresh, setDisk, Function.update_of_ne hinum]
        · simp [ht, setFresh, setDisk, Function.update_of_ne hdev]
      rw [hsame'.1] at hd'
      obtain ⟨hdisk, hrest⟩ := h.fresh dev' inum' d' hd'
      exact ⟨hsame'.2.trans hdisk, hrest⟩

theorem scan (h : Inv s) (hpanic : s.panicked = none) {g : Holder} {dev type inum : ℕ}
    (hst : s.status p = .scanning g dev type inum) : Inv (s.scan p g dev type inum) := by
  have htype : type ≠ 0 := by
    have hok := h.status p
    rwa [hst] at hok
  have hnot : ∀ i, ¬ About i (s.status p) := fun i => by rw [hst]; exact id
  unfold InodeSys.scan
  split
  · split
    · rename_i hzero
      exact (h.claim hpanic hzero htype).setStatus hnot (fun _ => id) trivial
    · exact h.setStatus hnot (fun _ => id) htype
  · exact h.panic (.inr rfl)

end Inv

end InodeSys

end Xv6
