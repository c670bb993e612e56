import Xv6.Fs.Layout

/-!
# How files grow

A file grows when it takes a free block: for its data, or for its indirect block. Nothing that
was in the file changes, and neither does any other file.
-/

namespace Xv6

open Foundation

namespace Fs

/-- The copy of the inode in its entry of the cache. -/
def dip (s : Fs) (i : Fin NINODE) : Dinode := (s.icache i).d

/-- What does not change when the file of the inode is written. -/
structure Frame (i : Fin NINODE) (s t : Fs) : Prop where
  sb : t.disk.sb = s.disk.sb
  user : t.user = s.user
  io : t.io = s.io
  icache : ∀ j, j ≠ i → t.icache j = s.icache j
  entry : t.icache i = { s.icache i with d := t.dip i }
  fields : t.dip i = { s.dip i with size := (t.dip i).size, addrs := (t.dip i).addrs }
  dinode : ∀ n, n ≠ (s.icache i).inum → t.disk.dinode n = s.disk.dinode n
  marked : ∀ b, s.disk.bitmap b = true → t.disk.bitmap b = true
  others : ∀ b, s.disk.bitmap b = true → ¬ (s.dip i).Has s.disk b →
    ¬ (t.dip i).Has t.disk b ∧ t.disk.data b = s.disk.data b

/-- The file takes the block `b`, which is zeroed: as its indirect block, or as the block with
a number that it does not have. -/
structure Takes (i : Fin NINODE) (b : ℕ) (s t : Fs) : Prop where
  sb : t.disk.sb = s.disk.sb
  user : t.user = s.user
  io : t.io = s.io
  icache : ∀ j, j ≠ i → t.icache j = s.icache j
  entry : t.icache i = { s.icache i with d := t.dip i }
  fields : t.dip i = { s.dip i with addrs := (t.dip i).addrs }
  dinode : t.disk.dinode = s.disk.dinode
  bitmap : t.disk.bitmap = Function.update s.disk.bitmap b true
  zeroed : t.disk.data b = Block.zero
  data : ∀ c, c ≠ b → (c = (s.dip i).table → c = 0) → t.disk.data c = s.disk.data c
  shape : ((t.dip i).table = (s.dip i).table ∧ ∃ bn, (s.dip i).block s.disk bn = 0 ∧
      (t.dip i).block t.disk = Function.update ((s.dip i).block s.disk) bn b) ∨
    ((s.dip i).table = 0 ∧ (t.dip i).table = b ∧
      (t.dip i).block t.disk = (s.dip i).block s.disk)

end Fs

namespace FsDisk

variable {disk disk' : FsDisk} {b : ℕ} {bs : List ℕ}

theorem mem_free : b ∈ disk.free ↔ b < disk.sb.logStart ∧ disk.bitmap b = false := by
  rw [free, List.mem_filter, List.mem_range, Bool.not_eq_true']

theorem free_pairwise : disk.free.Pairwise (· < ·) := List.Pairwise.filter _ List.pairwise_lt_range

/-- A free block is a data block. -/
theorem Ok.isData (h : disk.Ok) (hb : b ∈ disk.free) : disk.sb.IsData b := by
  obtain ⟨hlt, hfree⟩ := mem_free.mp hb
  refine ⟨?_, hlt⟩
  by_contra hlow
  cases hfree.symm.trans (h.marked b (Nat.not_le.mp hlow))

/-- What is free when the first free block has been taken. -/
theorem free_taken (hfree : disk.free = b :: bs) (hsb : disk'.sb = disk.sb)
    (hbit : disk'.bitmap = Function.update disk.bitmap b true) : disk'.free = bs := by
  have hnot : ∀ c ∈ bs, c ≠ b := by
    rintro c hc rfl
    have hpair : disk.free.Pairwise (· < ·) := free_pairwise
    rw [hfree, List.pairwise_cons] at hpair
    exact absurd (hpair.1 c hc) (Nat.lt_irrefl c)
  have hfilter : disk'.free = disk.free.filter fun c => c ≠ b := by
    rw [free, free, hsb, hbit, List.filter_filter]
    refine List.filter_congr fun c _ => ?_
    by_cases hc : c = b
    · rw [hc, Function.update_self]
      simp
    · rw [Function.update_of_ne hc]
      simp [hc]
  rw [hfilter, hfree, List.filter_cons_of_neg (by simp), List.filter_eq_self]
  exact fun c hc => decide_eq_true (hnot c hc)

end FsDisk

namespace Fs

section Frame

variable {i : Fin NINODE} {s t u : Fs} {e : Dinode}

theorem Frame.refl : Frame i s s where
  sb := rfl
  user := rfl
  io := rfl
  icache := fun _ _ => rfl
  entry := rfl
  fields := rfl
  dinode := fun _ _ => rfl
  marked := fun _ hb => hb
  others := fun _ _ hb => ⟨hb, rfl⟩

theorem Frame.inum (h : Frame i s t) : (t.icache i).inum = (s.icache i).inum := by
  rw [h.entry]

theorem Frame.trans (h : Frame i s t) (h' : Frame i t u) : Frame i s u where
  sb := h'.sb.trans h.sb
  user := h'.user.trans h.user
  io := h'.io.trans h.io
  icache := fun j hj => (h'.icache j hj).trans (h.icache j hj)
  entry := by
    rw [h'.entry, h.entry]
  fields := by
    rw [h'.fields, h.fields]
  dinode := fun n hn => by
    rw [h'.dinode n (by rw [h.inum]; exact hn), h.dinode n hn]
  marked := fun b hb => h'.marked b (h.marked b hb)
  others := fun b hb hown => by
    obtain ⟨hnot, hdata⟩ := h.others b hb hown
    obtain ⟨hnot', hdata'⟩ := h'.others b (h.marked b hb) hnot
    exact ⟨hnot', hdata'.trans hdata⟩

/-- The metadata is still marked. -/
theorem Frame.ok (h : Frame i s t) (hok : s.disk.Ok) : t.disk.Ok where
  marked := fun b hb => by
    rw [h.sb] at hb
    exact h.marked b (hok.marked b hb)
  small := by
    rw [h.sb]
    exact hok.small

/-- Another file is what it was. -/
theorem Frame.other (h : Frame i s t) (he : e.WellFormed s.disk)
    (hapart : Dinode.Apart s.disk (s.dip i) e) :
    e.WellFormed t.disk ∧ Dinode.Apart t.disk (t.dip i) e ∧
      e.contents t.disk = e.contents s.disk := by
  have hother : ∀ b, e.Has s.disk b → ¬ (t.dip i).Has t.disk b ∧
      t.disk.data b = s.disk.data b :=
    fun b hb => h.others b (he.used b hb) fun hown => hapart b hown hb
  have hdata : ∀ b, e.Has s.disk b → t.disk.data b = s.disk.data b := fun b hb => (hother b hb).2
  refine ⟨he.congr hdata h.marked h.sb, ?_, Dinode.contents_congr hdata⟩
  intro b hown hb
  exact (hother b ((Dinode.has_congr hdata b).mp hb)).1 hown

end Frame

section Takes

variable {i : Fin NINODE} {s t : Fs} {b bn c : ℕ} {bs : List ℕ}

theorem Takes.mono (h : Takes i b s t) (hbn : (s.dip i).block s.disk bn ≠ 0) :
    (t.dip i).block t.disk bn = (s.dip i).block s.disk bn := by
  rcases h.shape with ⟨-, m, hm, hblock⟩ | ⟨-, -, hblock⟩
  · rw [hblock, Function.update_of_ne]
    rintro rfl
    exact hbn hm
  · rw [hblock]

/-- A block of the file is the new one, or is a block that it had. -/
theorem Takes.block (h : Takes i b s t) (bn : ℕ) :
    (t.dip i).block t.disk bn = b ∨
      (t.dip i).block t.disk bn = (s.dip i).block s.disk bn := by
  rcases h.shape with ⟨-, m, -, hblock⟩ | ⟨-, -, hblock⟩
  · rw [hblock]
    by_cases hm : bn = m
    · exact .inl (by rw [hm, Function.update_self])
    · exact .inr (Function.update_of_ne hm _ _)
  · exact .inr (by rw [hblock])

theorem Takes.table (h : Takes i b s t) :
    (t.dip i).table = b ∨ (t.dip i).table = (s.dip i).table := by
  rcases h.shape with ⟨htable, -⟩ | ⟨-, htable, -⟩
  · exact .inr htable
  · exact .inl htable

theorem Takes.has (h : Takes i b s t) (hc : (t.dip i).Has t.disk c) :
    c = b ∨ (s.dip i).Has s.disk c := by
  obtain ⟨hne, rfl | ⟨bn, rfl⟩⟩ := hc
  · rcases h.table with htable | htable
    · exact .inl htable
    · exact .inr ⟨hne, .inl htable⟩
  · rcases h.block bn with hblock | hblock
    · exact .inl hblock
    · exact .inr ⟨hne, .inr ⟨bn, hblock⟩⟩

variable (hfree : s.disk.bitmap b = false) (hwf : (s.dip i).WellFormed s.disk)

include hfree hwf in
theorem Takes.not_has : ¬ (s.dip i).Has s.disk b := by
  intro hb
  cases hfree.symm.trans (hwf.used b hb)

include hfree in
theorem Takes.frame (h : Takes i b s t) : Frame i s t where
  sb := h.sb
  user := h.user
  io := h.io
  icache := h.icache
  entry := h.entry
  fields := by
    rw [h.fields]
  dinode := fun _ _ => by
    rw [h.dinode]
  marked := fun c hc => by
    rw [h.bitmap]
    by_cases hcb : c = b
    · rw [hcb, Function.update_self]
    · rw [Function.update_of_ne hcb]
      exact hc
  others := fun c hc hown => by
    have hcb : c ≠ b := by
      rintro rfl
      cases hfree.symm.trans hc
    refine ⟨fun hhas => (h.has hhas).elim hcb hown, h.data c hcb fun hct => ?_⟩
    by_contra hzero
    exact hown ⟨hzero, .inl hct⟩

include hfree hwf in
/-- The new block is zeroed and the others have not changed. -/
theorem Takes.byteAt (h : Takes i b s t) :
    (t.dip i).byteAt t.disk = (s.dip i).byteAt s.disk := by
  have hnot := Takes.not_has hfree hwf
  funext k
  unfold Dinode.byteAt
  by_cases hk : (s.dip i).block s.disk (k / BSIZE) = 0
  · rw [if_pos hk]
    rcases h.block (k / BSIZE) with hblock | hblock
    · rw [hblock, h.zeroed, Block.byte_zero]
      exact ite_self _
    · rw [hblock, if_pos hk]
  · have hne : (s.dip i).block s.disk (k / BSIZE) ≠ b := by
      rintro rfl
      exact hnot (.of_block hk)
    rw [h.mono hk, if_neg hk, if_neg hk, h.data _ hne fun htable =>
      absurd htable (hwf.notTable _ hk)]

include hfree hwf in
theorem Takes.wf (h : Takes i b s t) (hdata : s.disk.sb.IsData b) :
    (t.dip i).WellFormed t.disk where
  small := by
    rw [h.fields]
    exact hwf.small
  mapped := fun bn hbn => by
    rw [h.fields] at hbn
    rw [h.mono (hwf.mapped bn hbn)]
    exact hwf.mapped bn hbn
  distinct := by
    have hnot := Takes.not_has hfree hwf
    intro m n hm hmn
    rcases h.shape with ⟨-, bn, -, hblock⟩ | ⟨-, -, hblock⟩
    · have hold : ∀ k, k ≠ bn → (s.dip i).block s.disk k ≠ b := by
        rintro k - rfl
        exact hnot ⟨hdata.other.1, .inr ⟨k, rfl⟩⟩
      rw [hblock] at hm hmn
      by_cases hmb : m = bn
      · by_contra hne
        have hnb : n ≠ bn := fun hn => hne (hmb.trans hn.symm)
        rw [hmb, Function.update_self, Function.update_of_ne hnb] at hmn
        exact hold n hnb hmn.symm
      · rw [Function.update_of_ne hmb] at hm hmn
        by_cases hnb : n = bn
        · rw [hnb, Function.update_self] at hmn
          exact absurd hmn (hold m hmb)
        · rw [Function.update_of_ne hnb] at hmn
          exact hwf.distinct m n hm hmn
    · rw [hblock] at hm hmn
      exact hwf.distinct m n hm hmn
  notTable := by
    have hnot := Takes.not_has hfree hwf
    intro bn hbn htable
    rcases h.shape with ⟨hsame, m, hm, hblock⟩ | ⟨-, hnew, hblock⟩
    · rw [hblock, hsame] at htable
      rw [hblock] at hbn
      by_cases hbm : bn = m
      · rw [hbm, Function.update_self] at htable hbn
        exact hnot ⟨hbn, .inl htable⟩
      · rw [Function.update_of_ne hbm] at htable hbn
        exact hwf.notTable bn hbn htable
    · rw [hblock, hnew] at htable
      rw [hblock] at hbn
      exact hnot (htable ▸ Dinode.Has.of_block hbn)
  used := fun c hc => by
    rw [h.bitmap]
    rcases h.has hc with rfl | hc
    · exact Function.update_self ..
    · rw [Function.update_of_ne]
      · exact hwf.used c hc
      · rintro rfl
        cases hfree.symm.trans (hwf.used c hc)
  isData := fun c hc => by
    rw [h.sb]
    rcases h.has hc with rfl | hc
    · exact hdata
    · exact hwf.isData c hc

end Takes

end Fs

end Xv6
