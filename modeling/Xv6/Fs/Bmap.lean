import Xv6.Fs.Asks
import Xv6.Fs.Balloc

/-!
# Which blocks `bmap` gives

`bmap` returns the block with a number, and lets the file take it if it is not there: then it is a
direct block, or an entry of the indirect block, which the file may have to take first.
-/

namespace Xv6

open Foundation

namespace Fs

def addAddr (s : Fs) (i : Fin NINODE) (k b : ℕ) : Fs :=
  (s.allocated b).setIp i { s.icache i with d := (s.dip i).setAddr k b }

def addEntry (s : Fs) (i : Fin NINODE) (k b : ℕ) : Fs :=
  let t := s.allocated b
  (t.setData (s.dip i).table ((t.disk.data (s.dip i).table).setWord k b)).logged (s.dip i).table

section Add

variable {i : Fin NINODE} {s : Fs} {k b bn n : ℕ}

theorem addr_setAddr {d : Dinode} (hk : k < NDIRECT + 1) :
    (d.setAddr k b).addr n = if n = k then b else d.addr n := by
  unfold Dinode.addr Dinode.setAddr
  by_cases hn : n = k
  · rw [if_pos hn, hn, dif_pos hk]
    exact if_pos rfl
  · rw [if_neg hn]
    by_cases hlt : n < NDIRECT + 1
    · rw [dif_pos hlt, dif_pos hlt]
      exact if_neg hn
    · rw [dif_neg hlt, dif_neg hlt]

theorem dip_addAddr : (s.addAddr i k b).dip i = (s.dip i).setAddr k b := by
  have hentry : (s.addAddr i k b).icache i =
      { s.icache i with d := (s.dip i).setAddr k b } := Function.update_self ..
  rw [dip, hentry]

theorem data_addAddr {c : ℕ} (hc : c ≠ b) :
    (s.addAddr i k b).disk.data c = s.disk.data c := Function.update_of_ne hc _ _

theorem data_addEntry (hb : (s.dip i).table ≠ b) :
    (s.addEntry i k b).disk.data (s.dip i).table =
      (s.disk.data (s.dip i).table).setWord k b := by
  have hsame : (s.allocated b).disk.data (s.dip i).table = s.disk.data (s.dip i).table :=
    Function.update_of_ne hb _ _
  have hset : (s.addEntry i k b).disk.data (s.dip i).table =
      ((s.allocated b).disk.data (s.dip i).table).setWord k b := Function.update_self ..
  rw [hset, hsame]

variable (hfree : s.disk.bitmap b = false) (hwf : (s.dip i).WellFormed s.disk)

include hfree hwf in
theorem table_ne (ht : (s.dip i).table ≠ 0) : (s.dip i).table ≠ b := by
  rintro rfl
  exact Takes.not_has hfree hwf (.of_table ht)

include hfree hwf in
/-- A direct block. -/
theorem takes_addr (hk : k < NDIRECT) (hmiss : (s.dip i).block s.disk k = 0) :
    Takes i b s (s.addAddr i k b) ∧
      ((s.addAddr i k b).dip i).table = (s.dip i).table ∧
      ((s.addAddr i k b).dip i).block (s.addAddr i k b).disk =
        Function.update ((s.dip i).block s.disk) k b := by
  have hk' : k < NDIRECT + 1 := Nat.lt_succ_of_lt hk
  have htable : ((s.addAddr i k b).dip i).table = (s.dip i).table := by
    rw [dip_addAddr, Dinode.table, addr_setAddr hk', if_neg (Nat.ne_of_gt hk)]
    rfl
  have hblock : ((s.addAddr i k b).dip i).block (s.addAddr i k b).disk =
      Function.update ((s.dip i).block s.disk) k b := by
    funext n
    by_cases hn : n < NDIRECT
    · rw [Dinode.block_of_lt hn, dip_addAddr, addr_setAddr hk']
      by_cases hnk : n = k
      · rw [if_pos hnk, hnk, Function.update_self]
      · rw [if_neg hnk, Function.update_of_ne hnk, Dinode.block_of_lt hn]
    · have hle : NDIRECT ≤ n := Nat.not_lt.mp hn
      rw [Function.update_of_ne (by omega)]
      by_cases ht : (s.dip i).table = 0
      · rw [Dinode.block_of_not_table hle (htable.trans ht), Dinode.block_of_not_table hle ht]
      · rw [Dinode.block_of_table hle (by rw [htable]; exact ht), htable,
          Dinode.block_of_table hle ht, data_addAddr (table_ne hfree hwf ht)]
  refine ⟨?_, htable, hblock⟩
  exact {
    sb := rfl
    user := rfl
    io := rfl
    icache := fun j hj => Function.update_of_ne hj _ _
    entry := by
      rw [dip_addAddr]
      exact Function.update_self ..
    fields := by
      rw [dip_addAddr]
      rfl
    dinode := rfl
    bitmap := rfl
    zeroed := Function.update_self ..
    data := fun c hc _ => data_addAddr hc
    shape := .inl ⟨htable, k, hmiss, hblock⟩ }

/-- The indirect block. -/
theorem takes_table (hmiss : (s.dip i).table = 0) (hb : b ≠ 0) :
    Takes i b s (s.addAddr i NDIRECT b) ∧
      ((s.addAddr i NDIRECT b).dip i).table = b ∧
      ((s.addAddr i NDIRECT b).dip i).block (s.addAddr i NDIRECT b).disk =
        (s.dip i).block s.disk := by
  have hk : NDIRECT < NDIRECT + 1 := Nat.lt_succ_self _
  have htable : ((s.addAddr i NDIRECT b).dip i).table = b := by
    rw [dip_addAddr, Dinode.table, addr_setAddr hk, if_pos rfl]
  have hzero : (s.addAddr i NDIRECT b).disk.data b = Block.zero := Function.update_self ..
  have hblock : ((s.addAddr i NDIRECT b).dip i).block (s.addAddr i NDIRECT b).disk =
      (s.dip i).block s.disk := by
    funext n
    by_cases hn : n < NDIRECT
    · rw [Dinode.block_of_lt hn, dip_addAddr, addr_setAddr hk, if_neg (Nat.ne_of_lt hn),
        Dinode.block_of_lt hn]
    · have hle : NDIRECT ≤ n := Nat.not_lt.mp hn
      rw [Dinode.block_of_not_table hle hmiss,
        Dinode.block_of_table hle (by rw [htable]; exact hb), htable, hzero, Block.word_zero]
  refine ⟨?_, htable, hblock⟩
  exact {
    sb := rfl
    user := rfl
    io := rfl
    icache := fun j hj => Function.update_of_ne hj _ _
    entry := by
      rw [dip_addAddr]
      exact Function.update_self ..
    fields := by
      rw [dip_addAddr]
      rfl
    dinode := rfl
    bitmap := rfl
    zeroed := hzero
    data := fun c hc _ => data_addAddr hc
    shape := .inr ⟨hmiss, htable, hblock⟩ }

include hfree hwf in
/-- An entry of the indirect block. -/
theorem takes_entry (hle : NDIRECT ≤ bn) (hlt : bn < MAXFILE) (hb : b < 2 ^ 32)
    (ht : (s.dip i).table ≠ 0) (hmiss : (s.dip i).block s.disk bn = 0) :
    Takes i b s (s.addEntry i (bn - NDIRECT) b) ∧
      ((s.addEntry i (bn - NDIRECT) b).dip i).table = (s.dip i).table ∧
      ((s.addEntry i (bn - NDIRECT) b).dip i).block (s.addEntry i (bn - NDIRECT) b).disk =
        Function.update ((s.dip i).block s.disk) bn b := by
  have hne := table_ne hfree hwf ht
  have hblock : ((s.addEntry i (bn - NDIRECT) b).dip i).block
      (s.addEntry i (bn - NDIRECT) b).disk = Function.update ((s.dip i).block s.disk) bn b := by
    funext n
    by_cases hn : n < NDIRECT
    · rw [Dinode.block_of_lt hn, Function.update_of_ne (by omega), Dinode.block_of_lt hn]
      rfl
    · have hn' : NDIRECT ≤ n := Nat.not_lt.mp hn
      have hdata := data_addEntry (k := bn - NDIRECT) hne
      have hdip : (s.addEntry i (bn - NDIRECT) b).dip i = s.dip i := rfl
      rw [hdip, Dinode.block_of_table hn' ht, hdata]
      by_cases hnb : n = bn
      · rw [hnb, Function.update_self]
        refine Block.word_setWord_same _ ?_ hb
        rw [MAXFILE_eq] at hlt
        rw [NDIRECT_eq] at hle ⊢
        omega
      · rw [Function.update_of_ne hnb, Dinode.block_of_table hn' ht,
          Block.word_setWord_ne _ _ (by omega)]
  refine ⟨?_, rfl, hblock⟩
  exact {
    sb := rfl
    user := rfl
    io := rfl
    icache := fun _ _ => rfl
    entry := rfl
    fields := rfl
    dinode := rfl
    bitmap := rfl
    zeroed := by
      have hset : (s.addEntry i (bn - NDIRECT) b).disk.data b = (s.allocated b).disk.data b :=
        Function.update_of_ne hne.symm _ _
      rw [hset]
      exact Function.update_self ..
    data := fun c hc hct => by
      by_cases hct' : c = (s.dip i).table
      · exact absurd (hct'.symm.trans (hct hct')) ht
      · have hset : (s.addEntry i (bn - NDIRECT) b).disk.data c =
            (s.allocated b).disk.data c := Function.update_of_ne hct' _ _
        rw [hset]
        exact Function.update_of_ne hc _ _
    shape := .inl ⟨rfl, bn, hmiss, hblock⟩ }

end Add

section Rule

variable {i : Fin NINODE} {s : Fs} {a b bn : ℕ} {bs : List ℕ} {U : Finset ℕ} {E : Stop → Prop}
  {Q : ℕ → Fs → Prop}

theorem newBlocks_missing {d : Dinode} {disk : FsDisk} (hmiss : d.block disk bn = 0)
    (ht : d.table ≠ 0 ∨ bn < NDIRECT) (hfree : disk.free = b :: bs) :
    d.newBlocks disk [bn] = [b] := by
  rw [Dinode.newBlocks, Dinode.need_missing hmiss, if_neg, hfree]
  · rfl
  · rintro ⟨hzero, hle⟩
    rcases ht with ht | hlt
    · exact ht hzero
    · exact absurd hlt (Nat.not_lt.mpr hle)

theorem newBlocks_table {d : Dinode} {disk : FsDisk} (hle : NDIRECT ≤ bn) (ht : d.table = 0)
    (hfree : disk.free = a :: b :: bs) : d.newBlocks disk [bn] = [a, b] := by
  rw [Dinode.newBlocks, Dinode.need_missing (Dinode.block_of_not_table hle ht),
    if_pos ⟨ht, hle⟩, hfree]
  rfl

theorem mem_touched_missing {d : Dinode} {disk : FsDisk} {c : ℕ}
    (hmiss : d.block disk bn = 0) : c ∈ d.touched disk [bn] ↔
      c ∈ d.newBlocks disk [bn] ∨
        (∃ a ∈ d.newBlocks disk [bn], c = BBLOCK a disk.sb.ninodes) ∨
        (c = d.table ∧ d.table ≠ 0 ∧ NDIRECT ≤ bn) := by
  rw [Dinode.mem_touched]
  constructor
  · rintro (⟨m, hm, hne, -⟩ | hc | hc | ⟨hc, ht, m, hm, hle, -⟩)
    · exact absurd (List.mem_singleton.mp hm ▸ hmiss) hne
    · exact .inl hc
    · exact .inr (.inl hc)
    · exact .inr (.inr ⟨hc, ht, List.mem_singleton.mp hm ▸ hle⟩)
  · rintro (hc | hc | ⟨hc, ht, hle⟩)
    · exact .inr (.inl hc)
    · exact .inr (.inr (.inl hc))
    · exact .inr (.inr (.inr ⟨hc, ht, bn, List.mem_singleton_self bn, hle, hmiss⟩))

/-- A block that is there. -/
theorem wp_bmap_mapped (hbn : bn < MAXFILE) (h : (s.dip i).block s.disk bn ≠ 0)
    (hQ : Q ((s.dip i).block s.disk bn) s) : wp (FsM.bmap i bn) Q E s := by
  unfold FsM.bmap
  rw [wp_bind, wp_ip, wp_ite]
  refine ⟨fun hlt => ?_, fun hge => ?_⟩
  · rw [Dinode.block_of_lt hlt] at h hQ
    rw [wp_ite]
    exact ⟨fun hzero => absurd hzero h, fun _ => wp_pure.mpr hQ⟩
  · have hle : NDIRECT ≤ bn := Nat.not_lt.mp hge
    have hin : bn - NDIRECT < NINDIRECT := by
      rw [MAXFILE] at hbn
      omega
    have ht : (s.dip i).table ≠ 0 := fun ht => h (Dinode.block_of_not_table hle ht)
    rw [Dinode.block_of_table hle ht] at h hQ
    rw [if_pos hin, wp_bind]
    unfold FsM.bmapTable
    rw [wp_bind, wp_ip, wp_ite]
    refine ⟨fun hzero => absurd hzero ht, fun _ => wp_pure.mpr ?_⟩
    rw [wp_bind, wp_get, wp_ite]
    exact ⟨fun hzero => absurd hzero h, fun _ => wp_pure.mpr hQ⟩

variable (hok : s.disk.Ok) (hwf : (s.dip i).WellFormed s.disk)

include hok hwf in
theorem asks_addr (hlt : bn < NDIRECT) (hmiss : (s.dip i).block s.disk bn = 0)
    (hfree : s.disk.free = b :: bs) : Asks i [bn] s (s.addAddr i bn b) ∧
      ((s.addAddr i bn b).dip i).byteAt (s.addAddr i bn b).disk =
        (s.dip i).byteAt s.disk ∧
      ((s.addAddr i bn b).dip i).block (s.addAddr i bn b).disk bn = b := by
  have hmem : b ∈ s.disk.free := hfree ▸ List.mem_cons_self
  have hbit := (FsDisk.mem_free.mp hmem).2
  have hdata := hok.isData hmem
  obtain ⟨htakes, htable, hblock⟩ := takes_addr hbit hwf hlt hmiss
  refine ⟨?_, htakes.byteAt hbit hwf, by rw [hblock, Function.update_self]⟩
  refine .of_block (htakes.frame hbit) (htakes.wf hbit hwf hdata) ?_ rfl hdata.other.1 hmiss
    hblock ?_ (fun _ => htable) fun ht ht' => absurd (htable.trans ht) ht'
  · rw [htakes.fields]
  · have hneed : (s.dip i).need s.disk [bn] = 1 := by
      rw [Dinode.need_missing hmiss, if_neg fun hc => absurd hlt (Nat.not_lt.mpr hc.2)]
    rw [FsDisk.free_taken hfree htakes.sb htakes.bitmap, hneed, hfree]
    rfl

include hok hwf in
theorem asks_entry (hle : NDIRECT ≤ bn) (hlt : bn < MAXFILE) (ht : (s.dip i).table ≠ 0)
    (hmiss : (s.dip i).block s.disk bn = 0) (hfree : s.disk.free = b :: bs) :
    Asks i [bn] s (s.addEntry i (bn - NDIRECT) b) ∧
      ((s.addEntry i (bn - NDIRECT) b).dip i).byteAt (s.addEntry i (bn - NDIRECT) b).disk =
        (s.dip i).byteAt s.disk ∧
      ((s.addEntry i (bn - NDIRECT) b).dip i).block (s.addEntry i (bn - NDIRECT) b).disk bn = b := by
  have hmem : b ∈ s.disk.free := hfree ▸ List.mem_cons_self
  have hbit := (FsDisk.mem_free.mp hmem).2
  have hdata := hok.isData hmem
  have hsmall : b < 2 ^ 32 := lt_of_lt_of_le hdata.other.2.2.2.2.1 hok.small
  obtain ⟨htakes, htable, hblock⟩ := takes_entry hbit hwf hle hlt hsmall ht hmiss
  refine ⟨?_, htakes.byteAt hbit hwf, by rw [hblock, Function.update_self]⟩
  refine .of_block (htakes.frame hbit) (htakes.wf hbit hwf hdata) ?_ rfl hdata.other.1 hmiss
    hblock ?_ (fun _ => htable) fun hzero => absurd hzero ht
  · rw [htakes.fields]
  · have hneed : (s.dip i).need s.disk [bn] = 1 := by
      rw [Dinode.need_missing hmiss, if_neg fun hc => ht hc.1]
    rw [FsDisk.free_taken hfree htakes.sb htakes.bitmap, hneed, hfree]
    rfl

include hok hwf in
/-- The indirect block and an entry of it. -/
theorem asks_both (hle : NDIRECT ≤ bn) (hlt : bn < MAXFILE) (ht : (s.dip i).table = 0)
    (hfree : s.disk.free = a :: b :: bs) {t u : Fs} (htdef : t = s.addAddr i NDIRECT a)
    (hudef : u = t.addEntry i (bn - NDIRECT) b) :
    Asks i [bn] s u ∧ (u.dip i).byteAt u.disk = (s.dip i).byteAt s.disk ∧
      (u.dip i).block u.disk bn = b ∧ (t.dip i).table = a ∧
      (t.dip i).block t.disk = (s.dip i).block s.disk := by
  subst htdef
  have hmiss : (s.dip i).block s.disk bn = 0 := Dinode.block_of_not_table hle ht
  have hmem : a ∈ s.disk.free := hfree ▸ List.mem_cons_self
  have hbit := (FsDisk.mem_free.mp hmem).2
  have hdata := hok.isData hmem
  obtain ⟨htakes, htable, hsame⟩ := takes_table (s := s) (i := i) ht hdata.other.1
  have hframe := htakes.frame hbit
  have hfree' := FsDisk.free_taken hfree htakes.sb htakes.bitmap
  have ht' : ((s.addAddr i NDIRECT a).dip i).table ≠ 0 := by
    rw [htable]
    exact hdata.other.1
  have hmiss' : ((s.addAddr i NDIRECT a).dip i).block (s.addAddr i NDIRECT a).disk bn = 0 := by
    rw [hsame]
    exact hmiss
  obtain ⟨hasks, hbytes, hblock⟩ :=
    asks_entry (hframe.ok hok) (htakes.wf hbit hwf hdata) hle hlt ht' hmiss' hfree'
  rw [← hudef] at hasks hbytes hblock
  refine ⟨?_, hbytes.trans (htakes.byteAt hbit hwf), hblock, htable, hsame⟩
  have hneed : (s.dip i).need s.disk [bn] = 2 := by
    rw [Dinode.need_missing hmiss, if_pos ⟨ht, hle⟩]
  have hneed' : ((s.addAddr i NDIRECT a).dip i).need (s.addAddr i NDIRECT a).disk [bn] = 1 := by
    rw [Dinode.need_missing hmiss', if_neg fun hc => ht' hc.1]
  have hb : b ≠ 0 := by
    rw [← hblock]
    exact hasks.inside bn (List.mem_singleton_self bn)
  refine .of_block (hframe.trans hasks.toFrame) hasks.wf ?_ ?_ hb hmiss ?_ ?_
    (fun hne => absurd ht hne) fun _ _ => ?_
  · rw [hasks.size, htakes.fields]
  · rw [hasks.dinodes, htakes.dinode]
  · funext m
    by_cases hm : m = bn
    · rw [hm, hblock, Function.update_self]
    · rw [Function.update_of_ne hm, hasks.outside m fun hmem => hm (List.mem_singleton.mp hmem),
        hsame]
  · rw [hasks.free, hneed, hneed', hfree', hfree]
    rfl
  · rw [newBlocks_table hle ht hfree, hasks.tableKept ht', htable]
    exact ⟨hle, List.mem_cons_self⟩

/-- What has been logged when a block has been asked for, with the block itself. -/
def Noted (i : Fin NINODE) (bn : ℕ) (s t : Fs) : Prop :=
  ∃ T, s.log.Logs T t.log ∧
    insert ((t.dip i).block t.disk bn) T = (s.dip i).touched s.disk [bn]

theorem noted_addr (hlt : bn < NDIRECT) (hmiss : (s.dip i).block s.disk bn = 0)
    (hfree : s.disk.free = b :: bs)
    (hblock : ((s.addAddr i bn b).dip i).block (s.addAddr i bn b).disk bn = b) :
    Noted i bn s (s.addAddr i bn b) := by
  refine ⟨_, allocated_logs (b := b), ?_⟩
  ext c
  rw [hblock, mem_touched_missing hmiss, newBlocks_missing hmiss (.inr hlt) hfree,
    Finset.mem_insert, Finset.mem_insert, Finset.mem_singleton]
  constructor
  · rintro (rfl | rfl | rfl)
    · exact .inl (List.mem_singleton_self _)
    · exact .inr (.inl ⟨b, List.mem_singleton_self b, rfl⟩)
    · exact .inl (List.mem_singleton_self _)
  · rintro (hc | ⟨a, ha, rfl⟩ | ⟨-, -, hle⟩)
    · exact .inl (List.mem_singleton.mp hc)
    · rw [List.mem_singleton.mp ha]
      exact .inr (.inl rfl)
    · exact absurd hlt (Nat.not_lt.mpr hle)

/-- What is logged for an entry of the indirect block. -/
theorem addEntry_logs {k : ℕ} : s.log.Logs
    ({BBLOCK b s.disk.sb.ninodes, b} ∪ {(s.dip i).table}) (s.addEntry i k b).log :=
  allocated_logs.trans .one

theorem noted_entry (hle : NDIRECT ≤ bn) (ht : (s.dip i).table ≠ 0)
    (hmiss : (s.dip i).block s.disk bn = 0) (hfree : s.disk.free = b :: bs)
    (hblock : ((s.addEntry i (bn - NDIRECT) b).dip i).block
      (s.addEntry i (bn - NDIRECT) b).disk bn = b) :
    Noted i bn s (s.addEntry i (bn - NDIRECT) b) := by
  refine ⟨_, addEntry_logs (i := i) (b := b), ?_⟩
  ext c
  rw [hblock, mem_touched_missing hmiss, newBlocks_missing hmiss (.inl ht) hfree,
    Finset.mem_insert, Finset.mem_union, Finset.mem_insert, Finset.mem_singleton,
    Finset.mem_singleton]
  constructor
  · rintro (rfl | (rfl | rfl) | rfl)
    · exact .inl (List.mem_singleton_self _)
    · exact .inr (.inl ⟨b, List.mem_singleton_self b, rfl⟩)
    · exact .inl (List.mem_singleton_self _)
    · exact .inr (.inr ⟨rfl, ht, hle⟩)
  · rintro (hc | ⟨a, ha, rfl⟩ | ⟨hc, -, -⟩)
    · exact .inl (List.mem_singleton.mp hc)
    · rw [List.mem_singleton.mp ha]
      exact .inr (.inl (.inl rfl))
    · exact .inr (.inr hc)

theorem noted_both (hle : NDIRECT ≤ bn) (ht : (s.dip i).table = 0)
    (hfree : s.disk.free = a :: b :: bs) {t u : Fs} (htdef : t = s.addAddr i NDIRECT a)
    (hudef : u = t.addEntry i (bn - NDIRECT) b) (htable : (t.dip i).table = a)
    (hblock : (u.dip i).block u.disk bn = b) : Noted i bn s u := by
  have hmiss : (s.dip i).block s.disk bn = 0 := Dinode.block_of_not_table hle ht
  have hlogs : s.log.Logs ({BBLOCK a s.disk.sb.ninodes, a} ∪
      ({BBLOCK b s.disk.sb.ninodes, b} ∪ {a})) u.log := by
    have hfirst : s.log.Logs {BBLOCK a s.disk.sb.ninodes, a} t.log := by
      rw [htdef]
      exact allocated_logs (b := a)
    have hsecond := addEntry_logs (s := t) (i := i) (b := b) (k := bn - NDIRECT)
    have hsb : t.disk.sb = s.disk.sb := by
      rw [htdef]
      rfl
    rw [htable, hsb, ← hudef] at hsecond
    exact hfirst.trans hsecond
  refine ⟨_, hlogs, ?_⟩
  ext c
  rw [hblock, mem_touched_missing hmiss, newBlocks_table hle ht hfree]
  simp only [Finset.mem_insert, Finset.mem_union, Finset.mem_singleton]
  constructor
  · rintro (rfl | (rfl | rfl) | (rfl | rfl) | rfl)
    · exact .inl (List.mem_cons_of_mem _ List.mem_cons_self)
    · exact .inr (.inl ⟨a, List.mem_cons_self, rfl⟩)
    · exact .inl List.mem_cons_self
    · exact .inr (.inl ⟨b, List.mem_cons_of_mem _ List.mem_cons_self, rfl⟩)
    · exact .inl (List.mem_cons_of_mem _ List.mem_cons_self)
    · exact .inl List.mem_cons_self
  · rintro (hc | ⟨d, hd, rfl⟩ | ⟨-, hne, -⟩)
    · rcases List.mem_cons.mp hc with rfl | hc
      · exact .inr (.inl (.inr rfl))
      · exact .inl (List.mem_singleton.mp hc)
    · rcases List.mem_cons.mp hd with rfl | hd
      · exact .inr (.inl (.inl rfl))
      · rw [List.mem_singleton.mp hd]
        exact .inr (.inr (.inl (.inl rfl)))
    · exact absurd ht hne

/-- The entry of the indirect block, when there is none. -/
theorem wp_addEntry {table k : ℕ} (hbudget : Budget U E s) (hfree : s.disk.free = b :: bs)
    (hbit : BBLOCK b s.disk.sb.ninodes ∈ U) (hb : b ∈ U) (htable : (s.dip i).table = table)
    (hmiss : (s.disk.data table).word k = 0) (hQ : Q b (s.addEntry i k b)) :
    wp (do
      let s ← get
      if (s.disk.data table).word k = 0 then do
        let addr ← FsM.balloc
        modify fun s => s.setData table ((s.disk.data table).setWord k addr)
        FsM.logWrite table
        return addr
      else return (s.disk.data table).word k) Q E s := by
  subst htable
  rw [wp_bind, wp_get, if_pos hmiss, wp_bind]
  refine wp_balloc hbudget hfree hbit ?_
  have hin : ({BBLOCK b s.disk.sb.ninodes, b} : Finset ℕ) ⊆ U :=
    Finset.insert_subset hbit (Finset.singleton_subset_iff.mpr hb)
  have hlogged := hbudget.logs (allocated_logs (b := b)) hin rfl
  rw [wp_bind, wp_modify, wp_bind]
  exact wp_logWrite ⟨hlogged.outstanding, hlogged.room⟩ (wp_pure.mpr hQ)

include hok hwf in
theorem wp_bmap_direct (hlt : bn < NDIRECT) (hmiss : (s.dip i).block s.disk bn = 0)
    (hfree : s.disk.free = b :: bs) (hbudget : Budget U E s)
    (hU : (s.dip i).touched s.disk [bn] ⊆ U)
    (hQ : ∀ t, Asks i [bn] s t → (t.dip i).byteAt t.disk = (s.dip i).byteAt s.disk →
      Noted i bn s t → Q ((t.dip i).block t.disk bn) t) :
    wp (FsM.bmap i bn) Q E s := by
  obtain ⟨hasks, hbytes, hblock⟩ := asks_addr hok hwf hlt hmiss hfree
  have hpost := hQ _ hasks hbytes (noted_addr hlt hmiss hfree hblock)
  have hbit : BBLOCK b s.disk.sb.ninodes ∈ U := by
    refine hU ((mem_touched_missing hmiss).mpr (.inr (.inl ⟨b, ?_, rfl⟩)))
    rw [newBlocks_missing hmiss (.inr hlt) hfree]
    exact List.mem_singleton_self b
  rw [hblock] at hpost
  rw [Dinode.block_of_lt hlt] at hmiss
  unfold FsM.bmap
  rw [wp_bind, wp_ip, if_pos hlt]
  change wp (if (s.dip i).addr bn = 0 then _ else _) Q E s
  rw [if_pos hmiss, wp_bind]
  refine wp_balloc hbudget hfree hbit ?_
  rw [wp_bind, wp_ip, wp_bind, wp_setIp, wp_pure]
  exact hpost

include hok hwf in
theorem wp_bmap_indirect (hle : NDIRECT ≤ bn) (hbn : bn < MAXFILE)
    (hmiss : (s.dip i).block s.disk bn = 0)
    (hroom : (s.dip i).need s.disk [bn] ≤ s.disk.free.length) (hbudget : Budget U E s)
    (hU : (s.dip i).touched s.disk [bn] ⊆ U)
    (hQ : ∀ t, Asks i [bn] s t → (t.dip i).byteAt t.disk = (s.dip i).byteAt s.disk →
      Noted i bn s t → Q ((t.dip i).block t.disk bn) t) :
    wp (FsM.bmap i bn) Q E s := by
  have hin : bn - NDIRECT < NINDIRECT := by
    rw [MAXFILE] at hbn
    omega
  have hmem : ∀ c ∈ (s.dip i).newBlocks s.disk [bn],
      BBLOCK c s.disk.sb.ninodes ∈ U ∧ c ∈ U := fun c hc =>
    ⟨hU ((mem_touched_missing hmiss).mpr (.inr (.inl ⟨c, hc, rfl⟩))),
      hU ((mem_touched_missing hmiss).mpr (.inl hc))⟩
  rw [Dinode.need_missing hmiss] at hroom
  unfold FsM.bmap
  rw [wp_bind, wp_ip, if_neg (Nat.not_lt.mpr hle), if_pos hin, wp_bind]
  unfold FsM.bmapTable
  rw [wp_bind, wp_ip]
  change wp (if (s.dip i).table = 0 then _ else _) _ E s
  by_cases ht : (s.dip i).table = 0
  · rw [if_pos ⟨ht, hle⟩] at hroom
    obtain ⟨a, as, hfree⟩ := List.exists_cons_of_length_pos (Nat.lt_of_lt_of_le Nat.zero_lt_two hroom)
    rw [hfree, List.length_cons] at hroom
    obtain ⟨b, bs, rfl⟩ := List.exists_cons_of_length_pos (Nat.le_of_succ_le_succ hroom)
    obtain ⟨hasks, hbytes, hblock, htable, hsame⟩ := asks_both hok hwf hle hbn ht hfree rfl rfl
    have hpost := hQ _ hasks hbytes (noted_both hle ht hfree rfl rfl htable hblock)
    rw [newBlocks_table hle ht hfree] at hmem
    obtain ⟨hbita, ha⟩ := hmem a List.mem_cons_self
    obtain ⟨hbitb, hb⟩ := hmem b (List.mem_cons_of_mem _ List.mem_cons_self)
    have hbit := (FsDisk.mem_free.mp (hfree ▸ List.mem_cons_self)).2
    have hdata := hok.isData (hfree ▸ List.mem_cons_self)
    have hfree' : (s.addAddr i NDIRECT a).disk.free = b :: bs :=
      FsDisk.free_taken hfree rfl rfl
    have hbudget' : Budget U E (s.addAddr i NDIRECT a) :=
      hbudget.logs allocated_logs
        (Finset.insert_subset hbita (Finset.singleton_subset_iff.mpr ha)) rfl
    have hmiss' : ((s.addAddr i NDIRECT a).disk.data a).word (bn - NDIRECT) = 0 := by
      have hzero : (s.addAddr i NDIRECT a).disk.data a = Block.zero := Function.update_self ..
      rw [hzero, Block.word_zero]
    rw [hblock] at hpost
    rw [if_pos ht, wp_bind]
    refine wp_balloc hbudget hfree hbita ?_
    rw [wp_bind, wp_ip, wp_bind, wp_setIp, wp_pure]
    exact wp_addEntry hbudget' hfree' hbitb hb htable hmiss' hpost
  · rw [if_neg fun hc => ht hc.1] at hroom
    obtain ⟨b, bs, hfree⟩ := List.exists_cons_of_length_pos hroom
    obtain ⟨hasks, hbytes, hblock⟩ := asks_entry hok hwf hle hbn ht hmiss hfree
    have hpost := hQ _ hasks hbytes (noted_entry hle ht hmiss hfree hblock)
    rw [newBlocks_missing hmiss (.inl ht) hfree] at hmem
    obtain ⟨hbit, hb⟩ := hmem b (List.mem_singleton_self b)
    rw [hblock] at hpost
    rw [Dinode.block_of_table hle ht] at hmiss
    rw [if_neg ht, wp_pure]
    exact wp_addEntry hbudget hfree hbit hb rfl hmiss hpost

include hok hwf in
/-- The block with a number that the file may have. -/
theorem wp_bmap (hbn : bn < MAXFILE)
    (hroom : (s.dip i).need s.disk [bn] ≤ s.disk.free.length) (hbudget : Budget U E s)
    (hU : (s.dip i).touched s.disk [bn] ⊆ U)
    (hQ : ∀ t, Asks i [bn] s t → (t.dip i).byteAt t.disk = (s.dip i).byteAt s.disk →
      Noted i bn s t → Q ((t.dip i).block t.disk bn) t) :
    wp (FsM.bmap i bn) Q E s := by
  by_cases hmiss : (s.dip i).block s.disk bn = 0
  · by_cases hlt : bn < NDIRECT
    · have hpos := hroom
      rw [Dinode.need_missing hmiss, if_neg fun hc => absurd hlt (Nat.not_lt.mpr hc.2)] at hpos
      obtain ⟨b, bs, hfree⟩ := List.exists_cons_of_length_pos hpos
      exact wp_bmap_direct hok hwf hlt hmiss hfree hbudget hU hQ
    · exact wp_bmap_indirect hok hwf (Nat.not_lt.mp hlt) hbn hmiss hroom hbudget hU hQ
  · have hall : ∀ m ∈ [bn], (s.dip i).block s.disk m ≠ 0 :=
      fun m hm => List.mem_singleton.mp hm ▸ hmiss
    refine wp_bmap_mapped hbn hmiss (hQ s (.here hwf hall) rfl ⟨∅, .refl, ?_⟩)
    ext c
    rw [Finset.mem_insert, Dinode.mem_touched, Dinode.newBlocks, Dinode.need_eq_zero hall,
      List.take_zero]
    constructor
    · rintro (rfl | hc)
      · exact .inl ⟨bn, List.mem_singleton_self bn, hmiss, rfl⟩
      · exact absurd hc (Finset.notMem_empty c)
    · rintro (⟨m, hm, -, rfl⟩ | hc | ⟨a, ha, -⟩ | ⟨-, -, m, hm, -, hzero⟩)
      · exact .inl (by rw [List.mem_singleton.mp hm])
      · exact absurd hc List.not_mem_nil
      · exact absurd ha List.not_mem_nil
      · exact absurd hzero (hall m hm)

end Rule

end Fs

end Xv6
