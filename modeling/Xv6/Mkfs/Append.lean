import Xv6.Mkfs.Main

/-!
# Appending to a file of the image

`iappend` gives blocks to a file in the order of their numbers. A new block is zeroed, and no other
file has it.
-/

namespace Xv6

namespace Mkfs

open Foundation

/-- The file system as it is built: the blocks that have been taken are in use. -/
def State.work (s : State) : FsDisk where
  sb := mkfsSuperblock
  dinode n := (s.img (IBLOCK n)).dinode (n % IPB)
  bitmap b := decide (b < s.freeblock)
  data := s.img

def State.wrote (s : State) (sec : ℕ) (buf : Block) : State :=
  { s with img := Function.update s.img sec buf, sectors := max s.sectors (sec + 1) }

def blocks (n : ℕ) : ℕ := (n + (BSIZE - 1)) / BSIZE

/-- The sectors that are free hold zeroes. -/
structure Fresh (s : State) : Prop where
  sectors : s.sectors = size
  low : mkfsSuperblock.dataStart ≤ s.freeblock
  used : s.usedblocks = s.freeblock
  zero : ∀ b, s.freeblock ≤ b → s.img b = Block.zero

/-- The file has the first `nb` blocks. -/
structure Lists (d : Dinode) (s : State) (nb : ℕ) : Prop where
  has : ∀ bn, d.block s.work bn ≠ 0 ↔ bn < nb
  table : d.table ≠ 0 ↔ NDIRECT < nb
  distinct : ∀ m n, d.block s.work m ≠ 0 → d.block s.work m = d.block s.work n → m = n
  notTable : ∀ bn, d.block s.work bn ≠ 0 → d.block s.work bn ≠ d.table
  inside : ∀ b, d.Has s.work b → mkfsSuperblock.dataStart ≤ b ∧ b < s.freeblock

/-- How many sectors a file with that many blocks takes. -/
def cost (nb : ℕ) : ℕ := nb + if NDIRECT < nb then 1 else 0

/-- The file has grown by new blocks; the rest of the image is the same. -/
structure Grows (d : Dinode) (s : State) (d' : Dinode) (s' : State) : Prop where
  le : s.freeblock ≤ s'.freeblock
  freeinode : s'.freeinode = s.freeinode
  img : ∀ b, b < s.freeblock → ¬ d.Has s.work b → s'.img b = s.img b
  has : ∀ b, d'.Has s'.work b ↔ d.Has s.work b ∨ s.freeblock ≤ b ∧ b < s'.freeblock
  fields : d' = { d with addrs := d'.addrs }

/-- The bytes of the file, and zeroes behind them. -/
structure Shows (d : Dinode) (s : State) (cs : List UInt8) : Prop
    extends Lists d s (blocks cs.length) where
  bytes : ∀ k, d.byteAt s.work k = cs.getD k 0

/-- The block `nb` has been added. -/
structure Adds (d : Dinode) (s : State) (d' : Dinode) (s' : State) (nb x : ℕ) : Prop where
  block : d'.block s'.work = Function.update (d.block s.work) nb x
  table : nb ≠ NDIRECT ∧ d'.table = d.table ∧ x = s.freeblock ∨
    nb = NDIRECT ∧ d'.table = s.freeblock ∧ x = s.freeblock + 1
  img : ∀ b, b ≠ d'.table ∨ nb < NDIRECT → s'.img b = s.img b
  freeblock : s'.freeblock = x + 1
  usedblocks : s'.usedblocks = x + 1
  sectors : s'.sectors = s.sectors
  freeinode : s'.freeinode = s.freeinode
  fields : d' = { d with addrs := d'.addrs }

section Append

variable {s s' s'' : State} {d d' d'' : Dinode} {nb bn x off k n : ℕ} {cs src : List UInt8}
  {E : Fault → Prop}

theorem wp_wsect {Q : Unit → State → Prop} {sec : ℕ} {buf : Block} :
    wp (wsect sec buf) Q E s ↔ Q ⟨⟩ (s.wrote sec buf) := wp_modify

theorem wp_rsect {Q : Block → State → Prop} {sec : ℕ} (hQ : sec < s.sectors → Q (s.img sec) s) :
    wp (rsect sec) Q (fun _ => True) s := by
  unfold rsect
  rw [wp_bind, wp_get, wp_ite]
  exact ⟨fun h => wp_pure.mpr (hQ h), fun _ => wp_throw.mpr trivial⟩

theorem wp_newblock {Q : ℕ → State → Prop} : wp newblock Q E s ↔
    Q s.freeblock { s with freeblock := s.freeblock + 1, usedblocks := s.usedblocks + 1 } := by
  unfold newblock
  rw [wp_bind, wp_get, wp_bind, wp_set, wp_pure]

theorem wp_assert {Q : Unit → State → Prop} {c : Prop} [Decidable c] (hQ : c → Q ⟨⟩ s) :
    wp (assert c) Q (fun _ => True) s := by
  unfold assert
  rw [wp_ite]
  exact ⟨fun h => wp_pure.mpr (hQ h), fun _ => wp_throw.mpr trivial⟩

/-! ### A block more -/

namespace Lists

theorem zero (h : Lists d s nb) : d.block s.work nb = 0 := by
  by_contra hne
  exact absurd ((h.has nb).mp hne) (Nat.lt_irrefl nb)

theorem le (h : Lists d s nb) : nb ≤ MAXFILE := by
  by_contra hlt
  have hne := (h.has MAXFILE).mpr (Nat.not_le.mp hlt)
  have htable : d.table ≠ 0 := h.table.mpr (lt_trans (by decide) (Nat.not_le.mp hlt))
  rw [Dinode.block_of_table (by decide) htable] at hne
  refine hne ?_
  have hbyte : ∀ j, 512 ≤ j → (s.work.data d.table).byte j = 0 := fun j hj =>
    dif_neg (Nat.not_lt.mpr hj)
  have hword : MAXFILE - NDIRECT = 128 := rfl
  rw [hword, Block.word, hbyte _ (by norm_num), hbyte _ (by norm_num), hbyte _ (by norm_num),
    hbyte _ (by norm_num)]
  rfl

/-- A block that is free is not the indirect block. -/
theorem not_table (h : Lists d s nb) {b : ℕ} (hb : s.freeblock ≤ b) :
    b ≠ d.table ∨ d.table = 0 := by
  by_cases hzero : d.table = 0
  · exact .inr hzero
  · have hlt := (h.inside _ (.of_table hzero)).2
    exact .inl (by omega)

end Lists

namespace Adds

theorem le (h : Adds d s d' s' nb x) : s.freeblock ≤ x := by
  rcases h.table with ⟨-, -, hx⟩ | ⟨-, -, hx⟩
  · exact hx.ge
  · omega

theorem table_cases (h : Adds d s d' s' nb x) :
    nb ≠ NDIRECT ∧ d'.table = d.table ∨ d'.table = s.freeblock ∧ s.freeblock < x := by
  rcases h.table with ⟨hnb, htable, -⟩ | ⟨-, htable, hx⟩
  · exact .inl ⟨hnb, htable⟩
  · exact .inr ⟨htable, by omega⟩

theorem block_self (h : Adds d s d' s' nb x) : d'.block s'.work nb = x := by
  rw [h.block, Function.update_self]

theorem block_ne (h : Adds d s d' s' nb x) (hbn : bn ≠ nb) :
    d'.block s'.work bn = d.block s.work bn := by
  rw [h.block, Function.update_of_ne hbn]

/-- The new blocks are those of the file. -/
theorem has (h : Adds d s d' s' nb x) (hl : Lists d s nb) (hs : Fresh s) (b : ℕ) :
    d'.Has s'.work b ↔ d.Has s.work b ∨ s.freeblock ≤ b ∧ b < s'.freeblock := by
  have hlow : 0 < s.freeblock := lt_of_lt_of_le (by decide) hs.low
  have hle := h.le
  rw [h.freeblock]
  constructor
  · rintro ⟨hne, rfl | ⟨bn, rfl⟩⟩
    · rcases h.table_cases with ⟨-, htable⟩ | ⟨htable, hlt⟩
      · rw [htable] at hne ⊢
        exact .inl (.of_table hne)
      · rw [htable]
        exact .inr ⟨Nat.le_refl _, by omega⟩
    · by_cases hbn : bn = nb
      · rw [hbn, h.block_self]
        exact .inr ⟨hle, Nat.lt_succ_self x⟩
      · rw [h.block_ne hbn] at hne ⊢
        exact .inl (.of_block hne)
  · rintro (⟨hne, hb | ⟨bn, hb⟩⟩ | ⟨hge, hlt⟩)
    · rcases h.table_cases with ⟨-, htable⟩ | ⟨htable, hlt⟩
      · exact ⟨hne, .inl (hb.trans htable.symm)⟩
      · rcases h.table with ⟨hnb, htable', -⟩ | ⟨hnb, -⟩
        · exact ⟨hne, .inl (hb.trans htable'.symm)⟩
        · have hno := (not_congr hl.table).mpr (by omega)
          exact absurd (hb.trans (not_not.mp hno)) hne
    · refine ⟨hne, .inr ⟨bn, ?_⟩⟩
      rw [h.block_ne, hb]
      rintro rfl
      exact hne (hb.trans hl.zero)
    · refine ⟨by omega, ?_⟩
      rcases h.table with ⟨-, -, hx⟩ | ⟨-, htable, hx⟩
      · exact .inr ⟨nb, by rw [h.block_self]; omega⟩
      · by_cases hb : b = s.freeblock
        · exact .inl (hb.trans htable.symm)
        · exact .inr ⟨nb, by rw [h.block_self]; omega⟩

theorem lists (h : Adds d s d' s' nb x) (hl : Lists d s nb) (hs : Fresh s) :
    Lists d' s' (nb + 1) := by
  have hlow : 0 < s.freeblock := lt_of_lt_of_le (by decide) hs.low
  have hle := h.le
  have hold : ∀ bn, d.block s.work bn ≠ 0 → d.block s.work bn < s.freeblock := fun bn hne =>
    (hl.inside _ (.of_block hne)).2
  exact {
    has := fun bn => by
      by_cases hbn : bn = nb
      · rw [hbn, h.block_self]
        exact iff_of_true (by omega) (Nat.lt_succ_self nb)
      · rw [h.block_ne hbn, hl.has]
        omega
    table := by
      rcases h.table with ⟨hnb, htable, -⟩ | ⟨hnb, htable, -⟩
      · rw [htable, hl.table]
        omega
      · rw [htable]
        exact iff_of_true (by omega) (by omega)
    distinct := fun m n hm heq => by
      by_cases hmn : m = nb
      · by_cases hnn : n = nb
        · exact hmn.trans hnn.symm
        · rw [hmn, h.block_self, h.block_ne hnn] at heq
          have hlt := hold n (by omega)
          omega
      · rw [h.block_ne hmn] at hm heq
        by_cases hnn : n = nb
        · rw [hnn, h.block_self] at heq
          have hlt := hold m hm
          omega
        · rw [h.block_ne hnn] at heq
          exact hl.distinct m n hm heq
    notTable := fun bn hne => by
      by_cases hbn : bn = nb
      · rw [hbn, h.block_self]
        rcases h.table_cases with ⟨-, htable⟩ | ⟨htable, hlt⟩
        · rw [htable]
          by_cases hzero : d.table = 0
          · omega
          · have hlt := (hl.inside _ (.of_table hzero)).2
            omega
        · omega
      · rw [h.block_ne hbn] at hne ⊢
        rcases h.table_cases with ⟨-, htable⟩ | ⟨htable, -⟩
        · rw [htable]
          exact hl.notTable bn hne
        · have hlt := hold bn hne
          omega
    inside := fun b hb => by
      rw [h.freeblock]
      have hstart := hs.low
      rcases (h.has hl hs b).mp hb with hb | ⟨hge, hlt⟩
      · have hin := hl.inside b hb
        omega
      · rw [h.freeblock] at hlt
        omega }

theorem img_of_ne (h : Adds d s d' s' nb x) (hl : Lists d s nb) {b : ℕ} (hb : b ≠ s.freeblock ∨
    nb ≠ NDIRECT) (hnot : b ≠ d.table ∨ d.table = 0) : s'.img b = s.img b := by
  refine h.img b ?_
  rcases h.table with ⟨hnb, htable, -⟩ | ⟨hnb, htable, -⟩
  · rw [htable]
    rcases hnot with hnot | hzero
    · exact .inl hnot
    · have hno := (not_congr hl.table).mp (not_not.mpr hzero)
      exact .inr (by omega)
  · rw [htable]
    exact .inl (hb.resolve_right fun hc => hc hnb)

theorem fresh (h : Adds d s d' s' nb x) (hl : Lists d s nb) (hs : Fresh s) : Fresh s' where
  sectors := h.sectors.trans hs.sectors
  low := by
    rw [h.freeblock]
    exact (hs.low.trans h.le).trans (Nat.le_succ x)
  used := by rw [h.usedblocks, h.freeblock]
  zero := fun b hb => by
    have hle := h.le
    rw [h.freeblock] at hb
    rw [h.img_of_ne hl (.inl (by omega)) (hl.not_table (by omega)), hs.zero b (by omega)]

theorem grows (h : Adds d s d' s' nb x) (hl : Lists d s nb) (hs : Fresh s) : Grows d s d' s' where
  le := by
    rw [h.freeblock]
    exact h.le.trans (Nat.le_succ x)
  freeinode := h.freeinode
  img := fun b hlt hno => by
    refine h.img_of_ne hl (.inl (by omega)) ?_
    by_cases hzero : d.table = 0
    · exact .inr hzero
    · refine .inl ?_
      rintro rfl
      exact hno (.of_table hzero)
  has := h.has hl hs
  fields := h.fields

/-- A new block shows zeroes, as none did. -/
theorem byteAt (h : Adds d s d' s' nb x) (hl : Lists d s nb) (hs : Fresh s) :
    d'.byteAt s'.work = d.byteAt s.work := by
  have hpos : 0 < s.freeblock := lt_of_lt_of_le (by decide) hs.low
  have hle := h.le
  funext k
  unfold Dinode.byteAt
  by_cases hk : k / BSIZE = nb
  · rw [hk, hl.zero, if_pos rfl, h.block_self, if_neg (by omega)]
    have hnew : x ≠ s.freeblock ∨ nb ≠ NDIRECT := by
      rcases h.table with ⟨hnb, -⟩ | ⟨-, -, hx⟩
      · exact .inr hnb
      · exact .inl (by omega)
    have hzero : s'.img x = Block.zero := by
      rw [h.img_of_ne hl hnew (hl.not_table hle), hs.zero x hle]
    change UInt8.ofNat ((s'.img x).byte _) = 0
    rw [hzero, Block.byte_zero]
    rfl
  · rw [h.block_ne hk]
    by_cases hzero : d.block s.work (k / BSIZE) = 0
    · rw [if_pos hzero, if_pos hzero]
    · rw [if_neg hzero, if_neg hzero]
      have hlt := (hl.inside _ (.of_block hzero)).2
      have hsame : s'.img (d.block s.work (k / BSIZE)) = s.img (d.block s.work (k / BSIZE)) :=
        h.img_of_ne hl (.inl (by omega)) (.inl (hl.notTable _ hzero))
      change UInt8.ofNat ((s'.img _).byte _) = UInt8.ofNat ((s.img _).byte _)
      rw [hsame]

theorem cost (h : Adds d s d' s' nb x) :
    s'.freeblock + Mkfs.cost nb = s.freeblock + Mkfs.cost (nb + 1) := by
  unfold Mkfs.cost
  rw [h.freeblock]
  rcases h.table with ⟨hnb, -, hx⟩ | ⟨hnb, -, hx⟩
  · by_cases hlt : NDIRECT < nb
    · rw [if_pos hlt, if_pos (by omega)]
      omega
    · rw [if_neg hlt, if_neg (by omega)]
      omega
  · rw [if_neg (by omega), if_pos (by omega)]
    omega

end Adds

/-! ### Finding the sector -/

theorem Adds.direct (hnb : nb < NDIRECT) : Adds d s (d.setAddr nb s.freeblock)
    { s with freeblock := s.freeblock + 1, usedblocks := s.freeblock + 1 } nb s.freeblock where
  block := by
    funext bn
    by_cases hbn : bn < NDIRECT
    · rw [Dinode.block_of_lt hbn, Fs.addr_setAddr (Nat.lt_succ_of_lt hnb), Function.update_apply,
        Dinode.block_of_lt hbn]
    · have hne : bn ≠ nb := by omega
      have htable : (d.setAddr nb s.freeblock).table = d.table := by
        rw [Dinode.table, Fs.addr_setAddr (Nat.lt_succ_of_lt hnb), if_neg (Nat.ne_of_gt hnb)]
        rfl
      rw [Function.update_of_ne hne, Dinode.block, Dinode.block, if_neg hbn, if_neg hbn, htable]
      rfl
  table := by
    rw [Dinode.table, Fs.addr_setAddr (Nat.lt_succ_of_lt hnb), if_neg (Nat.ne_of_gt hnb)]
    exact .inl ⟨Nat.ne_of_lt hnb, rfl, rfl⟩
  img := fun _ _ => rfl
  freeblock := rfl
  usedblocks := rfl
  sectors := rfl
  freeinode := rfl
  fields := rfl

/-- The indirect block is there, or has been added; it shows the blocks that were there. -/
structure Indirect (d : Dinode) (s : State) (d' : Dinode) (s' : State) (nb : ℕ) : Prop where
  same : NDIRECT < nb → d' = d ∧ s' = s
  ne : d'.table ≠ 0
  block : d'.block s'.work = d.block s.work
  table : nb ≠ NDIRECT ∧ d'.table = d.table ∧ s'.freeblock = s.freeblock ∨
    nb = NDIRECT ∧ d'.table = s.freeblock ∧ s'.freeblock = s.freeblock + 1
  img : s'.img = s.img
  used : s'.usedblocks = s'.freeblock
  sectors : s'.sectors = s.sectors
  freeinode : s'.freeinode = s.freeinode
  fields : d' = { d with addrs := d'.addrs }

theorem wp_indirectBlock {Q : Dinode → State → Prop} (hs : Fresh s) (hl : Lists d s nb)
    (hnb : NDIRECT ≤ nb) (hQ : ∀ d' s', Indirect d s d' s' nb → Q d' s') :
    wp (indirectBlock d) Q E s := by
  have hpos : 0 < s.freeblock := lt_of_lt_of_le (by decide) hs.low
  have htable := hl.table
  unfold indirectBlock
  rw [wp_ite]
  refine ⟨fun hzero => ?_, fun hne => wp_pure.mpr (hQ _ _ ?_)⟩
  · have hnb' : nb = NDIRECT := by
      change d.table = 0 at hzero
      rw [hzero] at htable
      omega
    have htable' : (d.setAddr NDIRECT s.freeblock).table = s.freeblock := by
      rw [Dinode.table, Fs.addr_setAddr (Nat.lt_succ_self _), if_pos rfl]
    rw [wp_bind, wp_newblock, wp_pure]
    refine hQ _ _ {
      same := fun hlt => absurd hnb' (Nat.ne_of_gt hlt)
      ne := by
        rw [htable']
        exact Nat.ne_of_gt hpos
      block := ?_
      table := .inr ⟨hnb', htable', rfl⟩
      img := rfl
      used := congrArg (· + 1) hs.used
      sectors := rfl
      freeinode := rfl
      fields := rfl }
    funext bn
    by_cases hbn : bn < NDIRECT
    · rw [Dinode.block_of_lt hbn, Dinode.block_of_lt hbn, Fs.addr_setAddr (Nat.lt_succ_self _),
        if_neg (Nat.ne_of_lt hbn)]
    · rw [Dinode.block_of_table (Nat.not_lt.mp hbn) (by rw [htable']; exact Nat.ne_of_gt hpos),
        htable', Dinode.block_of_not_table (Nat.not_lt.mp hbn) hzero]
      change (s.img s.freeblock).word _ = 0
      rw [hs.zero _ (Nat.le_refl _), Block.word_zero]
  · have hlt := htable.mp hne
    exact ⟨fun _ => ⟨rfl, rfl⟩, hne, rfl, .inl ⟨Nat.ne_of_gt hlt, rfl, rfl⟩, rfl, hs.used, rfl,
      rfl, rfl⟩

theorem Adds.entry {d₁ : Dinode} {s₁ : State} (h : Indirect d s d₁ s₁ nb) (hnb : NDIRECT ≤ nb)
    (hmax : nb < MAXFILE) (hsmall : s₁.freeblock < 2 ^ 32) (hin : d₁.table < s₁.sectors) :
    Adds d s d₁
      (State.wrote { s₁ with freeblock := s₁.freeblock + 1, usedblocks := s₁.usedblocks + 1 }
        d₁.table ((s₁.img d₁.table).setWord (nb - NDIRECT) s₁.freeblock)) nb s₁.freeblock where
  block := by
    have hentry : nb - NDIRECT < 128 := by
      rw [NDIRECT_eq, MAXFILE_eq] at *
      omega
    rw [← h.block]
    funext bn
    by_cases hbn : bn < NDIRECT
    · rw [Function.update_of_ne (by omega), Dinode.block_of_lt hbn, Dinode.block_of_lt hbn]
    · rw [Function.update_apply, Dinode.block_of_table (Nat.not_lt.mp hbn) h.ne,
        Dinode.block_of_table (Nat.not_lt.mp hbn) h.ne]
      change (Function.update s₁.img d₁.table _ d₁.table).word _ = _
      rw [Function.update_self]
      by_cases heq : bn = nb
      · rw [if_pos heq, heq, Block.word_setWord_same _ hentry hsmall]
      · rw [if_neg heq, Block.word_setWord_ne _ _ (by omega)]
        rfl
  table := h.table
  img := fun b hb => by
    refine (Function.update_of_ne ?_ _ _).trans (congrFun h.img b)
    exact hb.resolve_right (Nat.not_lt.mpr hnb)
  freeblock := rfl
  usedblocks := congrArg (· + 1) h.used
  sectors := (Nat.max_eq_left hin).trans h.sectors
  freeinode := h.freeinode
  fields := h.fields

theorem wp_sector {Q : Dinode × ℕ → State → Prop} (hs : Fresh s) (hbound : s.freeblock ≤ size)
    (hl : Lists d s nb) (hbn : bn < nb ∨ bn = nb ∧ nb < MAXFILE)
    (hold : bn < nb → Q (d, d.block s.work bn) s)
    (hnew : ∀ d' s' x, bn = nb → Adds d s d' s' nb x → Q (d', x) s') :
    wp (sector d bn) Q (fun _ => True) s := by
  have hsize : size = 1024 := rfl
  have hzero : d.block s.work bn = 0 ↔ bn = nb := by
    rw [← not_iff_not, ← ne_eq, hl.has]
    omega
  unfold sector
  rw [wp_ite]
  refine ⟨fun hlt => ?_, fun hge => ?_⟩
  · rw [Dinode.block_of_lt hlt] at hold hzero
    rw [wp_ite]
    refine ⟨fun h => ?_, fun h => wp_pure.mpr (hold ?_)⟩
    · have heq := hzero.mp h
      subst heq
      rw [wp_bind, wp_newblock, wp_pure, hs.used]
      exact hnew _ _ _ rfl (.direct hlt)
    · exact hbn.resolve_right fun hc => h (hzero.mpr hc.1)
  · have hge' : NDIRECT ≤ bn := Nat.not_lt.mp hge
    rw [wp_bind]
    refine wp_indirectBlock hs hl (by omega) fun d₁ s₁ h => ?_
    rw [wp_bind]
    refine wp_rsect fun hin => ?_
    have hblock : (s₁.img d₁.table).word (bn - NDIRECT) = d.block s.work bn := by
      rw [← h.block, Dinode.block_of_table hge' h.ne]
      rfl
    change wp (if (s₁.img d₁.table).word (bn - NDIRECT) = 0 then _ else _) _ _ _
    rw [hblock, wp_ite]
    refine ⟨fun hzero' => ?_, fun hne => wp_pure.mpr ?_⟩
    · have heq := hzero.mp hzero'
      subst heq
      have hmax : bn < MAXFILE := by omega
      have hsmall : s₁.freeblock < 2 ^ 32 := by
        rcases h.table with ⟨-, -, hfree⟩ | ⟨-, -, hfree⟩
        · omega
        · omega
      rw [wp_bind, wp_newblock, wp_bind, wp_wsect, wp_pure]
      exact hnew _ _ _ rfl (.entry h hge' hmax hsmall hin)
    · have hlt : bn < nb := hbn.resolve_right fun hc => hne (hzero.mpr hc.1)
      obtain ⟨rfl, rfl⟩ := h.same (by omega)
      have hQ := hold hlt
      rw [← hblock] at hQ
      exact hQ

/-! ### One round -/

theorem Grows.refl : Grows d s d s where
  le := Nat.le_refl _
  freeinode := rfl
  img := fun _ _ _ => rfl
  has := fun b => by
    refine ⟨.inl, fun h => h.resolve_right fun hc => ?_⟩
    omega
  fields := rfl

theorem Grows.trans (h : Grows d s d' s') (h' : Grows d' s' d'' s'') : Grows d s d'' s'' where
  le := h.le.trans h'.le
  freeinode := h'.freeinode.trans h.freeinode
  img := fun b hlt hno => by
    have hle := h.le
    have hno' : ¬ d'.Has s'.work b := fun hc => by
      rcases (h.has b).mp hc with hc | hc
      · exact hno hc
      · omega
    rw [h'.img b (by omega) hno', h.img b hlt hno]
  has := fun b => by
    have hle := h.le
    have hle' := h'.le
    rw [h'.has, h.has, or_assoc]
    refine or_congr_right ?_
    omega
  fields := by
    rw [h'.fields, h.fields]

/-- The sector of the block that is written to next. -/
theorem wp_sector_grows {Q : Dinode × ℕ → State → Prop} (hs : Fresh s)
    (hbound : s.freeblock ≤ size) (hl : Lists d s nb) (hbn : bn < nb ∨ bn = nb ∧ nb < MAXFILE)
    (hQ : ∀ d' s', Grows d s d' s' → Fresh s' → Lists d' s' (max nb (bn + 1)) →
      d'.byteAt s'.work = d.byteAt s.work →
      s'.freeblock + cost nb = s.freeblock + cost (max nb (bn + 1)) →
      s'.freeblock ≤ size ∨ s'.freeblock = d'.block s'.work bn + 1 →
      Q (d', d'.block s'.work bn) s') :
    wp (sector d bn) Q (fun _ => True) s := by
  refine wp_sector hs hbound hl hbn (fun hlt => ?_) fun d' s' x heq h => ?_
  · have hmax : max nb (bn + 1) = nb := Nat.max_eq_left hlt
    rw [hmax] at hQ
    exact hQ d s .refl hs hl rfl rfl (.inl hbound)
  · subst heq
    rw [Nat.max_eq_right (Nat.le_succ bn)] at hQ
    have hQ' := hQ d' s' (h.grows hl hs) (h.fresh hl hs) (h.lists hl hs) (h.byteAt hl hs) h.cost
    rw [h.block_self] at hQ'
    exact hQ' (.inr h.freeblock)

namespace Lists

variable {buf : Block}

theorem block_wrote (h : Lists d s nb) (hbn : bn < nb) :
    d.block (s.wrote (d.block s.work bn) buf).work = d.block s.work := by
  refine Dinode.block_of_data fun _ => ?_
  exact Function.update_of_ne (h.notTable bn ((h.has bn).mpr hbn)).symm _ _

theorem wrote (h : Lists d s nb) (hbn : bn < nb) :
    Lists d (s.wrote (d.block s.work bn) buf) nb := by
  have hblock : d.block (s.wrote (d.block s.work bn) buf).work = d.block s.work :=
    h.block_wrote hbn
  exact {
    has := by
      rw [hblock]
      exact h.has
    table := h.table
    distinct := by
      rw [hblock]
      exact h.distinct
    notTable := by
      rw [hblock]
      exact h.notTable
    inside := fun b hb => by
      rw [Dinode.Has, hblock] at hb
      exact h.inside b hb }

theorem grows_wrote (h : Lists d s nb) (hbn : bn < nb) :
    Grows d s d (s.wrote (d.block s.work bn) buf) where
  le := Nat.le_refl _
  freeinode := rfl
  img := fun b _ hno => by
    refine Function.update_of_ne ?_ _ _
    rintro rfl
    exact hno (.of_block ((h.has bn).mpr hbn))
  has := fun b => by
    rw [Dinode.Has, h.block_wrote hbn]
    refine ⟨.inl, fun hb => hb.resolve_right fun hc => ?_⟩
    exact absurd hc.2 (Nat.not_lt.mpr hc.1)
  fields := rfl

theorem fresh_wrote (h : Lists d s nb) (hs : Fresh s) (hbn : bn < nb)
    (hin : d.block s.work bn < s.sectors) : Fresh (s.wrote (d.block s.work bn) buf) where
  sectors := (Nat.max_eq_left hin).trans hs.sectors
  low := hs.low
  used := hs.used
  zero := fun b hb => by
    have hlt := (h.inside _ (.of_block ((h.has bn).mpr hbn))).2
    refine (Function.update_of_ne ?_ _ _).trans (hs.zero b hb)
    exact Nat.ne_of_gt (lt_of_lt_of_le hlt hb)

/-- Bytes of one block are written. -/
theorem byteAt_wrote (h : Lists d s nb) (hbn : off / BSIZE < nb)
    (hlen : src.length ≤ BSIZE - off % BSIZE) :
    d.byteAt (s.wrote (d.block s.work (off / BSIZE))
      ((s.img (d.block s.work (off / BSIZE))).write (off % BSIZE) src)).work =
      patch (d.byteAt s.work) off src := by
  set x := d.block s.work (off / BSIZE) with hx
  set buf := (s.img x).write (off % BSIZE) src with hbuf
  have hblock : d.block (s.wrote x buf).work = d.block s.work := h.block_wrote hbn
  rw [BSIZE_eq] at hlen
  funext k
  by_cases hk : k / BSIZE = off / BSIZE
  · have hne := (h.has (k / BSIZE)).mpr (by rwa [hk])
    have hdata : (s.wrote x buf).work.data (d.block s.work (k / BSIZE)) = buf := by
      rw [hk]
      exact Function.update_self ..
    rw [Fs.byteAt_eq (by rw [hblock]; exact hne), hblock, hdata, hbuf,
      Block.char_write (Nat.mod_lt _ (by decide)), patch, patch, Fs.byteAt_eq hne, hk]
    rw [BSIZE_eq] at hk ⊢
    by_cases hle : off ≤ k
    · have hmod : k % 512 - off % 512 = k - off := by omega
      rw [if_pos hle, if_pos (by omega), hmod]
      rfl
    · rw [if_neg hle, if_neg (by omega)]
      rfl
  · have hout : patch (d.byteAt s.work) off src k = d.byteAt s.work k := by
      rw [BSIZE_eq] at hk
      by_cases hlow : k < off
      · exact patch_of_lt hlow
      · exact patch_of_le (by omega)
    rw [hout, Dinode.byteAt, Dinode.byteAt, hblock]
    by_cases hzero : d.block s.work (k / BSIZE) = 0
    · rw [if_pos hzero, if_pos hzero]
    · have hne : d.block s.work (k / BSIZE) ≠ x := fun heq => hk (h.distinct _ _ hzero heq)
      have hdata : (s.wrote x buf).work.data (d.block s.work (k / BSIZE)) =
          s.work.data (d.block s.work (k / BSIZE)) := Function.update_of_ne hne _ _
      rw [if_neg hzero, if_neg hzero, hdata]

end Lists

/-! ### The loop -/

/-- Bytes behind the last one are appended. -/
theorem patch_getD :
    patch (fun k => cs.getD k 0) cs.length src = fun k => (cs ++ src).getD k 0 := by
  funext k
  rw [patch, List.getD_eq_getElem?_getD, List.getD_eq_getElem?_getD]
  by_cases hk : cs.length ≤ k
  · rw [if_pos hk, List.getElem?_append_right hk, List.getElem?_eq_none hk]
    rfl
  · rw [if_neg hk, List.getElem?_append_left (Nat.not_le.mp hk)]

theorem wp_appendLoop {Q : Dinode × ℕ → State → Prop} {fuel : ℕ} (hfuel : src.length ≤ fuel)
    (hs : Fresh s) (hbound : s.freeblock ≤ size) (h : Shows d s cs)
    (hQ : ∀ d' s', Grows d s d' s' → Fresh s' → s'.freeblock ≤ size → Shows d' s' (cs ++ src) →
      s'.freeblock + cost (blocks cs.length) = s.freeblock + cost (blocks (cs ++ src).length) →
      Q (d', (cs ++ src).length) s') :
    wp (appendLoop fuel d cs.length src) Q (fun _ => True) s := by
  induction fuel generalizing s d cs src Q with
  | zero =>
      obtain rfl := List.length_eq_zero_iff.mp (Nat.le_zero.mp hfuel)
      rw [List.append_nil] at hQ
      exact wp_pure.mpr (hQ d s .refl hs hbound h rfl)
  | succ fuel ih =>
      rw [appendLoop, wp_ite]
      refine ⟨fun hnil => ?_, fun hne => ?_⟩
      · subst hnil
        rw [List.append_nil] at hQ
        exact wp_pure.mpr (hQ d s .refl hs hbound h rfl)
      · have hpos : 0 < src.length := List.length_pos_iff.mpr hne
        rw [wp_bind]
        refine wp_assert fun hmax => ?_
        rw [wp_bind]
        have hnb : cs.length / 512 < blocks cs.length ∨
            cs.length / 512 = blocks cs.length ∧ blocks cs.length < MAXFILE := by
          unfold blocks
          rw [BSIZE_eq]
          omega
        refine wp_sector_grows hs hbound h.toLists hnb fun d₁ s₁ hg₁ hs₁ hl₁ hbytes hcost hb₁ => ?_
        have hmax' : max (blocks cs.length) (cs.length / 512 + 1) = cs.length / 512 + 1 := by
          unfold blocks
          rw [BSIZE_eq]
          omega
        rw [hmax'] at hl₁ hcost
        have hlt : cs.length / BSIZE < cs.length / 512 + 1 := Nat.lt_succ_self _
        change wp (rsect _ >>= _) _ _ _
        rw [wp_bind]
        refine wp_rsect fun hin => ?_
        rw [wp_bind, wp_wsect]
        have hsectors : s₁.sectors = size := hs₁.sectors
        have hmin : min src.length ((cs.length / 512 + 1) * 512 - cs.length) =
            min src.length (BSIZE - cs.length % BSIZE) := by
          rw [BSIZE_eq]
          omega
        have hoff : cs.length - cs.length / 512 * 512 = cs.length % BSIZE := by
          rw [BSIZE_eq]
          omega
        rw [hmin, hoff]
        set n := min src.length (BSIZE - cs.length % BSIZE) with hn
        rw [BSIZE_eq] at hn
        have hlen : (cs ++ src.take n).length = cs.length + n := by
          rw [List.length_append, List.length_take]
          omega
        have hblocks : blocks (cs ++ src.take n).length = cs.length / 512 + 1 := by
          unfold blocks
          rw [hlen, BSIZE_eq]
          omega
        have hall : cs ++ src.take n ++ src.drop n = cs ++ src := by
          rw [List.append_assoc, List.take_append_drop]
        have hshows : Shows d₁ (s₁.wrote (d₁.block s₁.work (cs.length / 512))
            ((s₁.img (d₁.block s₁.work (cs.length / 512))).write (cs.length % BSIZE)
              (src.take n))) (cs ++ src.take n) := by
          refine ⟨?_, fun k => ?_⟩
          · rw [hblocks]
            exact hl₁.wrote hlt
          · have hfits : (src.take n).length ≤ BSIZE - cs.length % BSIZE := by
              rw [List.length_take, BSIZE_eq]
              omega
            have hpatch := hl₁.byteAt_wrote hlt hfits
            rw [hbytes, funext h.bytes, patch_getD] at hpatch
            exact congrFun hpatch k
        rw [← hlen]
        refine ih (by rw [List.length_drop]; omega) (hl₁.fresh_wrote hs₁ hlt hin) ?_ hshows
          fun d' s' hg' hs' hb' hshows' hcost' => ?_
        · change s₁.freeblock ≤ size
          omega
        · rw [hall] at hshows' hcost' ⊢
          rw [hblocks] at hcost'
          change s'.freeblock + _ = s₁.freeblock + _ at hcost'
          exact hQ d' s' (hg₁.trans ((hl₁.grows_wrote hlt).trans hg')) hs' hb' hshows' (by omega)

end Append

end Mkfs

end Xv6
