import Xv6.Mkfs.Built

/-!
# What `mkfs` has built

The run of `main`: the root directory lists the files in the order in which they are given, each
file holds what has been read of it, and every sector up to `freeblock` belongs to one of them.
-/

namespace Xv6

namespace Mkfs

open Foundation

def Input.bytes (f : Input) : List UInt8 := f.chunks.flatten

/-- The entries of the files, of which the first has the inode `n`. -/
def entries : ℕ → List Input → List UInt8
  | _, [] => []
  | n, f :: files => Dirent.bytes ⟨n, skipUnderscore f.name⟩ ++ entries (n + 1) files

def rootBytes (files : List Input) : List UInt8 :=
  Dirent.bytes ⟨ROOTINO, dot⟩ ++ Dirent.bytes ⟨ROOTINO, dotdot⟩ ++ entries (ROOTINO + 1) files

def contents (files : List Input) : ℕ → List UInt8
  | 0 => []
  | 1 => rootBytes files
  | n + 2 => (files[n]?.map Input.bytes).getD []

/-- The bytes of the inodes when files have been added, of which the first has the inode `n`. -/
def added : List Input → ℕ → (ℕ → List UInt8) → ℕ → List UInt8
  | [], _, content => content
  | f :: files, n, content => added files (n + 1)
      (Function.update (Function.update content ROOTINO
        (content ROOTINO ++ Dirent.bytes ⟨n, skipUnderscore f.name⟩)) n f.bytes)

def filesCost (files : List Input) : ℕ := (files.map fun f => cost (blocks f.bytes.length)).sum

/-- How many sectors the root directory and the files take. -/
def allCost (files : List Input) : ℕ := cost (blocks (rootBytes files).length) + filesCost files

/-- The state at the end of `main`, but for the bitmap. -/
structure Done (files : List Input) (t : State) : Prop extends Base t (contents files) where
  size : ∀ n < inodes, n ≠ ROOTINO → (t.work.dinode n).size = (contents files n).length
  rootSize : (t.work.dinode ROOTINO).size = ((rootBytes files).length / BSIZE + 1) * BSIZE
  freeinode : t.freeinode = files.length + 2
  cost : t.freeblock = mkfsSuperblock.dataStart + allCost files
  names : ∀ f ∈ files, slash ∉ f.name

def State.marked (t : State) : State :=
  t.wrote (BBLOCK 0 ninodes) ((List.range t.usedblocks).foldl Block.mark Block.zero)

section Contents

variable {files : List Input} {content : ℕ → List UInt8} {n m : ℕ}

theorem added_root (hn : 2 ≤ n) :
    added files n content ROOTINO = content ROOTINO ++ entries n files := by
  induction files generalizing n content with
  | nil => exact (List.append_nil _).symm
  | cons f files ih =>
      have hne : ROOTINO ≠ n := by
        have hroot : ROOTINO = 1 := rfl
        omega
      rw [added, ih (by omega), Function.update_of_ne hne, Function.update_self, entries,
        List.append_assoc]

theorem added_other (hm : m ≠ ROOTINO) (hmn : m < n) : added files n content m = content m := by
  induction files generalizing n content with
  | nil => rfl
  | cons f files ih =>
      rw [added, ih (by omega), Function.update_of_ne (by omega), Function.update_of_ne hm]

theorem added_file (hn : 2 ≤ n) (hnone : ∀ k, n ≤ k → content k = []) (hmn : n ≤ m) :
    added files n content m = (files[m - n]?.map Input.bytes).getD [] := by
  have hroot : ROOTINO = 1 := rfl
  induction files generalizing n content with
  | nil => exact hnone m hmn
  | cons f files ih =>
      rw [added]
      by_cases heq : m = n
      · rw [added_other (by omega) (by omega), heq, Function.update_self, Nat.sub_self]
        rfl
      · have hsub : m - n = m - (n + 1) + 1 := by omega
        rw [hsub, List.getElem?_cons_succ]
        refine ih (by omega) (fun k hk => ?_) (by omega)
        rw [Function.update_of_ne (by omega), Function.update_of_ne (by omega)]
        exact hnone k (by omega)

theorem added_all (hroot : content ROOTINO = Dirent.bytes ⟨ROOTINO, dot⟩ ++
    Dirent.bytes ⟨ROOTINO, dotdot⟩) (hother : ∀ k, k ≠ ROOTINO → content k = []) :
    added files 2 content = contents files := by
  have hone : ROOTINO = 1 := rfl
  funext m
  cases m with
  | zero => exact (added_other (by decide) (by decide)).trans (hother 0 (by decide))
  | succ m =>
      cases m with
      | zero =>
          refine (added_root (Nat.le_refl 2)).trans ?_
          rw [hroot]
          rfl
      | succ m =>
          exact added_file (Nat.le_refl 2) (fun k hk => hother k (by omega)) (Nat.le_add_left 2 m)

end Contents

section Run

variable {s t : State} {files : List Input} {content : ℕ → List UInt8} {n : ℕ}

/-- The loop that copies a file appends what is read. -/
theorem wp_copy {Q : Unit → State → Prop} {chunks : List (List UInt8)} (h : Built s content)
    (hn : n < inodes) (hlt : n < s.freeinode)
    (hQ : ∀ t, Built t (Function.update content n (content n ++ chunks.flatten)) →
      t.freeinode = s.freeinode → t.freeblock + cost (blocks (content n).length) =
        s.freeblock + cost (blocks (content n ++ chunks.flatten).length) → Q ⟨⟩ t) :
    wp (copy n chunks) Q (fun _ => True) s := by
  induction chunks generalizing s content Q with
  | nil =>
      rw [List.flatten_nil, List.append_nil, Function.update_eq_self] at hQ
      exact wp_pure.mpr (hQ s h rfl rfl)
  | cons buf chunks ih =>
      rw [copy, wp_bind]
      refine wp_iappend h hn hlt fun s₁ h₁ hfree₁ hcost₁ => ?_
      refine ih h₁ (by rwa [hfree₁]) fun t ht hfree hcost => ?_
      rw [Function.update_self] at ht hcost
      rw [Function.update_idem, List.append_assoc] at ht
      rw [List.append_assoc] at hcost
      rw [List.flatten_cons] at hQ
      exact hQ t ht (hfree.trans hfree₁) (by omega)

theorem wp_addFiles {Q : Unit → State → Prop} (h : Built s content)
    (hn : s.freeinode + files.length ≤ inodes) (htwo : 2 ≤ s.freeinode)
    (hQ : ∀ t, Built t (added files s.freeinode content) →
      t.freeinode = s.freeinode + files.length →
      t.freeblock + cost (blocks (content ROOTINO).length) = s.freeblock +
        cost (blocks (content ROOTINO ++ entries s.freeinode files).length) + filesCost files →
      (∀ f ∈ files, slash ∉ f.name) → Q ⟨⟩ t) :
    wp (addFiles files) Q (fun _ => True) s := by
  have hroot : ROOTINO = 1 := rfl
  induction files generalizing s content Q with
  | nil =>
      refine wp_pure.mpr (hQ s h rfl ?_ fun f hf => absurd hf List.not_mem_nil)
      rw [entries, List.append_nil]
      rfl
  | cons f files ih =>
      rw [List.length_cons] at hn
      rw [addFiles, wp_bind]
      refine wp_assert fun hslash => ?_
      rw [wp_bind]
      refine wp_ialloc h (by omega) (by omega) (by rw [if_neg (by omega)])
        fun s₁ h₁ hfree₁ hb₁ => ?_
      rw [wp_bind]
      refine wp_iappend h₁ (by decide) (by omega) fun s₂ h₂ hfree₂ hcost₂ => ?_
      rw [wp_bind]
      have hempty : Function.update content ROOTINO (content ROOTINO ++
          Dirent.bytes ⟨s.freeinode, skipUnderscore f.name⟩) s.freeinode = [] := by
        rw [Function.update_of_ne (by omega)]
        exact h.none _ (Nat.le_refl _)
      refine wp_copy h₂ (by omega) (by omega) fun s₃ h₃ hfree₃ hcost₃ => ?_
      rw [hempty, List.nil_append] at h₃ hcost₃
      have hnext : s₃.freeinode = s.freeinode + 1 := by omega
      refine ih h₃ (by omega) (by omega) fun t ht hfree hcost hnames => ?_
      rw [hnext] at ht hfree hcost
      rw [Function.update_of_ne (by omega), Function.update_self, List.append_assoc] at hcost
      refine hQ t ht (by rw [List.length_cons]; omega) ?_
        (List.forall_mem_cons.mpr ⟨hslash, hnames⟩)
      have hzero : cost (blocks ([] : List UInt8).length) = 0 := rfl
      have hbytes : f.chunks.flatten = f.bytes := rfl
      have hfiles : filesCost (f :: files) = cost (blocks f.bytes.length) + filesCost files := by
        rw [filesCost, List.map_cons, List.sum_cons]
        rfl
      rw [hzero, hbytes] at hcost₃
      rw [entries, hfiles]
      omega

/-- The image is zeroed. -/
theorem wp_wipe {Q : Unit → State → Prop} {E : Fault → Prop} {is : List ℕ}
    (hzero : ∀ b, s.img b = Block.zero)
    (hQ : Q ⟨⟩ { s with sectors := is.foldl (fun m i => max m (i + 1)) s.sectors }) :
    wp (wipe is) Q E s := by
  induction is generalizing s with
  | nil => exact wp_pure.mpr hQ
  | cons i is ih =>
      have himg : Function.update s.img i Block.zero = s.img := by
        rw [← hzero i, Function.update_eq_self]
      rw [wipe, wp_bind, wp_wsect]
      refine ih (fun b => ?_) ?_
      · change Function.update s.img i Block.zero b = _
        rw [himg]
        exact hzero b
      · rw [State.wrote, himg]
        exact hQ

theorem foldl_range (n : ℕ) : (List.range n).foldl (fun m i => max m (i + 1)) 0 = n := by
  induction n with
  | zero => rfl
  | succ n ih =>
      rw [List.range_succ, List.foldl_append, ih]
      exact Nat.max_eq_right (Nat.le_succ n)

/-- The image after the superblock has been written. -/
def formatted : State := State.wrote { start with sectors := Mkfs.size } 1 superSector

theorem formatted_img {b : ℕ} (hb : b ≠ 1) : formatted.img b = Block.zero := by
  change Function.update start.img 1 superSector b = _
  rw [Function.update_of_ne hb]
  rfl

theorem formatted_built : Built formatted fun _ => [] := by
  have hdinode : ∀ n < inodes, formatted.work.dinode n = Dinode.zero := fun n hn => by
    have hblock := inodes_lt hn
    change (formatted.img (IBLOCK n)).dinode _ = _
    rw [formatted_img (by omega), Block.dinode_zero]
  have hkind : ∀ n, kind formatted.freeinode n = Dinode.zero := fun n => by
    have hfree : formatted.freeinode = 1 := rfl
    rw [kind, if_neg (by omega)]
  have hno : ∀ n < inodes, ∀ b, ¬ (formatted.work.dinode n).Has formatted.work b :=
    fun n hn b => by
      rw [hdinode n hn]
      exact not_has rfl b
  exact {
    sectors := rfl
    low := Nat.le_refl _
    used := rfl
    zero := fun b hb => by
      have hb' : 29 ≤ b := hb
      exact formatted_img (by omega)
    bound := by decide
    super := by
      change Function.update start.img 1 superSector 1 = _
      rw [Function.update_self]
    shows := fun n hn => by
      rw [hdinode n hn]
      exact .empty rfl
    fields := fun n hn => ⟨0, fun _ => 0, by rw [hdinode n hn, hkind]; rfl⟩
    none := fun _ _ => rfl
    apart := fun m hm n _ _ b hb => absurd hb (hno m hm b)
    owned := fun b hge hlt => absurd hlt (Nat.not_lt.mpr hge)
    size := fun n hn => by
      rw [hdinode n hn]
      rfl }

theorem length_bytes_lt (h : Built t (contents files)) :
    ((rootBytes files).length / BSIZE + 1) * BSIZE < 2 ^ 32 := by
  have hle : (rootBytes files).length ≤ MAXFILE * BSIZE := (h.shows ROOTINO (by decide)).length_le
  rw [MAXFILE_eq, BSIZE_eq] at hle
  rw [BSIZE_eq]
  omega

theorem wp_fixRoot {Q : Unit → State → Prop} (h : Built s (contents files))
    (hfree : s.freeinode = files.length + 2)
    (hcost : s.freeblock = mkfsSuperblock.dataStart + allCost files)
    (hnames : ∀ f ∈ files, slash ∉ f.name) (hQ : ∀ t, Done files t → Q ⟨⟩ t) :
    wp fixRoot Q (fun _ => True) s := by
  have hn : ROOTINO < inodes := by decide
  have hsize : (s.work.dinode ROOTINO).size = (rootBytes files).length := h.size ROOTINO hn
  have hk := length_bytes_lt h
  have hshows : Shows (s.work.dinode ROOTINO) s (contents files ROOTINO) := h.shows ROOTINO hn
  have hlt : ROOTINO < s.freeinode := by
    have hroot : ROOTINO = 1 := rfl
    omega
  unfold fixRoot
  rw [wp_bind]
  refine wp_rinode (wp_winode (hQ _ ?_))
  rw [hsize]
  have hbase := h.save hn hlt .refl h.toFresh hshows h.bound hk
  rw [Function.update_eq_self] at hbase
  have hsaves := h.saves hn .refl hshows h.bound hk
  exact {
    toBase := hbase
    size := fun n hn hne => by
      rw [hsaves.dinode n hn, if_neg hne]
      exact h.size n hn
    rootSize := by rw [hsaves.dinode ROOTINO hn, if_pos rfl]
    freeinode := hfree
    cost := hcost
    names := hnames }

/-- As long as the inodes are in front of the bitmap, `main` builds the files. -/
theorem wp_main {Q : Unit → State → Prop} (hfew : files.length + 2 ≤ inodes)
    (hQ : ∀ t, Done files t → t.usedblocks < BPB → Q ⟨⟩ t.marked) :
    wp (main files) Q (fun _ => True) start := by
  unfold main
  rw [wp_bind, wp_get, wp_bind]
  refine wp_assert fun _ => ?_
  rw [wp_bind]
  refine wp_wipe (fun _ => rfl) ?_
  change wp _ _ _ { start with sectors := (List.range 1024).foldl (fun m i => max m (i + 1)) 0 }
  rw [foldl_range, wp_bind, wp_wsect]
  change wp (ialloc T_DIR >>= _) _ _ formatted
  have hroot : formatted.freeinode = ROOTINO := rfl
  rw [wp_bind]
  refine wp_ialloc formatted_built (by decide) (by decide) rfl fun s₁ h₁ hfree₁ hb₁ => ?_
  rw [hroot] at hfree₁ ⊢
  rw [wp_bind]
  refine wp_assert fun _ => ?_
  have hlt₁ : ROOTINO < s₁.freeinode := by
    rw [hfree₁]
    decide
  rw [wp_bind]
  refine wp_iappend h₁ (by decide) hlt₁ fun s₂ h₂ hfree₂ hcost₂ => ?_
  rw [wp_bind]
  refine wp_iappend h₂ (by decide) (by rwa [hfree₂]) fun s₃ h₃ hfree₃ hcost₃ => ?_
  rw [Function.update_self] at h₃ hcost₃
  rw [Function.update_idem, List.nil_append] at h₃
  rw [List.nil_append] at hcost₂ hcost₃
  have hfree : s₃.freeinode = 2 := by
    rw [hfree₃, hfree₂, hfree₁]
    rfl
  rw [wp_bind]
  refine wp_addFiles h₃ (by omega) (by omega) fun s₄ h₄ hfree₄ hcost₄ hnames => ?_
  rw [hfree, added_all (Function.update_self ..) fun k hk => Function.update_of_ne hk _ _] at h₄
  rw [hfree, Function.update_self] at hcost₄
  have hzero : cost (blocks ([] : List UInt8).length) = 0 := rfl
  have hstart : formatted.freeblock = mkfsSuperblock.dataStart := rfl
  rw [hzero] at hcost₂
  have hcost : s₄.freeblock = mkfsSuperblock.dataStart + allCost files := by
    have hall : allCost files = cost (blocks (Dirent.bytes ⟨ROOTINO, dot⟩ ++
      Dirent.bytes ⟨ROOTINO, dotdot⟩ ++ entries 2 files).length) + filesCost files := rfl
    omega
  rw [wp_bind]
  refine wp_fixRoot h₄ (by omega) hcost hnames fun t ht => ?_
  rw [wp_bind, wp_get]
  unfold balloc
  rw [wp_bind]
  exact wp_assert fun hused => wp_wsect.mpr (hQ t ht hused)

end Run

end Mkfs

end Xv6
