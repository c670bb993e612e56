import Xv6.Foundation.Interference
import Xv6.Lib.Memory
import Xv6.Syscall.File

/-!
# The checks of user pointers

A run answers the loads of a call from the memory of the process, which nobody else
writes to, and locks inodes in the states `found` allows. `Meets` says that in every run
each user address that is loaded from or stored to is below `proc->sz`, and that the
call ends as described.

The checks are enough for everything but a `read` with a negative count: `argptr` adds
it to the address as a word, and `readi` uses it as one.
-/

namespace Xv6

open Foundation

namespace UserOp

def reply (found : LockedInode → UInt32 → Prop) :
    (o : UserOp) → Memory → o.Resp → Memory → Prop
  | .load a, s, r, t => r = s a ∧ t = s
  | .store a b, s, _, t => t = Function.update s a b
  | .ilock, s, r, t => found r.1 r.2 ∧ t = s
  | .bread, s, _, t => t = s
  | .lockPipe, s, _, t => t = s
  | .lockInput, s, _, t => t = s
  | .killed, s, _, t => t = s
  | .pipealloc, s, _, t => t = s
  | .panic _, _, _, _ => False
  | .asleep, _, _, _ => False

/-- User addresses are below the size of the process. -/
def below (sz : UInt32) : UserOp → Memory → Prop
  | .load a, _ => a < sz
  | .store a _, _ => a < sz
  | _, _ => True

end UserOp

namespace Syscall

variable {α β : Type} {sz : UInt32} {found : LockedInode → UInt32 → Prop} {s : Memory}

/-- In every run from `s`, the user addresses are below `sz` and the end is in `Q`. -/
def Meets (sz : UInt32) (found : LockedInode → UInt32 → Prop) (Q : α → Memory → Prop)
    (p : Syscall α) (s : Memory) : Prop :=
  wpi (fun _ _ _ => False) (UserOp.reply found) (UserOp.below sz) Q p s

/-! ### One operation -/

section Rules

variable {Q : α → Memory → Prop}

@[simp] theorem meets_pure {a : α} : Meets sz found Q (.done a) s ↔ Q a s := Iff.rfl

@[simp] theorem meets_return {a : α} : Meets sz found Q (pure a) s ↔ Q a s := Iff.rfl

@[simp] theorem meets_bind {Q : β → Memory → Prop} {p : Syscall α} {f : α → Syscall β} :
    Meets sz found Q (p >>= f) s ↔
      Meets sz found (fun a t => Meets sz found Q (f a) t) p s :=
  wpi_bind_iff

@[simp] theorem meets_load {a : UInt32} {Q : UInt8 → Memory → Prop} :
    Meets sz found Q (load a) s ↔ a < sz ∧ Q (s a) s := by
  rw [load, Meets, wpi_call_alone]
  simp [UserOp.below, UserOp.reply]

@[simp] theorem meets_store {a : UInt32} {b : UInt8} {Q : Unit → Memory → Prop} :
    Meets sz found Q (store a b) s ↔ a < sz ∧ Q () (Function.update s a b) := by
  rw [store, Meets, wpi_call_alone]
  simp only [UserOp.below, UserOp.reply, wpi_done, forall_eq]
  exact and_congr_right' ⟨fun h => h (), fun h _ => h⟩

@[simp] theorem meets_ilock {Q : LockedInode × UInt32 → Memory → Prop} :
    Meets sz found Q ilock s ↔ ∀ ip off, found ip off → Q (ip, off) s := by
  rw [ilock, Meets, wpi_call_alone]
  simp [UserOp.below, UserOp.reply]

@[simp] theorem meets_bread {Q : (ℕ → UInt8) → Memory → Prop} :
    Meets sz found Q bread s ↔ ∀ data, Q data s := by
  rw [bread, Meets, wpi_call_alone]
  simp [UserOp.below, UserOp.reply]

@[simp] theorem meets_lockPipe {Q : Pipe → Memory → Prop} :
    Meets sz found Q lockPipe s ↔ ∀ p, Q p s := by
  rw [lockPipe, Meets, wpi_call_alone]
  simp [UserOp.below, UserOp.reply]

@[simp] theorem meets_lockInput {Q : Input → Memory → Prop} :
    Meets sz found Q lockInput s ↔ ∀ input, Q input s := by
  rw [lockInput, Meets, wpi_call_alone]
  simp [UserOp.below, UserOp.reply]

@[simp] theorem meets_killed {Q : Bool → Memory → Prop} :
    Meets sz found Q killed s ↔ ∀ b, Q b s := by
  rw [killed, Meets, wpi_call_alone]
  simp [UserOp.below, UserOp.reply]

@[simp] theorem meets_pipealloc {Q : Bool → Memory → Prop} :
    Meets sz found Q pipealloc s ↔ ∀ b, Q b s := by
  rw [pipealloc, Meets, wpi_call_alone]
  simp [UserOp.below, UserOp.reply]

@[simp] theorem meets_panic {e : Panic} : Meets sz found Q (panic e) s := by
  rw [panic, Meets, wpi_call_alone]
  exact ⟨trivial, fun r => r.elim⟩

@[simp] theorem meets_asleep : Meets sz found Q asleep s := by
  rw [asleep, Meets, wpi_call_alone]
  exact ⟨trivial, fun r => r.elim⟩

end Rules

/-! ### Words and blocks -/

/-- An address inside a range that ends below `sz`. -/
theorem add_lt {p : UInt32} {n k : ℕ} (h : p.toNat + n ≤ sz.toNat) (hk : k < n) :
    p + UInt32.ofNat k < sz := by
  have hsz := sz.toNat_lt
  rw [UInt32.lt_iff_toNat_lt, UInt32.toNat_add, UInt32.toNat_ofNat']
  omega

theorem toNat_succ_of_lt {a : UInt32} (h : a < sz) : (a + 1).toNat = a.toNat + 1 := by
  have hsz := sz.toNat_lt
  rw [UInt32.lt_iff_toNat_lt] at h
  rw [UInt32.toNat_add, UInt32.toNat_one]
  omega

def wordAt (s : Memory) (a : UInt32) : UInt32 := wordOf (s a) (s (a + 1)) (s (a + 2)) (s (a + 3))

theorem meets_loadWord {a : UInt32} {Q : UInt32 → Memory → Prop}
    (h : a.toNat + 4 ≤ sz.toNat) : Meets sz found Q (loadWord a) s ↔ Q (wordAt s a) s := by
  have h₀ : a < sz := by simpa using add_lt (k := 0) h (by omega)
  have h₁ : a + 1 < sz := add_lt (k := 1) h (by omega)
  have h₂ : a + 2 < sz := add_lt (k := 2) h (by omega)
  have h₃ : a + 3 < sz := add_lt (k := 3) h (by omega)
  simp [loadWord, wordAt, h₀, h₁, h₂, h₃]

theorem meets_memmove {src : ℕ → UInt8} {Q : Unit → Memory → Prop} (hQ : ∀ t, Q () t) :
    ∀ {m : ℕ} {dst : UInt32} {k : ℕ} {s : Memory}, dst.toNat + m ≤ sz.toNat →
      Meets sz found Q (memmove src m dst k) s
  | 0, _, _, s, _ => hQ s
  | m + 1, dst, k, s, h => by
      have hlt : dst < sz := by rw [UInt32.lt_iff_toNat_lt]; omega
      rw [memmove, meets_bind, meets_store]
      refine ⟨hlt, meets_memmove hQ ?_⟩
      rw [toNat_succ_of_lt hlt]
      omega

/-- A copy that ends beyond `sz` stores beyond it. -/
theorem not_meets_memmove {src : ℕ → UInt8} {Q : Unit → Memory → Prop} :
    ∀ {m : ℕ} {dst : UInt32} {k : ℕ} {s : Memory}, dst.toNat ≤ sz.toNat →
      sz.toNat < dst.toNat + m → ¬ Meets sz found Q (memmove src m dst k) s
  | 0, _, _, _, hle, hlt => by omega
  | m + 1, dst, k, s, hle, hlt => by
      rw [memmove, meets_bind, meets_store]
      rintro ⟨hdst, hrest⟩
      refine not_meets_memmove ?_ ?_ hrest
      all_goals
        rw [toNat_succ_of_lt hdst]
        rw [UInt32.lt_iff_toNat_lt] at hdst
        omega

theorem meets_memread {Q : Unit → Memory → Prop} (hQ : ∀ t, Q () t) :
    ∀ {m : ℕ} {src : UInt32} {s : Memory}, src.toNat + m ≤ sz.toNat →
      Meets sz found Q (memread m src) s
  | 0, _, s, _ => hQ s
  | m + 1, src, s, h => by
      have hlt : src < sz := by rw [UInt32.lt_iff_toNat_lt]; omega
      rw [memread, meets_bind, meets_load]
      refine ⟨hlt, meets_memread hQ ?_⟩
      rw [toNat_succ_of_lt hlt]
      omega

theorem meets_storeWord {a w : UInt32} {Q : Unit → Memory → Prop} (hQ : ∀ t, Q () t)
    (h : a.toNat + 4 ≤ sz.toNat) : Meets sz found Q (storeWord a w) s :=
  meets_memmove hQ h

/-! ### Pipes and the console -/

theorem meets_pipereadWait {Q : Option Pipe → Memory → Prop} (hQ : ∀ r t, Q r t) :
    ∀ {rounds : ℕ} {p : Pipe} {s : Memory}, Meets sz found Q (pipereadWait rounds p) s
  | 0, _, _ => meets_asleep
  | rounds + 1, p, s => by
      rw [pipereadWait]
      split
      · rw [meets_bind, meets_killed]
        rintro (_ | _)
        · simpa using fun p => meets_pipereadWait hQ
        · exact hQ none s
      · exact hQ (some p) s

theorem meets_pipereadCopy {addr : UInt32} {n : ℕ} (h : addr.toNat + n ≤ sz.toNat)
    {Q : ℕ → Memory → Prop} (hQ : ∀ r t, Q r t) :
    ∀ {left i : ℕ} {p : Pipe} {s : Memory}, i + left ≤ n →
      Meets sz found Q (pipereadCopy addr left i p) s
  | 0, i, _, s, _ => hQ i s
  | left + 1, i, p, s, hi => by
      rw [pipereadCopy]
      split
      · exact hQ i s
      · rw [meets_bind, meets_store]
        exact ⟨add_lt h (by omega), meets_pipereadCopy h hQ (by omega)⟩

theorem meets_piperead {rounds : ℕ} {addr : UInt32} {n : ℤ}
    (h : addr.toNat + n.toNat ≤ sz.toNat) {Q : ℤ → Memory → Prop} (hQ : ∀ r t, Q r t) :
    Meets sz found Q (piperead rounds addr n) s := by
  rw [piperead, meets_bind, meets_lockPipe]
  intro p
  rw [meets_bind]
  refine meets_pipereadWait fun r t => ?_
  cases r with
  | none => exact hQ _ t
  | some p =>
      simp only [meets_bind]
      exact meets_pipereadCopy h (fun r t => hQ _ t) (by omega)

theorem meets_pipewriteWait {Q : Option Pipe → Memory → Prop} (hQ : ∀ r t, Q r t) :
    ∀ {rounds : ℕ} {p : Pipe} {s : Memory}, Meets sz found Q (pipewriteWait rounds p) s
  | 0, _, _ => meets_asleep
  | rounds + 1, p, s => by
      rw [pipewriteWait]
      split
      · split
        · exact hQ none s
        · rw [meets_bind, meets_killed]
          rintro (_ | _)
          · simpa using fun p => meets_pipewriteWait hQ
          · exact hQ none s
      · exact hQ (some p) s

theorem meets_pipewriteCopy {rounds : ℕ} {addr : UInt32} {n : ℕ}
    (h : addr.toNat + n ≤ sz.toNat) {Q : Bool → Memory → Prop} (hQ : ∀ r t, Q r t) :
    ∀ {left i : ℕ} {p : Pipe} {s : Memory}, i + left ≤ n →
      Meets sz found Q (pipewriteCopy rounds addr left i p) s
  | 0, i, _, s, _ => hQ true s
  | left + 1, i, p, s, hi => by
      rw [pipewriteCopy, meets_bind]
      refine meets_pipewriteWait fun r t => ?_
      cases r with
      | none => exact hQ false t
      | some p =>
          simp only [meets_bind, meets_load]
          exact ⟨add_lt h (by omega), meets_pipewriteCopy h hQ (by omega)⟩

theorem meets_pipewrite {rounds : ℕ} {addr : UInt32} {n : ℤ}
    (h : addr.toNat + n.toNat ≤ sz.toNat) {Q : ℤ → Memory → Prop} (hQ : ∀ r t, Q r t) :
    Meets sz found Q (pipewrite rounds addr n) s := by
  rw [pipewrite, meets_bind, meets_lockPipe]
  intro p
  rw [meets_bind]
  refine meets_pipewriteCopy h (fun r t => ?_) (by omega)
  cases r with
  | false => exact hQ _ t
  | true => exact hQ _ t

theorem meets_consolereadWait {Q : Option Input → Memory → Prop} (hQ : ∀ r t, Q r t) :
    ∀ {rounds : ℕ} {input : Input} {s : Memory},
      Meets sz found Q (consolereadWait rounds input) s
  | 0, _, _ => meets_asleep
  | rounds + 1, input, s => by
      rw [consolereadWait]
      split
      · rw [meets_bind, meets_killed]
        rintro (_ | _)
        · simpa using fun p => meets_consolereadWait hQ
        · exact hQ none s
      · exact hQ (some input) s

theorem meets_consolereadLoop {rounds : ℕ} {target : ℤ} {Q : ℤ → Memory → Prop}
    (hQ : ∀ r t, Q r t) :
    ∀ {n : ℕ} {dst : UInt32} {input : Input} {s : Memory}, dst.toNat + n ≤ sz.toNat →
      Meets sz found Q (consolereadLoop rounds target n dst input) s
  | 0, _, _, s, _ => hQ _ s
  | n + 1, dst, input, s, h => by
      have hlt : dst < sz := by rw [UInt32.lt_iff_toNat_lt]; omega
      rw [consolereadLoop, meets_bind]
      refine meets_consolereadWait fun r t => ?_
      cases r with
      | none => exact hQ _ t
      | some input =>
          dsimp only
          split
          · exact hQ _ t
          · rw [meets_bind, meets_store]
            refine ⟨hlt, ?_⟩
            split
            · exact hQ _ _
            · refine meets_consolereadLoop hQ ?_
              rw [toNat_succ_of_lt hlt]
              omega

theorem meets_consoleread {rounds : ℕ} {dst : UInt32} {n : ℤ}
    (h : dst.toNat + n.toNat ≤ sz.toNat) {Q : ℤ → Memory → Prop} (hQ : ∀ r t, Q r t) :
    Meets sz found Q (consoleread rounds dst n) s := by
  rw [consoleread]
  split
  · rw [meets_bind, meets_lockInput]
    exact fun input => meets_consolereadLoop hQ h
  · exact hQ 0 s

theorem meets_consolewrite {buf : UInt32} {n : ℤ} (h : buf.toNat + n.toNat ≤ sz.toNat)
    {Q : ℤ → Memory → Prop} (hQ : ∀ r t, Q r t) :
    Meets sz found Q (consolewrite buf n) s := by
  rw [consolewrite, meets_bind]
  exact meets_memread (fun t => hQ n t) h

/-! ### Inodes -/

/-- A round of `readi` or `writei` moves at least one byte and no more than are left. -/
theorem chunk_spec {n : UInt32} (off : UInt32) (hn : n ≠ 0) :
    0 < (chunk n off).toNat ∧ (chunk n off).toNat ≤ n.toNat := by
  have hpos : 0 < n.toNat := by
    rw [Nat.pos_iff_ne_zero, ne_eq, ← UInt32.toNat_zero, UInt32.toNat_inj]
    exact hn
  have hmod : off.toNat % 512 < 512 := Nat.mod_lt _ (by norm_num)
  have hblock : (UInt32.ofNat BSIZE - off % UInt32.ofNat BSIZE).toNat = 512 - off.toNat % 512 := by
    have hsize : (UInt32.ofNat BSIZE).toNat = 512 := rfl
    rw [UInt32.toNat_sub, UInt32.toNat_mod, hsize]
    omega
  dsimp only [chunk]
  split
  · exact ⟨hpos, le_rfl⟩
  · rename_i hle
    rw [UInt32.lt_iff_toNat_lt, hblock] at hle
    rw [hblock]
    omega

/-- What is left after a round. -/
theorem rest_of_chunk {n : UInt32} (sz off dst : UInt32) (hn : n ≠ 0)
    (h : dst.toNat + (chunk n off).toNat ≤ sz.toNat) :
    (dst + chunk n off).toNat = dst.toNat + (chunk n off).toNat ∧
      (n - chunk n off).toNat = n.toNat - (chunk n off).toNat := by
  have hsz := sz.toNat_lt
  have hchunk := chunk_spec off hn
  constructor
  · rw [UInt32.toNat_add]
    omega
  · rw [UInt32.toNat_sub_of_le _ _ (UInt32.le_iff_toNat_le.mpr hchunk.2)]

theorem meets_readiLoop {Q : Unit → Memory → Prop} (hQ : ∀ t, Q () t) :
    ∀ {fuel : ℕ} {dst off n : UInt32} {s : Memory}, dst.toNat + n.toNat ≤ sz.toNat →
      Meets sz found Q (readiLoop fuel dst off n) s
  | 0, _, _, _, s, _ => hQ s
  | fuel + 1, dst, off, n, s, h => by
      rw [readiLoop]
      split
      · exact hQ s
      · rename_i hn
        have hchunk := chunk_spec off hn
        obtain ⟨hdst, hleft⟩ := rest_of_chunk sz off dst hn (by omega)
        simp only [meets_bind, meets_bread]
        intro data
        generalize chunk n off = m at *
        refine meets_memmove (fun t => meets_readiLoop hQ ?_) (by omega)
        omega

/-- A copy comes to its end. -/
theorem Meets.exists_of_memmove {src : ℕ → UInt8} {Q : Unit → Memory → Prop} :
    ∀ {m : ℕ} {dst : UInt32} {k : ℕ} {s : Memory},
      Meets sz found Q (memmove src m dst k) s → ∃ t, Q () t
  | 0, _, _, s, h => ⟨s, h⟩
  | m + 1, dst, k, s, h => by
      rw [memmove, meets_bind, meets_store] at h
      exact h.2.exists_of_memmove

/-- A `readi` of more than there is room for stores beyond `sz`. -/
theorem not_meets_readiLoop {Q : Unit → Memory → Prop} :
    ∀ {fuel : ℕ} {dst off n : UInt32} {s : Memory}, n.toNat ≤ fuel → dst.toNat ≤ sz.toNat →
      sz.toNat < dst.toNat + n.toNat → ¬ Meets sz found Q (readiLoop fuel dst off n) s
  | 0, _, _, _, _, hfuel, hle, hlt => by omega
  | fuel + 1, dst, off, n, s, hfuel, hle, hlt => by
      have hn : n ≠ 0 := by
        rintro rfl
        rw [UInt32.toNat_zero] at hlt
        omega
      have hchunk := chunk_spec off hn
      rw [readiLoop, if_neg hn]
      simp only [meets_bind, meets_bread]
      intro h
      have hrest := rest_of_chunk sz off dst hn
      generalize chunk n off = m at *
      by_cases hover : sz.toNat < dst.toNat + m.toNat
      · exact not_meets_memmove hle hover (h fun _ => 0)
      · obtain ⟨hdst, hleft⟩ := hrest (by omega)
        obtain ⟨t, ht⟩ := (h fun _ => 0).exists_of_memmove
        exact not_meets_readiLoop (by omega) (by omega) (by omega) ht

/-- The bytes that `readi` reads from a file. -/
theorem toNat_readSize {ip : LockedInode} {off n : UInt32} (hoff : off ≤ ip.size)
    (hwrap : ¬ off + n < off) :
    (if off + n > ip.size then ip.size - off else n).toNat =
      min n.toNat (ip.size.toNat - off.toNat) := by
  have hn := n.toNat_lt
  have hsize := ip.size.toNat_lt
  rw [UInt32.le_iff_toNat_le] at hoff
  rw [UInt32.lt_iff_toNat_lt, UInt32.toNat_add] at hwrap
  split
  · rename_i hgt
    rw [gt_iff_lt, UInt32.lt_iff_toNat_lt, UInt32.toNat_add] at hgt
    rw [UInt32.toNat_sub_of_le _ _ (UInt32.le_iff_toNat_le.mpr hoff)]
    omega
  · rename_i hle
    rw [gt_iff_lt, UInt32.lt_iff_toNat_lt, UInt32.toNat_add] at hle
    omega

/-- `readi` of `n` bytes from `off` of a file gets to bytes beyond `sz`. -/
def Overruns (sz : UInt32) (ip : LockedInode) (dst off n : UInt32) : Prop :=
  ip.type ≠ T_DEV ∧ off ≤ ip.size ∧ ¬ off + n < off ∧
    sz.toNat < dst.toNat + min n.toNat (ip.size.toNat - off.toNat)

theorem meets_readi {rounds : ℕ} {ip : LockedInode} {dst off n : UInt32}
    (hdst : dst.toNat + (int n).toNat ≤ sz.toNat) (hover : ¬ Overruns sz ip dst off n)
    {Q : ℤ → Memory → Prop} (hQ : ∀ r t, Q r t) :
    Meets sz found Q (readi rounds ip dst off n) s := by
  rw [readi]
  split
  · split
    · exact hQ _ s
    · exact meets_consoleread hdst hQ
  · rename_i hdev
    split
    · exact hQ _ s
    · rename_i hcheck
      rw [not_or, gt_iff_lt, UInt32.not_lt] at hcheck
      have hsize := toNat_readSize hcheck.1 hcheck.2
      simp only [meets_bind]
      refine meets_readiLoop (fun t => hQ _ t) ?_
      rw [hsize]
      by_contra hlt
      exact hover ⟨hdev, hcheck.1, hcheck.2, by omega⟩

theorem Overruns.not_meets_readi {rounds : ℕ} {ip : LockedInode} {dst off n : UInt32}
    (h : Overruns sz ip dst off n) (hdst : dst.toNat ≤ sz.toNat) {Q : ℤ → Memory → Prop} :
    ¬ Meets sz found Q (readi rounds ip dst off n) s := by
  obtain ⟨hdev, hoff, hwrap, hover⟩ := h
  have hcheck : ¬ (off > ip.size ∨ off + n < off) := by
    rw [not_or, gt_iff_lt, UInt32.not_lt]
    exact ⟨hoff, hwrap⟩
  rw [readi, if_neg hdev, if_neg hcheck]
  simp only [meets_bind]
  refine not_meets_readiLoop le_rfl hdst ?_
  rw [toNat_readSize hoff hwrap]
  exact hover

theorem meets_writeiLoop {Q : Unit → Memory → Prop} (hQ : ∀ t, Q () t) :
    ∀ {fuel : ℕ} {src off n : UInt32} {s : Memory}, src.toNat + n.toNat ≤ sz.toNat →
      Meets sz found Q (writeiLoop fuel src off n) s
  | 0, _, _, _, s, _ => hQ s
  | fuel + 1, src, off, n, s, h => by
      rw [writeiLoop]
      split
      · exact hQ s
      · rename_i hn
        have hchunk := chunk_spec off hn
        obtain ⟨hsrc, hleft⟩ := rest_of_chunk sz off src hn (by omega)
        simp only [meets_bind, meets_bread]
        intro _
        generalize chunk n off = m at *
        refine meets_memread (fun t => meets_writeiLoop hQ ?_) (by omega)
        omega

theorem toNat_int_le (n : UInt32) : (int n).toNat ≤ n.toNat := by
  have hn := n.toNat_lt
  rw [int]
  split <;> omega

theorem meets_writei {ip : LockedInode} {src off n : UInt32}
    (h : src.toNat + n.toNat ≤ sz.toNat) {Q : ℤ → Memory → Prop} (hQ : ∀ r t, Q r t) :
    Meets sz found Q (writei ip src off n) s := by
  rw [writei]
  split
  · split
    · exact hQ _ s
    · exact meets_consolewrite (by have := toNat_int_le n; omega) hQ
  · split
    · exact hQ _ s
    · split
      · exact hQ _ s
      · rw [meets_bind]
        exact meets_writeiLoop (fun t => hQ _ t) h

theorem meets_stati {ip : LockedInode} {st : UInt32} (h : st.toNat + 20 ≤ sz.toNat)
    {Q : Unit → Memory → Prop} (hQ : ∀ t, Q () t) : Meets sz found Q (stati ip st) s := by
  have hsz := sz.toNat_lt
  have hat : ∀ k, k < 20 → (st + UInt32.ofNat k).toNat = st.toNat + k := fun k hk => by
    rw [UInt32.toNat_add, UInt32.toNat_ofNat']
    omega
  have h₄ : (st + 4).toNat = st.toNat + 4 := hat 4 (by norm_num)
  have h₈ : (st + 8).toNat = st.toNat + 8 := hat 8 (by norm_num)
  have h₁₂ : (st + 12).toNat = st.toNat + 12 := hat 12 (by norm_num)
  have h₁₆ : (st + 16).toNat = st.toNat + 16 := hat 16 (by norm_num)
  simp only [stati, meets_bind]
  refine meets_storeWord (fun t => ?_) (by omega)
  refine meets_storeWord (fun t => ?_) (by omega)
  refine meets_memmove (fun t => ?_) (by omega)
  refine meets_memmove (fun t => ?_) (by omega)
  exact meets_storeWord hQ (by omega)

/-! ### Files -/

theorem meets_filestat {f : OpenFile} {st : UInt32} (h : st.toNat + 20 ≤ sz.toNat)
    {Q : ℤ → Memory → Prop} (hQ : ∀ r t, Q r t) : Meets sz found Q (filestat f st) s := by
  rw [filestat]
  split
  · simp only [meets_bind, meets_ilock]
    exact fun ip off _ => meets_stati h fun t => hQ 0 t
  · exact hQ _ s

theorem meets_fileread {rounds : ℕ} {f : OpenFile} {addr n : UInt32}
    (h : addr.toNat + (int n).toNat ≤ sz.toNat)
    (hover : f.readable = true → f.type = .inode →
      ∀ ip off, found ip off → ¬ Overruns sz ip addr off n)
    {Q : ℤ → Memory → Prop} (hQ : ∀ r t, Q r t) :
    Meets sz found Q (fileread rounds f addr n) s := by
  rw [fileread]
  split
  · exact hQ _ s
  · rename_i hread
    split
    · exact meets_piperead h hQ
    · rename_i htype
      simp only [meets_bind, meets_ilock]
      exact fun ip off hfound => meets_readi h (hover (by simpa using hread) htype ip off hfound) hQ
    · exact meets_panic

theorem meets_filewriteLoop {addr : UInt32} {n : ℕ} (h : addr.toNat + n ≤ sz.toNat)
    {Q : ℕ → Memory → Prop} (hQ : ∀ r t, Q r t) :
    ∀ {fuel i : ℕ} {s : Memory}, Meets sz found Q (filewriteLoop addr n fuel i) s
  | 0, i, s => hQ i s
  | fuel + 1, i, s => by
      have hsz := sz.toNat_lt
      rw [filewriteLoop]
      split
      · rename_i hi
        simp only [meets_bind, meets_ilock]
        intro ip off _
        refine meets_writei ?_ fun r t => ?_
        · rw [UInt32.toNat_add, UInt32.toNat_ofNat', UInt32.toNat_ofNat']
          omega
        · split
          · exact hQ i t
          · split
            · exact meets_panic
            · exact meets_filewriteLoop h hQ
      · exact hQ i s

theorem meets_filewrite {rounds : ℕ} {f : OpenFile} {addr n : UInt32}
    (h : addr.toNat + (int n).toNat ≤ sz.toNat) {Q : ℤ → Memory → Prop} (hQ : ∀ r t, Q r t) :
    Meets sz found Q (filewrite rounds f addr n) s := by
  rw [filewrite]
  split
  · exact hQ _ s
  · split
    · exact meets_pipewrite h hQ
    · rw [meets_bind]
      refine meets_filewriteLoop h fun i t => ?_
      split
      · exact hQ _ t
      · exact hQ _ t
    · exact meets_panic

end Syscall

namespace UserProc

open Syscall

variable {u : UserProc} {s : Memory} {found : LockedInode → UInt32 → Prop}

/-! ### Arguments -/

def word (u : UserProc) (s : Memory) (addr : UInt32) : Option UInt32 :=
  if addr ≥ u.sz ∨ addr + 4 > u.sz then none else some (wordAt s addr)

def arg (u : UserProc) (s : Memory) (n : UInt32) : Option UInt32 :=
  u.word s (u.esp + 4 + 4 * n)

def ptr (u : UserProc) (s : Memory) (n size : UInt32) : Option UInt32 :=
  match u.arg s n with
  | none => none
  | some i => if i ≥ u.sz ∨ i + size > u.sz then none else some i

def file (u : UserProc) (s : Memory) (n : UInt32) : Option OpenFile :=
  match u.arg s n with
  | none => none
  | some fd => u.fdFile fd

section Fetch

variable (hsz : u.sz.toNat ≤ KERNBASE)

include hsz in
/-- The check of `fetchint` leaves room for the word. -/
theorem room_of_check {addr : UInt32} (h : ¬ (addr ≥ u.sz ∨ addr + 4 > u.sz)) :
    addr.toNat + 4 ≤ u.sz.toNat := by
  have hfour : (4 : UInt32).toNat = 4 := rfl
  rw [KERNBASE] at hsz
  rw [not_or, ge_iff_le, gt_iff_lt, UInt32.not_le, UInt32.not_lt, UInt32.lt_iff_toNat_lt,
    UInt32.le_iff_toNat_le, UInt32.toNat_add, hfour] at h
  omega

include hsz in
theorem meets_fetchint {addr : UInt32} {Q : Option UInt32 → Memory → Prop} :
    Meets u.sz found Q (u.fetchint addr) s ↔ Q (u.word s addr) s := by
  rw [fetchint, word]
  split
  · rfl
  · rename_i hcheck
    rw [meets_bind, meets_loadWord (room_of_check hsz hcheck), meets_return]

include hsz in
theorem meets_argint {n : UInt32} {Q : Option UInt32 → Memory → Prop} :
    Meets u.sz found Q (u.argint n) s ↔ Q (u.arg s n) s :=
  meets_fetchint hsz

include hsz in
theorem meets_argptr {n size : UInt32} {Q : Option UInt32 → Memory → Prop} :
    Meets u.sz found Q (u.argptr n size) s ↔ Q (u.ptr s n size) s := by
  rw [argptr, ptr, meets_bind, meets_argint hsz]
  cases u.arg s n with
  | none => rfl
  | some i =>
      dsimp only
      split <;> rfl

include hsz in
theorem meets_argfd {n : UInt32} {Q : Option OpenFile → Memory → Prop} :
    Meets u.sz found Q (u.argfd n) s ↔ Q (u.file s n) s := by
  rw [argfd, file, meets_bind, meets_argint hsz]
  cases u.arg s n with
  | none => rfl
  | some fd => rfl

include hsz in
/-- A pointer that passes `argptr` leaves room for a size that is not negative. -/
theorem room_of_ptr {n size p : UInt32} (h : u.ptr s n size = some p) :
    p.toNat + (int size).toNat ≤ u.sz.toNat := by
  have hsize := size.toNat_lt
  rw [KERNBASE] at hsz
  rw [ptr] at h
  cases harg : u.arg s n with
  | none => simp [harg] at h
  | some i =>
      simp only [harg, Option.ite_none_left_eq_some, Option.some.injEq] at h
      obtain ⟨hcheck, rfl⟩ := h
      rw [not_or, ge_iff_le, gt_iff_lt, UInt32.not_le, UInt32.not_lt, UInt32.lt_iff_toNat_lt,
        UInt32.le_iff_toNat_le, UInt32.toNat_add] at hcheck
      rw [int]
      split <;> omega

end Fetch

/-! ### Strings -/

/-- A string of this length, with its terminating NUL, lies below `proc->sz`. -/
structure HoldsString (u : UserProc) (s : Memory) (addr : UInt32) (len : ℕ) : Prop where
  room : addr.toNat + len < u.sz.toNat
  nul : s (addr + UInt32.ofNat len) = 0
  chars : ∀ k < len, s (addr + UInt32.ofNat k) ≠ 0

/-- The loop of `fetchstr` at `s = pp + i`, after `i` characters. -/
theorem meets_fetchstrLoop {addr : UInt32} :
    ∀ (rounds i : ℕ), addr.toNat + i + rounds = u.sz.toNat →
      (∀ k < i, s (addr + UInt32.ofNat k) ≠ 0) →
      Meets u.sz found (fun r _ => ∀ len, r = some len → u.HoldsString s addr len)
        (fetchstrLoop rounds (addr + UInt32.ofNat i) i) s
  | 0, _, _, _ => by simp [fetchstrLoop]
  | rounds + 1, i, hrounds, hchars => by
      have hlt : addr + UInt32.ofNat i < u.sz :=
        add_lt (n := i + 1) (by omega) (by omega)
      rw [fetchstrLoop, meets_bind, meets_load]
      refine ⟨hlt, ?_⟩
      split
      · rename_i hnul
        rintro len ⟨⟩
        exact ⟨by omega, hnul, hchars⟩
      · rename_i hchar
        have hnext : addr + UInt32.ofNat i + 1 = addr + UInt32.ofNat (i + 1) := by
          rw [UInt32.ofNat_add, UInt32.add_assoc]
          rfl
        rw [hnext]
        refine meets_fetchstrLoop rounds (i + 1) (by omega) fun k hk => ?_
        rcases Nat.lt_succ_iff_lt_or_eq.mp hk with hk | rfl
        · exact hchars k hk
        · exact hchar

/-- What `fetchstr` promises. -/
theorem meets_fetchstr {addr : UInt32} :
    Meets u.sz found (fun r _ => ∀ len, r = some len → u.HoldsString s addr len)
      (u.fetchstr addr) s := by
  rw [fetchstr]
  split
  · simp
  · rename_i hlt
    rw [ge_iff_le, UInt32.not_le, UInt32.lt_iff_toNat_lt] at hlt
    have hloop : Meets u.sz found (fun r _ => ∀ len, r = some len → u.HoldsString s addr len)
        (fetchstrLoop (u.sz.toNat - addr.toNat) (addr + UInt32.ofNat 0) 0) s :=
      meets_fetchstrLoop _ 0 (by omega) (by simp)
    simpa using hloop

/-! ### System calls -/

/-- What the checks of user pointers are for. -/
structure Checked (u : UserProc) (s : Memory) (found : LockedInode → UInt32 → Prop)
    (rounds : ℕ) : Prop where
  read : Meets u.sz found (fun _ _ => True) (u.sysRead rounds) s
  write : Meets u.sz found (fun _ _ => True) (u.sysWrite rounds) s
  fstat : Meets u.sz found (fun _ _ => True) u.sysFstat s
  pipe : Meets u.sz found (fun _ _ => True) u.sysPipe s
  fetchint : ∀ addr, Meets u.sz found
    (fun r _ => ∀ w, r = some w → addr.toNat + 4 ≤ u.sz.toNat) (u.fetchint addr) s
  fetchstr : ∀ addr, Meets u.sz found
    (fun r _ => ∀ len, r = some len → u.HoldsString s addr len) (u.fetchstr addr) s

/-- `sys_read` passes its checks for a negative count, on a file that is found with more
bytes at its offset than there are from the address to `proc->sz`. -/
def Overreads (u : UserProc) (s : Memory) (ip : LockedInode) (off : UInt32) : Prop :=
  ∃ f n p, u.file s 0 = some f ∧ u.arg s 2 = some n ∧ u.ptr s 1 n = some p ∧
    f.readable = true ∧ f.type = .inode ∧ int n < 0 ∧ Overruns u.sz ip p off n

section Calls

variable {rounds : ℕ} (hsz : u.sz.toNat ≤ KERNBASE)

include hsz in
/-- A file is read within the process unless the count is negative. -/
theorem meets_sysRead (hread : ∀ ip off, found ip off → ¬ u.Overreads s ip off) :
    Meets u.sz found (fun _ _ => True) (u.sysRead rounds) s := by
  rw [sysRead, meets_bind, meets_argfd hsz]
  cases hf : u.file s 0 with
  | none => trivial
  | some f =>
      dsimp only
      rw [meets_bind, meets_argint hsz]
      cases hn : u.arg s 2 with
      | none => trivial
      | some n =>
          dsimp only
          rw [meets_bind, meets_argptr hsz]
          cases hp : u.ptr s 1 n with
          | none => trivial
          | some p =>
              have hroom := room_of_ptr hsz hp
              refine meets_fileread hroom (fun hr ht ip off hfound hover => ?_) fun _ _ => trivial
              by_cases hneg : int n < 0
              · exact hread ip off hfound ⟨f, n, p, hf, hn, hp, hr, ht, hneg, hover⟩
              · have hmin := Nat.min_le_left n.toNat (ip.size.toNat - off.toNat)
                have hlt := hover.2.2.2
                have hn := n.toNat_lt
                rw [int] at hneg hroom
                split at hneg
                · rename_i hsmall
                  rw [if_pos hsmall] at hroom
                  omega
                · omega

include hsz in
theorem Overreads.not_meets {ip : LockedInode} {off : UInt32} (h : u.Overreads s ip off)
    (hfound : found ip off) : ¬ Meets u.sz found (fun _ _ => True) (u.sysRead rounds) s := by
  obtain ⟨f, n, p, hf, hn, hp, hr, ht, _, hover⟩ := h
  have hroom := room_of_ptr hsz hp
  rw [sysRead, meets_bind, meets_argfd hsz, hf]
  dsimp only
  rw [meets_bind, meets_argint hsz, hn]
  dsimp only
  rw [meets_bind, meets_argptr hsz, hp]
  dsimp only
  rw [fileread, if_neg (by simp [hr]), ht]
  simp only [meets_bind, meets_ilock]
  exact fun hmeets => hover.not_meets_readi (by omega) (hmeets ip off hfound)

include hsz in
theorem meets_sysWrite : Meets u.sz found (fun _ _ => True) (u.sysWrite rounds) s := by
  rw [sysWrite, meets_bind, meets_argfd hsz]
  cases u.file s 0 with
  | none => trivial
  | some f =>
      dsimp only
      rw [meets_bind, meets_argint hsz]
      cases u.arg s 2 with
      | none => trivial
      | some n =>
          dsimp only
          rw [meets_bind, meets_argptr hsz]
          cases hp : u.ptr s 1 n with
          | none => trivial
          | some p => exact meets_filewrite (room_of_ptr hsz hp) fun _ _ => trivial

include hsz in
theorem meets_sysFstat : Meets u.sz found (fun _ _ => True) u.sysFstat s := by
  rw [sysFstat, meets_bind, meets_argfd hsz]
  cases u.file s 0 with
  | none => trivial
  | some f =>
      dsimp only
      rw [meets_bind, meets_argptr hsz]
      cases hp : u.ptr s 1 sizeofStat with
      | none => trivial
      | some st => exact meets_filestat (room_of_ptr hsz hp) fun _ _ => trivial

include hsz in
theorem meets_sysPipe : Meets u.sz found (fun _ _ => True) u.sysPipe s := by
  rw [sysPipe, meets_bind, meets_argptr hsz]
  cases hp : u.ptr s 0 8 with
  | none => trivial
  | some fd =>
      have hroom : fd.toNat + 8 ≤ u.sz.toNat := room_of_ptr hsz hp
      have hsecond : (fd + 4).toNat = fd.toNat + 4 := by
        have hfour : (4 : UInt32).toNat = 4 := rfl
        have hlt := u.sz.toNat_lt
        rw [UInt32.toNat_add, hfour]
        omega
      simp only [meets_bind, meets_pipealloc]
      rintro (_ | _)
      · trivial
      · simp only [if_true]
        split
        · trivial
        · split
          · trivial
          · simp only [meets_bind]
            refine meets_storeWord (fun t => ?_) (by omega)
            exact meets_storeWord (fun t => trivial) (by omega)

end Calls

/-- For a process of any size up to `KERNBASE`, whatever its stack and memory hold, a system call
with a pointer argument reads and writes user memory only below `proc->sz`, and fails without
touching it when a pointer is outside. This is so exactly if no `sys_read` of the inode that it
may come to has a negative count that `argptr` lets through: `argptr` adds the count to the
pointer, so that the check passes for `-1` and `readi` is asked for `2^32 - 1` bytes. -/
theorem pointers_checked (u : UserProc) (s : Memory) (found : LockedInode → UInt32 → Prop)
    (rounds : ℕ) (hsz : u.sz.toNat ≤ KERNBASE) :
    u.Checked s found rounds ↔ ∀ ip off, found ip off → ¬ u.Overreads s ip off := by
  constructor
  · exact fun h ip off hfound hover => hover.not_meets hsz hfound h.read
  · intro h
    refine ⟨meets_sysRead hsz h, meets_sysWrite hsz, meets_sysFstat hsz, meets_sysPipe hsz,
      fun addr => ?_, fun addr => meets_fetchstr⟩
    rw [meets_fetchint hsz, word]
    split
    · simp
    · rename_i hcheck
      exact fun _ _ => room_of_check hsz hcheck

/-- A process of two pages that calls `read(3, 8191, n)`. -/
def twoPages : UserProc where
  sz := 8192
  esp := 4096
  ofile := fun fd => if fd = 3 then some { type := .inode, readable := true, writable := false }
    else none

def readStack (n : UInt32) : Memory := fun a =>
  if a = 4100 then 3
  else if a = 4104 then 0xff
  else if a = 4105 then 0x1f
  else if 4108 ≤ a ∧ a < 4112 then (n >>> (8 * (a - 4108))).toUInt8
  else 0

def twoBytes : LockedInode where
  dev := 1
  inum := 7
  type := T_FILE
  major := 0
  nlink := 1
  size := 2

/-- `read(3, 8191, 1)` of it stores to the last byte of the process. -/
theorem pointers_checked_twoPages : twoPages.arg (readStack 1) 2 = some 1 ∧
    twoPages.ptr (readStack 1) 1 1 = some 8191 ∧
    twoPages.Checked (readStack 1) (fun ip off => ip = twoBytes ∧ off = 0) 1 := by
  have hcount : twoPages.arg (readStack 1) 2 = some 1 := by decide
  refine ⟨hcount, by decide, (pointers_checked twoPages _ _ 1 (by decide)).mpr fun ip off _ => ?_⟩
  rintro ⟨f, n, p, -, hn, -, -, -, hneg, -⟩
  obtain rfl : 1 = n := Option.some.inj (hcount.symm.trans hn)
  exact absurd hneg (by decide)

/-- `read(3, 8191, -1)` of a file of two bytes stores to address `8192`. -/
theorem read_beyond_sz : ¬ ∀ (u : UserProc) (s : Memory) (found : LockedInode → UInt32 → Prop)
    (rounds : ℕ), u.sz.toNat ≤ KERNBASE → u.Checked s found rounds := by
  intro h
  have hover : twoPages.Overreads (readStack 0xffffffff) twoBytes 0 :=
    ⟨{ type := .inode, readable := true, writable := false }, 0xffffffff, 8191, by decide,
      by decide, by decide, rfl, rfl, by decide, by decide, by decide, by decide, by decide⟩
  exact hover.not_meets (by decide) ⟨rfl, rfl⟩
    (h twoPages (readStack 0xffffffff) (fun ip off => ip = twoBytes ∧ off = 0) 1 (by decide)).read

end UserProc

end Xv6
