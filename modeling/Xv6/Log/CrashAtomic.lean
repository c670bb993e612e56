import Xv6.Log.Recovery

/-!
# Proof of crash atomicity

`Settled k` is a machine at rest with `k` transactions on the disk, `Pending` one
whose cache holds a transaction that is not logged yet, and `Installing k` one
whose header and log blocks hold it, with some homes still to be written. Each
function of `log.c` takes one of these to the next and keeps `Consistent` at every
call; recovery only needs `Consistent` to begin with.
-/

namespace Xv6

open Foundation

namespace Machine

variable {start size : ℕ}

/-- Recovery of the disk `d` gives the contents `D`: the header names home blocks,
the log blocks hold their contents, and the others are in place. -/
structure Recoverable (start size : ℕ) (d D : Disk) : Prop where
  small : (d start).header.n < 128 ∧ (d start).header.n ≤ size - 1
  home : ∀ s ∈ (d start).header.sector, ¬ InLog start size s
  logged : ∀ e ∈ (d start).header.sector.zipIdx, d (start + e.2 + 1) = D e.1
  rest : ∀ s, ¬ InLog start size s → s ∉ (d start).header.sector → d s = D s

/-- The crash condition: recovery gives the state after some prefix of the
transactions, and the prefix contains every durable one. -/
def Consistent (start size : ℕ) (m : Machine) : Prop :=
  ∃ k, m.durable ≤ k ∧ k ≤ m.txs.length ∧
    Recoverable start size m.disk (contents m.base (m.txs.take k))

/-- At rest, with the first `k` transactions on the disk. -/
structure Settled (start size k : ℕ) (m : Machine) : Prop where
  lh : m.lh = LogHeader.empty
  cache : m.cache = m.disk
  clean : (m.disk start).word 0 = 0
  durable : m.durable ≤ k
  prefixLe : k ≤ m.txs.length
  home : ∀ s, ¬ InLog start size s → m.disk s = contents m.base (m.txs.take k) s

/-- Before `write_head` commits the last transaction: the disk still holds the
earlier ones, and the cache differs from it at the logged sectors only. -/
structure Pending (start size : ℕ) (D₀ D : Disk) (m : Machine) : Prop where
  clean : (m.disk start).word 0 = 0
  small : m.lh.n < 128 ∧ m.lh.n ≤ size - 1
  sectors : ∀ s ∈ m.lh.sector, ¬ InLog start size s ∧ s < 2 ^ 32
  disk : ∀ s, ¬ InLog start size s → m.disk s = D₀ s
  cache : ∀ s, ¬ InLog start size s → m.cache s = D s
  log : ∀ s, InLog start size s → m.cache s = m.disk s
  rest : ∀ s, s ∉ m.lh.sector → D₀ s = D s

/-- After the header is written: homes in `es` are still to be installed. -/
structure Installing (start size : ℕ) (D : Disk) (es : List (ℕ × ℕ)) (m : Machine) :
    Prop where
  header : (m.disk start).header = m.lh
  small : m.lh.n < 128 ∧ m.lh.n ≤ size - 1
  sectors : ∀ s ∈ m.lh.sector, ¬ InLog start size s
  todo : ∀ e ∈ es, e ∈ m.lh.sector.zipIdx
  logged : ∀ e ∈ m.lh.sector.zipIdx, m.disk (start + e.2 + 1) = D e.1
  log : ∀ s, InLog start size s → m.cache s = m.disk s
  home : ∀ s, ¬ InLog start size s → s ∉ es.map Prod.fst →
    m.disk s = D s ∧ m.cache s = D s

/-! ### Sectors with their index -/

theorem fst_mem_of_mem_zipIdx {l : List ℕ} {e : ℕ × ℕ} (h : e ∈ l.zipIdx) : e.1 ∈ l := by
  obtain ⟨s, i⟩ := e
  exact (List.mem_zipIdx' h).2 ▸ List.getElem_mem _

theorem snd_lt_of_mem_zipIdx {l : List ℕ} {e : ℕ × ℕ} (h : e ∈ l.zipIdx) :
    e.2 < l.length := by
  obtain ⟨s, i⟩ := e
  exact (List.mem_zipIdx' h).1

/-- The log block of a logged sector lies in the log area, and is not the header. -/
theorem logBlock_inLog {l : List ℕ} {e : ℕ × ℕ} (h : e ∈ l.zipIdx)
    (hl : l.length ≤ size - 1) : InLog start size (start + e.2 + 1) := by
  have := snd_lt_of_mem_zipIdx h
  unfold InLog
  omega

/-- Two logged sectors with the same index are the same. -/
theorem eq_of_zipIdx_snd {l : List ℕ} {e f : ℕ × ℕ} (he : e ∈ l.zipIdx)
    (hf : f ∈ l.zipIdx) (h : e.2 = f.2) : e = f := by
  obtain ⟨s, i⟩ := e
  obtain ⟨t, j⟩ := f
  obtain rfl : i = j := h
  rw [(List.mem_zipIdx' he).2, (List.mem_zipIdx' hf).2]

/-! ### The crash condition -/

/-- The history is the same: nothing was committed or handed over in between. -/
structure SameHistory (m m' : Machine) : Prop where
  base : m'.base = m.base
  txs : m'.txs = m.txs
  durable : m'.durable = m.durable

theorem SameHistory.refl (m : Machine) : SameHistory m m := ⟨rfl, rfl, rfl⟩

theorem SameHistory.trans {m₁ m₂ m₃ : Machine} (h : SameHistory m₁ m₂)
    (h' : SameHistory m₂ m₃) : SameHistory m₁ m₃ :=
  ⟨h'.base.trans h.base, h'.txs.trans h.txs, h'.durable.trans h.durable⟩

theorem SameHistory.update (m : Machine) (disk cache : Disk) :
    SameHistory m { m with disk := disk, cache := cache } := ⟨rfl, rfl, rfl⟩

/-- A prefix that is long enough for `m` serves every machine with its history. -/
theorem SameHistory.consistent {k : ℕ} {m t : Machine} (hs : SameHistory m t)
    (hk : m.durable ≤ k ∧ k ≤ m.txs.length)
    (hrec : Recoverable start size t.disk (contents m.base (m.txs.take k))) :
    Consistent start size t := by
  refine ⟨k, ?_, ?_, ?_⟩
  · rw [hs.durable]
    exact hk.1
  · rw [hs.txs]
    exact hk.2
  · rwa [hs.base, hs.txs]

/-- The crash condition does not look at the cache. -/
theorem Consistent.cache {m : Machine} (h : Consistent start size m) (cache : Disk) :
    Consistent start size { m with cache := cache } := h

/-- With an empty header the disk itself is what recovery gives. -/
theorem Recoverable.of_clean {d D : Disk} (hclean : (d start).word 0 = 0)
    (hd : ∀ s, ¬ InLog start size s → d s = D s) : Recoverable start size d D where
  small := by simp [hclean]
  home := by simp [hclean]
  logged := by simp [hclean]
  rest := fun s hs _ => hd s hs

theorem Settled.consistent {k : ℕ} {m : Machine} (h : Settled start size k m) :
    Consistent start size m := by
  refine ⟨k, h.durable, h.prefixLe, ?_⟩
  exact Recoverable.of_clean h.clean h.home

theorem Consistent.reboot {m : Machine} (h : Consistent start size m) :
    Consistent start size m.reboot := h

theorem Installing.recoverable {D : Disk} {es : List (ℕ × ℕ)} {m : Machine}
    (h : Installing start size D es m) : Recoverable start size m.disk D where
  small := by
    rw [h.header]
    exact h.small
  home := by
    rw [h.header]
    exact h.sectors
  logged := by
    rw [h.header]
    exact h.logged
  rest := by
    intro s hs hmem
    rw [h.header] at hmem
    refine (h.home s hs ?_).1
    intro hes
    obtain ⟨e, he, rfl⟩ := List.mem_map.mp hes
    exact hmem (fst_mem_of_mem_zipIdx (h.todo e he))

/-- A consistent disk that has just been booted is one whose log is to be
installed. -/
theorem Recoverable.installing {D : Disk} {m : Machine}
    (h : Recoverable start size m.disk D) (hcache : m.cache = m.disk)
    (hlh : m.lh = (m.disk start).header) :
    Installing start size D m.lh.sector.zipIdx m where
  header := hlh.symm
  small := hlh ▸ h.small
  sectors := hlh ▸ h.home
  todo := fun _ he => he
  logged := hlh ▸ h.logged
  log := by
    intro s _
    rw [hcache]
  home := by
    intro s hs hmem
    rw [hcache]
    have hrest := h.rest s hs (by rwa [← hlh, ← List.zipIdx_map_fst 0 m.lh.sector])
    exact ⟨hrest, hrest⟩

/-! ### The functions of `log.c` -/

/-- One round of a copying loop changes one block of the cache and writes it. -/
theorem wpc_writeLogBlock {C : Machine → Prop} {Q : PUnit → Machine → Prop} {e : ℕ × ℕ}
    {m : Machine} (hC : ∀ cache, C { m with cache := cache })
    (hQ : ∀ m', m' = { m with
        disk := Function.update m.disk (start + e.2 + 1) (m.cache e.1)
        cache := Function.update m.cache (start + e.2 + 1) (m.cache e.1) } →
      C m' ∧ Q ⟨⟩ m') :
    wpc (handle start) C Q (LogProgram.writeLogBlock start e) m := by
  have hne : start + e.2 + 1 ≠ start := by omega
  have hend := hQ _ rfl
  simp only [LogProgram.writeLogBlock, LogProgram.bread, LogProgram.memmove,
    LogProgram.getData, LogProgram.setData, LogProgram.bwrite, LogProgram.brelse,
    Program.call_bind, Program.done_bind, wpc_call, wpc_done, handle, hne, false_and,
    if_false, Function.update_self]
  exact ⟨hC m.cache, hC m.cache, hC m.cache, hC m.cache, hC _, hend.1, hend.1, hend⟩

/-- The same for `install_trans`. -/
theorem wpc_installBlock {C : Machine → Prop} {Q : PUnit → Machine → Prop} {e : ℕ × ℕ}
    {m : Machine} (he : e.1 ≠ start) (hC : ∀ cache, C { m with cache := cache })
    (hQ : ∀ m', m' = { m with
        disk := Function.update m.disk e.1 (m.cache (start + e.2 + 1))
        cache := Function.update m.cache e.1 (m.cache (start + e.2 + 1)) } →
      C m' ∧ Q ⟨⟩ m') :
    wpc (handle start) C Q (LogProgram.installBlock start e) m := by
  have hend := hQ _ rfl
  simp only [LogProgram.installBlock, LogProgram.bread, LogProgram.memmove,
    LogProgram.getData, LogProgram.setData, LogProgram.bwrite, LogProgram.brelse,
    Program.call_bind, Program.done_bind, wpc_call, wpc_done, handle, he, false_and,
    if_false, Function.update_self]
  exact ⟨hC m.cache, hC m.cache, hC m.cache, hC m.cache, hC _, hend.1, hend.1, hend⟩

/-- `write_head` replaces the header block. -/
theorem wpc_writeHead {C : Machine → Prop} {Q : PUnit → Machine → Prop} {m : Machine}
    (hC : ∀ cache, C { m with cache := cache })
    (hQ : ∀ m', m' = { m with
        disk := Function.update m.disk start ((m.cache start).putHeader m.lh)
        cache := Function.update m.cache start ((m.cache start).putHeader m.lh)
        durable := if 0 < m.lh.n then m.txs.length else m.durable } →
      C m' ∧ Q ⟨⟩ m') :
    wpc (handle start) C Q (LogProgram.writeHead start) m := by
  have hend := hQ _ rfl
  simp only [LogProgram.writeHead, LogProgram.bread, LogProgram.getLh,
    LogProgram.getData, LogProgram.setData, LogProgram.bwrite, LogProgram.brelse,
    Program.call_bind, Program.done_bind, wpc_call, wpc_done, handle, true_and,
    Function.update_self]
  exact ⟨hC m.cache, hC m.cache, hC m.cache, hC m.cache, hC _, hend.1, hend⟩

theorem Installing.installBlock {D : Disk} {e : ℕ × ℕ} {es : List (ℕ × ℕ)} {m : Machine}
    (h : Installing start size D (e :: es) m) :
    Installing start size D es { m with
      disk := Function.update m.disk e.1 (m.cache (start + e.2 + 1))
      cache := Function.update m.cache e.1 (m.cache (start + e.2 + 1)) } := by
  have he := h.todo e List.mem_cons_self
  have hhome := h.sectors e.1 (fst_mem_of_mem_zipIdx he)
  have hblock : InLog start size (start + e.2 + 1) := logBlock_inLog he h.small.2
  have hdata : m.cache (start + e.2 + 1) = D e.1 := by
    rw [h.log _ hblock, h.logged e he]
  have hne : ∀ b, InLog start size b → b ≠ e.1 := fun b hb heq => hhome (heq ▸ hb)
  have hstart : start ≠ e.1 := by
    refine hne start ?_
    unfold InLog at hblock ⊢
    omega
  refine ⟨?_, h.small, h.sectors, fun f hf => h.todo f (List.mem_cons_of_mem e hf), ?_, ?_, ?_⟩
  · simp only [Function.update_of_ne hstart]
    exact h.header
  · intro f hf
    have hf' := hne (start + f.2 + 1) (logBlock_inLog hf h.small.2)
    simp only [Function.update_of_ne hf']
    exact h.logged f hf
  · intro b hb
    simp only [Function.update_of_ne (hne b hb)]
    exact h.log b hb
  · intro s hs hmem
    by_cases hse : s = e.1
    · subst hse
      simp [hdata]
    · simp only [Function.update_of_ne hse]
      refine h.home s hs ?_
      simpa [hse] using hmem

/-- `install_trans` installs the whole log. -/
theorem wpc_installTrans {D : Disk} {k : ℕ} {m : Machine}
    (h : Installing start size D m.lh.sector.zipIdx m)
    (hD : D = contents m.base (m.txs.take k)) (hk : m.durable ≤ k ∧ k ≤ m.txs.length) :
    wpc (handle start) (Consistent start size)
      (fun _ t => Installing start size D [] t ∧ SameHistory m t)
      (LogProgram.installTrans start) m := by
  have hC : ∀ (es : List (ℕ × ℕ)) (t : Machine),
      Installing start size D es t ∧ SameHistory m t → Consistent start size t := by
    rintro es t ⟨ht, hs⟩
    exact hs.consistent hk (hD ▸ ht.recoverable)
  simp only [LogProgram.installTrans, LogProgram.getLh, Program.call_bind,
    Program.done_bind, wpc_call]
  refine ⟨hC _ _ ⟨h, .refl m⟩, ?_⟩
  refine wpc_forEach (fun es t => Installing start size D es t ∧ SameHistory m t) hC ?_
    ⟨h, .refl m⟩
  rintro e es t ⟨ht, hs⟩
  have he := ht.todo e List.mem_cons_self
  have hhome := ht.sectors e.1 (fst_mem_of_mem_zipIdx he)
  have hblock : InLog start size (start + e.2 + 1) := logBlock_inLog he ht.small.2
  have hstart : e.1 ≠ start := by
    rintro heq
    refine hhome ?_
    unfold InLog at hblock ⊢
    omega
  refine wpc_installBlock hstart (hC _ _ ⟨ht, hs⟩).cache ?_
  rintro t' rfl
  have ht' := ht.installBlock
  exact ⟨hC es _ ⟨ht', hs.trans (.update t _ _)⟩, ht', hs.trans (.update t _ _)⟩

/-- Clearing the log after everything is installed. -/
theorem wpc_clearLog {k : ℕ} {m : Machine}
    (h : Installing start size (contents m.base (m.txs.take k)) [] m)
    (hk : m.durable ≤ k ∧ k ≤ m.txs.length) (hstart : InLog start size start) :
    wpc (handle start) (Consistent start size)
      (fun _ t => Settled start size k t ∧ SameHistory m t)
      (LogProgram.setLh LogHeader.empty >>= fun _ => LogProgram.writeHead start) m := by
  have hC : Consistent start size m := ⟨k, hk.1, hk.2, h.recoverable⟩
  simp only [LogProgram.setLh, Program.call_bind, Program.done_bind, wpc_call]
  refine ⟨hC, wpc_writeHead hC.cache ?_⟩
  · rintro m' rfl
    have hset : Settled start size k { m with
        lh := LogHeader.empty
        disk := Function.update m.disk start ((m.cache start).putHeader LogHeader.empty)
        cache := Function.update m.cache start ((m.cache start).putHeader LogHeader.empty)
        durable := if 0 < LogHeader.empty.n then m.txs.length else m.durable } := by
      refine ⟨rfl, ?_, ?_, ?_, hk.2, ?_⟩
      · funext b
        by_cases hb : b = start
        · subst hb
          simp
        · simp only [Function.update_of_ne hb]
          by_cases hlog : InLog start size b
          · exact h.log b hlog
          · have hhome := h.home b hlog (by simp)
            rw [hhome.1, hhome.2]
      · have hword := (m.cache start).word_zero_putHeader (show LogHeader.empty.n < 128 by simp)
        simpa using hword
      · simpa using hk.1
      · intro s hs
        have hne : s ≠ start := fun heq => hs (heq ▸ hstart)
        simp only [Function.update_of_ne hne]
        exact (h.home s hs (by simp)).1
    exact ⟨hset.consistent, hset, ⟨rfl, rfl, by simp [handle]⟩⟩

/-- `recover_from_log` on a consistent disk settles it. -/
theorem wpc_recoverFromLog {m : Machine} (h : Consistent start size m)
    (hcache : m.cache = m.disk) (hstart : InLog start size start) :
    wpc (handle start) (Consistent start size) (fun _ t => ∃ k, Settled start size k t)
      (LogProgram.recoverFromLog start) m := by
  obtain ⟨k, hk₁, hk₂, hrec⟩ := h
  have hC : ∀ lh, Consistent start size { m with lh := lh } := fun _ => ⟨k, hk₁, hk₂, hrec⟩
  unfold LogProgram.recoverFromLog
  refine wpc_bind ?_
  simp only [LogProgram.readHead, LogProgram.bread, LogProgram.getData, LogProgram.setLh,
    LogProgram.brelse, Program.call_bind, Program.done_bind, wpc_call, wpc_done, handle]
  refine ⟨hC m.lh, hC m.lh, hC m.lh, hC _, hC _, ?_⟩
  let m₁ : Machine := { m with lh := (m.cache start).header }
  have hinst : Installing start size (contents m.base (m.txs.take k))
      m₁.lh.sector.zipIdx m₁ :=
    Recoverable.installing (m := m₁) hrec hcache (by rw [← hcache])
  refine wpc_bind ((wpc_installTrans (m := m₁) hinst rfl ⟨hk₁, hk₂⟩).mono ?_)
  rintro - t ⟨ht, hs⟩
  have hD : contents m.base (m.txs.take k) = contents t.base (t.txs.take k) := by
    rw [hs.base, hs.txs]
  rw [hD] at ht
  refine (wpc_clearLog ht ⟨?_, ?_⟩ hstart).mono fun _ u hu => ⟨k, hu.1⟩
  · rw [hs.durable]
    exact hk₁
  · rw [hs.txs]
    exact hk₂

/-! ### Building a transaction -/

/-- One write of a transaction goes to the cache and to the log. -/
theorem Pending.logWrite {D₀ D : Disk} {m m' : Machine} {w : ℕ × Block}
    (h : Pending start size D₀ D m) (hw : ¬ InLog start size w.1 ∧ w.1 < 2 ^ 32)
    (hm : m.logWrite start size w = some m') :
    Pending start size D₀ (Function.update D w.1 w.2) m' ∧ SameHistory m m' := by
  unfold Machine.logWrite at hm
  split at hm
  · rename_i log hlog
    obtain ⟨hn, hsize, -, rfl⟩ := Log.logWrite_eq_ok hlog
    rw [Option.some.injEq] at hm
    subst hm
    have hmem : ∀ s, s ∈ (if w.1 ∈ m.lh.sector then m.lh
        else ⟨m.lh.sector ++ [w.1]⟩ : LogHeader).sector ↔ s ∈ m.lh.sector ∨ s = w.1 :=
      fun s => Log.mem_of_logWrite hlog
    have hne : ∀ s, InLog start size s → s ≠ w.1 := fun s hs heq => hw.1 (heq ▸ hs)
    refine ⟨⟨h.clean, ?_, ?_, h.disk, ?_, ?_, ?_⟩, ⟨rfl, rfl, rfl⟩⟩
    · simp only [LOGSIZE, MAXOPBLOCKS] at hn
      dsimp only
      split
      · exact h.small
      · simp only [LogHeader.n, List.length_append, List.length_singleton] at hn hsize ⊢
        omega
    · intro s hs
      rcases (hmem s).mp hs with hs | rfl
      · exact h.sectors s hs
      · exact hw
    · intro s hs
      by_cases hsw : s = w.1
      · subst hsw
        simp
      · simp only [Function.update_of_ne hsw]
        exact h.cache s hs
    · intro s hs
      simp only [Function.update_of_ne (hne s hs)]
      exact h.log s hs
    · intro s hs
      have hnot := not_or.mp fun hin => hs ((hmem s).mpr hin)
      rw [Function.update_of_ne hnot.2]
      exact h.rest s hnot.1
  · cases hm

theorem Pending.logTx {D₀ : Disk} {tx : Transaction} :
    ∀ {D : Disk} {m m' : Machine}, Pending start size D₀ D m →
      (∀ w ∈ tx, ¬ InLog start size w.1 ∧ w.1 < 2 ^ 32) →
      m.logTx start size tx = some m' →
      Pending start size D₀ (applyTx D tx) m' ∧ SameHistory m m' := by
  induction tx with
  | nil =>
      intro D m m' h _ hm
      rw [Machine.logTx, Option.some.injEq] at hm
      subst hm
      exact ⟨h, ⟨rfl, rfl, rfl⟩⟩
  | cons w tx ih =>
      intro D m m' h hw hm
      rw [Machine.logTx, Option.bind_eq_some_iff] at hm
      obtain ⟨m₁, hm₁, hm⟩ := hm
      obtain ⟨h₁, hs₁⟩ := h.logWrite (hw w List.mem_cons_self) hm₁
      obtain ⟨h₂, hs₂⟩ := ih h₁ (fun v hv => hw v (List.mem_cons_of_mem w hv)) hm
      exact ⟨h₂, hs₁.trans hs₂⟩

/-- A machine at rest is ready for its next transaction. -/
theorem Settled.pending {m : Machine} {k : ℕ} (h : Settled start size k m) :
    Pending start size (contents m.base (m.txs.take k)) (contents m.base (m.txs.take k)) m
    where
  clean := h.clean
  small := by simp [h.lh]
  sectors := by simp [h.lh]
  disk := h.home
  cache := by
    rw [h.cache]
    exact h.home
  log := by simp [h.cache]
  rest := fun _ _ => rfl

/-! ### The commit -/

/-- Inside `write_log`: the blocks of `es` are still to be copied. -/
structure Logging (start size : ℕ) (D₀ D : Disk) (es : List (ℕ × ℕ)) (m : Machine) :
    Prop where
  pending : Pending start size D₀ D m
  todo : ∀ e ∈ es, e ∈ m.lh.sector.zipIdx
  logged : ∀ e ∈ m.lh.sector.zipIdx, e ∉ es → m.disk (start + e.2 + 1) = D e.1

theorem Logging.writeLogBlock {D₀ D : Disk} {e : ℕ × ℕ} {es : List (ℕ × ℕ)} {m : Machine}
    (h : Logging start size D₀ D (e :: es) m) :
    Logging start size D₀ D es { m with
      disk := Function.update m.disk (start + e.2 + 1) (m.cache e.1)
      cache := Function.update m.cache (start + e.2 + 1) (m.cache e.1) } := by
  have hp := h.pending
  have he := h.todo e List.mem_cons_self
  have hblock : InLog start size (start + e.2 + 1) := logBlock_inLog he hp.small.2
  have hne : ∀ s, ¬ InLog start size s → s ≠ start + e.2 + 1 :=
    fun s hs heq => hs (heq ▸ hblock)
  have hstart : start ≠ start + e.2 + 1 := by omega
  have hdata : m.cache e.1 = D e.1 :=
    hp.cache _ (hp.sectors e.1 (fst_mem_of_mem_zipIdx he)).1
  refine ⟨⟨?_, hp.small, hp.sectors, ?_, ?_, ?_, hp.rest⟩,
    fun f hf => h.todo f (List.mem_cons_of_mem e hf), ?_⟩
  · simp only [Function.update_of_ne hstart]
    exact hp.clean
  · intro s hs
    simp only [Function.update_of_ne (hne s hs)]
    exact hp.disk s hs
  · intro s hs
    simp only [Function.update_of_ne (hne s hs)]
    exact hp.cache s hs
  · intro b hb
    by_cases hbe : b = start + e.2 + 1
    · subst hbe
      simp
    · simp only [Function.update_of_ne hbe]
      exact hp.log b hb
  · intro f hf hmem
    by_cases hfe : f = e
    · subst hfe
      simp [hdata]
    · have hidx : start + f.2 + 1 ≠ start + e.2 + 1 := by
        intro heq
        exact hfe (eq_of_zipIdx_snd hf he (by omega))
      simp only [Function.update_of_ne hidx]
      exact h.logged f hf (by simp [hfe, hmem])

/-- `write_log` copies every logged block. -/
theorem wpc_writeLog {D : Disk} {k : ℕ} {m : Machine}
    (h : Pending start size (contents m.base (m.txs.take k)) D m)
    (hk : m.durable ≤ k ∧ k ≤ m.txs.length) :
    wpc (handle start) (Consistent start size)
      (fun _ t => Logging start size (contents m.base (m.txs.take k)) D [] t ∧
        SameHistory m t)
      (LogProgram.writeLog start) m := by
  have hC : ∀ (es : List (ℕ × ℕ)) (t : Machine),
      Logging start size (contents m.base (m.txs.take k)) D es t ∧ SameHistory m t →
      Consistent start size t := by
    rintro es t ⟨ht, hs⟩
    exact hs.consistent hk (Recoverable.of_clean ht.pending.clean ht.pending.disk)
  have hstart : Logging start size (contents m.base (m.txs.take k)) D
      m.lh.sector.zipIdx m :=
    ⟨h, fun _ he => he, fun _ he hnot => absurd he hnot⟩
  simp only [LogProgram.writeLog, LogProgram.getLh, Program.call_bind,
    Program.done_bind, wpc_call]
  refine ⟨hC _ _ ⟨hstart, .refl m⟩, ?_⟩
  refine wpc_forEach (fun es t =>
    Logging start size (contents m.base (m.txs.take k)) D es t ∧ SameHistory m t) hC ?_
    ⟨hstart, .refl m⟩
  rintro e es t ⟨ht, hs⟩
  refine wpc_writeLogBlock (hC _ _ ⟨ht, hs⟩).cache ?_
  rintro t' rfl
  have ht' := ht.writeLogBlock
  exact ⟨hC es _ ⟨ht', hs.trans (.update t _ _)⟩, ht', hs.trans (.update t _ _)⟩

/-- The committing `write_head`: from here on recovery installs the transaction. -/
theorem Logging.writeHead {D₀ D : Disk} {m : Machine} (h : Logging start size D₀ D [] m)
    (hstart : InLog start size start) (n : ℕ) :
    Installing start size D m.lh.sector.zipIdx { m with
      disk := Function.update m.disk start ((m.cache start).putHeader m.lh)
      cache := Function.update m.cache start ((m.cache start).putHeader m.lh)
      durable := n } := by
  have hp := h.pending
  have hne : ∀ s, ¬ InLog start size s → s ≠ start := fun s hs heq => hs (heq ▸ hstart)
  refine ⟨?_, hp.small, fun s hs => (hp.sectors s hs).1, fun _ he => he, ?_, ?_, ?_⟩
  · simp only [Function.update_self]
    exact Block.header_putHeader _ hp.small.1 fun s hs => (hp.sectors s hs).2
  · intro e he
    have hidx : start + e.2 + 1 ≠ start := by omega
    simp only [Function.update_of_ne hidx]
    exact h.logged e he (by simp)
  · intro b hb
    by_cases hbs : b = start
    · subst hbs
      simp
    · simp only [Function.update_of_ne hbs]
      exact hp.log b hb
  · intro s hs hmem
    rw [List.zipIdx_map_fst] at hmem
    simp only [Function.update_of_ne (hne s hs)]
    exact ⟨(hp.disk s hs).trans (hp.rest s hmem), hp.cache s hs⟩

/-- From the committing `write_head` to the end of `commit()`. -/
theorem wpc_commitLogged {D₀ : Disk} {m : Machine}
    (h : Logging start size D₀ (contents m.base m.txs) [] m)
    (hC : Consistent start size m) (hd : m.durable ≤ m.txs.length)
    (hstart : InLog start size start) :
    wpc (handle start) (Consistent start size)
      (fun _ t => Settled start size t.txs.length t)
      (LogProgram.writeHead start >>= fun _ => LogProgram.installTrans start >>= fun _ =>
        LogProgram.setLh LogHeader.empty >>= fun _ => LogProgram.writeHead start) m := by
  refine wpc_bind (wpc_writeHead hC.cache ?_)
  rintro m₁ hm₁
  have hbase : m₁.base = m.base := by rw [hm₁]
  have htxs : m₁.txs = m.txs := by rw [hm₁]
  have hn : m₁.durable ≤ m₁.txs.length ∧ m₁.txs.length ≤ m₁.txs.length := by
    refine ⟨?_, le_rfl⟩
    rw [hm₁]
    dsimp only
    split
    · exact le_rfl
    · exact hd
  have hinst : Installing start size (contents m₁.base (m₁.txs.take m₁.txs.length))
      m₁.lh.sector.zipIdx m₁ := by
    rw [List.take_length, hbase, htxs, hm₁]
    exact h.writeHead hstart _
  refine ⟨(SameHistory.refl m₁).consistent hn hinst.recoverable, ?_⟩
  refine wpc_bind ((wpc_installTrans hinst rfl hn).mono ?_)
  rintro - t ⟨ht, hs⟩
  have hD : contents m₁.base (m₁.txs.take m₁.txs.length) =
      contents t.base (t.txs.take m₁.txs.length) := by
    rw [hs.base, hs.txs]
  rw [hD] at ht
  refine (wpc_clearLog ht ⟨?_, ?_⟩ hstart).mono ?_
  · rw [hs.durable]
    exact hn.1
  · rw [hs.txs]
  · rintro - u ⟨hu, hsu⟩
    have hlen : u.txs.length = m₁.txs.length := by
      rw [hsu.txs, hs.txs]
    rwa [hlen]

/-- A transaction without writes is committed by doing nothing. -/
theorem Pending.settled {D₀ : Disk} {m : Machine}
    (h : Pending start size D₀ (contents m.base m.txs) m) (hn : m.lh.n = 0)
    (hd : m.durable ≤ m.txs.length) : Settled start size m.txs.length m := by
  have hsec : m.lh.sector = [] := List.length_eq_zero_iff.mp hn
  have hD : ∀ s, D₀ s = contents m.base m.txs s := fun s => h.rest s (by simp [hsec])
  refine ⟨?_, ?_, h.clean, hd, le_rfl, ?_⟩
  · cases hlh : m.lh
    simp_all [LogHeader.empty]
  · funext b
    by_cases hb : InLog start size b
    · exact h.log b hb
    · rw [h.cache b hb, h.disk b hb, hD]
  · intro s hs
    rw [List.take_length, h.disk s hs, hD]

/-- `commit()` puts the last transaction on the disk. -/
theorem wpc_commit {k : ℕ} {m : Machine}
    (h : Pending start size (contents m.base (m.txs.take k)) (contents m.base m.txs) m)
    (hk : m.durable ≤ k ∧ k ≤ m.txs.length) (hstart : InLog start size start) :
    wpc (handle start) (Consistent start size)
      (fun _ t => Settled start size t.txs.length t) (LogProgram.commit start) m := by
  have hC : Consistent start size m :=
    (SameHistory.refl m).consistent hk (Recoverable.of_clean h.clean h.disk)
  simp only [LogProgram.commit, LogProgram.getLh, Program.call_bind, Program.done_bind,
    wpc_call]
  refine ⟨hC, ?_⟩
  by_cases hn : m.lh.n > 0
  · simp only [handle, hn, if_true, LogProgram.commitBody]
    refine wpc_bind ((wpc_writeLog h hk).mono ?_)
    rintro - t ⟨ht, hs⟩
    have hCt : Consistent start size t :=
      hs.consistent hk (Recoverable.of_clean ht.pending.clean ht.pending.disk)
    have hD : contents m.base m.txs = contents t.base t.txs := by
      rw [hs.base, hs.txs]
    rw [hD] at ht
    refine wpc_commitLogged ht hCt ?_ hstart
    rw [hs.durable, hs.txs]
    exact hk.1.trans hk.2
  · simp only [handle, hn, if_false, Program.pure_eq, wpc_done]
    exact ⟨hC, h.settled (by omega) (hk.1.trans hk.2)⟩

end Machine

namespace Sys

variable {start size : ℕ}

/-- What holds in every reachable state: between commits the machine is settled with
every transaction on its disk, and inside a function what remains of the function
settles it and is safe to interrupt. -/
def Inv (start size : ℕ) (s : Sys) : Prop :=
  match s.mode with
  | .running => Machine.Settled start size s.m.txs.length s.m
  | .committing p =>
      wpc (Machine.handle start) (Machine.Consistent start size)
        (fun _ t => Machine.Settled start size t.txs.length t) p s.m
  | .recovering p =>
      wpc (Machine.handle start) (Machine.Consistent start size)
        (fun _ t => ∃ k, Machine.Settled start size k t) p s.m
  | .recovered => ∃ k, Machine.Settled start size k s.m

theorem Inv.consistent {s : Sys} (h : Inv start size s) :
    Machine.Consistent start size s.m := by
  obtain ⟨m, mode⟩ := s
  cases mode with
  | running => exact Machine.Settled.consistent h
  | committing p => exact wpc.crash h
  | recovering p => exact wpc.crash h
  | recovered =>
      obtain ⟨k, hk⟩ := h
      exact hk.consistent

/-- Handing over a transaction puts the machine at the start of `commit()`. -/
theorem Inv.transaction {m m' : Machine} {tx : Transaction}
    (h : Machine.Settled start size m.txs.length m)
    (htx : ∀ w ∈ tx, ¬ InLog start size w.1 ∧ w.1 < 2 ^ 32)
    (hm : m.logTx start size tx = some m') (hstart : InLog start size start) :
    Inv start size
      ⟨{ m' with txs := m.txs ++ [tx] }, .committing (LogProgram.commit start)⟩ := by
  obtain ⟨hp, hs⟩ := h.pending.logTx htx hm
  refine Machine.wpc_commit (k := m.txs.length) ?_ ⟨?_, by simp⟩ hstart
  · have htake : (m.txs ++ [tx]).take m.txs.length = m.txs := by simp
    rw [List.take_length] at hp
    simp only [htake, contents_concat, hs.base]
    exact ⟨hp.clean, hp.small, hp.sectors, hp.disk, hp.cache, hp.log, hp.rest⟩
  · simp only [hs.durable]
    exact h.durable

theorem Inv.step {s t : Sys} {l : Label} (h : Inv start size s)
    (hstart : InLog start size start) (hl : Sys.step start size s l = some t) :
    Inv start size t := by
  obtain ⟨m, mode⟩ := s
  cases l with
  | transaction tx =>
      cases mode with
      | running =>
          simp only [Sys.step] at hl
          split at hl
          · rename_i htx
            obtain ⟨m', hm', rfl⟩ := Option.map_eq_some_iff.mp hl
            exact Inv.transaction h htx hm' hstart
          · cases hl
      | committing p => cases p <;> simp [Sys.step] at hl
      | recovering p => cases p <;> simp [Sys.step] at hl
      | recovered => simp [Sys.step] at hl
  | exec =>
      cases mode with
      | running => simp [Sys.step] at hl
      | committing p =>
          cases p with
          | done a =>
              simp only [Sys.step, Option.some.injEq] at hl
              subst hl
              exact h.2
          | call o k =>
              simp only [Sys.step, Option.some.injEq] at hl
              subst hl
              exact h.2
      | recovering p =>
          cases p with
          | done a =>
              simp only [Sys.step, Option.some.injEq] at hl
              subst hl
              exact h.2
          | call o k =>
              simp only [Sys.step, Option.some.injEq] at hl
              subst hl
              exact h.2
      | recovered => simp [Sys.step] at hl
  | crash =>
      have ht : t = ⟨m.reboot, .recovering (LogProgram.recoverFromLog start)⟩ := by
        cases mode with
        | running => simpa [Sys.step, eq_comm] using hl
        | committing p => cases p <;> simpa [Sys.step, eq_comm] using hl
        | recovering p => cases p <;> simpa [Sys.step, eq_comm] using hl
        | recovered => simpa [Sys.step, eq_comm] using hl
      subst ht
      exact Machine.wpc_recoverFromLog h.consistent.reboot rfl hstart
  | resume =>
      cases mode with
      | running => simp [Sys.step] at hl
      | committing p => cases p <;> simp [Sys.step] at hl
      | recovering p => cases p <;> simp [Sys.step] at hl
      | recovered =>
          simp only [Sys.step, Option.some.injEq] at hl
          subst hl
          obtain ⟨k, hk⟩ := h
          exact ⟨hk.lh, hk.cache, hk.clean, le_rfl, le_rfl, fun _ _ => rfl⟩

theorem inv_init {d : Disk} (hd : (d start).word 0 = 0) : Inv start size (init d) :=
  ⟨rfl, rfl, hd, le_rfl, le_rfl, fun _ _ => rfl⟩

/-- Crash atomicity and durability. Start on a disk whose log header has `n = 0`,
commit any transactions, crash at any call of `commit()` or of `recover_from_log()`
any number of times: when a `recover_from_log()` completes, every block outside the
log holds its contents after one and the same prefix of the transactions, the prefix
contains every transaction whose committing `write_head` completed, and the header
has `n = 0` again. The history restarts when the recovered machine resumes. -/
theorem crash_atomic {d : Disk} {ls : List Label} {s : Sys} (hsize : 0 < size)
    (hd : (d start).header.n = 0) (h : run (step start size) (init d) ls = some s)
    (hs : s.mode = .recovered) :
    ∃ k, s.m.durable ≤ k ∧ k ≤ s.m.txs.length ∧
      (∀ b, ¬ InLog start size b → s.m.disk b = contents s.m.base (s.m.txs.take k) b) ∧
      (s.m.disk start).header.n = 0 := by
  have hstart : InLog start size start := ⟨le_rfl, by omega⟩
  have hinv : Inv start size s :=
    run_invariant (Inv start size) (fun _ _ _ hs hl => hs.step hstart hl)
      (inv_init (by simpa using hd)) h
  obtain ⟨m, mode⟩ := s
  obtain rfl : mode = .recovered := hs
  obtain ⟨k, hk⟩ := hinv
  exact ⟨k, hk.durable, hk.prefixLe, hk.home, by simpa using hk.clean⟩

def isRecovered (s : Sys) : Bool :=
  match s.mode with
  | .recovered => true
  | _ => false

/-- One transaction, a crash after its header is written, and the recovery. -/
def crashedCommit : List Label :=
  .transaction [(9, Block.zero.setWord 0 7)] :: List.replicate 14 .exec ++
    .crash :: List.replicate 20 .exec

theorem crash_atomic_run :
    ∃ s, run (step 2 4) (init fun _ => Block.zero) crashedCommit = some s ∧
      s.m.durable = 1 ∧ ∃ k, s.m.durable ≤ k ∧ k ≤ s.m.txs.length ∧
        (∀ b, ¬ InLog 2 4 b → s.m.disk b = contents s.m.base (s.m.txs.take k) b) ∧
        (s.m.disk 2).header.n = 0 := by
  have hrun : (run (step 2 4) (init fun _ => Block.zero) crashedCommit).map
      (fun s => (isRecovered s, s.m.durable)) = some (true, 1) := by decide +kernel
  obtain ⟨s, hs, hmode⟩ := Option.map_eq_some_iff.mp hrun
  rw [Prod.mk.injEq] at hmode
  refine ⟨s, hs, hmode.2, crash_atomic (by norm_num) (by simp) hs ?_⟩
  obtain ⟨m, mode⟩ := s
  cases mode <;> simp_all [isRecovered]

end Sys

end Xv6
