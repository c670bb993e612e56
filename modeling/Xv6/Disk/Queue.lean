import Xv6.Disk.Driver

/-!
# The queue of the disk driver

The requests are executed by the drive in the order of the queue, and a call of `iderw` returns
with its buffer as `memide.c` would leave it. The invariant `Inv` says for every process what
its buffer holds, which depends on how far the interrupt handler is with its request
(`Driver.fetched`, `Driver.acked`), and for the drive what it is at work with (`Phase`).
-/

namespace Xv6

open Foundation

namespace Memide

/-- A buffer with which `iderw` does not panic. -/
def Accepted (size : UInt32) (b : Buf) : Prop :=
  b.busy = true ∧ ¬ (b.valid = true ∧ b.dirty = false) ∧ b.dev = 1 ∧ b.sector < disksize size

/-- The buffer with the data of a read. -/
def fetch (memdisk : Disk) (b : Buf) : Buf :=
  if b.dirty then b else { b with data := memdisk b.sector }

def answer (memdisk : Disk) (b : Buf) : Buf := { fetch memdisk b with valid := true, dirty := false }

def after (memdisk : Disk) (b : Buf) : Disk :=
  if b.dirty then Function.update memdisk b.sector b.data else memdisk

def afterAll (memdisk : Disk) (bs : List Buf) : Disk := bs.foldl after memdisk

section Calls

variable {size : UInt32} {m : Disk} {b : Buf} {bs : List Buf}

theorem iderw_of_accepted (h : Accepted size b) :
    iderw size m b = some (answer m b, after m b) := by
  obtain ⟨hbusy, hwork, hdev, hsector⟩ := h
  have hwork' : (b.valid && !b.dirty) = false := by
    cases hv : b.valid <;> cases hd : b.dirty <;> simp_all
  have hsector' : ¬ b.sector ≥ disksize size := Nat.not_le.mpr hsector
  rw [iderw, if_neg (by simp [hbusy]), if_neg (by simp [hwork']), if_neg (by simp [hdev]),
    if_neg hsector']
  cases hd : b.dirty with
  | true => simp [answer, fetch, after, hd]
  | false => simp [answer, fetch, after, hd]

def answers : Disk → List Buf → List Buf
  | _, [] => []
  | m, b :: bs => answer m b :: answers (after m b) bs

theorem calls_of_accepted (h : ∀ b ∈ bs, Accepted size b) :
    calls size m bs = some (answers m bs, afterAll m bs) := by
  induction bs generalizing m with
  | nil => rfl
  | cons b bs ih =>
      rw [calls, iderw_of_accepted (h b List.mem_cons_self)]
      change (do
        let r ← calls size (after m b) bs
        pure (answer m b :: r.1, r.2)) = _
      rw [ih fun b hb => h b (List.mem_cons_of_mem _ hb)]
      rfl

theorem answers_getElem? (n : ℕ) :
    (answers m bs)[n]? = bs[n]?.map (answer (afterAll m (bs.take n))) := by
  induction bs generalizing m n with
  | nil => simp [answers]
  | cons b bs ih =>
      cases n with
      | zero => rfl
      | succ n =>
          rw [answers, List.getElem?_cons_succ, List.getElem?_cons_succ, ih]
          rfl

theorem afterAll_take_succ {n : ℕ} (h : bs[n]? = some b) :
    afterAll m (bs.take (n + 1)) = after (afterAll m (bs.take n)) b := by
  rw [List.take_add_one, h, afterAll, List.foldl_append]
  rfl

end Calls

end Memide

namespace Ide

open Memide (Accepted fetch answer afterAll)

def At.holds : At → Bool
  | .idle => false
  | .arriving .enter _ => false
  | .arriving _ _ => true
  | .waiting .asleep _ _ => false
  | .waiting _ _ _ => true

def Handler.holds : Handler → Bool
  | .idle => false
  | .enter => false
  | _ => true

namespace Driver

def queue (s : Driver) : List BufPtr := (s.arrivals.drop s.popped).map Request.ptr

/-- The contents of the buffers, as they were queued. -/
def requests (s : Driver) : List Buf := s.arrivals.map Request.buf

/-- The memory disk when the first `n` requests have been executed. -/
def memory (s : Driver) (m : Memide.Disk) (n : ℕ) : Memide.Disk := afterAll m (s.requests.take n)

/-- The data of the request have been fetched, if needed. -/
def fetched (s : Driver) (n : ℕ) : Bool :=
  match s.handler with
  | .data _ => n + 1 < s.popped
  | _ => n < s.popped

/-- The flags have been set for the request. -/
def acked (s : Driver) (n : ℕ) : Bool :=
  match s.handler with
  | .data _ => n + 1 < s.popped
  | .flags _ => n + 1 < s.popped
  | _ => n < s.popped

def content (s : Driver) (m : Memide.Disk) (n : ℕ) (x : Buf) : Buf :=
  if s.acked n then answer (s.memory m n) x
  else if s.fetched n then fetch (s.memory m n) x
  else x

/-- What is true of a process that waits for request `n`. -/
def WaitOk (s : Driver) (p : Pid) (b : BufPtr) (n : ℕ) : Waiting → Prop
  | .start => s.sleeping p = none ∧ s.popped ≤ n
  | .test => s.sleeping p = none
  | .asleep => s.sleeping p = none ∨ s.sleeping p = some b ∧ s.acked n = false
  | .leave => s.sleeping p = none ∧ s.acked n = true

def ProcOk (size : UInt32) (m : Memide.Disk) (s : Driver) (p : Pid) : Prop :=
  match s.status p with
  | .idle => s.sleeping p = none
  | .arriving pc b => s.sleeping p = none ∧ s.owner b = some p ∧ Accepted size (s.buf b) ∧
      b ∉ s.queue ∧ ∀ pp, pc = .walk pp → s.qnext b = none ∧ ∀ c ∈ pp, c ∈ s.queue
  | .waiting pc b n => s.owner b = some p ∧
      (∃ x, s.arrivals[n]? = some ⟨b, x⟩ ∧ s.buf b = s.content m n x) ∧ s.WaitOk p b n pc

/-- The drive has finished the command of request `n`. -/
def Replied (s : Driver) (m : Memide.Disk) (n : ℕ) (b : BufPtr) : Prop :=
  ∃ x, s.arrivals[n]? = some ⟨b, x⟩ ∧
    s.drive = .done (if x.dirty then none else some (s.memory m n x.sector))

/-- The drive has no command. -/
def Free (s : Driver) : Prop := ∀ c, s.drive ≠ .busy c

/-- Nobody is about to start the request at the head of the queue. -/
def NoStart (s : Driver) : Prop := ∀ p b, s.status p ≠ .waiting .start b s.popped

/-- What the drive does while the handler is not at work. -/
inductive Resting (m : Memide.Disk) (s : Driver) : Prop where
  /-- nothing is to be done, or the first request is about to be started -/
  | free (hirq : s.irq = false) (hcount : s.executed.length = s.popped) (hfree : s.Free)
      (hnext : s.queue = [] ∨ ∃ p b, s.status p = .waiting .start b s.popped)
  | busy (hirq : s.irq = false) (hcount : s.executed.length = s.popped) (hstart : s.NoStart)
      (hbusy : ∃ b x, s.arrivals[s.popped]? = some ⟨b, x⟩ ∧ s.drive = .busy (command x))
  | done (hirq : s.irq = true) (hcount : s.executed.length = s.popped + 1) (hstart : s.NoStart)
      (hdone : ∃ b, s.Replied m s.popped b)

/-- What the drive does, and how far the handler is. -/
def Phase (m : Memide.Disk) (s : Driver) : Prop :=
  match s.handler with
  | .idle => Resting m s
  | .leave => Resting m s
  | .enter => s.irq = false ∧ s.executed.length = s.popped + 1 ∧ s.NoStart ∧
      ∃ b, s.Replied m s.popped b
  | .pop => s.irq = false ∧ s.executed.length = s.popped + 1 ∧ ∃ b, s.Replied m s.popped b
  | .data b => s.irq = false ∧ s.executed.length = s.popped ∧
      ∃ n, s.popped = n + 1 ∧ s.Replied m n b
  | .flags b => s.irq = false ∧ s.executed.length = s.popped ∧ s.Free ∧
      ∃ n x, s.popped = n + 1 ∧ s.arrivals[n]? = some ⟨b, x⟩
  | .next => s.irq = false ∧ s.executed.length = s.popped ∧ s.Free

end Driver

structure Inv (size : UInt32) (m : Memide.Disk) (s : Driver) : Prop where
  holder : ∀ p, s.idelock = some (.proc p) ↔ (s.status p).holds = true
  handler : s.idelock = some .intr ↔ s.handler.holds = true
  chain : Chain s.qnext s.idequeue s.queue
  nodup : s.queue.Nodup
  count : s.popped ≤ s.arrivals.length
  accepted : ∀ r ∈ s.arrivals, Accepted size r.buf
  procs : ∀ p, s.ProcOk size m p
  /-- somebody waits for every request that is not done -/
  awaited : ∀ n r, s.arrivals[n]? = some r → s.acked n = false →
    ∃ p pc, s.status p = .waiting pc r.ptr n
  phase : s.Phase m
  executed : s.executed = (s.requests.take s.executed.length).map command
  disk : (fun k => s.disk (1, k)) = s.memory m s.executed.length

namespace Driver

variable {size : UInt32} {m : Memide.Disk} {s t : Driver} {p q : Pid} {b : BufPtr} {n : ℕ}

theorem mem_queue : b ∈ s.queue ↔ ∃ n x, s.popped ≤ n ∧ s.arrivals[n]? = some ⟨b, x⟩ := by
  constructor
  · intro hb
    obtain ⟨r, hr, rfl⟩ := List.mem_map.mp hb
    obtain ⟨k, hk⟩ := List.mem_iff_getElem?.mp hr
    rw [List.getElem?_drop] at hk
    exact ⟨s.popped + k, r.buf, by omega, hk⟩
  · rintro ⟨n, x, hn, hr⟩
    refine List.mem_map.mpr ⟨⟨b, x⟩, List.mem_iff_getElem?.mpr ⟨n - s.popped, ?_⟩, rfl⟩
    rw [List.getElem?_drop, Nat.add_sub_cancel' hn]
    exact hr

theorem queue_getElem? (k : ℕ) :
    s.queue[k]? = s.arrivals[s.popped + k]?.map Request.ptr := by
  rw [queue, List.getElem?_map, List.getElem?_drop]

theorem queue_head? : s.queue.head? = s.arrivals[s.popped]?.map Request.ptr := by
  rw [List.head?_eq_getElem?, queue_getElem?, Nat.add_zero]

theorem acked_of_free (hh : s.handler.holds = false) : s.acked n = decide (n < s.popped) := by
  unfold acked
  cases hc : s.handler <;> simp_all [Handler.holds]

theorem fetched_of_free (hh : s.handler.holds = false) :
    s.fetched n = decide (n < s.popped) := by
  unfold fetched
  cases hc : s.handler <;> simp_all [Handler.holds]

theorem not_acked (hn : s.popped ≤ n) : s.acked n = false := by
  unfold acked
  split <;> simp <;> omega

theorem not_fetched (hn : s.popped ≤ n) : s.fetched n = false := by
  unfold fetched
  split <;> simp <;> omega

theorem content_of_popped_le (hn : s.popped ≤ n) (x : Buf) : s.content m n x = x := by
  rw [content, not_acked hn, not_fetched hn]
  rfl

/-- What is true of a process stays true when its buffer and the queue stay as they are. -/
theorem ProcOk.frame (hq : s.ProcOk size m q) (hstatus : t.status q = s.status q)
    (hsleep : t.sleeping q = s.sleeping q)
    (hown : ∀ b, s.owner b = some q → t.owner b = some q ∧ t.buf b = s.buf b)
    (harr : t.arrivals = s.arrivals) (hpop : t.popped = s.popped) (hlink : t.qnext = s.qnext)
    (hacked : t.acked = s.acked) (hfetched : t.fetched = s.fetched) : t.ProcOk size m q := by
  have hqueue : t.queue = s.queue := by rw [queue, harr, hpop, queue]
  have hcontent : ∀ n x, t.content m n x = s.content m n x := by
    intro n x
    rw [content, content, memory, memory, requests, requests, hacked, hfetched, harr]
  unfold ProcOk at hq ⊢
  rw [hstatus]
  cases hs : s.status q with
  | idle =>
      rw [hs] at hq
      exact hsleep.trans hq
  | arriving pc b =>
      rw [hs] at hq
      obtain ⟨hawake, howner, hacc, hnot, hwalk⟩ := hq
      obtain ⟨howner', hbuf⟩ := hown b howner
      refine ⟨hsleep.trans hawake, howner', hbuf ▸ hacc, hqueue ▸ hnot, ?_⟩
      intro pp hpp
      rw [hlink, hqueue]
      exact hwalk pp hpp
  | waiting pc b n =>
      rw [hs] at hq
      obtain ⟨howner, ⟨x, hx, hbuf⟩, hok⟩ := hq
      obtain ⟨howner', hbuf'⟩ := hown b howner
      refine ⟨howner', ⟨x, harr ▸ hx, ?_⟩, ?_⟩
      · rw [hbuf', hcontent]
        exact hbuf
      · unfold WaitOk at hok ⊢
        rw [hsleep, hpop, hacked]
        exact hok

/-- What the drive does depends on few fields. -/
theorem Phase.frame (hs : s.Phase m) (hhandler : t.handler = s.handler) (hirq : t.irq = s.irq)
    (hexec : t.executed = s.executed) (hpop : t.popped = s.popped)
    (harr : t.arrivals = s.arrivals) (hdrive : t.drive = s.drive)
    (hstart : ∀ q b, t.status q = .waiting .start b s.popped ↔
      s.status q = .waiting .start b s.popped) : t.Phase m := by
  have hqueue : t.queue = s.queue := by rw [queue, harr, hpop, queue]
  have hreplied : ∀ n b, t.Replied m n b ↔ s.Replied m n b := by
    intro n b
    rw [Replied, Replied, memory, memory, requests, requests, harr, hdrive]
  have hfree : t.Free ↔ s.Free := by rw [Free, Free, hdrive]
  have hno : t.NoStart ↔ s.NoStart := by
    simp only [NoStart, hpop, ne_eq, hstart]
  have hrest : Resting m s → Resting m t := by
    intro hr
    cases hr with
    | free h1 h2 h3 h4 =>
        refine .free (hirq.trans h1) (by rw [hexec, hpop, h2]) (hfree.mpr h3) ?_
        rw [hqueue, hpop]
        simpa only [hstart] using h4
    | busy h1 h2 h3 h4 =>
        refine .busy (hirq.trans h1) (by rw [hexec, hpop, h2]) (hno.mpr h3) ?_
        rw [harr, hpop, hdrive]
        exact h4
    | done h1 h2 h3 h4 =>
        refine .done (hirq.trans h1) (by rw [hexec, hpop, h2]) (hno.mpr h3) ?_
        simpa only [hpop, hreplied] using h4
  unfold Phase at hs ⊢
  rw [hhandler]
  cases hc : s.handler <;> rw [hc] at hs <;>
    simp only [hirq, hexec, hpop, harr, hreplied, hno, hfree] at hs ⊢
  all_goals first | exact hs | exact hrest hs

end Driver

namespace Inv

open Driver

variable {size : UInt32} {m : Memide.Disk} {s t : Driver} {p q : Pid} {b : BufPtr} {n : ℕ}

/-- While a process has the lock, the handler has not. -/
theorem handler_free (h : Inv size m s) (hp : (s.status p).holds = true) :
    s.handler.holds = false := by
  cases hh : s.handler.holds with
  | false => rfl
  | true => cases ((h.holder p).mpr hp).symm.trans (h.handler.mpr hh)

/-- Only one process has the lock. -/
theorem alone (h : Inv size m s) (hp : (s.status p).holds = true) (hq : q ≠ p) :
    (s.status q).holds = false := by
  cases hh : (s.status q).holds with
  | false => rfl
  | true =>
      have heq := ((h.holder p).mpr hp).symm.trans ((h.holder q).mpr hh)
      exact absurd (Holder.proc.inj (Option.some.inj heq)).symm hq

/-- While the handler has the lock, no process has it. -/
theorem nobody (h : Inv size m s) (hi : s.handler.holds = true) (q : Pid) :
    (s.status q).holds = false := by
  cases hh : (s.status q).holds with
  | false => rfl
  | true => cases (h.handler.mpr hi).symm.trans ((h.holder q).mpr hh)

theorem unlocked (h : Inv size m s) (hl : s.idelock = none) :
    s.handler.holds = false ∧ ∀ q, (s.status q).holds = false := by
  refine ⟨?_, fun q => ?_⟩
  · cases hh : s.handler.holds with
    | false => rfl
    | true => cases hl.symm.trans (h.handler.mpr hh)
  · cases hh : (s.status q).holds with
    | false => rfl
    | true => cases hl.symm.trans ((h.holder q).mpr hh)

/-- The owner of the lock moves on, or the lock is free and `p` moves on without it. -/
theorem holder_keep (h : Inv size m s) {a : At} (ha : a.holds = (s.status p).holds) :
    ∀ q, s.idelock = some (.proc q) ↔ (Function.update s.status p a q).holds = true := by
  intro q
  by_cases hq : q = p
  · subst hq
    rw [Function.update_self, ha]
    exact h.holder q
  · rw [Function.update_of_ne hq]
    exact h.holder q

theorem holder_acquire (h : Inv size m s) (hl : s.idelock = none) {a : At}
    (ha : a.holds = true) :
    ∀ q, some (Holder.proc p) = some (.proc q) ↔
      (Function.update s.status p a q).holds = true := by
  intro q
  by_cases hq : q = p
  · subst hq
    rw [Function.update_self, ha]
    simp
  · rw [Function.update_of_ne hq, (h.unlocked hl).2 q]
    simp [Ne.symm hq]

theorem holder_release (h : Inv size m s) (hp : (s.status p).holds = true) {a : At}
    (ha : a.holds = false) :
    ∀ q, (none : Option Holder) = some (.proc q) ↔
      (Function.update s.status p a q).holds = true := by
  intro q
  by_cases hq : q = p
  · subst hq
    rw [Function.update_self, ha]
    simp
  · rw [Function.update_of_ne hq, h.alone hp hq]
    simp

/-- A buffer that is queued has an owner, which waits for it. -/
theorem owner_of_queued (h : Inv size m s) (hb : b ∈ s.queue) :
    ∃ q pc n, s.status q = .waiting pc b n ∧ s.owner b = some q := by
  obtain ⟨n, x, hn, hr⟩ := mem_queue.mp hb
  obtain ⟨q, pc, hq⟩ := h.awaited n _ hr (not_acked hn)
  have hok := h.procs q
  unfold ProcOk at hok
  rw [hq] at hok
  exact ⟨q, pc, n, hq, hok.1⟩

/-- The buffer of a request that is in the queue is as it was queued. -/
theorem queued_buf (h : Inv size m s) {x : Buf} (hn : s.acked n = false)
    (hr : s.arrivals[n]? = some ⟨b, x⟩) : s.buf b = s.content m n x := by
  obtain ⟨q, pc, hq⟩ := h.awaited n _ hr hn
  have hok := h.procs q
  unfold ProcOk at hok
  rw [hq] at hok
  obtain ⟨-, ⟨x', hx', hbuf⟩, -⟩ := hok
  have hxx : x' = x := congrArg Request.buf (Option.some.inj (hx'.symm.trans hr))
  rw [← hxx]
  exact hbuf

theorem head (h : Inv size m s) :
    s.idequeue = s.arrivals[s.popped]?.map Request.ptr := by
  rw [h.chain.head, queue_head?]

/-- The executed commands are those of the first requests. -/
theorem executed_le (h : Inv size m s) : s.executed.length ≤ s.arrivals.length := by
  have hlen := congrArg List.length h.executed
  rw [List.length_map, List.length_take, requests, List.length_map] at hlen
  omega

theorem initial (buf : BufPtr → Buf) (qnext : BufPtr → Option BufPtr) (disk : Disk) :
    Inv size (fun k => disk (1, k)) (init buf qnext disk) where
  holder := fun p => by simp [init, At.holds]
  handler := by simp [init, Handler.holds]
  chain := rfl
  nodup := List.nodup_nil
  count := Nat.le_refl 0
  accepted := fun r hr => by cases hr
  procs := fun p => rfl
  awaited := fun n r hr => by cases hr
  phase := .free rfl rfl (fun c hc => by cases hc) (.inl rfl)
  executed := rfl
  disk := rfl

/-- A call of `iderw` from a process that is in none. -/
theorem call (h : Inv size m s) {x : Buf} (hp : s.status p = .idle) (hb : s.owner b = none)
    (hx : Accepted size x) :
    Inv size m (({ s with owner := Function.update s.owner b (some p) }.setBuf b x).setStatus p
      (.arriving .enter b)) where
  holder := h.holder_keep (by rw [hp]; rfl)
  handler := h.handler
  chain := h.chain
  nodup := h.nodup
  count := h.count
  accepted := h.accepted
  procs := by
    intro q
    by_cases hq : q = p
    · subst hq
      have hok := h.procs q
      unfold ProcOk at hok ⊢
      rw [hp] at hok
      simp only [setStatus, setBuf, Function.update_self]
      refine ⟨hok, trivial, hx, ?_, fun pp hpp => by cases hpp⟩
      intro hmem
      obtain ⟨q', pc, n, -, howner⟩ := h.owner_of_queued hmem
      cases hb.symm.trans howner
    · refine (h.procs q).frame ?_ rfl ?_ rfl rfl rfl rfl rfl
      · exact Function.update_of_ne hq _ _
      · intro c hc
        have hcb : c ≠ b := by
          rintro rfl
          cases hb.symm.trans hc
        exact ⟨(Function.update_of_ne hcb _ _).trans hc, Function.update_of_ne hcb _ _⟩
  awaited := by
    intro n r hr hn
    obtain ⟨q, pc, hq⟩ := h.awaited n r hr hn
    have hqp : q ≠ p := by
      rintro rfl
      cases hp.symm.trans hq
    exact ⟨q, pc, (Function.update_of_ne hqp _ _).trans hq⟩
  phase := by
    refine h.phase.frame rfl rfl rfl rfl rfl rfl ?_
    intro q c
    by_cases hq : q = p
    · subst hq
      simp [setStatus, setBuf, hp]
    · simp [setStatus, setBuf, Function.update_of_ne hq]
  executed := h.executed
  disk := h.disk

/-- A process goes from one place to another, and the queue and the drive stay as they are. -/
theorem move (h : Inv size m s) {l : Option Holder} {a : At} {o : BufPtr → Option Pid}
    {d : Pid → Option BufPtr}
    (hlock : ∀ q, l = some (.proc q) ↔ (Function.update s.status p a q).holds = true)
    (hintr : l = some .intr ↔ s.handler.holds = true)
    (hown : ∀ q, q ≠ p → ∀ b, s.owner b = some q → o b = some q)
    (hsleep : ∀ q, q ≠ p → d q = s.sleeping q)
    (hproc : ({ s with idelock := l, owner := o, sleeping := d }.setStatus p a).ProcOk size m p)
    (hwait : ∀ pc b n, s.status p = .waiting pc b n → s.acked n = false →
      ∃ pc', a = .waiting pc' b n)
    (hstart : ∀ b, a = .waiting .start b s.popped ↔ s.status p = .waiting .start b s.popped) :
    Inv size m ({ s with idelock := l, owner := o, sleeping := d }.setStatus p a) where
  holder := hlock
  handler := hintr
  chain := h.chain
  nodup := h.nodup
  count := h.count
  accepted := h.accepted
  procs := by
    intro q
    by_cases hq : q = p
    · rw [hq]
      exact hproc
    · refine (h.procs q).frame ?_ (hsleep q hq) ?_ rfl rfl rfl rfl rfl
      · exact Function.update_of_ne hq _ _
      · intro b hb
        exact ⟨hown q hq b hb, rfl⟩
  awaited := by
    intro n r hr hn
    obtain ⟨q, pc, hq⟩ := h.awaited n r hr hn
    by_cases hqp : q = p
    · subst hqp
      obtain ⟨pc', hpc'⟩ := hwait pc r.ptr n hq hn
      exact ⟨q, pc', by rw [← hpc']; exact Function.update_self _ _ _⟩
    · exact ⟨q, pc, (Function.update_of_ne hqp _ _).trans hq⟩
  phase := by
    refine h.phase.frame rfl rfl rfl rfl rfl rfl ?_
    intro q c
    by_cases hq : q = p
    · subst hq
      simp only [setStatus, Function.update_self]
      exact hstart c
    · simp only [setStatus, Function.update_of_ne hq]
  executed := h.executed
  disk := h.disk

section Process

variable {x : Buf}

/-- The process of a step knows its buffer. -/
theorem arriving (h : Inv size m s) {pc : Arriving} (hp : s.status p = .arriving pc b) :
    s.sleeping p = none ∧ s.owner b = some p ∧ Accepted size (s.buf b) ∧ b ∉ s.queue ∧
      ∀ pp, pc = .walk pp → s.qnext b = none ∧ ∀ c ∈ pp, c ∈ s.queue := by
  have hok := h.procs p
  unfold ProcOk at hok
  rwa [hp] at hok

theorem waiting (h : Inv size m s) {pc : Waiting} (hp : s.status p = .waiting pc b n) :
    s.owner b = some p ∧ (∃ x, s.arrivals[n]? = some ⟨b, x⟩ ∧ s.buf b = s.content m n x) ∧
      s.WaitOk p b n pc := by
  have hok := h.procs p
  unfold ProcOk at hok
  rwa [hp] at hok

/-- `acquire(&idelock)` of `iderw`. -/
theorem enter (h : Inv size m s) (hp : s.status p = .arriving .enter b)
    (hl : s.idelock = none) :
    Inv size m ({ s with idelock := some (.proc p) }.setStatus p (.arriving .append b)) := by
  obtain ⟨hawake, howner, hacc, hnot, -⟩ := h.arriving hp
  refine h.move (h.holder_acquire hl rfl) ?_ (fun _ _ _ => id) (fun _ _ => rfl) ?_ ?_ ?_
  · simp [(h.unlocked hl).1]
  · unfold ProcOk
    simp only [setStatus, Function.update_self]
    exact ⟨hawake, howner, hacc, hnot, fun pp hpp => by cases hpp⟩
  · intro pc c k hpc
    cases hp.symm.trans hpc
  · intro c
    simp [hp]

/-- `b->qnext = 0` -/
theorem append (h : Inv size m s) (hp : s.status p = .arriving .append b) :
    Inv size m ({ s with qnext := Function.update s.qnext b none }.setStatus p
      (.arriving (.walk none) b)) := by
  obtain ⟨hawake, howner, hacc, hnot, -⟩ := h.arriving hp
  have hholds : (s.status p).holds = true := by rw [hp]; rfl
  refine ⟨h.holder_keep (by rw [hp]; rfl), h.handler, h.chain.update hnot, h.nodup, h.count,
    h.accepted, ?_, ?_, ?_, h.executed, h.disk⟩
  · intro q
    by_cases hq : q = p
    · subst hq
      unfold ProcOk
      simp only [setStatus, Function.update_self]
      refine ⟨hawake, howner, hacc, hnot, ?_⟩
      rintro pp ⟨⟩
      exact ⟨trivial, fun c hc => by cases hc⟩
    · have hfree := h.alone hholds hq
      have hok := h.procs q
      unfold ProcOk at hok ⊢
      simp only [setStatus, Function.update_of_ne hq]
      cases hs : s.status q with
      | idle =>
          rw [hs] at hok
          exact hok
      | arriving pc c =>
          rw [hs] at hok hfree
          obtain ⟨h1, h2, h3, h4, -⟩ := hok
          refine ⟨h1, h2, h3, h4, ?_⟩
          rintro pp rfl
          cases hfree
      | waiting pc c n =>
          rw [hs] at hok
          exact hok
  · intro n r hr hn
    obtain ⟨q, pc, hq⟩ := h.awaited n r hr hn
    have hqp : q ≠ p := by
      rintro rfl
      cases hp.symm.trans hq
    exact ⟨q, pc, (Function.update_of_ne hqp _ _).trans hq⟩
  · refine h.phase.frame rfl rfl rfl rfl rfl rfl ?_
    intro q c
    by_cases hq : q = p
    · subst hq
      simp [setStatus, hp]
    · simp [setStatus, Function.update_of_ne hq]

/-- `pp=&(*pp)->qnext` -/
theorem walk (h : Inv size m s) {pp : Option BufPtr} {c : BufPtr}
    (hp : s.status p = .arriving (.walk pp) b) (hc : s.deref pp = some c) :
    Inv size m (s.setStatus p (.arriving (.walk (some c)) b)) := by
  obtain ⟨hawake, howner, hacc, hnot, hwalk⟩ := h.arriving hp
  obtain ⟨hlink, hpp⟩ := hwalk pp rfl
  have hmem : c ∈ s.queue := by
    cases pp with
    | none =>
        have hhead : s.queue.head? = some c := h.chain.head.symm.trans hc
        exact List.mem_of_mem_head? hhead
    | some d => exact h.chain.next_mem (hpp d rfl) hc
  refine h.move (l := s.idelock) (o := s.owner) (d := s.sleeping)
    (h.holder_keep (by rw [hp]; rfl)) h.handler (fun _ _ _ => id) (fun _ _ => rfl) ?_ ?_ ?_
  · unfold ProcOk
    simp only [setStatus, Function.update_self]
    refine ⟨hawake, howner, hacc, hnot, ?_⟩
    rintro pp' ⟨⟩
    refine ⟨hlink, fun d hd => ?_⟩
    obtain rfl : c = d := Option.some.inj hd
    exact hmem
  · intro pc d k hpc
    cases hp.symm.trans hpc
  · intro d
    simp [hp]

/-- After `*pp = b` the links lead through the queue to `b`. -/
theorem assign_chain (h : Inv size m s) {pp : Option BufPtr}
    (hp : s.status p = .arriving (.walk pp) b) (hc : s.deref pp = none) :
    Chain (s.assign pp b).qnext (s.assign pp b).idequeue (s.queue ++ [b]) := by
  obtain ⟨-, -, -, hnot, hwalk⟩ := h.arriving hp
  obtain ⟨hlink, hpp⟩ := hwalk pp rfl
  cases pp with
  | none =>
      have hempty : s.queue = [] := by
        have hchain := h.chain
        rwa [show s.idequeue = none from hc, Chain.nil_iff] at hchain
      rw [hempty]
      exact ⟨rfl, hlink⟩
  | some c => exact h.chain.append h.nodup (hpp c rfl) hc hnot hlink

/-- `insert`, with the links that it makes. -/
def enqueued (s : Driver) (p : Pid) (b : BufPtr) (i : Option BufPtr)
    (nx : BufPtr → Option BufPtr) : Driver :=
  setStatus { s with idequeue := i, qnext := nx, arrivals := s.arrivals ++ [⟨b, s.buf b⟩] } p
    (.waiting .start b s.arrivals.length)

variable {i : Option BufPtr} {nx : BufPtr → Option BufPtr}

theorem insert_eq_enqueued (s : Driver) (p : Pid) (pp : Option BufPtr) (b : BufPtr) :
    s.insert p pp b = enqueued s p b (s.assign pp b).idequeue (s.assign pp b).qnext := by
  cases pp with
  | none => rfl
  | some c => rfl

theorem enqueued_status_self :
    (enqueued s p b i nx).status p = .waiting .start b s.arrivals.length :=
  Function.update_self _ _ _

theorem enqueued_status_of_ne (hq : q ≠ p) : (enqueued s p b i nx).status q = s.status q :=
  Function.update_of_ne hq _ _

theorem enqueued_arrivals :
    (enqueued s p b i nx).arrivals = s.arrivals ++ [⟨b, s.buf b⟩] := rfl

theorem enqueued_getElem? (hn : n < s.arrivals.length) :
    (enqueued s p b i nx).arrivals[n]? = s.arrivals[n]? := by
  rw [enqueued_arrivals]
  exact List.getElem?_append_left hn

theorem enqueued_queue (hcount : s.popped ≤ s.arrivals.length) :
    (enqueued s p b i nx).queue = s.queue ++ [b] := by
  rw [queue, enqueued_arrivals, show (enqueued s p b i nx).popped = s.popped from rfl,
    List.drop_append_of_le_length hcount, List.map_append]
  rfl

theorem enqueued_memory (hn : n ≤ s.arrivals.length) :
    (enqueued s p b i nx).memory m n = s.memory m n := by
  rw [memory, requests, enqueued_arrivals, List.map_append,
    List.take_append_of_le_length (by rw [List.length_map]; exact hn)]
  rfl

theorem enqueued_replied {c : BufPtr} (hr : s.Replied m s.popped c) :
    (enqueued s p b i nx).Replied m s.popped c := by
  obtain ⟨x, hx, hd⟩ := hr
  have hlt := (List.getElem?_eq_some_iff.mp hx).1
  refine ⟨x, (enqueued_getElem? hlt).trans hx, ?_⟩
  rw [enqueued_memory hlt.le]
  exact hd

theorem enqueued_proc (h : Inv size m s) {pp : Option BufPtr}
    (hp : s.status p = .arriving (.walk pp) b) (q : Pid) :
    (enqueued s p b i nx).ProcOk size m q := by
  obtain ⟨hawake, howner, -⟩ := h.arriving hp
  by_cases hq : q = p
  · subst hq
    unfold ProcOk
    rw [enqueued_status_self]
    refine ⟨howner, ⟨s.buf b, List.getElem?_concat_length, ?_⟩, hawake, h.count⟩
    exact (content_of_popped_le (s := enqueued s q b i nx) h.count _).symm
  · have hok := h.procs q
    have hfree := h.alone (p := p) (by rw [hp]; rfl) hq
    unfold ProcOk at hok ⊢
    rw [enqueued_status_of_ne hq]
    cases hs : s.status q with
    | idle =>
        rw [hs] at hok
        exact hok
    | arriving pc c =>
        rw [hs] at hok hfree
        obtain ⟨h1, h2, h3, h4, -⟩ := hok
        refine ⟨h1, h2, h3, ?_, ?_⟩
        · rw [enqueued_queue h.count, List.mem_append, List.mem_singleton]
          rintro (hc | rfl)
          · exact h4 hc
          · exact hq (Option.some.inj (h2.symm.trans howner))
        · rintro pp rfl
          cases hfree
    | waiting pc c n =>
        rw [hs] at hok
        obtain ⟨h1, ⟨x, hx, hbuf⟩, h2⟩ := hok
        have hlt := (List.getElem?_eq_some_iff.mp hx).1
        refine ⟨h1, ⟨x, (enqueued_getElem? hlt).trans hx, ?_⟩, h2⟩
        rw [content, enqueued_memory hlt.le]
        exact hbuf

/-- Behind others in the queue, a request does not change what the drive does. -/
theorem enqueued_phase_behind (h : Inv size m s) {pp : Option BufPtr}
    (hp : s.status p = .arriving (.walk pp) b) (hlt : s.popped < s.arrivals.length) :
    (enqueued s p b i nx).Phase m := by
  have hholds : (s.status p).holds = true := by rw [hp]; rfl
  have hno : s.NoStart → (enqueued s p b i nx).NoStart := by
    intro hns q c hq
    by_cases hqp : q = p
    · rw [hqp, enqueued_status_self] at hq
      exact absurd (At.waiting.inj hq).2.2 (Nat.ne_of_gt hlt)
    · exact hns q c ((enqueued_status_of_ne hqp).symm.trans hq)
  have hphase := h.phase
  unfold Phase at hphase ⊢
  rw [show (enqueued s p b i nx).handler = s.handler from rfl]
  cases hh : s.handler with
  | idle =>
      rw [hh] at hphase
      cases hphase with
      | free h1 h2 h3 h4 =>
          exfalso
          rcases h4 with h4 | ⟨q, c, hq⟩
          · have hlen := congrArg List.length h4
            rw [queue, List.length_map, List.length_drop, List.length_nil] at hlen
            omega
          · by_cases hqp : q = p
            · rw [hqp, hp] at hq
              cases hq
            · have := h.alone hholds hqp
              rw [hq] at this
              cases this
      | busy h1 h2 h3 h4 =>
          obtain ⟨c, x, hx, hd⟩ := h4
          exact .busy h1 h2 (hno h3) ⟨c, x, (enqueued_getElem? hlt).trans hx, hd⟩
      | done h1 h2 h3 h4 =>
          obtain ⟨c, hc⟩ := h4
          exact .done h1 h2 (hno h3) ⟨c, enqueued_replied hc⟩
  | enter =>
      rw [hh] at hphase
      obtain ⟨h1, h2, h3, c, hc⟩ := hphase
      exact ⟨h1, h2, hno h3, c, enqueued_replied hc⟩
  | _ =>
      have := h.handler_free hholds
      rw [hh] at this
      cases this

/-- A request that is alone in the queue is about to be started. -/
theorem enqueued_phase_first (h : Inv size m s) {pp : Option BufPtr}
    (hp : s.status p = .arriving (.walk pp) b) (heq : s.popped = s.arrivals.length) :
    (enqueued s p b i nx).Phase m := by
  have hnone : s.arrivals[s.popped]? = none := List.getElem?_eq_none heq.ge
  have hphase := h.phase
  unfold Phase at hphase ⊢
  rw [show (enqueued s p b i nx).handler = s.handler from rfl]
  cases hh : s.handler with
  | idle =>
      rw [hh] at hphase
      cases hphase with
      | free h1 h2 h3 h4 =>
          refine .free h1 h2 h3 (.inr ⟨p, b, ?_⟩)
          rw [enqueued_status_self, ← heq]
          rfl
      | busy h1 h2 h3 h4 =>
          obtain ⟨c, x, hx, -⟩ := h4
          cases hnone.symm.trans hx
      | done h1 h2 h3 h4 =>
          obtain ⟨c, x, hx, -⟩ := h4
          cases hnone.symm.trans hx
  | enter =>
      rw [hh] at hphase
      obtain ⟨-, -, -, c, x, hx, -⟩ := hphase
      cases hnone.symm.trans hx
  | _ =>
      have := h.handler_free (p := p) (by rw [hp]; rfl)
      rw [hh] at this
      cases this

/-- A buffer has been put at the end of the queue. -/
theorem enqueue (h : Inv size m s) {pp : Option BufPtr}
    (hp : s.status p = .arriving (.walk pp) b) (hchain : Chain nx i (s.queue ++ [b])) :
    Inv size m (enqueued s p b i nx) := by
  obtain ⟨hawake, howner, hacc, hnot, -⟩ := h.arriving hp
  have hqueue : (enqueued s p b i nx).queue = s.queue ++ [b] := enqueued_queue h.count
  refine ⟨h.holder_keep (by rw [hp]; rfl), h.handler, hqueue ▸ hchain, ?_, ?_, ?_,
    h.enqueued_proc hp, ?_, ?_, ?_, ?_⟩
  · rw [hqueue]
    refine List.nodup_append.mpr ⟨h.nodup, List.nodup_singleton b, ?_⟩
    rintro c hc d hd rfl
    exact hnot (List.mem_singleton.mp hd ▸ hc)
  · rw [enqueued_arrivals, List.length_append]
    exact h.count.trans (Nat.le_add_right _ _)
  · intro r hr
    rcases List.mem_append.mp hr with hr | hr
    · exact h.accepted r hr
    · rw [List.mem_singleton.mp hr]
      exact hacc
  · intro n r hr hn
    by_cases hlt : n < s.arrivals.length
    · rw [enqueued_getElem? hlt] at hr
      obtain ⟨q, pc, hq⟩ := h.awaited n r hr hn
      have hqp : q ≠ p := by
        rintro rfl
        cases hp.symm.trans hq
      exact ⟨q, pc, (enqueued_status_of_ne hqp).trans hq⟩
    · have hlen := (List.getElem?_eq_some_iff.mp hr).1
      rw [enqueued_arrivals, List.length_append, List.length_singleton] at hlen
      obtain rfl : n = s.arrivals.length := by omega
      rw [enqueued_arrivals, List.getElem?_concat_length] at hr
      rw [← Option.some.inj hr]
      exact ⟨p, .start, enqueued_status_self⟩
  · rcases h.count.lt_or_eq with hlt | heq
    · exact h.enqueued_phase_behind hp hlt
    · exact h.enqueued_phase_first hp heq
  · have hle := h.executed_le
    change s.executed = ((s.arrivals ++ [_]).map Request.buf |>.take s.executed.length).map command
    rw [List.map_append, List.take_append_of_le_length (by rw [List.length_map]; exact hle)]
    exact h.executed
  · rw [show (enqueued s p b i nx).executed = s.executed from rfl,
      enqueued_memory h.executed_le]
    exact h.disk

/-- The buffer at the head of the queue is that of the next request. -/
theorem first_iff (h : Inv size m s) {pc : Waiting} (hp : s.status p = .waiting pc b n)
    (hn : s.popped ≤ n) : s.idequeue = some b ↔ n = s.popped := by
  obtain ⟨-, ⟨x, hx, -⟩, -⟩ := h.waiting hp
  rw [h.head]
  constructor
  · intro hhead
    have h0 : s.queue[0]? = some b := by rw [queue_getElem?, Nat.add_zero, hhead]
    have hk : s.queue[n - s.popped]? = some b := by
      rw [queue_getElem?, Nat.add_sub_cancel' hn, hx]
      rfl
    have hlt := (List.getElem?_eq_some_iff.mp h0).1
    have heq := (List.getElem?_inj hlt h.nodup).mp (h0.trans hk.symm)
    omega
  · rintro rfl
    rw [hx]
    rfl

/-- The start of the first request. -/
theorem start (h : Inv size m s) (hp : s.status p = .waiting .start b n)
    (hb : s.idequeue = some b) (ht : s.idestart b = some t) :
    Inv size m (t.setStatus p (.waiting .test b n)) := by
  obtain ⟨howner, ⟨x, hx, hbuf⟩, hawake, hn⟩ := h.waiting hp
  have hholds : (s.status p).holds = true := by rw [hp]; rfl
  obtain rfl := (h.first_iff hp hn).mp hb
  have hcommand : s.buf b = x := by rw [hbuf, content_of_popped_le (Nat.le_refl _)]
  have hmoved : Inv size m (({ s with drive := .busy (command (s.buf b)) } : Driver).setStatus p
      (.waiting .test b s.popped)) := by
    refine ⟨h.holder_keep (by rw [hp]; rfl), h.handler, h.chain, h.nodup, h.count, h.accepted,
      ?_, ?_, ?_, h.executed, h.disk⟩
    · intro q
      by_cases hq : q = p
      · subst hq
        unfold ProcOk
        simp only [setStatus, Function.update_self]
        exact ⟨howner, ⟨x, hx, hbuf⟩, hawake⟩
      · refine (h.procs q).frame ?_ rfl (fun c hc => ⟨hc, rfl⟩) rfl rfl rfl rfl rfl
        exact Function.update_of_ne hq _ _
    · intro k r hr hk
      obtain ⟨q, pc, hq⟩ := h.awaited k r hr hk
      by_cases hqp : q = p
      · subst hqp
        obtain ⟨-, h2, h3⟩ := At.waiting.inj (hp.symm.trans hq)
        refine ⟨q, .test, ?_⟩
        rw [← h2, ← h3]
        exact Function.update_self _ _ _
      · exact ⟨q, pc, (Function.update_of_ne hqp _ _).trans hq⟩
    · have hno : ∀ q c, Function.update s.status p (.waiting .test b s.popped) q ≠
          .waiting .start c s.popped := by
        intro q c hq
        by_cases hqp : q = p
        · rw [hqp, Function.update_self] at hq
          cases hq
        · rw [Function.update_of_ne hqp] at hq
          have := h.alone hholds hqp
          rw [hq] at this
          cases this
      have hphase := h.phase
      unfold Phase at hphase ⊢
      simp only [setStatus]
      cases hh : s.handler with
      | idle =>
          rw [hh] at hphase
          cases hphase with
          | free h1 h2 h3 h4 =>
              exact .busy h1 h2 hno ⟨b, x, hx, by rw [← hcommand]⟩
          | busy h1 h2 h3 h4 => exact absurd hp (h3 p b)
          | done h1 h2 h3 h4 => exact absurd hp (h3 p b)
      | enter =>
          rw [hh] at hphase
          exact absurd hp (hphase.2.2.1 p b)
      | _ =>
          have := h.handler_free hholds
          rw [hh] at this
          cases this
  unfold idestart at ht
  split at ht
  · cases ht
  · rw [← Option.some.inj ht]
    exact hmoved

/-- A request that is not the first is started by the handler. -/
theorem pass (h : Inv size m s) (hp : s.status p = .waiting .start b n)
    (hb : s.idequeue ≠ some b) : Inv size m (s.setStatus p (.waiting .test b n)) := by
  obtain ⟨howner, hbuf, hawake, hn⟩ := h.waiting hp
  refine h.move (l := s.idelock) (o := s.owner) (d := s.sleeping)
    (h.holder_keep (by rw [hp]; rfl)) h.handler (fun _ _ _ => id) (fun _ _ => rfl) ?_ ?_ ?_
  · unfold ProcOk
    simp only [setStatus, Function.update_self]
    exact ⟨howner, hbuf, hawake⟩
  · intro pc c k hpc _
    obtain ⟨-, rfl, rfl⟩ := At.waiting.inj (hp.symm.trans hpc)
    exact ⟨.test, rfl⟩
  · intro c
    constructor
    · intro hc
      cases hc
    · intro hc
      obtain ⟨-, rfl, rfl⟩ := At.waiting.inj (hp.symm.trans hc)
      exact absurd ((h.first_iff hp hn).mpr rfl) hb

/-- The flags of a buffer say whether its request is done. -/
theorem done_iff (h : Inv size m s) (hfree : s.handler.holds = false) {pc : Waiting}
    (hp : s.status p = .waiting pc b n) :
    ((s.buf b).valid && !(s.buf b).dirty) = s.acked n := by
  obtain ⟨-, ⟨x, hx, hbuf⟩, -⟩ := h.waiting hp
  rw [hbuf, content, fetched_of_free hfree, acked_of_free hfree]
  by_cases hn : n < s.popped
  · rw [decide_eq_true hn]
    rfl
  · obtain ⟨-, hwork, -⟩ := h.accepted ⟨b, x⟩ (List.mem_of_getElem? hx)
    rw [decide_eq_false hn]
    change (x.valid && !x.dirty) = false
    change ¬ (x.valid = true ∧ x.dirty = false) at hwork
    cases hv : x.valid with
    | false => rfl
    | true =>
        cases hd : x.dirty with
        | false => exact absurd ⟨hv, hd⟩ hwork
        | true => rfl

/-- The `while` loop ends. -/
theorem answered (h : Inv size m s) (hp : s.status p = .waiting .test b n)
    (hdone : ((s.buf b).valid && !(s.buf b).dirty) = true) :
    Inv size m (s.setStatus p (.waiting .leave b n)) := by
  obtain ⟨howner, hbuf, hawake⟩ := h.waiting hp
  have hholds : (s.status p).holds = true := by rw [hp]; rfl
  have hacked := (h.done_iff (h.handler_free hholds) hp).symm.trans hdone
  refine h.move (l := s.idelock) (o := s.owner) (d := s.sleeping)
    (h.holder_keep (by rw [hp]; rfl)) h.handler (fun _ _ _ => id) (fun _ _ => rfl) ?_ ?_ ?_
  · unfold ProcOk
    simp only [setStatus, Function.update_self]
    exact ⟨howner, hbuf, hawake, hacked⟩
  · intro pc c k hpc _
    obtain ⟨-, rfl, rfl⟩ := At.waiting.inj (hp.symm.trans hpc)
    exact ⟨.leave, rfl⟩
  · intro c
    simp [hp]

/-- `sleep(b, &idelock)` -/
theorem asleep (h : Inv size m s) (hp : s.status p = .waiting .test b n)
    (hdone : ¬ ((s.buf b).valid && !(s.buf b).dirty) = true) :
    Inv size m ({ s with
      idelock := none, sleeping := Function.update s.sleeping p (some b) }.setStatus p
        (.waiting .asleep b n)) := by
  obtain ⟨howner, hbuf, hawake⟩ := h.waiting hp
  have hholds : (s.status p).holds = true := by rw [hp]; rfl
  rw [h.done_iff (h.handler_free hholds) hp, Bool.not_eq_true] at hdone
  refine h.move (h.holder_release hholds rfl) ?_ (fun _ _ _ => id)
    (fun q hq => Function.update_of_ne hq _ _) ?_ ?_ ?_
  · simp [h.handler_free hholds]
  · unfold ProcOk
    simp only [setStatus, Function.update_self]
    exact ⟨howner, hbuf, .inr ⟨Function.update_self _ _ _, hdone⟩⟩
  · intro pc c k hpc _
    obtain ⟨-, rfl, rfl⟩ := At.waiting.inj (hp.symm.trans hpc)
    exact ⟨.asleep, rfl⟩
  · intro c
    simp [hp]

/-- `acquire(&idelock)` after `sleep` -/
theorem awake (h : Inv size m s) (hp : s.status p = .waiting .asleep b n)
    (hawake : s.sleeping p = none) (hl : s.idelock = none) :
    Inv size m ({ s with idelock := some (.proc p) }.setStatus p (.waiting .test b n)) := by
  obtain ⟨howner, hbuf, -⟩ := h.waiting hp
  refine h.move (h.holder_acquire hl rfl) ?_ (fun _ _ _ => id) (fun _ _ => rfl) ?_ ?_ ?_
  · simp [(h.unlocked hl).1]
  · unfold ProcOk
    simp only [setStatus, Function.update_self]
    exact ⟨howner, hbuf, hawake⟩
  · intro pc c k hpc _
    obtain ⟨-, rfl, rfl⟩ := At.waiting.inj (hp.symm.trans hpc)
    exact ⟨.test, rfl⟩
  · intro c
    simp [hp]

/-- The last `release(&idelock)`. -/
theorem leave (h : Inv size m s) (hp : s.status p = .waiting .leave b n) :
    Inv size m ({ s with
      idelock := none, owner := Function.update s.owner b none }.setStatus p .idle) := by
  obtain ⟨howner, -, hawake, hacked⟩ := h.waiting hp
  have hholds : (s.status p).holds = true := by rw [hp]; rfl
  refine h.move (h.holder_release hholds rfl) ?_ ?_ (fun _ _ => rfl) ?_ ?_ ?_
  · simp [h.handler_free hholds]
  · intro q hq c hc
    have hcb : c ≠ b := by
      rintro rfl
      exact hq (Option.some.inj (hc.symm.trans howner))
    exact (Function.update_of_ne hcb _ _).trans hc
  · unfold ProcOk
    simp only [setStatus, Function.update_self]
    exact hawake
  · intro pc c k hpc hk
    obtain ⟨-, rfl, rfl⟩ := At.waiting.inj (hp.symm.trans hpc)
    cases hacked.symm.trans hk
  · intro c
    simp [hp]

end Process

section Interrupt

/-- The handler goes from one place to another, and the queue and the buffers stay as they
are. -/
theorem handled (h : Inv size m s) {l : Option Holder} {r : Bool} {d : Drive}
    {i : Handler} (hlock : ∀ q, l = some (.proc q) ↔ (s.status q).holds = true)
    (hintr : l = some .intr ↔ i.holds = true)
    (hacked : ({ s with handler := i } : Driver).acked = s.acked)
    (hfetched : ({ s with handler := i } : Driver).fetched = s.fetched)
    (hphase : ({ s with idelock := l, irq := r, drive := d, handler := i } : Driver).Phase
      m) :
    Inv size m { s with idelock := l, irq := r, drive := d, handler := i } where
  holder := hlock
  handler := hintr
  chain := h.chain
  nodup := h.nodup
  count := h.count
  accepted := h.accepted
  procs := fun q =>
    (h.procs q).frame rfl rfl (fun _ hc => ⟨hc, rfl⟩) rfl rfl rfl hacked hfetched
  awaited := fun n r hr hn => h.awaited n r hr ((congrFun hacked n).symm.trans hn)
  phase := hphase
  executed := h.executed
  disk := h.disk

/-- The interrupt is taken. -/
theorem interrupt (h : Inv size m s) (hirq : s.irq = true) (hh : s.handler = .idle) :
    Inv size m { s with irq := false, handler := .enter } := by
  refine h.handled (l := s.idelock) (d := s.drive) h.holder ?_ ?_ ?_ ?_
  · rw [h.handler, hh]
    rfl
  · funext n
    simp [acked, hh]
  · funext n
    simp [fetched, hh]
  · have hphase := h.phase
    unfold Phase at hphase
    rw [hh] at hphase
    cases hphase with
    | free h1 => cases hirq.symm.trans h1
    | busy h1 => cases hirq.symm.trans h1
    | done h1 h2 h3 h4 => exact ⟨rfl, h2, h3, h4⟩

/-- `acquire(&idelock)` of `ideintr`. -/
theorem intr_enter (h : Inv size m s) (hh : s.handler = .enter) (hl : s.idelock = none) :
    Inv size m { s with idelock := some .intr, handler := .pop } := by
  refine h.handled (r := s.irq) (d := s.drive) ?_ (by simp [Handler.holds]) ?_ ?_ ?_
  · intro q
    simp [(h.unlocked hl).2 q]
  · funext n
    simp [acked, hh]
  · funext n
    simp [fetched, hh]
  · have hphase := h.phase
    unfold Phase at hphase
    rw [hh] at hphase
    obtain ⟨h1, h2, -, h4⟩ := hphase
    exact ⟨h1, h2, h4⟩

/-- What is at the head of the queue when the handler takes it. -/
theorem intr_first (h : Inv size m s) (hh : s.handler = .pop) :
    ∃ b x, s.arrivals[s.popped]? = some ⟨b, x⟩ ∧ s.idequeue = some b ∧ s.queue.head? = some b := by
  have hphase := h.phase
  unfold Phase at hphase
  rw [hh] at hphase
  obtain ⟨-, -, b, x, hx, -⟩ := hphase
  refine ⟨b, x, hx, ?_, ?_⟩
  · rw [h.head, hx]
    rfl
  · rw [queue_head?, hx]
    rfl

/-- `b = idequeue; idequeue = b->qnext;` -/
theorem intr_pop (h : Inv size m s) (hh : s.handler = .pop) (hb : s.idequeue = some b) :
    Inv size m { s with
      idequeue := s.qnext b, handler := .data b, popped := s.popped + 1 } := by
  have hholds : s.handler.holds = true := by rw [hh]; rfl
  obtain ⟨c, x, hx, hc, hhead⟩ := h.intr_first hh
  obtain rfl : c = b := Option.some.inj (hc.symm.trans hb)
  have hlt := (List.getElem?_eq_some_iff.mp hx).1
  set t : Driver := { s with
    idequeue := s.qnext c, handler := .data c, popped := s.popped + 1 } with ht
  have hqueue : s.queue = c :: t.queue := by
    change (s.arrivals.drop s.popped).map Request.ptr =
      c :: (s.arrivals.drop (s.popped + 1)).map Request.ptr
    rw [List.drop_eq_getElem_cons hlt, List.map_cons]
    rw [List.getElem?_eq_getElem hlt] at hx
    rw [Option.some.inj hx]
  have hchain := h.chain
  have hnodup := h.nodup
  rw [hqueue] at hchain hnodup
  have hacked : t.acked = s.acked := by
    funext n
    simp [acked, hh, ht]
  have hfetched : t.fetched = s.fetched := by
    funext n
    simp [fetched, hh, ht]
  refine ⟨h.holder, ?_, hchain.tail, (List.nodup_cons.mp hnodup).2, hlt, h.accepted, ?_, ?_, ?_,
    h.executed, h.disk⟩
  · rw [show t.idelock = s.idelock from rfl, h.handler, hh]
    rfl
  · intro q
    have hok := h.procs q
    have hfree := h.nobody hholds q
    unfold ProcOk at hok ⊢
    rw [show t.status = s.status from rfl]
    cases hs : s.status q with
    | idle =>
        rw [hs] at hok
        exact hok
    | arriving pc d =>
        rw [hs] at hok hfree
        obtain ⟨h1, h2, h3, h4, -⟩ := hok
        refine ⟨h1, h2, h3, ?_, ?_⟩
        · rw [hqueue] at h4
          exact fun hmem => h4 (List.mem_cons_of_mem _ hmem)
        · rintro pp rfl
          cases hfree
    | waiting pc d n =>
        rw [hs] at hok hfree
        obtain ⟨h1, ⟨y, hy, hbuf⟩, h2⟩ := hok
        refine ⟨h1, ⟨y, hy, ?_⟩, ?_⟩
        · rw [content, hacked, hfetched]
          exact hbuf
        · cases pc with
          | asleep =>
              unfold WaitOk at h2 ⊢
              rw [hacked]
              exact h2
          | _ => cases hfree
  · intro n r hr hn
    exact h.awaited n r hr ((congrFun hacked n).symm.trans hn)
  · have hphase := h.phase
    unfold Phase at hphase
    rw [hh] at hphase
    obtain ⟨h1, h2, d, hd⟩ := hphase
    obtain ⟨y, hy, -⟩ := id hd
    obtain rfl : d = c := congrArg Request.ptr (Option.some.inj (hy.symm.trans hx))
    exact ⟨h1, h2, s.popped, rfl, hd⟩

/-- Only one process waits for a request that is not done, and only with its buffer. -/
theorem apart (h : Inv size m s) {x : Buf} (hr : s.arrivals[n]? = some ⟨b, x⟩)
    (hn : s.acked n = false) {pc : Waiting} {c : BufPtr} {k : ℕ}
    (hq : s.status q = .waiting pc c k) : c = b ∧ k = n ∨ c ≠ b ∧ k ≠ n := by
  obtain ⟨p, pc', hp⟩ := h.awaited n _ hr hn
  obtain ⟨howner, ⟨y, hy, -⟩, -⟩ := h.waiting hq
  by_cases hcb : c = b
  · subst hcb
    obtain rfl : p = q := Option.some.inj ((h.waiting hp).1.symm.trans howner)
    exact .inl ⟨rfl, (At.waiting.inj (hq.symm.trans hp)).2.2⟩
  · refine .inr ⟨hcb, ?_⟩
    rintro rfl
    exact hcb (congrArg Request.ptr (Option.some.inj (hy.symm.trans hr)))

theorem apart_arriving (h : Inv size m s) {x : Buf} (hr : s.arrivals[n]? = some ⟨b, x⟩)
    (hn : s.acked n = false) {pc : Arriving} {c : BufPtr} (hq : s.status q = .arriving pc c) :
    c ≠ b := by
  rintro rfl
  obtain ⟨p, pc', hp⟩ := h.awaited n _ hr hn
  obtain rfl : p = q := Option.some.inj ((h.waiting hp).1.symm.trans (h.arriving hq).2.1)
  cases hq.symm.trans hp

/-- The handler works on the buffer of request `n`. -/
theorem worked (h : Inv size m s) {x y : Buf} {d : Pid → Option BufPtr} {i : Handler}
    (hr : s.arrivals[n]? = some ⟨b, x⟩) (hn : s.acked n = false)
    (hholds : s.handler.holds = true) (hi : i.holds = true)
    (hcontent : y = ({ s with handler := i } : Driver).content m n x)
    (hacked : ∀ k, k ≠ n → ({ s with handler := i } : Driver).acked k = s.acked k)
    (hfetched : ∀ k, k ≠ n → ({ s with handler := i } : Driver).fetched k = s.fetched k)
    (hsleep : ∀ q, s.sleeping q ≠ some b → d q = s.sleeping q)
    (hwake : ∀ q, s.sleeping q = some b →
      d q = none ∨ d q = some b ∧ ({ s with handler := i } : Driver).acked n = false)
    (hphase : ({ s.setBuf b y with sleeping := d, handler := i } : Driver).Phase m) :
    Inv size m { s.setBuf b y with sleeping := d, handler := i } := by
  refine ⟨h.holder, ?_, h.chain, h.nodup, h.count, h.accepted, ?_, ?_, hphase, h.executed,
    h.disk⟩
  · change s.idelock = _ ↔ i.holds = true
    rw [h.handler, hholds, hi]
  · intro q
    have hok := h.procs q
    have hfree := h.nobody hholds q
    have hawake : s.sleeping q = none → d q = none := by
      intro hs
      rw [hsleep q (by rw [hs]; simp), hs]
    unfold ProcOk at hok ⊢
    simp only [setBuf]
    cases hs : s.status q with
    | idle =>
        rw [hs] at hok
        exact hawake hok
    | arriving pc c =>
        rw [hs] at hok hfree
        obtain ⟨h1, h2, h3, h4, -⟩ := hok
        refine ⟨hawake h1, h2, ?_, h4, ?_⟩
        · rw [Function.update_of_ne (h.apart_arriving hr hn hs)]
          exact h3
        · rintro pp rfl
          cases hfree
    | waiting pc c k =>
        rw [hs] at hok hfree
        obtain ⟨h1, ⟨z, hz, hbuf⟩, h2⟩ := hok
        cases pc with
        | asleep =>
            rcases h.apart hr hn hs with ⟨rfl, rfl⟩ | ⟨hcb, hkn⟩
            · refine ⟨h1, ⟨x, hr, ?_⟩, ?_⟩
              · rw [Function.update_self]
                exact hcontent
              · rcases h2 with h2 | ⟨h2, -⟩
                · exact .inl (hawake h2)
                · exact hwake q h2
            · refine ⟨h1, ⟨z, hz, ?_⟩, ?_⟩
              · rw [Function.update_of_ne hcb, hbuf, content, content]
                rw [← hacked k hkn, ← hfetched k hkn]
                rfl
              · rcases h2 with h2 | ⟨h2, h3⟩
                · exact .inl (hawake h2)
                · refine .inr ⟨?_, (hacked k hkn).trans h3⟩
                  change d q = some c
                  rw [hsleep q (by rw [h2]; exact fun hc => hcb (Option.some.inj hc)), h2]
        | _ => cases hfree
  · intro k r hk hnot
    by_cases hkn : k = n
    · subst hkn
      exact h.awaited k r hk hn
    · exact h.awaited k r hk ((hacked k hkn).symm.trans hnot)

theorem ideintr_data {x : Buf} {d : Block} (hh : s.handler = .data b) (hbuf : s.buf b = x)
    (hdrive : s.drive = .done (if x.dirty then none else some d)) :
    s.ideintr = some { s.setBuf b (if x.dirty then x else { x with data := d }) with
      handler := .flags b } := by
  unfold ideintr
  rw [hh]
  by_cases hd : x.dirty = true
  · have hself : s.setBuf b x = s := by
      rw [← hbuf, setBuf, Function.update_eq_self]
    change (if (s.buf b).dirty then _ else _) = _
    rw [if_pos (by rw [hbuf]; exact hd), if_pos hd, hself]
  · rw [if_neg hd] at hdrive
    change (if (s.buf b).dirty then _ else _) = _
    rw [if_neg (by rw [hbuf]; exact hd), if_neg hd, hbuf, hdrive]

/-- The data have been taken from the drive, if they were needed. -/
theorem intr_data (h : Inv size m s) (hh : s.handler = .data b) (ht : s.ideintr = some t) :
    Inv size m t := by
  have hphase := h.phase
  unfold Phase at hphase
  rw [hh] at hphase
  obtain ⟨hirq, hcount, n, hn, x, hx, hdrive⟩ := hphase
  have hnot : s.acked n = false := by
    simp [acked, hh, hn]
  have hbuf : s.buf b = x := by
    rw [h.queued_buf hnot hx, content, hnot]
    simp [fetched, hh, hn]
  have hfree : s.Free := by
    intro c hc
    cases hdrive.symm.trans hc
  have hfilled : Inv size m { s.setBuf b (fetch (s.memory m n) x) with
      sleeping := s.sleeping, handler := .flags b } := by
    refine h.worked hx hnot (by rw [hh]; rfl) rfl ?_ ?_ ?_ (fun _ _ => rfl) ?_ ?_
    · rw [content, show acked { s with handler := .flags b } n = false by simp [acked, hn],
        show fetched { s with handler := .flags b } n = true by simp [fetched, hn]]
      rfl
    · intro k hk
      simp [acked, hh]
    · intro k hk
      simp only [fetched, hh, hn, decide_eq_decide]
      omega
    · intro q hq
      refine .inr ⟨hq, ?_⟩
      simp [acked, hn]
    · exact ⟨hirq, hcount, hfree, n, x, hn, hx⟩
  rw [ideintr_data hh hbuf hdrive] at ht
  rw [← Option.some.inj ht]
  exact hfilled

/-- The flags have been set, and the process that waits has been woken. -/
theorem intr_flags (h : Inv size m s) (hh : s.handler = .flags b) :
    Inv size m { (s.setBuf b { s.buf b with valid := true, dirty := false }).wakeup b with
      handler := .next } := by
  have hphase := h.phase
  unfold Phase at hphase
  rw [hh] at hphase
  obtain ⟨hirq, hcount, hfree, n, x, hn, hx⟩ := hphase
  have hnot : s.acked n = false := by
    simp [acked, hh, hn]
  have hbuf : s.buf b = fetch (s.memory m n) x := by
    rw [h.queued_buf hnot hx, content, hnot]
    simp [fetched, hh, hn]
  rw [hbuf]
  refine h.worked (y := answer (s.memory m n) x)
    (d := fun q => if s.sleeping q = some b then none else s.sleeping q) hx hnot
    (by rw [hh]; rfl) rfl ?_ ?_ ?_ (fun q hq => if_neg hq) (fun q hq => .inl (if_pos hq)) ?_
  · rw [content, show acked { s with handler := .next } n = true by simp [acked, hn]]
    rfl
  · intro k hk
    simp only [acked, hh, hn, decide_eq_decide]
    omega
  · intro k hk
    simp [fetched, hh]
  · exact ⟨hirq, hcount, hfree⟩

/-- The handler releases the lock with nothing left to do. -/
theorem intr_empty (h : Inv size m s) (hh : s.handler = .next) (hb : s.idequeue = none) :
    Inv size m { s with handler := .leave } := by
  refine h.handled (l := s.idelock) (r := s.irq) (d := s.drive) h.holder ?_ ?_ ?_ ?_
  · rw [h.handler, hh]
    rfl
  · funext n
    simp [acked, hh]
  · funext n
    simp [fetched, hh]
  · have hphase := h.phase
    unfold Phase at hphase
    rw [hh] at hphase
    obtain ⟨hirq, hcount, hfree⟩ := hphase
    have hempty := h.chain
    rw [hb, Chain.nil_iff] at hempty
    exact .free hirq hcount hfree (.inl hempty)

/-- The handler starts the next request. -/
theorem intr_start (h : Inv size m s) (hh : s.handler = .next) (hb : s.idequeue = some b)
    (ht : s.idestart b = some t) : Inv size m { t with handler := .leave } := by
  have hphase := h.phase
  unfold Phase at hphase
  rw [hh] at hphase
  obtain ⟨hirq, hcount, hfree⟩ := hphase
  have hhead := h.head
  rw [hb] at hhead
  obtain ⟨⟨c, x⟩, hx, rfl⟩ := Option.map_eq_some_iff.mp hhead.symm
  have hcommand : s.buf c = x := by
    rw [h.queued_buf (not_acked (Nat.le_refl _)) hx, content_of_popped_le (Nat.le_refl _)]
  have hstarted : Inv size m { s with drive := .busy (command (s.buf c)), handler := .leave } := by
    refine h.handled (l := s.idelock) (r := s.irq) h.holder ?_ ?_ ?_ ?_
    · rw [h.handler, hh]
      rfl
    · funext n
      simp [acked, hh]
    · funext n
      simp [fetched, hh]
    · refine .busy hirq hcount ?_ ⟨c, x, hx, by rw [← hcommand]⟩
      intro q d hq
      have := h.nobody (by rw [hh]; rfl) q
      rw [show s.status q = _ from hq] at this
      cases this
  unfold idestart at ht
  split at ht
  · cases ht
  · rw [← Option.some.inj ht]
    exact hstarted

/-- The last `release(&idelock)` of `ideintr`. -/
theorem intr_leave (h : Inv size m s) (hh : s.handler = .leave) :
    Inv size m { s with idelock := none, handler := .idle } := by
  refine h.handled (r := s.irq) (d := s.drive) ?_ (by simp [Handler.holds]) ?_ ?_ ?_
  · intro q
    simp [h.nobody (by rw [hh]; rfl) q]
  · funext n
    simp [acked, hh]
  · funext n
    simp [fetched, hh]
  · have hphase := h.phase
    unfold Phase at hphase
    rw [hh] at hphase
    cases hphase with
    | free h1 h2 h3 h4 => exact .free h1 h2 h3 h4
    | busy h1 h2 h3 h4 => exact .busy h1 h2 h3 h4
    | done h1 h2 h3 h4 => exact .done h1 h2 h3 h4

end Interrupt

/-- While the drive is busy it is at work with the first request of the queue. -/
theorem busy (h : Inv size m s) {c : Command} (hc : s.drive = .busy c) :
    (s.handler = .idle ∨ s.handler = .leave) ∧ s.executed.length = s.popped ∧ s.NoStart ∧
      ∃ b x, s.arrivals[s.popped]? = some ⟨b, x⟩ ∧ c = command x := by
  have hrest : Resting m s → s.executed.length = s.popped ∧ s.NoStart ∧
      ∃ b x, s.arrivals[s.popped]? = some ⟨b, x⟩ ∧ c = command x := by
    intro hr
    cases hr with
    | free h1 h2 h3 h4 => exact absurd hc (h3 c)
    | busy h1 h2 h3 h4 =>
        obtain ⟨b, x, hx, hd⟩ := h4
        exact ⟨h2, h3, b, x, hx, Drive.busy.inj (hc.symm.trans hd)⟩
    | done h1 h2 h3 h4 =>
        obtain ⟨b, x, hx, hd⟩ := h4
        cases hc.symm.trans hd
  have hphase := h.phase
  unfold Phase at hphase
  cases hh : s.handler with
  | idle =>
      rw [hh] at hphase
      exact ⟨.inl rfl, hrest hphase⟩
  | leave =>
      rw [hh] at hphase
      exact ⟨.inr rfl, hrest hphase⟩
  | enter =>
      rw [hh] at hphase
      obtain ⟨-, -, -, b, x, -, hd⟩ := hphase
      cases hc.symm.trans hd
  | pop =>
      rw [hh] at hphase
      obtain ⟨-, -, b, x, -, hd⟩ := hphase
      cases hc.symm.trans hd
  | data b =>
      rw [hh] at hphase
      obtain ⟨-, -, n, -, x, -, hd⟩ := hphase
      cases hc.symm.trans hd
  | flags b =>
      rw [hh] at hphase
      exact absurd hc (hphase.2.2.1 c)
  | next =>
      rw [hh] at hphase
      exact absurd hc (hphase.2.2 c)

theorem address_of_accepted {x : Buf} (hx : Accepted size x) :
    address x.dev x.sector = (1, x.sector) := by
  obtain ⟨-, -, hdev, hsector⟩ := hx
  have hsize := size.toNat_lt
  rw [hdev, address_of_real]
  unfold Memide.disksize at hsector
  exact ⟨by norm_num, by omega⟩

/-- What the drive does when it finishes. -/
theorem finish_cases (ht : s.finish = some t) : ∃ c, s.drive = .busy c ∧ t =
    { s with
      disk := c.data.elim s.disk (Function.update s.disk c.place)
      drive := .done (c.data.elim (some (s.disk c.place)) fun _ => none)
      irq := true
      executed := s.executed ++ [c] } := by
  unfold finish at ht
  cases hdrive : s.drive with
  | ready =>
      rw [hdrive] at ht
      cases ht
  | done d =>
      rw [hdrive] at ht
      cases ht
  | busy c =>
      rw [hdrive] at ht
      refine ⟨c, rfl, ?_⟩
      rw [← Option.some.inj ht]
      cases hd : c.data with
      | none => rfl
      | some d => rfl

/-- The drive finishes the command of the first request. -/
theorem finished (h : Inv size m s) (ht : s.finish = some t) : Inv size m t := by
  obtain ⟨c, hdrive, rfl⟩ := finish_cases ht
  obtain ⟨hhandler, hcount, hstart, b, x, hx, rfl⟩ := h.busy hdrive
  have haddress : (command x).place = (1, x.sector) :=
    address_of_accepted (h.accepted _ (List.mem_of_getElem? hx))
  have hread : s.disk (command x).place = s.memory m s.popped x.sector := by
    rw [haddress, ← hcount]
    exact congrFun h.disk x.sector
  have hrequest : s.requests[s.executed.length]? = some x := by
    rw [hcount, requests, List.getElem?_map, hx]
    rfl
  refine ⟨h.holder, h.handler, h.chain, h.nodup, h.count, h.accepted, ?_, h.awaited, ?_, ?_, ?_⟩
  · intro q
    exact (h.procs q).frame rfl rfl (fun _ hc => ⟨hc, rfl⟩) rfl rfl rfl rfl rfl
  · have hresting : Resting m
        { s with
          disk := (command x).data.elim s.disk (Function.update s.disk (command x).place)
          drive := .done ((command x).data.elim (some (s.disk (command x).place)) fun _ => none)
          irq := true
          executed := s.executed ++ [command x] } := by
      refine .done rfl ?_ hstart ⟨b, x, hx, ?_⟩
      · rw [List.length_append, hcount]
        rfl
      · rw [hread]
        cases hd : x.dirty with
        | true => simp [command, hd]
        | false =>
            simp only [command, hd]
            rfl
    unfold Phase
    rcases hhandler with hh | hh
    · simp only [hh]
      rw [← hh]
      exact hresting
    · simp only [hh]
      rw [← hh]
      exact hresting
  · change s.executed ++ [command x] =
      (s.requests.take (s.executed ++ [command x]).length).map command
    rw [List.length_append, List.length_singleton, List.take_add_one, hrequest,
      List.map_append, ← h.executed]
    rfl
  · change (fun k => (command x).data.elim s.disk (Function.update s.disk (command x).place) (1, k)) =
      afterAll m (s.requests.take (s.executed ++ [command x]).length)
    rw [List.length_append, List.length_singleton, Memide.afterAll_take_succ hrequest]
    change _ = Memide.after (s.memory m s.executed.length) x
    rw [← h.disk, haddress]
    funext k
    cases hd : x.dirty with
    | true =>
        simp only [command, hd, Memide.after, if_true, Option.elim_some, Function.update_apply,
          Prod.mk.injEq, true_and]
    | false => simp [command, hd, Memide.after]

/-- The steps of a process before its buffer is in the queue. -/
theorem arrive (h : Inv size m s) {pc : Arriving} (hp : s.status p = .arriving pc b)
    (ht : s.arrive p b pc = some t) : Inv size m t := by
  cases pc with
  | enter =>
      simp only [Driver.arrive] at ht
      split at ht
      · rw [← Option.some.inj ht]
        exact h.enter hp ‹_›
      · cases ht
  | append =>
      rw [← Option.some.inj ht]
      exact h.append hp
  | walk pp =>
      simp only [Driver.arrive] at ht
      cases hc : s.deref pp with
      | some c =>
          simp only [hc] at ht
          rw [← Option.some.inj ht]
          exact h.walk hp hc
      | none =>
          simp only [hc] at ht
          rw [← Option.some.inj ht, insert_eq_enqueued]
          exact h.enqueue hp (h.assign_chain hp hc)

/-- The steps of a process after that. -/
theorem wait (h : Inv size m s) {pc : Waiting} (hp : s.status p = .waiting pc b n)
    (ht : s.wait p b n pc = some t) : Inv size m t := by
  cases pc with
  | start =>
      simp only [Driver.wait] at ht
      split at ht
      · obtain ⟨u, hu, rfl⟩ := Option.map_eq_some_iff.mp ht
        exact h.start hp ‹_› hu
      · rw [← Option.some.inj ht]
        exact h.pass hp ‹_›
  | test =>
      simp only [Driver.wait] at ht
      split at ht
      · rw [← Option.some.inj ht]
        exact h.answered hp ‹_›
      · rw [← Option.some.inj ht]
        exact h.asleep hp ‹_›
  | asleep =>
      simp only [Driver.wait] at ht
      split at ht
      · obtain ⟨hawake, hlock⟩ := ‹_ ∧ _›
        rw [← Option.some.inj ht]
        exact h.awake hp hawake hlock
      · cases ht
  | leave =>
      rw [← Option.some.inj ht]
      exact h.leave hp

/-- The steps of the handler. -/
theorem ideintr (h : Inv size m s) (ht : s.ideintr = some t) : Inv size m t := by
  have hdef := ht
  unfold Driver.ideintr at hdef
  cases hh : s.handler with
  | idle =>
      simp only [hh] at hdef
      cases hdef
  | enter =>
      simp only [hh] at hdef
      split at hdef
      · rw [← Option.some.inj hdef]
        exact h.intr_enter hh ‹_›
      · cases hdef
  | pop =>
      obtain ⟨b, x, hx, hb, -⟩ := h.intr_first hh
      simp only [hh, hb] at hdef
      rw [← Option.some.inj hdef]
      exact h.intr_pop hh hb
  | data b => exact h.intr_data hh ht
  | flags b =>
      simp only [hh] at hdef
      rw [← Option.some.inj hdef]
      exact h.intr_flags hh
  | next =>
      cases hb : s.idequeue with
      | none =>
          have hleave := h.intr_empty hh hb
          rw [hb] at hleave
          simp only [hh, hb] at hdef
          rw [← Option.some.inj hdef]
          exact hleave
      | some b =>
          simp only [hh, hb] at hdef
          obtain ⟨u, hu, rfl⟩ := Option.map_eq_some_iff.mp hdef
          exact h.intr_start hh hb hu
  | leave =>
      simp only [hh] at hdef
      rw [← Option.some.inj hdef]
      exact h.intr_leave hh

/-- The invariant is kept by every step. -/
theorem step (h : Inv size m s) {l : Label} (ht : s.step size l = some t) : Inv size m t := by
  cases l with
  | iderw p b x =>
      simp only [Driver.step] at ht
      split at ht
      · obtain ⟨hp, hb, hpanic, hdev, hsector⟩ := ‹_ ∧ _›
        rw [← Option.some.inj ht]
        refine h.call hp hb ⟨?_, ?_, hdev, hsector⟩
        · cases hbusy : x.busy with
          | true => rfl
          | false => simp [Buf.iderwPanic, hbusy] at hpanic
        · rintro ⟨hv, hd⟩
          cases hbusy : x.busy with
          | true => simp [Buf.iderwPanic, hbusy, hv, hd] at hpanic
          | false => simp [Buf.iderwPanic, hbusy] at hpanic
      · cases ht
  | go p =>
      simp only [Driver.step] at ht
      cases hp : s.status p with
      | idle =>
          rw [hp] at ht
          cases ht
      | arriving pc b =>
          rw [hp] at ht
          exact h.arrive hp ht
      | waiting pc b n =>
          rw [hp] at ht
          exact h.wait hp ht
  | interrupt =>
      simp only [Driver.step] at ht
      split at ht
      · obtain ⟨hirq, hh⟩ := ‹_ ∧ _›
        rw [← Option.some.inj ht]
        exact h.interrupt hirq hh
      · cases ht
  | handle => exact h.ideintr ht
  | finish => exact h.finished ht

end Inv

end Ide

end Xv6
