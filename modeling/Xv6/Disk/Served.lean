import Xv6.Disk.Queue

/-!
# The queued driver does what the memory disk does

In every run of `ide.c` the drive executes the requests in the order in which they were queued,
each once; after them the sectors, and the buffers of the calls that return, are as after the
calls of `iderw` of `memide.c` in that order. As long as a call is open, some step of it, of the
handler or of the drive is possible.
-/

namespace Xv6

open Foundation

namespace Ide

open Memide (answer afterAll answers)

/-- The step is not a new call. -/
def Driver.Label.goesOn : Driver.Label → Bool
  | .iderw _ _ _ => false
  | _ => true

structure Served (size : UInt32) (disk : Disk) (s : Driver) : Prop where
  /-- the queue is what has not been taken from the requests -/
  queue : Chain s.qnext s.idequeue ((s.arrivals.drop s.popped).map Request.ptr)
  /-- no buffer is twice in the queue -/
  nodup : ((s.arrivals.drop s.popped).map Request.ptr).Nodup
  /-- the first requests have been executed, in order, once -/
  inOrder : s.executed = (s.arrivals.take s.executed.length).map fun r => command r.buf
  /-- only executed requests are taken, and one after another -/
  oneByOne : s.popped ≤ s.executed.length ∧ s.executed.length ≤ s.popped + 1
  /-- the sectors, and the buffer of a call that returns, are as `memide.c` leaves them -/
  refines : ∃ results, Memide.calls size (fun k => disk (1, k))
      ((s.arrivals.take s.executed.length).map Request.buf) =
        some (results, fun k => s.disk (1, k)) ∧
    ∀ p b n, s.status p = .waiting .leave b n →
      s.arrivals[n]?.map Request.ptr = some b ∧ results[n]? = some (s.buf b)
  /-- a process that waits has its buffer in the queue, or the handler is at work with it, or
  the request is done -/
  notLost : ∀ p b n, s.status p = .waiting .asleep b n → s.sleeping p ≠ none →
    b ∈ (s.arrivals.drop s.popped).map Request.ptr ∨ s.handler = .data b ∨ s.handler = .flags b
  /-- while there are requests, the drive is at work or has an interrupt for the handler -/
  notIdle : s.idelock = none → s.idequeue ≠ none →
    (∃ c, s.drive = .busy c) ∨ s.irq = true ∨ s.handler = .enter
  /-- an open call does not wait for nothing -/
  goesOn : (∃ p, s.status p ≠ .idle) →
    ∃ l t, Driver.Label.goesOn l = true ∧ s.step size l = some t

theorem goesOn_of {size : UInt32} {s : Driver} (l : Driver.Label)
    (hl : Driver.Label.goesOn l = true) (h : ∃ t, s.step size l = some t) :
    ∃ l t, Driver.Label.goesOn l = true ∧ s.step size l = some t := by
  obtain ⟨t, ht⟩ := h
  exact ⟨l, t, hl, ht⟩

namespace Inv

open Driver

variable {size : UInt32} {m : Memide.Disk} {s : Driver} {p : Pid} {b : BufPtr} {n : ℕ}

theorem executed_bounds (h : Inv size m s) :
    s.popped ≤ s.executed.length ∧ s.executed.length ≤ s.popped + 1 := by
  have hrest : Resting m s → s.popped ≤ s.executed.length ∧ s.executed.length ≤ s.popped + 1 := by
    intro hr
    cases hr with
    | free h1 h2 h3 h4 => omega
    | busy h1 h2 h3 h4 => omega
    | done h1 h2 h3 h4 => omega
  have hphase := h.phase
  unfold Phase at hphase
  cases hh : s.handler with
  | idle =>
      rw [hh] at hphase
      exact hrest hphase
  | leave =>
      rw [hh] at hphase
      exact hrest hphase
  | _ =>
      rw [hh] at hphase
      have hcount := hphase.2.1
      omega

/-- The calls of the memory disk that correspond to the executed requests. -/
theorem refines (h : Inv size m s) :
    Memide.calls size m (s.requests.take s.executed.length) =
      some (answers m (s.requests.take s.executed.length), fun k => s.disk (1, k)) := by
  rw [Memide.calls_of_accepted, h.disk]
  · rfl
  · intro x hx
    obtain ⟨r, hr, rfl⟩ := List.mem_map.mp (List.mem_of_mem_take hx)
    exact h.accepted r hr

/-- The buffer of a request that is done is the answer of the memory disk. -/
theorem answer_of_leave (h : Inv size m s) (hp : s.status p = .waiting .leave b n) :
    s.arrivals[n]?.map Request.ptr = some b ∧
      (answers m (s.requests.take s.executed.length))[n]? = some (s.buf b) := by
  obtain ⟨-, ⟨x, hx, hbuf⟩, -, hacked⟩ := h.waiting hp
  have hn : n < s.executed.length := by
    have hfree := h.handler_free (p := p) (by rw [hp]; rfl)
    rw [acked_of_free hfree, decide_eq_true_eq] at hacked
    exact hacked.trans_le h.executed_bounds.1
  refine ⟨by rw [hx]; rfl, ?_⟩
  have hrequest : s.requests[n]? = some x := by
    rw [requests, List.getElem?_map, hx]
    rfl
  rw [Memide.answers_getElem?, List.getElem?_take_of_lt hn, hrequest, List.take_take,
    Nat.min_eq_left hn.le, hbuf, content, if_pos hacked]
  rfl

theorem notLost (h : Inv size m s) (hp : s.status p = .waiting .asleep b n)
    (hs : s.sleeping p ≠ none) :
    b ∈ s.queue ∨ s.handler = .data b ∨ s.handler = .flags b := by
  obtain ⟨-, ⟨x, hx, -⟩, hok⟩ := h.waiting hp
  have hnot : s.acked n = false := by
    rcases hok with hok | ⟨-, hok⟩
    · exact absurd hok hs
    · exact hok
  by_cases hn : s.popped ≤ n
  · exact .inl (mem_queue.mpr ⟨n, x, hn, hx⟩)
  · have hphase := h.phase
    unfold Phase at hphase
    unfold acked at hnot
    cases hh : s.handler with
    | data c =>
        simp only [hh, decide_eq_false_iff_not] at hnot
        rw [hh] at hphase
        obtain ⟨-, -, k, hk, y, hy, -⟩ := hphase
        obtain rfl : n = k := by omega
        have heq : c = b := congrArg Request.ptr (Option.some.inj (hy.symm.trans hx))
        exact .inr (.inl (by rw [heq]))
    | flags c =>
        simp only [hh, decide_eq_false_iff_not] at hnot
        rw [hh] at hphase
        obtain ⟨-, -, -, k, y, hk, hy⟩ := hphase
        obtain rfl : n = k := by omega
        have heq : c = b := congrArg Request.ptr (Option.some.inj (hy.symm.trans hx))
        exact .inr (.inr (by rw [heq]))
    | _ =>
        simp only [hh, decide_eq_false_iff_not] at hnot
        omega

theorem notIdle (h : Inv size m s) (hl : s.idelock = none) (hb : s.idequeue ≠ none) :
    (∃ c, s.drive = .busy c) ∨ s.irq = true ∨ s.handler = .enter := by
  obtain ⟨hfree, hnobody⟩ := h.unlocked hl
  have hphase := h.phase
  unfold Phase at hphase
  cases hh : s.handler with
  | enter => exact .inr (.inr rfl)
  | idle =>
      rw [hh] at hphase
      cases hphase with
      | free h1 h2 h3 h4 =>
          rcases h4 with h4 | ⟨q, c, hq⟩
          · have hhead := h.chain.head
            rw [h4] at hhead
            exact absurd hhead hb
          · have := hnobody q
            rw [hq] at this
            cases this
      | busy h1 h2 h3 h4 =>
          obtain ⟨c, x, -, hd⟩ := h4
          exact .inl ⟨_, hd⟩
      | done h1 h2 h3 h4 => exact .inr (.inl h1)
  | _ =>
      rw [hh] at hfree
      cases hfree

/-- A process that has the lock can go on. -/
theorem goesOn_holder (h : Inv size m s) (hp : (s.status p).holds = true) :
    ∃ t, s.step size (.go p) = some t := by
  simp only [Driver.step]
  cases hs : s.status p with
  | idle =>
      rw [hs] at hp
      cases hp
  | arriving pc b =>
      cases pc with
      | enter =>
          rw [hs] at hp
          cases hp
      | append => exact ⟨_, rfl⟩
      | walk pp =>
          simp only [Driver.arrive]
          cases s.deref pp with
          | none => exact ⟨_, rfl⟩
          | some c => exact ⟨_, rfl⟩
  | waiting pc b n =>
      cases pc with
      | start =>
          simp only [Driver.wait]
          split
          · have hn := (h.waiting hs).2.2.2
            obtain rfl := (h.first_iff hs hn).mp ‹_›
            cases hd : s.drive with
            | busy c => exact absurd hs ((h.busy hd).2.2.1 p b)
            | ready => simp [idestart, hd]
            | done d => simp [idestart, hd]
          · exact ⟨_, rfl⟩
      | test =>
          simp only [Driver.wait]
          split
          · exact ⟨_, rfl⟩
          · exact ⟨_, rfl⟩
      | asleep =>
          rw [hs] at hp
          cases hp
      | leave => exact ⟨_, rfl⟩

/-- The handler can go on when it has the lock. -/
theorem goesOn_handler (h : Inv size m s) (hh : s.handler.holds = true) :
    ∃ t, s.step size .handle = some t := by
  have hdrive : ∀ c, s.drive = .busy c → s.handler = .leave := by
    intro c hc
    rcases (h.busy hc).1 with hi | hi
    · rw [hi] at hh
      cases hh
    · exact hi
  change ∃ t, s.ideintr = some t
  unfold Driver.ideintr
  cases hs : s.handler with
  | idle =>
      rw [hs] at hh
      cases hh
  | enter =>
      rw [hs] at hh
      cases hh
  | pop =>
      cases s.idequeue with
      | none => exact ⟨_, rfl⟩
      | some b => exact ⟨_, rfl⟩
  | data b =>
      simp only
      split
      · exact ⟨_, rfl⟩
      · split
        · cases (hdrive _ ‹_›).symm.trans hs
        · exact ⟨_, rfl⟩
        · exact ⟨_, rfl⟩
  | flags b => exact ⟨_, rfl⟩
  | next =>
      cases s.idequeue with
      | none => exact ⟨_, rfl⟩
      | some b =>
          simp only [idestart]
          split
          · cases (hdrive _ ‹_›).symm.trans hs
          · exact ⟨_, rfl⟩
  | leave => exact ⟨_, rfl⟩

/-- While a call is open, some step is possible that is not a new call. -/
theorem goesOn (h : Inv size m s) (hp : s.status p ≠ .idle) :
    ∃ l t, Label.goesOn l = true ∧ s.step size l = some t := by
  cases hl : s.idelock with
  | some o =>
      cases o with
      | proc q =>
          obtain ⟨t, ht⟩ := h.goesOn_holder ((h.holder q).mp hl)
          exact ⟨.go q, t, rfl, ht⟩
      | intr =>
          obtain ⟨t, ht⟩ := h.goesOn_handler (h.handler.mp hl)
          exact ⟨.handle, t, rfl, ht⟩
  | none =>
      obtain ⟨hfree, hnobody⟩ := h.unlocked hl
      cases hs : s.status p with
      | idle => exact absurd hs hp
      | arriving pc b =>
          cases pc with
          | enter =>
              refine goesOn_of (.go p) rfl ?_
              simp only [Driver.step, hs, Driver.arrive, if_pos hl]
              exact ⟨_, rfl⟩
          | _ =>
              have := hnobody p
              rw [hs] at this
              cases this
      | waiting pc b n =>
          cases pc with
          | asleep =>
              by_cases hsleep : s.sleeping p = none
              · refine goesOn_of (.go p) rfl ?_
                simp only [Driver.step, hs, Driver.wait, if_pos (And.intro hsleep hl)]
                exact ⟨_, rfl⟩
              · have hqueue : s.idequeue ≠ none := by
                  intro hnone
                  rcases h.notLost hs hsleep with hb | hb | hb
                  · have hempty := h.chain
                    rw [hnone, Chain.nil_iff] at hempty
                    rw [hempty] at hb
                    cases hb
                  · rw [hb] at hfree
                    cases hfree
                  · rw [hb] at hfree
                    cases hfree
                rcases h.notIdle hl hqueue with ⟨c, hc⟩ | hirq | henter
                · refine goesOn_of .finish rfl ?_
                  simp only [Driver.step, Driver.finish, hc]
                  exact ⟨_, rfl⟩
                · by_cases hh : s.handler = .idle
                  · refine goesOn_of .interrupt rfl ?_
                    simp only [Driver.step, if_pos (And.intro hirq hh)]
                    exact ⟨_, rfl⟩
                  · have henter : s.handler = .enter := by
                      cases hi : s.handler <;> simp_all [Handler.holds]
                    refine goesOn_of .handle rfl ?_
                    simp only [Driver.step, Driver.ideintr, henter, if_pos hl]
                    exact ⟨_, rfl⟩
                · refine goesOn_of .handle rfl ?_
                  simp only [Driver.step, Driver.ideintr, henter, if_pos hl]
                  exact ⟨_, rfl⟩
          | _ =>
              have := hnobody p
              rw [hs] at this
              cases this

end Inv

end Ide

/-- The disk driver with the queue refines the memory disk, in every run of processes, interrupt
handler and drive: the requests are executed in the order of their arrival, once each, and the
sectors and the buffers that the calls return are what the memory disk would make of them. No
request is lost, the drive is not idle while there are requests, and an open call does not wait
for nothing. -/
theorem disk_served {size : UInt32} {buf : Ide.BufPtr → Buf}
    {qnext : Ide.BufPtr → Option Ide.BufPtr} {disk : Ide.Disk} {ls : List Ide.Driver.Label}
    {s : Ide.Driver}
    (h : run (Ide.Driver.step size) (Ide.Driver.init buf qnext disk) ls = some s) :
    Ide.Served size disk s := by
  have hinv : Ide.Inv size (fun k => disk (1, k)) s :=
    run_invariant (Ide.Inv size fun k => disk (1, k)) (fun _ _ _ hs hl => hs.step hl)
      (Ide.Inv.initial buf qnext disk) h
  have hrequests : (s.arrivals.take s.executed.length).map Ide.Request.buf =
      s.requests.take s.executed.length := List.map_take
  refine ⟨hinv.chain, hinv.nodup, ?_, hinv.executed_bounds,
    ⟨Memide.answers (fun k => disk (1, k)) (s.requests.take s.executed.length), ?_, ?_⟩, ?_, ?_,
    ?_⟩
  · have hexec := hinv.executed
    rw [← hrequests, List.map_map] at hexec
    exact hexec
  · rw [hrequests]
    exact hinv.refines
  · intro p b n hp
    exact hinv.answer_of_leave hp
  · intro p b n hp hs
    exact hinv.notLost hp hs
  · exact hinv.notIdle
  · rintro ⟨p, hp⟩
    exact hinv.goesOn hp

/-- Process 0 writes sector 0 and process 1 reads it; the second request waits in the queue. -/
def Ide.twoCalls : List Ide.Driver.Label :=
  [.iderw 0 5 ⟨true, false, true, 1, 0, fun _ => 7⟩, .iderw 1 6 ⟨true, false, false, 1, 0, Block.zero⟩,
    .go 0, .go 0, .go 0, .go 0, .go 0, .go 1, .go 1, .go 1, .go 1, .go 1, .go 1,
    .finish, .interrupt, .handle, .handle, .handle, .handle, .handle, .handle,
    .go 0, .go 0, .go 0, .finish, .interrupt,
    .handle, .handle, .handle, .handle, .handle, .handle, .go 1, .go 1]

theorem disk_served_two :
    ∃ s, run (Ide.Driver.step 1024)
        (Ide.Driver.init (fun _ => ⟨false, false, false, 1, 0, Block.zero⟩) (fun _ => none)
          fun _ => Block.zero) Ide.twoCalls = some s ∧
      s.status 1 = .waiting .leave 6 1 ∧ Ide.Served 1024 (fun _ => Block.zero) s := by
  refine ⟨_, rfl, rfl, ?_⟩
  exact @disk_served 1024 (fun _ => ⟨false, false, false, 1, 0, Block.zero⟩) (fun _ => none)
    (fun _ => Block.zero) Ide.twoCalls _ rfl

end Xv6
