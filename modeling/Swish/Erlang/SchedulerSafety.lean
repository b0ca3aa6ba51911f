import Swish.Erlang.Steps

/-!
What the scheduler guarantees in every reachable state, read off the queues
themselves.
-/

set_option autoImplicit false

namespace Swish.Erlang
open CircularList

variable {s s' : State} {rq sq : List Nat} {p q : Nat}

theorem blank_shape : QueueShape blankState [] [] := by
  have hpcb : ∀ p, blankState.queues (.pcb p) = ⟨none, none⟩ := by
    intro p
    show ((Heap.fresh (fun _ => ⟨none, none⟩) QPtr.runQueue).fresh .sleepQueue) (.pcb p) = _
    rw [fresh_of_ne _ (by simp), fresh_of_ne _ (by simp)]
  refine ⟨?_, IsRing.fresh _ _, by simp, ?_, by simp, by simp, .nil, .nil⟩
  · refine (IsRing.fresh (fun _ => ⟨none, none⟩) QPtr.runQueue).congr fun a ha => ?_
    rw [List.mem_singleton.mp ha]
    show ((Heap.fresh (fun _ => ⟨none, none⟩) QPtr.runQueue).fresh .sleepQueue) .runQueue = _
    rw [fresh_of_ne _ (by simp)]
  · intro p hp
    simp [State.enqueued, hpcb] at hp

theorem boot_shape : QueueShape bootState [2, 3] [] := by
  have h1 : QueueShape (blankState.makeProcess.1.modify 1 fun x => { x with cont := false }) [] [] :=
    blank_shape.makeProcess.congr rfl (Nat.le_max_left _ _) (by simp) fun _ => rfl
  have h2 := h1.makeProcess.enqueue_run (p := 2) (by decide)
  exact h2.makeProcess.enqueue_run (p := 3) (by decide)

theorem boot_blank (p : Nat) : bootState.pcb (p + 4) = Pcb.blank := by
  have hlast : bootState.procs.last = 3 := by decide
  exact bootState.procs.beyond _ (by omega)

/-- Three processes run; none waits, sleeps or is in $receive. -/
theorem boot_pcb (p : Nat) : bootState.flags p = {} ∧ (bootState.pcb p).stack = [] ∧
    (bootState.alive p = true ↔ 1 ≤ p ∧ p ≤ 3) := by
  match p with
  | 0 | 1 | 2 | 3 => decide
  | p+4 =>
    simp only [State.flags, State.alive, boot_blank p, Pcb.blank]
    exact ⟨trivial, trivial, by simp⟩

theorem boot_fine : Fine (.ok bootState) := by
  refine ⟨⟨⟨[2, 3], [], ⟨boot_shape, fun p => ?_, fun p => ?_, .inr (by decide)⟩, ?_⟩,
    by decide, by decide⟩, by decide⟩
  · obtain ⟨h1, h2, h3⟩ := boot_pcb p
    refine ⟨fun hp => h3.mpr ?_, fun _ => by simp, fun _ => ?_, fun _ hb => ?_, fun _ _ hp => ?_,
      fun _ _ t hp => ?_⟩
    · simp at hp; omega
    · rw [h1]; simp
    · rw [h1] at hb; cases hb
    · rw [State.parkedUntil, h2] at hp; exact absurd rfl hp
    · rw [State.parkedUntil, h2] at hp; cases hp
  · intro _ _ hp
    rw [State.parkedUntil, (boot_pcb p).2.1] at hp
    exact absurd rfl hp
  · intro p hp
    cases hp

theorem Reachable.fine (h : Reachable s) : Fine (.ok s) := by
  obtain ⟨as, has⟩ := h
  rw [← has]
  exact boot_fine.run as

theorem Reachable.settled (h : Reachable s) : Settled s := h.fine.1

/-- Runs grow at the end. -/
theorem run_append (s : State) (as bs : List Action) :
    s.run (as ++ bs) = (s.run as).bind fun t => t.run bs := by
  induction as generalizing s with
  | nil => rfl
  | cons a as ih =>
    simp only [List.cons_append, State.run]
    cases s.step a with
    | error e => rfl
    | ok t => exact ih t

theorem run_induction {I : State → Prop} {as : List Action} (h0 : I bootState)
    (hstep : ∀ bs cs a t t', as = bs ++ a :: cs → bootState.run bs = .ok t → t.step a = .ok t' →
      I t → I t') (h : bootState.run as = .ok s) : I s := by
  induction as using List.reverseRecOn generalizing s with
  | nil => cases h; exact h0
  | append_singleton as a ih =>
    rw [run_append] at h
    obtain ⟨t, hr, h⟩ := Lib.bind_ok h
    obtain ⟨t', hs, h⟩ := Lib.bind_ok h
    cases h
    refine hstep as [] a t _ rfl hr hs (ih ?_ hr)
    intro bs cs b u u' he
    exact hstep bs (cs ++ [a]) b u u' (by rw [he]; simp)

/-- An invariant of moves and of work holds in every reachable state. -/
theorem Reachable.invariant {I : State → Prop} (h0 : I bootState)
    (hm : ∀ s s', Move s s' → I s → I s') (hw : ∀ s s', Work s s' → I s → I s')
    (h : Reachable s) : I s := by
  obtain ⟨as, has⟩ := h
  refine run_induction h0 (fun bs cs a t t' _ hr hs ht => ?_) has
  have hf : Fine (.ok t) := Reachable.fine ⟨bs, hr⟩
  rcases step_cases hf.2 hs with h1 | h1
  · exact invariant_of_chain hm h1 ht
  · exact invariant_of_chain hw h1 ht

/-- The scheduler's invariant, stated on the queues as linked in memory. -/
structure SchedulerOk (s : State) : Prop where
  runRing : IsRing s.queues .runQueue ((s.queue .runQueue).map .pcb)
  sleepRing : IsRing s.queues .sleepQueue ((s.queue .sleepQueue).map .pcb)
  apart : ∀ p ∈ s.queue .runQueue, p ∉ s.queue .sleepQueue
  linked : ∀ p, s.enqueued p = true ↔ p ∈ s.queue .runQueue ∨ p ∈ s.queue .sleepQueue
  live : ∀ p, s.enqueued p = true → s.alive p = true
  sleeping : ∀ p, p ∈ s.queue .sleepQueue ↔
    s.alive p = true ∧ p ≠ s.self ∧ (s.flags p).sleeping = true
  blocked : ∀ p, (s.flags p).blockedIo = true → p ≠ s.self → s.enqueued p = false
  sleepOrder : (s.queue .sleepQueue).Pairwise fun p q =>
    (s.pcb p).precedence < (s.pcb q).precedence ∨
      ((s.pcb p).precedence = (s.pcb q).precedence ∧ stamp s.log p < stamp s.log q)
  fifo : (s.queue .runQueue).Pairwise fun p q => stamp s.log p < stamp s.log q
  eventLoop : s.self = s.eventLoop ∨ s.eventLoop ∈ s.queue .runQueue

theorem filterMap_pcb (l : List Nat) :
    ((l.map QPtr.pcb).filterMap fun
      | .pcb p => some p
      | _ => none) = l := by
  induction l with
  | nil => rfl
  | cons p l ih => rw [List.map_cons, List.filterMap_cons]; simp [ih]

theorem queue_eq {t : QPtr} {l : List Nat} (h : IsRing s.queues t (l.map .pcb))
    (hb : ∀ p ∈ l, p ≤ s.procs.last) : s.queue t = l := by
  have hlen := QueueShape.length_le (ring_pids_nodup h) hb
  unfold State.queue
  rw [h.toList (by simpa using hlen)]
  exact filterMap_pcb l

theorem Queues.ok (h : Queues s (some s.self) rq sq) : SchedulerOk s := by
  have hr : s.queue .runQueue = rq := queue_eq h.shape.run fun p hp => h.shape.bound p (.inl hp)
  have hs : s.queue .sleepQueue = sq := queue_eq h.shape.sleep fun p hp => h.shape.bound p (.inr hp)
  refine ⟨?_, ?_, ?_, ?_, fun p hp => ?_, fun p => ?_, fun p hb hp => ?_, ?_, ?_, ?_⟩
  · rw [hr]; exact h.shape.run
  · rw [hs]; exact h.shape.sleep
  · rw [hr, hs]; exact h.shape.disjoint
  · rw [hr, hs]; exact h.shape.enqueued_iff
  · exact (h.procs p).live (h.shape.enqueued p hp)
  · rw [hs]
    by_cases hp : p = s.self
    · have := (h.procs p).awake (congrArg some hp)
      simp only [this, false_iff]
      exact fun h1 => h1.2.1 hp
    · rw [(h.procs p).sleeping (by simpa using hp)]
      simp [hp]
  · obtain ⟨h1, h2, h3⟩ := (h.procs p).blocked (by simpa using hp) hb
    have h4 : p ∉ sq := by
      rw [(h.procs p).sleeping (by simpa using hp), h3]
      simp
    cases he : s.enqueued p with
    | false => rfl
    | true =>
      rcases h.shape.enqueued p he with h5 | h5
      · exact absurd h5 h2
      · exact absurd h5 h4
  · rw [hs]; exact h.shape.sleepOrder
  · rw [hr]
    refine h.shape.runOrder.imp_of_mem fun h1 h2 h3 => ?_
    rcases h3 with h4 | h4
    · rw [h.shape.zero _ h1, h.shape.zero _ h2] at h4
      omega
    · exact h4.2
  · rw [hr]
    rcases h.eventLoop with h1 | h1
    · exact .inl (Option.some.inj h1).symm
    · exact .inr h1

/-- The process that runs next is the first one of the run queue. -/
theorem dispatch_head (h : s.dispatch = .ok s') : (s.queue .runQueue).head? = some s'.self := by
  unfold State.dispatch at h
  split at h
  · rename_i p hp
    cases h
    simp [State.queue, Heap.toList, hp]
    rfl
  · cases h

theorem scheduler_ok (h : Reachable s) :
    SchedulerOk s ∧ (∀ rt, SchedulerOk (s.eventCheck rt)) ∧
      (∀ queue n rt s', s.yield queue n rt = .ok s' →
        (((s.eventCheck rt).deschedule queue n).queue .runQueue).head? = some s'.self) ∧
      ∀ a, s.step a ≠ .error (.panic .runQueueEmpty) := by
  obtain ⟨rq, sq, hqs, hc⟩ := h.settled.queues
  refine ⟨hqs.ok, fun rt => ?_, fun queue n rt s' hy => dispatch_head hy, fun a ha => ?_⟩
  · obtain ⟨rq', sq', es, h1, _, _, _, _, h6⟩ := hqs.eventCheck hc rt
    rw [← h6] at h1
    exact h1.ok
  · have := h.fine.step a
    rw [ha] at this
    exact this rfl

/-- One process sleeps and one waits for a message. -/
theorem scheduler_ok_sleeper : ∃ s, bootState.run
    [.receive (some 100), .find false 0 0, .find false 5 5, .preempt 6,
      .receive none, .find false 6 6, .find false 6 6] = .ok s ∧ s.queue .sleepQueue = [1] ∧
    SchedulerOk s := by
  obtain ⟨s, hs, hq⟩ := exists_of_runsTo (P := fun s => s.queue .sleepQueue = [1])
    (by decide +kernel : runsTo [.receive (some 100), .find false 0 0, .find false 5 5, .preempt 6,
      .receive none, .find false 6 6, .find false 6 6] _ = true)
  exact ⟨s, hs, by simpa using hq, (scheduler_ok ⟨_, hs⟩).1⟩

/-- A process parked in $receive that nobody has made ready has missed nothing:
no message has come since it parked, and @event-check has not seen its wake time
since it was put on the sleep queue. -/
theorem parked_missed_nothing (h : Reachable s) {w : Option Nat} (ha : s.alive p = true)
    (hp : s.parkedUntil p = some w) (hs : p ≠ s.self) (hr : p ∉ s.queue .runQueue) :
    (∀ k, Event.insert p k ∉ s.log.takeWhile (· ≠ .park p)) ∧
      ∀ t, w = some t → p ∈ s.queue .sleepQueue ∧ (s.pcb p).precedence = t ∧
        ∀ rt, Event.check rt ∈ s.log.takeWhile (· ≠ .enqueue p) → rt < t := by
  obtain ⟨rq, sq, hqs, hc⟩ := h.settled.queues
  have hrq : s.queue .runQueue = rq := queue_eq hqs.shape.run fun p hp => hqs.shape.bound p (.inl hp)
  have hsq : s.queue .sleepQueue = sq :=
    queue_eq hqs.shape.sleep fun p hp => hqs.shape.bound p (.inr hp)
  have hcur : some p ≠ some s.self := by simpa using hs
  rw [hrq] at hr
  refine ⟨hqs.quiet p hcur ha (by simp [hp]) hr, ?_⟩
  rintro t rfl
  rcases (hqs.procs p).waits hcur ha t hp with h1 | ⟨h1, h2⟩
  · exact absurd h1 hr
  · refine ⟨by rw [hsq]; exact h1, h2, fun rt hrt => ?_⟩
    rw [← h2]
    exact hc p h1 rt hrt

theorem parked_missed_nothing_sleeper : ∃ s, bootState.run
    [.receive (some 100), .find false 0 0, .find false 5 5, .preempt 6] = .ok s ∧
    1 ∈ s.queue .sleepQueue ∧ (s.pcb 1).precedence = 100 ∧ Event.check 6 ∈ s.log ∧
    ∀ rt, Event.check rt ∈ s.log.takeWhile (· ≠ .enqueue 1) → rt < 100 := by
  obtain ⟨s, hs, hq⟩ := exists_of_runsTo
    (P := fun s => s.alive 1 = true ∧ s.parkedUntil 1 = some (some 100) ∧ 1 ≠ s.self ∧
      1 ∉ s.queue .runQueue ∧ Event.check 6 ∈ s.log)
    (by decide +kernel : runsTo [.receive (some 100), .find false 0 0, .find false 5 5,
      .preempt 6] _ = true)
  obtain ⟨h1, h2, h3, h4, h5⟩ := of_decide_eq_true hq
  obtain ⟨_, h6⟩ := parked_missed_nothing ⟨_, hs⟩ h1 h2 h3 h4
  obtain ⟨h7, h8, h9⟩ := h6 100 rfl
  exact ⟨s, hs, h7, h8, h5, h9⟩

/-- The clock value read by the last @event-check. -/
def lastCheck : List Event → Option Nat
  | [] => none
  | .check rt :: _ => some rt
  | _ :: es => lastCheck es

/-- The clock may pass the wake time between the test in find1 and the test in
@event-check, which does not see the process that is about to park. -/
theorem parked_after_check : ¬ ∀ s, Reachable s → ∀ p t, s.alive p = true →
    s.parkedUntil p = some (some t) → p ≠ s.self → p ∉ s.queue .runQueue →
    p ∈ s.queue .sleepQueue → ∀ rt, lastCheck s.log = some rt → rt < t := by
  intro h
  obtain ⟨s, hs, hq⟩ := exists_of_runsTo
    (P := fun s => s.alive 3 = true ∧ s.parkedUntil 3 = some (some 7) ∧ 3 ≠ s.self ∧
      3 ∉ s.queue .runQueue ∧ 3 ∈ s.queue .sleepQueue ∧ lastCheck s.log = some 10)
    (by decide +kernel : runsTo [.receive (some 100), .find false 0 0, .find false 5 5, .preempt 6,
      .receive (some 7), .find false 0 0, .find false 6 10] _ = true)
  obtain ⟨h1, h2, h3, h4, h5, h6⟩ := of_decide_eq_true hq
  have := h s ⟨_, hs⟩ 3 7 h1 h2 h3 h4 h5 10 h6
  omega

end Swish.Erlang
