import Swish.Erlang.Kill

/-!
The scheduler's invariant over whole runs: where each process is, given its
flags, and that a process parked in $receive has missed nothing.
-/

set_option autoImplicit false

namespace Swish.Erlang
open CircularList

/-- The wake time of the $receive a process is parked in, if it is parked. -/
def parkedIn : List Frame → Option (Option Nat)
  | .receive r :: _ => if r.phase = .parked then some r.waketime else none
  | _ => none

def State.parkedUntil (s : State) (p : Nat) : Option (Option Nat) := parkedIn (s.pcb p).stack

/-- No message for p since it last parked. -/
def QuietLog (es : List Event) (p : Nat) : Prop :=
  ∀ k, Event.insert p k ∉ es.takeWhile (· ≠ .park p)

theorem QuietLog.cons {es : List Event} {p : Nat} {e : Event} (h : QuietLog es p)
    (he : ∀ k, e ≠ .insert p k) : QuietLog (e :: es) p := by
  intro k hk
  rw [List.takeWhile_cons] at hk
  split at hk
  · rcases List.mem_cons.mp hk with h1 | h1
    · exact he k h1.symm
    · exact h k h1
  · simp at hk

theorem QuietLog.append {es fs : List Event} {p : Nat} (h : QuietLog es p)
    (hf : ∀ e ∈ fs, ∀ k, e ≠ .insert p k) : QuietLog (fs ++ es) p := by
  induction fs with
  | nil => exact h
  | cons f fs ih =>
    exact (ih fun e he => hf e (by simp [he])).cons (hf f (by simp))

theorem QuietLog.park (es : List Event) (p : Nat) : QuietLog (.park p :: es) p := by
  intro k hk
  simp at hk

theorem stamp_cons {es : List Event} {e : Event} (he : ∀ p, e ≠ .enqueue p) (p : Nat) :
    stamp (e :: es) p = stamp es p := by
  simp [stamp, he p]

/-- What the queues and the flags say about one process. The process on the
processor, if there is one, is exempt from most of it. -/
structure ProcOk (s : State) (cur : Option Nat) (rq sq : List Nat) (p : Nat) : Prop where
  live : p ∈ rq ∨ p ∈ sq → s.alive p = true
  awake : some p = cur → p ∉ sq
  sleeping : some p ≠ cur → (p ∈ sq ↔ s.alive p = true ∧ (s.flags p).sleeping = true)
  blocked : some p ≠ cur → (s.flags p).blockedIo = true →
    s.alive p = true ∧ p ∉ rq ∧ (s.flags p).sleeping = false
  parked : some p ≠ cur → s.alive p = true → s.parkedUntil p ≠ none →
    (s.flags p).blockedIo = false
  waits : some p ≠ cur → s.alive p = true → ∀ t, s.parkedUntil p = some (some t) →
    p ∈ rq ∨ (p ∈ sq ∧ (s.pcb p).precedence = t)

/-- A parked process that nobody has made ready has an unchanged inbox. -/
def Quiet (s : State) (cur : Option Nat) (rq : List Nat) (p : Nat) : Prop :=
  some p ≠ cur → s.alive p = true → s.parkedUntil p ≠ none → p ∉ rq → QuietLog s.log p

structure Queues (s : State) (cur : Option Nat) (rq sq : List Nat) : Prop where
  shape : QueueShape s rq sq
  procs : ∀ p, ProcOk s cur rq sq p
  quiet : ∀ p, Quiet s cur rq p
  eventLoop : some s.eventLoop = cur ∨ s.eventLoop ∈ rq

variable {s s' : State} {cur : Option Nat} {rq sq rq' sq' : List Nat} {p q : Nat}

/-- The fields of a pcb that the invariant reads. -/
structure SameView (cur : Option Nat) (s s' : State) (p : Nat) : Prop where
  alive : s'.alive p = s.alive p
  sleeping : (s'.flags p).sleeping = (s.flags p).sleeping
  blockedIo : (s'.flags p).blockedIo = (s.flags p).blockedIo
  precedence : (s'.pcb p).precedence = (s.pcb p).precedence
  parked : some p ≠ cur → s'.parkedUntil p = s.parkedUntil p

theorem SameView.of_eq (h : s'.pcb p = s.pcb p) : SameView cur s s' p := by
  refine ⟨?_, ?_, ?_, ?_, fun _ => ?_⟩ <;>
    simp only [State.alive, State.flags, State.parkedUntil, h]

theorem ProcOk.congr (h : ProcOk s cur rq sq p) (hv : SameView cur s s' p)
    (hr : p ∈ rq' ↔ p ∈ rq) (hs : p ∈ sq' ↔ p ∈ sq) : ProcOk s' cur rq' sq' p := by
  refine ⟨?_, ?_, ?_, ?_, ?_, ?_⟩
  · rw [hr, hs, hv.alive]; exact h.live
  · rw [hs]; exact h.awake
  · intro hc
    rw [hs, hv.alive, hv.sleeping]; exact h.sleeping hc
  · intro hc
    rw [hr, hv.alive, hv.sleeping, hv.blockedIo]; exact h.blocked hc
  · intro hc
    rw [hv.alive, hv.parked hc, hv.blockedIo]; exact h.parked hc
  · intro hc
    rw [hr, hs, hv.alive, hv.parked hc, hv.precedence]; exact h.waits hc

theorem Quiet.congr (h : Quiet s cur rq p) (hv : SameView cur s s' p)
    (hr : p ∈ rq' ↔ p ∈ rq) (hl : QuietLog s.log p → QuietLog s'.log p) :
    Quiet s' cur rq' p := by
  intro hc h1 h2 h3
  rw [hv.alive] at h1
  rw [hv.parked hc] at h2
  rw [hr] at h3
  exact hl (h hc h1 h2 h3)

/-- Work of the running process on its own stack, its mailbox or data that has
nothing to do with scheduling. -/
theorem Queues.congr (h : Queues s cur rq sq) (hq : s'.queues = s.queues)
    (hl : s.procs.last ≤ s'.procs.last) (hv : ∀ p, SameView cur s s' p)
    (he : s'.eventLoop = s.eventLoop) (hs : ∀ p, stamp s'.log p = stamp s.log p)
    (hi : ∀ p, QuietLog s.log p → QuietLog s'.log p) : Queues s' cur rq sq := by
  refine ⟨h.shape.congr hq hl (fun p _ => (hv p).precedence) hs, fun p => ?_, fun p => ?_, ?_⟩
  · exact (h.procs p).congr (hv p) Iff.rfl Iff.rfl
  · exact (h.quiet p).congr (hv p) Iff.rfl (hi p)
  · rw [he]; exact h.eventLoop

theorem mem_filter_ne {l : List Nat} {p q : Nat} (h : q ≠ p) :
    q ∈ l.filter (· ≠ p) ↔ q ∈ l := by simp [h]

/-- The view of the other processes while p is moved from queue to queue. -/
theorem enqueue_view {q : QPtr} {n x : Nat} (hx : x ≠ p) :
    SameView cur s (s.enqueue p q n) x := by
  apply SameView.of_eq
  simp [hx]

theorem enqueue_quiet {q : QPtr} {n x : Nat} (h : QuietLog s.log x) :
    QuietLog (s.enqueue p q n).log x := h.cons (by simp)

theorem remove_view (x : Nat) : SameView cur s (s.removeQIfEnqueued p) x :=
  SameView.of_eq rfl

/-- Making p ready. Nothing need be known about its place before. -/
theorem Queues.ready (h : QueueShape s rq sq) (ho : ∀ q ≠ p, ProcOk s cur rq sq q)
    (hq : ∀ q ≠ p, Quiet s cur rq q)
    (he : s.eventLoop = p ∨ some s.eventLoop = cur ∨ s.eventLoop ∈ rq) (hp : s.alive p = true)
    (hf : some p ≠ cur → (s.flags p).sleeping = false ∧ (s.flags p).blockedIo = false) :
    Queues (s.enqueue p .runQueue 0) cur (rq.filter (· ≠ p) ++ [p]) (sq.filter (· ≠ p)) := by
  have hlast : p ≤ s.procs.last := le_last_of_alive hp
  have hsame : (s.enqueue p .runQueue 0).pcb p = { s.pcb p with precedence := 0 } := by
    simp
  refine ⟨h.enqueue_run hlast, fun q => ?_, fun q => ?_, ?_⟩
  · by_cases hqp : q = p
    · subst hqp
      refine ⟨?_, ?_, ?_, ?_, ?_, ?_⟩
      · intro _; simp only [State.alive, hsame]; exact hp
      · intro _; simp
      · intro hc; simp [(hf hc).1]
      · intro hc hb
        simp only [State.flags, hsame] at hb
        rw [(hf hc).2] at hb
        cases hb
      · intro hc _ _; simp only [State.flags, hsame]; exact (hf hc).2
      · intro _ _ t _; simp
    · exact (ho q hqp).congr (enqueue_view hqp) (by simp [hqp]) (mem_filter_ne hqp)
  · by_cases hqp : q = p
    · subst hqp
      intro _ _ _ hn
      simp at hn
    · exact (hq q hqp).congr (enqueue_view hqp) (by simp [hqp]) enqueue_quiet
  · by_cases hep : s.eventLoop = p
    · exact .inr (List.mem_append.mpr (.inr (List.mem_singleton.mpr hep)))
    · rcases he with h1 | h1 | h1
      · exact absurd h1 hep
      · exact .inl h1
      · exact .inr (List.mem_append.mpr (.inl ((mem_filter_ne hep).mpr h1)))

/-- Processes may have left the sleep queue; the others keep their wake time. -/
def Sleepers (s s' : State) (sq sq' : List Nat) : Prop :=
  ∀ q ∈ sq', q ∈ sq ∧ (s'.pcb q).precedence = (s.pcb q).precedence

theorem Sleepers.same (hp : ∀ q, (s'.pcb q).precedence = (s.pcb q).precedence) :
    Sleepers s s' sq sq := fun q hq => ⟨hq, hp q⟩

theorem Sleepers.ready (n : Nat) (t : QPtr) :
    Sleepers s (s.enqueue p t n) sq (sq.filter (· ≠ p)) := by
  intro q hq
  have hqp : q ≠ p := by
    rintro rfl
    simp at hq
  exact ⟨(mem_filter_ne hqp).mp hq, by simp [hqp]⟩

/-- Clock readings of @event-check since a process was put on the sleep queue
are before its wake time. -/
def ChecksOk (s : State) (sq : List Nat) : Prop :=
  ∀ p ∈ sq, ∀ rt, Event.check rt ∈ s.log.takeWhile (· ≠ .enqueue p) → rt < (s.pcb p).precedence

theorem takeWhile_append_subset {es fs : List Event} {f : Event → Bool} {e : Event}
    (h : e ∈ (fs ++ es).takeWhile f) : e ∈ fs ∨ e ∈ es.takeWhile f := by
  induction fs with
  | nil => exact .inr h
  | cons g fs ih =>
    rw [List.cons_append, List.takeWhile_cons] at h
    split at h
    · rcases List.mem_cons.mp h with rfl | h
      · simp
      · rcases ih h with h1 | h1
        · simp [h1]
        · exact .inr h1
    · simp at h

theorem ChecksOk.mono (h : ChecksOk s sq) (hs : Sleepers s s' sq sq') (es : List Event)
    (hl : s'.log = es ++ s.log) (hc : ∀ e ∈ es, ∀ rt, e ≠ .check rt) : ChecksOk s' sq' := by
  intro p hp rt hrt
  obtain ⟨h1, h2⟩ := hs p hp
  rw [h2]
  rw [hl] at hrt
  rcases takeWhile_append_subset hrt with h3 | h3
  · exact absurd rfl (hc _ h3 rt)
  · exact h p h1 rt h3

/-- The cond shared by @send and keyboard-interrupt, from a state in which the
process may have a new message. -/
theorem Queues.wake (h : QueueShape s rq sq) (ho : ∀ q, ProcOk s cur rq sq q)
    (hq : ∀ q ≠ p, Quiet s cur rq q) (he : some s.eventLoop = cur ∨ s.eventLoop ∈ rq)
    (hp : s.alive p = true) (hc : some p = cur → (s.flags p).sleeping = false) :
    ∃ rq' sq', Queues (s.wake p) cur rq' sq' ∧ Sleepers s (s.wake p) sq sq' := by
  unfold State.wake
  split
  · rename_i hs
    have hcur : some p ≠ cur := by
      intro h1
      rw [hc h1] at hs
      cases hs
    have hv : ∀ q, q ≠ p → SameView cur s (s.setFlags p fun f => { f with sleeping := false }) q :=
      fun q hqp => SameView.of_eq (by simp [State.setFlags, hqp])
    refine ⟨_, _, Queues.ready (h.congr rfl (Nat.le_max_left _ _) ?_ fun _ => rfl)
      (fun q hqp => (ho q).congr (hv q hqp) Iff.rfl Iff.rfl)
      (fun q hqp => (hq q hqp).congr (hv q hqp) Iff.rfl id) (.inr he) ?_ ?_, fun q hq => ?_⟩
    · intro q _
      by_cases hqp : q = p <;> simp [hqp]
    · simpa using hp
    · intro _
      have hb : (s.flags p).blockedIo = false := by
        cases hb : (s.flags p).blockedIo with
        | false => rfl
        | true =>
          have := ((ho p).blocked hcur hb).2.2
          rw [this] at hs
          cases hs
      simpa using hb
    · obtain ⟨h1, h2⟩ := Sleepers.ready _ _ q hq
      refine ⟨h1, h2.trans ?_⟩
      by_cases hqp : q = p <;> simp [hqp]
  · rename_i hs
    have hs : (s.flags p).sleeping = false := by simpa using hs
    -- a process that is already ready, or that I/O holds, needs no message to be quiet
    have hstay : (some p ≠ cur → s.parkedUntil p ≠ none → p ∈ rq) →
        Queues s cur rq sq := by
      intro hr
      refine ⟨h, ho, fun q => ?_, he⟩
      by_cases hqp : q = p
      · subst hqp
        intro h1 _ h3 h4
        exact absurd (hr h1 h3) h4
      · exact hq q hqp
    split
    · rename_i hb
      refine ⟨rq, sq, hstay fun h1 h3 => ?_, Sleepers.same fun _ => rfl⟩
      have := (ho p).parked h1 hp h3
      rw [this] at hb
      cases hb
    · rename_i hb
      have hb : (s.flags p).blockedIo = false := by simpa using hb
      split
      · rename_i hen
        refine ⟨rq, sq, hstay fun h1 _ => ?_, Sleepers.same fun _ => rfl⟩
        rcases h.enqueued p hen with h3 | h3
        · exact h3
        · have := ((ho p).sleeping h1).mp h3
          rw [hs] at this
          cases this.2
      · exact ⟨_, _, Queues.ready h (fun q _ => ho q) hq (.inr he) hp fun _ => ⟨hs, hb⟩,
          Sleepers.ready _ _⟩

/-- The invariant between two steps of the running process. -/
structure Settled (s : State) : Prop where
  queues : ∃ rq sq, Queues s (some s.self) rq sq ∧ ChecksOk s sq
  awake : (s.flags s.self).sleeping = false ∧ (s.flags s.self).blockedIo = false
  loop : s.alive s.eventLoop = true

theorem wake_log (s : State) (p : Nat) :
    ∃ es, (s.wake p).log = es ++ s.log ∧ ∀ e ∈ es, e = .enqueue p := by
  unfold State.wake
  split
  · exact ⟨[.enqueue p], rfl, by simp⟩
  · split
    · exact ⟨[], rfl, by simp⟩
    · split
      · exact ⟨[], rfl, by simp⟩
      · exact ⟨[.enqueue p], rfl, by simp⟩

theorem wake_self (s : State) (p : Nat) : (s.wake p).self = s.self := by
  unfold State.wake
  split
  · rfl
  · split
    · rfl
    · split <;> rfl

theorem wake_awake (s : State) (p : Nat) (h : (s.flags s.self).sleeping = false ∧
    (s.flags s.self).blockedIo = false) :
    ((s.wake p).flags (s.wake p).self).sleeping = false ∧
      ((s.wake p).flags (s.wake p).self).blockedIo = false := by
  have hget : ∀ (t : State) (q : Nat), ((t.enqueue p .runQueue 0).flags q) = t.flags q := by
    intro t q
    by_cases hq : q = p <;> simp [hq]
  rw [wake_self]
  unfold State.wake
  split
  · rw [hget]
    by_cases hq : s.self = p
    · simpa [hq] using h.2
    · simpa [hq] using h
  · split
    · exact h
    · split
      · exact h
      · rw [hget]; exact h

/-- Sending from any state in which the invariant holds but for the quiet of
the receiver. -/
theorem Settled.wake (h : QueueShape s rq sq) (ho : ∀ q, ProcOk s (some s.self) rq sq q)
    (hq : ∀ q ≠ p, Quiet s (some s.self) rq q)
    (he : some s.eventLoop = some s.self ∨ s.eventLoop ∈ rq) (hc : ChecksOk s sq)
    (ha : (s.flags s.self).sleeping = false ∧ (s.flags s.self).blockedIo = false)
    (hp : s.alive p = true) (hloop : s.alive s.eventLoop = true) : Settled (s.wake p) := by
  obtain ⟨rq', sq', h1, h2⟩ := Queues.wake h ho hq he hp fun hs => by
    cases hs; exact ha.1
  obtain ⟨es, hes, hev⟩ := wake_log s p
  have hw := SchedOnly.wake s p
  refine ⟨⟨rq', sq', ?_, ?_⟩, wake_awake s p ha, ?_⟩
  rotate_left 2
  · rw [State.alive, hw.inbox, hw.eventLoop]; exact hloop
  · rw [wake_self]; exact h1
  · refine hc.mono h2 es hes fun e he rt => ?_
    rw [hev e he]
    simp

theorem Settled.congr (h : Settled s) (hq : s'.queues = s.queues) (hself : s'.self = s.self)
    (hl : s.procs.last ≤ s'.procs.last) (hv : ∀ p, SameView (some s.self) s s' p)
    (he : s'.eventLoop = s.eventLoop) (es : List Event) (hlog : s'.log = es ++ s.log)
    (hes : ∀ e ∈ es, (∀ p, e ≠ .enqueue p) ∧ (∀ p k, e ≠ .insert p k) ∧ ∀ rt, e ≠ .check rt) :
    Settled s' := by
  obtain ⟨rq, sq, hqs, hc⟩ := h.queues
  have hst : ∀ p, stamp s'.log p = stamp s.log p := by
    intro p
    rw [hlog]
    clear hlog
    induction es with
    | nil => rfl
    | cons e es ih =>
      rw [List.cons_append, stamp_cons (hes e (by simp)).1, ih fun f hf => hes f (by simp [hf])]
  refine ⟨⟨rq, sq, ?_, ?_⟩, ?_, by rw [(hv _).alive, he]; exact h.loop⟩
  · rw [hself]
    refine hqs.congr hq hl hv he hst fun p hp => ?_
    rw [hlog]
    exact hp.append fun e h1 k => (hes e h1).2.1 p k
  · exact hc.mono (Sleepers.same fun q => (hv q).precedence) es hlog fun e h1 => (hes e h1).2.2
  · rw [hself]
    simp only [(hv s.self).sleeping, (hv s.self).blockedIo]
    exact h.awake

theorem Settled.send (h : Settled s) (p : Nat) (x : Contents) : Settled (s.send p x) := by
  unfold State.send
  split
  · rename_i hp
    obtain ⟨rq, sq, hqs, hc⟩ := h.queues
    have hv : ∀ q, SameView (some s.self) s (s.insertMsg p x) q := fun q => SameView.of_eq rfl
    have hsh : QueueShape (s.insertMsg p x) rq sq :=
      hqs.shape.congr rfl (Nat.le_refl _) (fun _ _ => rfl) (stamp_cons (by simp))
    refine Settled.wake hsh ?_ ?_ hqs.eventLoop ?_ h.awake hp h.loop
    · exact fun q => (hqs.procs q).congr (hv q) Iff.rfl Iff.rfl
    · intro q hqp
      refine (hqs.quiet q).congr (hv q) Iff.rfl fun hl => hl.cons ?_
      intro k
      simp only [ne_eq, Event.insert.injEq, not_and]
      intro he
      exact absurd he.symm hqp
    · exact hc.mono (Sleepers.same fun _ => rfl) [.insert p s.nextMsg] rfl (by simp)
  · exact h

/-- Changes to a pcb that the scheduler does not look at. -/
theorem Settled.modify (h : Settled s) (p : Nat) (f : Pcb → Pcb)
    (hi : (f (s.pcb p)).inbox = (s.pcb p).inbox)
    (hs : (f (s.pcb p)).flags.sleeping = (s.pcb p).flags.sleeping)
    (hb : (f (s.pcb p)).flags.blockedIo = (s.pcb p).flags.blockedIo)
    (hn : (f (s.pcb p)).precedence = (s.pcb p).precedence)
    (hk : p ≠ s.self → (f (s.pcb p)).stack = (s.pcb p).stack) : Settled (s.modify p f) := by
  refine h.congr rfl rfl (Nat.le_max_left _ _) (fun q => ?_) rfl [] rfl (by simp)
  by_cases hq : q = p
  · subst hq
    refine ⟨?_, ?_, ?_, ?_, fun hc => ?_⟩
    · simpa using hi
    · simpa using hs
    · simpa using hb
    · simpa using hn
    · have : q ≠ s.self := fun he => hc (by rw [he])
      simp only [State.parkedUntil, State.modify_get, State.pcb, if_true]
      rw [hk this]
  · exact SameView.of_eq (by simp [hq])

theorem Settled.sendExit (h : Settled s) (target q : Nat) (r : RawReason) :
    Settled (s.sendExit target q r) :=
  (h.modify target _ rfl rfl rfl rfl fun _ => rfl).send _ _

theorem Settled.die (h : Settled s) (hp : p ≠ s.eventLoop) (r : RawReason) :
    Settled (s.die p r) := by
  obtain ⟨rq, sq, hqs, hc⟩ := h.queues
  have hgone : ∀ l : List Nat, p ∉ l.filter (· ≠ p) := fun l => by simp
  refine ⟨⟨rq.filter (· ≠ p), sq.filter (· ≠ p), ⟨?_, fun q => ?_, fun q => ?_, ?_⟩, ?_⟩, ?_, ?_⟩
  · refine (hqs.shape.remove p).congr rfl (Nat.le_max_left _ _) ?_ fun _ => rfl
    intro q _
    by_cases hq : q = p <;> simp [hq, Pcb.dead]
  · by_cases hq : q = p
    · subst hq
      constructor <;> simp [Pcb.dead]
    · exact (hqs.procs q).congr (SameView.of_eq (by simp [hq])) (mem_filter_ne hq) (mem_filter_ne hq)
  · by_cases hq : q = p
    · subst hq
      intro _ h1
      simp [Pcb.dead] at h1
    · exact (hqs.quiet q).congr (SameView.of_eq (by simp [hq])) (mem_filter_ne hq) id
  · rcases hqs.eventLoop with h1 | h1
    · exact .inl h1
    · exact .inr ((mem_filter_ne (Ne.symm hp)).mpr h1)
  · refine hc.mono (fun q hq => ?_) [] rfl (by simp)
    have hqp : q ≠ p := by rintro rfl; exact hgone _ hq
    exact ⟨(mem_filter_ne hqp).mp hq, by simp [hqp]⟩
  · by_cases hq : s.self = p
    · simp [State.die, State.modify, State.removeQIfEnqueued, hq, Pcb.dead]
    · have := h.awake
      simpa [State.die, State.modify, State.removeQIfEnqueued, hq] using this
  · have := h.loop
    simpa [State.die, State.modify, State.removeQIfEnqueued, Ne.symm hp] using this

theorem Settled.killMove (hm : KillMove s s') (h : Settled s) : Settled s' := by
  cases hm with
  | send p x => exact h.send p x
  | sendExit target p r _ => exact h.sendExit target p r
  | die p r hp => exact h.die hp r
  | links p ls => exact h.modify p _ rfl rfl rfl rfl fun _ => rfl
  | monitors p ms => exact h.modify p _ rfl rfl rfl rfl fun _ => rfl

theorem setSleeping_view (b : Bool) {q : Nat} (hq : q ≠ p) :
    SameView cur s (s.setFlags p fun f => { f with sleeping := b }) q :=
  SameView.of_eq (by simp [hq])

/-- The loop of @event-check takes the sleepers whose time has come off the
front of the sleep queue. -/
theorem Queues.wakeSleepers {n : Nat} (rt : Nat) (h : Queues s cur rq sq) (hn : sq.length < n) :
    ∃ rq' sq' es, Queues (s.wakeSleepers rt n (some ((sq.map QPtr.pcb).headD .sleepQueue))) cur rq' sq' ∧
      Sleepers s (s.wakeSleepers rt n (some ((sq.map QPtr.pcb).headD .sleepQueue))) sq sq' ∧
      (∀ p ∈ sq', rt < (s.pcb p).precedence) ∧
      (s.wakeSleepers rt n (some ((sq.map QPtr.pcb).headD .sleepQueue))).log = es ++ s.log ∧
      (∀ e ∈ es, ∃ p, e = .enqueue p) ∧
      (∀ q, q ∉ sq → (s.wakeSleepers rt n
        (some ((sq.map QPtr.pcb).headD .sleepQueue))).pcb q = s.pcb q) ∧
      (s.wakeSleepers rt n (some ((sq.map QPtr.pcb).headD .sleepQueue))).self = s.self := by
  induction n generalizing s rq sq with
  | zero => omega
  | succ n ih =>
    cases sq with
    | nil =>
      exact ⟨rq, [], [], h, Sleepers.same fun _ => rfl, by simp, rfl, by simp, fun _ _ => rfl, rfl⟩
    | cons p sq =>
      simp only [List.map_cons, List.headD_cons]
      unfold State.wakeSleepers
      split
      · rename_i hp
        have hpc : some p ≠ cur := fun hc => (h.procs p).awake hc (by simp)
        have hps := ((h.procs p).sleeping hpc).mp (by simp)
        have hnd : (p :: sq).Nodup := ring_pids_nodup h.shape.sleep
        have htail : (p :: sq).filter (· ≠ p) = sq := by
          simpa using filter_ne_append (a := []) hnd
        have hb : (s.flags p).blockedIo = false := by
          cases hb : (s.flags p).blockedIo with
          | false => rfl
          | true =>
            have := ((h.procs p).blocked hpc hb).2.2
            rw [this] at hps
            cases hps.2
        have hnext : (s.queues (.pcb p)).next = some ((sq.map QPtr.pcb).headD .sleepQueue) := by
          have hring : IsRing s.queues .sleepQueue ([] ++ QPtr.pcb p :: sq.map .pcb) := h.shape.sleep
          exact hring.next_eq
        have hshape : QueueShape (s.setFlags p fun f => { f with sleeping := false }) rq (p :: sq) :=
          h.shape.congr rfl (Nat.le_max_left _ _)
            (fun q _ => by by_cases hq : q = p <;> simp [hq]) fun _ => rfl
        have hready := Queues.ready hshape
          (fun q hq => (h.procs q).congr (setSleeping_view false hq) Iff.rfl Iff.rfl)
          (fun q hq => (h.quiet q).congr (setSleeping_view false hq) Iff.rfl id)
          (.inr h.eventLoop) (by simpa using hps.1) (fun _ => by simpa using hb)
        rw [htail] at hready
        simp only [hnext]
        obtain ⟨rq', sq', es, h1, h2, h3, h4, h5, h6, h7⟩ :=
          ih hready (by simpa using hn)
        have hsq : ∀ q ∈ sq, q ≠ p := by
          rintro q hq rfl
          simp at hnd
          exact hnd.1 hq
        have hkeep : ∀ q, q ≠ p →
            ((s.setFlags p fun f => { f with sleeping := false }).enqueue p .runQueue 0).pcb q =
              s.pcb q := by
          intro q hq
          simp [hq]
        refine ⟨rq', sq', es ++ [.enqueue p], h1, ?_, ?_, ?_, ?_, ?_, h7⟩
        · intro q hq
          obtain ⟨h8, h9⟩ := h2 q hq
          exact ⟨by simp [h8], by rw [h9, hkeep q (hsq q h8)]⟩
        · intro q hq
          have := h3 q hq
          rwa [hkeep q (hsq q (h2 q hq).1)] at this
        · rw [h4, List.append_assoc]; rfl
        · intro e he
          rcases List.mem_append.mp he with h8 | h8
          · exact h5 e h8
          · exact ⟨p, by simpa using h8⟩
        · intro q hq
          simp only [List.mem_cons, not_or] at hq
          rw [h6 q hq.2, hkeep q hq.1]
      · rename_i hp
        refine ⟨rq, p :: sq, [], h, Sleepers.same fun _ => rfl, ?_, rfl, by simp, fun _ _ => rfl, rfl⟩
        have hord := List.pairwise_cons.mp h.shape.sleepOrder
        intro q hq
        rcases List.mem_cons.mp hq with rfl | hq
        · omega
        · have := hord.1 q hq
          unfold State.Before at this
          omega

theorem sleep_length_lt (h : QueueShape s rq sq) : sq.length < s.procs.last + 2 :=
  Nat.lt_succ_of_le (QueueShape.length_le (ring_pids_nodup h.sleep) fun q hq => h.bound q (.inr hq))

/-- @event-check leaves only sleepers whose wake time is still to come. -/
theorem Queues.eventCheck (h : Queues s cur rq sq) (hc : ChecksOk s sq) (rt : Nat) :
    ∃ rq' sq' es, Queues (s.eventCheck rt) cur rq' sq' ∧ ChecksOk (s.eventCheck rt) sq' ∧
      (s.eventCheck rt).log = es ++ s.log ∧ (∀ e ∈ es, ∀ p k, e ≠ .insert p k) ∧
      (∀ q, q ∉ sq → (s.eventCheck rt).pcb q = s.pcb q) ∧ (s.eventCheck rt).self = s.self := by
  unfold State.eventCheck
  split
  · exact ⟨rq, sq, [], h, hc, rfl, by simp, fun _ _ => rfl, rfl⟩
  · have hnext : (s.queues .sleepQueue).next = some ((sq.map QPtr.pcb).headD .sleepQueue) :=
      h.shape.sleep.sentinel_next
    have h0 : Queues { s with log := .check rt :: s.log } cur rq sq :=
      h.congr rfl (Nat.le_refl _) (fun p => SameView.of_eq rfl) rfl (stamp_cons (by simp))
        fun p hp => hp.cons (by simp)
    simp only [hnext]
    obtain ⟨rq', sq', es, h1, h2, h3, h4, h5, h6, h7⟩ :=
      h0.wakeSleepers rt (sleep_length_lt h0.shape)
    refine ⟨rq', sq', es ++ [.check rt], h1, ?_, ?_, ?_, h6, h7⟩
    · intro p hp t ht
      obtain ⟨h8, h9⟩ := h2 p hp
      rw [h9]
      rw [h4] at ht
      rcases takeWhile_append_subset ht with h10 | h10
      · obtain ⟨q, hq⟩ := h5 _ h10
        cases hq
      · simp only [ne_eq, reduceCtorEq, not_false_eq_true, decide_true, List.takeWhile_cons,
          if_true, List.mem_cons, Event.check.injEq] at h10
        rcases h10 with rfl | h10
        · exact h3 p hp
        · exact hc p h8 t h10
    · rw [h4, List.append_assoc]; rfl
    · intro e he p k
      rcases List.mem_append.mp he with h8 | h8
      · obtain ⟨q, rfl⟩ := h5 e h8
        simp
      · rw [List.mem_singleton.mp h8]
        simp

theorem Settled.kill (h : Settled s) {raw : RawReason} (hk : s.kill p raw = .ok s') : Settled s' :=
  (kill_moves hk).invariant (fun _ _ => Settled.killMove) h

theorem ProcOk.of_ne (h : ProcOk s (some p) rq sq q) (hq : q ≠ p) : ProcOk s none rq sq q := by
  have hc : some q ≠ some p := by simpa using hq
  exact ⟨h.live, by simp, fun _ => h.sleeping hc, fun _ => h.blocked hc, fun _ => h.parked hc,
    fun _ => h.waits hc⟩

theorem Quiet.of_ne (h : Quiet s (some p) rq q) (hq : q ≠ p) : Quiet s none rq q :=
  fun _ => h (by simpa using hq)

theorem ProcOk.to_cur (h : ProcOk s none rq sq q) (hq : q ≠ p) : ProcOk s (some p) rq sq q :=
  ⟨h.live, by simp [hq], fun _ => h.sleeping (by simp), fun _ => h.blocked (by simp),
    fun _ => h.parked (by simp), fun _ => h.waits (by simp)⟩

/-- The context switch: the event loop is always there to be run. -/
theorem Queues.dispatch (h : Queues s none rq sq) (hc : ChecksOk s sq)
    (hl : s.alive s.eventLoop = true) :
    ∃ s', s.dispatch = .ok s' ∧ Settled s' ∧ s'.alive s'.self = true := by
  cases rq with
  | nil =>
    rcases h.eventLoop with h1 | h1
    · cases h1
    · simp at h1
  | cons p rq =>
    have hnext : (s.queues .runQueue).next = some (.pcb p) := h.shape.run.head_next
    have henq : s.enqueued p = true := (h.shape.enqueued_iff p).mpr (by simp)
    have hnd : (p :: rq).Nodup := ring_pids_nodup h.shape.run
    have hps : p ∉ sq := h.shape.disjoint p (by simp)
    have hfr : (p :: rq).filter (· ≠ p) = rq := by simpa using filter_ne_append (a := []) hnd
    have hpr : p ∉ rq := (List.nodup_cons.mp hnd).1
    have hrem := h.shape.remove p
    rw [hfr, QueueShape.filter_of_not_mem hps] at hrem
    have hq : (s.removeQ p).queues = (s.removeQIfEnqueued p).queues := by
      simp [State.removeQ, State.removeQIfEnqueued, henq]
    have hpa := (h.procs p).live (by simp)
    have hsl : (s.flags p).sleeping = false := by
      cases hs : (s.flags p).sleeping with
      | false => rfl
      | true => exact absurd (((h.procs p).sleeping (by simp)).mpr ⟨hpa, hs⟩) hps
    have hbl : (s.flags p).blockedIo = false := by
      cases hb : (s.flags p).blockedIo with
      | false => rfl
      | true => exact absurd (by simp) ((h.procs p).blocked (by simp) hb).2.1
    have hmem : ∀ q, q ≠ p → (q ∈ rq ↔ q ∈ p :: rq) := fun q hqp => by simp [hqp]
    have hview : ∀ q, q ≠ p → SameView (some p) s
        ({ s.removeQ p with self := p }.modify p fun x => { x with cont := false }) q :=
      fun q hqp => SameView.of_eq (by simp [hqp, State.removeQ])
    refine ⟨_, by rw [State.dispatch, hnext],
      ⟨⟨rq, sq, ⟨?_, fun q => ?_, fun q => ?_, ?_⟩, ?_⟩, ?_, ?_⟩, ?_⟩
    · refine hrem.congr hq (Nat.le_max_left _ _) ?_ fun _ => rfl
      intro q _
      by_cases hqp : q = p <;> simp [hqp, State.removeQ]
    · by_cases hqp : q = p
      · subst hqp
        refine ⟨?_, fun _ => hps, ?_, ?_, ?_, ?_⟩
        · rintro (h1 | h1)
          · exact absurd h1 hpr
          · exact absurd h1 hps
        all_goals intro hne; exact absurd rfl hne
      · exact ((h.procs q).to_cur hqp).congr (hview q hqp) (hmem q hqp) Iff.rfl
    · by_cases hqp : q = p
      · subst hqp
        intro hne
        exact absurd rfl hne
      · have h1 : Quiet s (some p) (p :: rq) q := fun _ => h.quiet q (by simp)
        exact h1.congr (hview q hqp) (hmem q hqp) id
    · rcases h.eventLoop with h1 | h1
      · cases h1
      · rcases List.mem_cons.mp h1 with h2 | h2
        · exact .inl (congrArg some h2)
        · exact .inr h2
    · refine hc.mono (Sleepers.same fun q => ?_) [] rfl (by simp)
      by_cases hqp : q = p <;> simp [hqp, State.removeQ]
    · refine ⟨?_, ?_⟩
      · simpa [State.modify, State.removeQ] using hsl
      · simpa [State.modify, State.removeQ] using hbl
    · by_cases hep : s.eventLoop = p
      · simpa [State.modify, State.removeQ, hep] using hpa
      · simpa [State.modify, State.removeQ, hep] using hl
    · simpa [State.modify, State.removeQ] using hpa

/-- What @yield needs to know of the process that leaves the processor. -/
structure Leaving (s : State) (queue : Option QPtr) (n : Nat) : Prop where
  dead : s.alive s.self = false →
    (s.flags s.self).sleeping = false ∧ (s.flags s.self).blockedIo = false ∧ s.self ≠ s.eventLoop
  run : s.alive s.self = true → queue = some .runQueue →
    n = 0 ∧ (s.flags s.self).sleeping = false ∧ (s.flags s.self).blockedIo = false
  sleep : s.alive s.self = true → queue = some .sleepQueue →
    (s.flags s.self).sleeping = true ∧ (s.flags s.self).blockedIo = false ∧ s.self ≠ s.eventLoop ∧
      (∀ t, s.parkedUntil s.self = some (some t) → t = n) ∧
      (s.parkedUntil s.self ≠ none → QuietLog s.log s.self)
  wait : s.alive s.self = true → queue = none →
    (s.flags s.self).sleeping = false ∧ s.self ≠ s.eventLoop ∧
      (∀ t, s.parkedUntil s.self ≠ some (some t)) ∧
      (s.parkedUntil s.self ≠ none → (s.flags s.self).blockedIo = false ∧ QuietLog s.log s.self)
  queue : ∀ p, queue ≠ some (.pcb p)

theorem Leaving.of_eq {queue : Option QPtr} {n : Nat} (h : Leaving s queue n)
    (hp : s'.pcb s.self = s.pcb s.self) (hs : s'.self = s.self) (he : s'.eventLoop = s.eventLoop)
    (hq : QuietLog s.log s.self → QuietLog s'.log s.self) : Leaving s' queue n := by
  have hpu : s'.parkedUntil s.self = s.parkedUntil s.self := by
    simp only [State.parkedUntil, hp]
  refine ⟨?_, ?_, ?_, ?_, h.queue⟩ <;> simp only [State.alive, State.flags, hs, hp, he, hpu]
  · exact h.dead
  · exact h.run
  · intro h1 h2
    obtain ⟨h3, h4, h5, h6, h7⟩ := h.sleep h1 h2
    exact ⟨h3, h4, h5, h6, fun h8 => hq (h7 h8)⟩
  · intro h1 h2
    obtain ⟨h3, h4, h5, h6⟩ := h.wait h1 h2
    exact ⟨h3, h4, h5, fun h8 => ⟨(h6 h8).1, hq (h6 h8).2⟩⟩

/-- The running process is put where its flags say. -/
theorem Queues.deschedule {queue : Option QPtr} {n : Nat} (h : Queues s (some s.self) rq sq)
    (hc : ChecksOk s sq) (hl : Leaving s queue n) :
    ∃ rq' sq', Queues (s.deschedule queue n) none rq' sq' ∧ ChecksOk (s.deschedule queue n) sq' := by
  unfold State.deschedule
  split
  · rename_i ha
    -- the saved continuation is of no interest to the queues
    generalize hs1 : (s.modify s.self fun x => { x with cont := true }) = s1
    have hself : s1.self = s.self := by rw [← hs1]; rfl
    have hev : s1.eventLoop = s.eventLoop := by rw [← hs1]; rfl
    have hlog : s1.log = s.log := by rw [← hs1]; rfl
    have hview : ∀ c q, SameView c s s1 q := by
      intro c q
      rw [← hs1]
      by_cases hq : q = s.self
      · refine ⟨?_, ?_, ?_, ?_, fun _ => ?_⟩ <;> simp [hq, State.parkedUntil]
      · exact SameView.of_eq (by simp [hq])
    have hshape : QueueShape s1 rq sq := h.shape.congr (by rw [← hs1]; rfl)
      (by rw [← hs1]; exact Nat.le_max_left _ _) (fun q _ => (hview none q).precedence)
      (fun q => by rw [hlog])
    have hprocs : ∀ q ≠ s.self, ProcOk s1 none rq sq q := fun q hq =>
      ((h.procs q).of_ne hq).congr (hview none q) Iff.rfl Iff.rfl
    have hquiet : ∀ q ≠ s.self, Quiet s1 none rq q := fun q hq =>
      ((h.quiet q).of_ne hq).congr (hview none q) Iff.rfl (by rw [hlog]; exact id)
    have hchk : ChecksOk s1 sq :=
      hc.mono (Sleepers.same fun q => (hview none q).precedence) [] (by simp [hlog]) (by simp)
    have hva := hview none s.self
    dsimp only
    rw [hself]
    cases queue with
    | none =>
      obtain ⟨h1, h2, h3, h4⟩ := hl.wait ha rfl
      refine ⟨rq.filter (· ≠ s.self), sq.filter (· ≠ s.self),
        ⟨hshape.remove s.self, fun q => ?_, fun q => ?_, .inr ?_⟩, ?_⟩
      · by_cases hq : q = s.self
        · subst hq
          refine ⟨by simp, by simp, fun _ => ?_, fun _ hb => ?_, fun _ _ hp => ?_, fun _ _ t hp => ?_⟩
          · have := (hva.sleeping).trans h1
            simp_all
          · exact ⟨(hva.alive).trans ha, by simp, (hva.sleeping).trans h1⟩
          · exact (hva.blockedIo).trans (h4 (by rwa [← hva.parked (by simp)])).1
          · exact absurd ((hva.parked (by simp)).symm.trans hp) (h3 t)
        · exact (hprocs q hq).congr (remove_view q) (mem_filter_ne hq) (mem_filter_ne hq)
      · by_cases hq : q = s.self
        · subst hq
          intro _ _ hp _
          have := (h4 (by rwa [← hva.parked (by simp)])).2
          rw [← hlog] at this
          exact this
        · exact (hquiet q hq).congr (remove_view q) (mem_filter_ne hq) id
      · rcases h.eventLoop with h5 | h5
        · exact absurd (Option.some.inj h5).symm h2
        · have he : s.eventLoop ∈ rq.filter (· ≠ s.self) := (mem_filter_ne (Ne.symm h2)).mpr h5
          rw [← hev] at he
          exact he
      · refine hchk.mono (fun q hq => ?_) [] rfl (by simp)
        exact ⟨(List.mem_filter.mp hq).1, rfl⟩
    | some t =>
      cases t with
      | pcb x => exact absurd rfl (hl.queue x)
      | runQueue =>
        obtain ⟨rfl, h1, h2⟩ := hl.run ha rfl
        refine ⟨_, _, Queues.ready hshape hprocs hquiet ?_ ((hva.alive).trans ha)
          (fun _ => ⟨(hva.sleeping).trans h1, (hva.blockedIo).trans h2⟩), ?_⟩
        · rw [hev]
          rcases h.eventLoop with h5 | h5
          · exact .inl (Option.some.inj h5)
          · exact .inr (.inr h5)
        · exact hchk.mono (Sleepers.ready _ _) [.enqueue s.self] rfl (by simp)
      | sleepQueue =>
        obtain ⟨h1, h2, h3, h4, h5⟩ := hl.sleep ha rfl
        have hlast : s.self ≤ s1.procs.last := le_last_of_alive ((hva.alive).trans ha)
        obtain ⟨a, b, hab, _, _, hsh⟩ := hshape.enqueue_sleep hlast n
        have hmem : ∀ q, q ≠ s.self → (q ∈ a ++ s.self :: b ↔ q ∈ sq) := by
          intro q hq
          rw [← mem_filter_ne (l := sq) hq, hab]
          simp [hq]
        have hsame : (s1.enqueue s.self .sleepQueue n).pcb s.self =
            { s1.pcb s.self with precedence := n } := by simp
        refine ⟨rq.filter (· ≠ s.self), a ++ s.self :: b,
          ⟨hsh, fun q => ?_, fun q => ?_, .inr ?_⟩, ?_⟩
        · by_cases hq : q = s.self
          · subst hq
            refine ⟨fun _ => ?_, by simp, fun _ => ?_, fun _ hb => ?_, fun _ _ _ => ?_, fun _ _ t hp => ?_⟩
            · simp only [State.alive, hsame]; exact (hva.alive).trans ha
            · simp only [State.alive, State.flags, hsame]
              simpa using ⟨(hva.alive).trans ha, (hva.sleeping).trans h1⟩
            · simp only [State.flags, hsame] at hb
              rw [(hva.blockedIo).trans h2] at hb
              cases hb
            · simp only [State.flags, hsame]; exact (hva.blockedIo).trans h2
            · right
              refine ⟨by simp, ?_⟩
              rw [hsame]
              have hp' : s1.parkedUntil s.self = some (some t) := by
                simpa only [State.parkedUntil, hsame] using hp
              exact (h4 t ((hva.parked (by simp)).symm.trans hp')).symm
          · exact (hprocs q hq).congr (enqueue_view hq) (mem_filter_ne hq) (hmem q hq)
        · by_cases hq : q = s.self
          · subst hq
            intro _ _ hp _
            have hp' : s1.parkedUntil s.self ≠ none := by
              simpa only [State.parkedUntil, hsame] using hp
            refine enqueue_quiet ?_
            rw [hlog]
            exact h5 (by rwa [← hva.parked (by simp)])
          · exact (hquiet q hq).congr (enqueue_view hq) (mem_filter_ne hq) enqueue_quiet
        · rcases h.eventLoop with h6 | h6
          · exact absurd (Option.some.inj h6).symm h3
          · have he : s.eventLoop ∈ rq.filter (· ≠ s.self) := (mem_filter_ne (Ne.symm h3)).mpr h6
            rw [← hev] at he
            exact he
        · intro q hq rt hrt
          by_cases hqs : q = s.self
          · subst hqs
            simp [State.enqueue] at hrt
          · have hrt' : Event.check rt ∈ s1.log.takeWhile (· ≠ .enqueue q) := by
              have hne : Event.enqueue s.self ≠ .enqueue q := by
                simpa using Ne.symm hqs
              have : (s1.enqueue s.self .sleepQueue n).log = .enqueue s.self :: s1.log := rfl
              rw [this, List.takeWhile_cons] at hrt
              simpa [hne] using hrt
            have := hchk q ((hmem q hqs).mp hq) rt hrt'
            simpa [hqs] using this
  · rename_i ha
    have ha : s.alive s.self = false := by simpa using ha
    obtain ⟨h1, h2, h3⟩ := hl.dead ha
    have hnot : s.self ∉ rq ∧ s.self ∉ sq := by
      have := (h.procs s.self).live
      rw [ha] at this
      constructor
      · exact fun hm => absurd (this (.inl hm)) (by simp)
      · exact fun hm => absurd (this (.inr hm)) (by simp)
    refine ⟨rq, sq, ⟨h.shape, fun q => ?_, fun q => ?_, ?_⟩, hc⟩
    · by_cases hq : q = s.self
      · subst hq
        refine ⟨(h.procs _).live, by simp, fun _ => ?_, fun _ hb => ?_, fun _ h4 => ?_, fun _ h4 => ?_⟩
        · simp [hnot.2, ha]
        · rw [h2] at hb; cases hb
        · rw [ha] at h4; cases h4
        · rw [ha] at h4; cases h4
      · exact (h.procs q).of_ne hq
    · by_cases hq : q = s.self
      · subst hq
        intro _ h4
        rw [ha] at h4
        cases h4
      · exact (h.quiet q).of_ne hq
    · rcases h.eventLoop with h5 | h5
      · exact absurd (Option.some.inj h5).symm h3
      · exact .inr h5

/-- @yield never finds the run queue empty. -/
theorem Queues.yield {queue : Option QPtr} {n : Nat} (rt : Nat) (h : Queues s (some s.self) rq sq)
    (hc : ChecksOk s sq) (hl : Leaving s queue n) (hloop : s.alive s.eventLoop = true) :
    ∃ s', s.yield queue n rt = .ok s' ∧ Settled s' ∧ s'.alive s'.self = true := by
  obtain ⟨rq1, sq1, es, h1, h2, h3, h4, h5, h6⟩ := h.eventCheck hc rt
  have hso := SchedOnly.eventCheck s rt
  have hself : s.self ∉ sq := (h.procs s.self).awake rfl
  have hl' : Leaving (s.eventCheck rt) queue n := by
    refine hl.of_eq (h5 _ hself) h6 hso.eventLoop fun hq => ?_
    rw [h3]
    exact hq.append fun e he => h4 e he s.self
  rw [← h6] at h1
  obtain ⟨rq2, sq2, h7, h8⟩ := h1.deschedule h2 hl'
  have hso' := hso.trans (SchedOnly.deschedule (s.eventCheck rt) queue n)
  refine h7.dispatch h8 ?_
  rw [State.alive, hso'.inbox, hso'.eventLoop]
  exact hloop

end Swish.Erlang
