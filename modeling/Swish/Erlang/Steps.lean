import Swish.Erlang.Moves
import Swish.Erlang.Scheduler

/-!
Every step of a run keeps the scheduler's invariant, and no step finds the run
queue empty.
-/

set_option autoImplicit false

namespace Swish.Erlang
open CircularList

variable {s s' : State} {p q : Nat}

/-- The result of a step: the invariant holds again, or the run ends for a
reason other than an empty run queue. -/
def Fine : Except Halt State → Prop
  | .ok s => Settled s ∧ s.alive s.self = true
  | .error e => e ≠ .panic .runQueueEmpty

theorem Settled.ready (h : Settled s) (hp : s.alive p = true)
    (hf : p ≠ s.self → (s.flags p).sleeping = false ∧ (s.flags p).blockedIo = false) :
    Settled (s.enqueue p .runQueue 0) := by
  obtain ⟨rq, sq, hqs, hc⟩ := h.queues
  have hf' : ∀ x, (s.enqueue p .runQueue 0).flags x = s.flags x := by
    intro x
    by_cases hx : x = p <;> simp [hx]
  have ha : ∀ x, (s.enqueue p .runQueue 0).alive x = s.alive x :=
    fun x => (SchedOnly.enqueue s p .runQueue 0).inbox x
  refine ⟨⟨_, _, Queues.ready hqs.shape (fun x _ => hqs.procs x) (fun x _ => hqs.quiet x)
    (.inr hqs.eventLoop) hp fun hne => hf fun he => hne (congrArg some he), ?_⟩, ?_, ?_⟩
  · exact hc.mono (Sleepers.ready _ _) [.enqueue p] rfl (by simp)
  · rw [hf']; exact h.awake
  · rw [ha]; exact h.loop

theorem makeProcess_get {x : Nat} (hx : x ≠ s.procs.last + 1) :
    s.makeProcess.1.pcb x = s.pcb x := by
  simp [State.makeProcess, hx]

theorem makeProcess_new (s : State) :
    s.makeProcess.1.pcb (s.procs.last + 1) = { inbox := true, cont := true } := by
  simp [State.makeProcess]

theorem QueueShape.makeProcess {rq sq : List Nat} (h : QueueShape s rq sq) :
    QueueShape s.makeProcess.1 rq sq := by
  have hstay : ∀ x, x ∈ rq ∨ x ∈ sq → x ≠ s.procs.last + 1 := by
    intro x hx
    have := h.bound x hx
    omega
  have hring : ∀ {t : QPtr} {l : List Nat}, (∀ x, t ≠ .pcb x) → s.procs.last + 1 ∉ l →
      IsRing s.queues t (l.map .pcb) → IsRing s.makeProcess.1.queues t (l.map .pcb) := by
    intro t l ht hl hr
    refine hr.congr fun a ha => ?_
    have hne : a ≠ .pcb (s.procs.last + 1) := by
      rintro rfl
      rcases List.mem_cons.mp ha with h1 | h1
      · exact ht _ h1.symm
      · simp [hl] at h1
    simp [State.makeProcess, Heap.setPrev, Heap.setNext, hne]
  have hbefore : ∀ x y, x ∈ rq ∨ x ∈ sq → y ∈ rq ∨ y ∈ sq → s.Before x y →
      s.makeProcess.1.Before x y := by
    intro x y hx hy h1
    unfold State.Before at *
    rw [makeProcess_get (hstay x hx), makeProcess_get (hstay y hy)]
    exact h1
  refine ⟨?_, ?_, h.disjoint, ?_, ?_, ?_, ?_, ?_⟩
  · exact hring (by simp) (fun hm => hstay _ (.inl hm) rfl) h.run
  · exact hring (by simp) (fun hm => hstay _ (.inr hm) rfl) h.sleep
  · intro x hx
    by_cases hxn : x = s.procs.last + 1
    · simp [hxn, State.makeProcess, State.enqueued, Heap.setPrev, Heap.setNext] at hx
    · refine h.enqueued x ?_
      simpa [hxn, State.makeProcess, State.enqueued, Heap.setPrev, Heap.setNext] using hx
  · intro x hx
    have := h.bound x hx
    simp [State.makeProcess, Table.last_set]
    omega
  · intro x hx
    rw [makeProcess_get (hstay x (.inl hx))]
    exact h.zero x hx
  · exact h.runOrder.imp_of_mem fun h1 h2 => hbefore _ _ (.inl h1) (.inl h2)
  · exact h.sleepOrder.imp_of_mem fun h1 h2 => hbefore _ _ (.inr h1) (.inr h2)

theorem Settled.makeProcess (h : Settled s) (ha : s.alive s.self = true) :
    Settled s.makeProcess.1 := by
  obtain ⟨rq, sq, hqs, hc⟩ := h.queues
  have hstay : ∀ x, x ∈ rq ∨ x ∈ sq → x ≠ s.procs.last + 1 := by
    intro x hx
    have := hqs.shape.bound x hx
    omega
  have hself : s.self ≠ s.procs.last + 1 := by
    have := le_last_of_alive ha
    omega
  have hloop : s.eventLoop ≠ s.procs.last + 1 := by
    have := le_last_of_alive h.loop
    omega
  refine ⟨⟨rq, sq, ⟨hqs.shape.makeProcess, fun x => ?_, fun x => ?_, hqs.eventLoop⟩, ?_⟩, ?_, ?_⟩
  · by_cases hx : x = s.procs.last + 1
    · subst hx
      have h1 : s.procs.last + 1 ∉ rq := fun hm => hstay _ (.inl hm) rfl
      have h2 : s.procs.last + 1 ∉ sq := fun hm => hstay _ (.inr hm) rfl
      refine ⟨fun _ => ?_, fun _ => h2, fun _ => ?_, fun _ => ?_, fun _ _ => ?_, fun _ _ t => ?_⟩ <;>
        simp [makeProcess_new, h1, h2, State.parkedUntil, parkedIn]
    · exact (hqs.procs x).congr (SameView.of_eq (makeProcess_get hx)) Iff.rfl Iff.rfl
  · by_cases hx : x = s.procs.last + 1
    · subst hx
      intro _ _ h1
      simp [State.parkedUntil, makeProcess_new, parkedIn] at h1
    · exact (hqs.quiet x).congr (SameView.of_eq (makeProcess_get hx)) Iff.rfl id
  · intro x hx rt hrt
    rw [makeProcess_get (hstay x (.inr hx))]
    exact hc x hx rt hrt
  · have := h.awake
    simp only [State.flags] at this ⊢
    rw [show s.makeProcess.1.self = s.self from rfl, makeProcess_get hself]
    exact this
  · show s.makeProcess.1.alive s.eventLoop = true
    rw [State.alive, makeProcess_get hloop]
    exact h.loop

theorem Settled.spawn (h : Settled s) (ha : s.alive s.self = true) : Settled s.spawn.1 := by
  refine (h.makeProcess ha).ready ?_ fun _ => ?_ <;> simp [State.makeProcess]

theorem link2_or_eq (s : State) (p q : Nat) :
    s.link2 p q = s ∨ s.link2 p q = (s.addLink p q).addLink q p := by
  unfold State.link2
  split
  · exact .inl rfl
  · exact .inr rfl

theorem Settled.link2 (h : Settled s) (p q : Nat) : Settled (s.link2 p q) := by
  rcases link2_or_eq s p q with he | he
  · rw [he]; exact h
  · rw [he]
    exact (h.modify p _ rfl rfl rfl rfl fun _ => rfl).modify q _ rfl rfl rfl rfl fun _ => rfl

theorem link2_get (s : State) (p q x : Nat) :
    ((s.link2 p q).pcb x).inbox = (s.pcb x).inbox ∧ ((s.link2 p q).pcb x).flags = (s.pcb x).flags := by
  rcases link2_or_eq s p q with he | he
  · rw [he]; exact ⟨rfl, rfl⟩
  · rw [he]
    simp only [State.pcb, State.addLink, State.modify_get]
    constructor <;> (split <;> split <;> simp_all)

theorem Settled.spawnLink (h : Settled s) (ha : s.alive s.self = true) : Settled s.spawnLink.1 := by
  have hl := (h.makeProcess ha).link2 (s.procs.last + 1) s.self
  refine hl.ready ?_ fun _ => ?_
  · rw [State.alive, (link2_get _ _ _ _).1]
    simp [State.makeProcess]
  · rw [State.flags, (link2_get _ _ _ _).2]
    simp [State.makeProcess]

/-- A step of the running process on its own pcb. -/
theorem Settled.own (h : Settled s) (f : Pcb → Pcb)
    (hi : (f (s.pcb s.self)).inbox = (s.pcb s.self).inbox)
    (hs : (f (s.pcb s.self)).flags.sleeping = (s.pcb s.self).flags.sleeping)
    (hb : (f (s.pcb s.self)).flags.blockedIo = (s.pcb s.self).flags.blockedIo)
    (hn : (f (s.pcb s.self)).precedence = (s.pcb s.self).precedence) : Settled (s.modify s.self f) :=
  h.modify s.self f hi hs hb hn fun hne => absurd rfl hne

theorem Settled.setStack (h : Settled s) (fs : List Frame) : Settled (s.setStack s.self fs) :=
  h.own _ rfl rfl rfl rfl

theorem Settled.push (h : Settled s) (f : Frame) : Settled (s.push f) := h.setStack _

/-- History that the scheduler does not care about. -/
theorem Settled.record (h : Settled s) {e : Event} (he : ∀ p, e ≠ .enqueue p)
    (hi : ∀ p k, e ≠ .insert p k) (hc : ∀ rt, e ≠ .check rt) : Settled (s.record e) :=
  h.congr rfl rfl (Nat.le_refl _) (fun _ => SameView.of_eq rfl) rfl
    [e] rfl (by simpa using ⟨he, hi, hc⟩)

theorem Settled.consume (h : Settled s) (k : Nat) (c : Consumer) : Settled (s.consume k c) :=
  h.congr rfl rfl (Nat.le_refl _) (fun _ => SameView.of_eq rfl) rfl
    [.consume k c _] rfl (by simp)

theorem Settled.handleTrapExitHelp (h : Settled s) : Settled s.handleTrapExitHelp := by
  unfold State.handleTrapExitHelp
  split
  · split
    · rename_i k _
      exact ((h.consume k _).own _ rfl rfl rfl rfl).push _
    · exact h.own _ rfl rfl rfl rfl
  · exact h.own _ rfl rfl rfl rfl

theorem Settled.leave (h : Settled s) (r : Receive) (rest : List Frame) :
    Settled (s.leave r rest) := by
  unfold State.leave
  cases r.matcher with
  | user => exact h.setStack rest
  | down m => exact (h.setStack rest).record (by simp) (by simp) (by simp)

theorem Fine.ok (h : Settled s) (ha : s.alive s.self = true) : Fine (.ok s) := ⟨h, ha⟩

theorem Fine.disabled : Fine (.error .disabled) := by simp [Fine]

theorem Fine.ensure {b : Bool} {r : Except Halt State} (h : b = true → Fine r) :
    Fine (State.ensure b r) := by
  cases b with
  | false => exact Fine.disabled
  | true => exact h rfl

theorem Settled.yield {queue : Option QPtr} {n rt : Nat} (h : Settled s)
    (hl : Leaving s queue n) : Fine (s.yield queue n rt) := by
  obtain ⟨rq, sq, hqs, hc⟩ := h.queues
  obtain ⟨s', h1, h2, h3⟩ := hqs.yield rt hc hl h.loop
  rw [h1]
  exact ⟨h2, h3⟩

/-- A dead process leaves for good; the event loop cannot be one. -/
theorem Settled.leaving_dead (h : Settled s) (hd : s.alive s.self = false) : Leaving s none 0 := by
  refine ⟨fun _ => ⟨h.awake.1, h.awake.2, ?_⟩, ?_, ?_, ?_, by simp⟩
  · intro he
    have := h.loop
    rw [← he, hd] at this
    cases this
  all_goals intro ha; rw [hd] at ha; cases ha

theorem Settled.leaving_run (h : Settled s) (ha : s.alive s.self = true) :
    Leaving s (some .runQueue) 0 := by
  refine ⟨?_, fun _ _ => ⟨rfl, h.awake.1, h.awake.2⟩, by simp, by simp, by simp⟩
  intro hd
  rw [ha] at hd
  cases hd

theorem Settled.yieldIfDead {rt : Nat} (h : Settled s) : Fine (s.yieldIfDead rt) := by
  unfold State.yieldIfDead
  cases ha : s.alive s.self with
  | true => exact ⟨h, ha⟩
  | false => exact h.yield (h.leaving_dead ha)

theorem killMove_self (h : KillMove s s') : s'.self = s.self := by
  cases h with
  | send p x =>
    unfold State.send
    split
    · exact wake_self _ _
    · rfl
  | sendExit target p r =>
    unfold State.sendExit State.send
    split
    · exact wake_self _ _
    · rfl
  | die | links | monitors => rfl

theorem send_inbox (s : State) (p : Nat) (x : Contents) (q : Nat) :
    ((s.send p x).pcb q).inbox = (s.pcb q).inbox := by
  unfold State.send
  split
  · exact (SchedOnly.wake (s.insertMsg p x) p).inbox q
  · rfl

/-- Nothing in @kill brings a process back to life. -/
theorem killMove_dead (h : KillMove s s') (hd : s.alive q = false) : s'.alive q = false := by
  cases h with
  | send p x => rw [State.alive, send_inbox]; exact hd
  | sendExit target p r =>
    rw [State.alive, State.sendExit, send_inbox]
    by_cases hq : q = target
    · simpa [hq] using hd
    · simpa [hq] using hd
  | die p r =>
    by_cases hq : q = p
    · simp [hq, Pcb.dead]
    · simpa [hq] using hd
  | links p ls | monitors p ms =>
    by_cases hq : q = p
    · subst hq; simpa [State.setLinks, State.setMonitors] using hd
    · simpa [State.setLinks, State.setMonitors, hq] using hd

theorem kill_self {raw : RawReason} (h : s.kill p raw = .ok s') : s'.self = s.self :=
  (kill_moves h).invariant (I := fun t => t.self = s.self)
    (fun _ _ hm ht => (killMove_self hm).trans ht) rfl

theorem kill_dead {raw : RawReason} (h : s.kill p raw = .ok s') : s'.alive p = false := by
  obtain ⟨_, _, t, ht, rfl⟩ := killFuel_succ h
  have h1 : (((s.die p (s.extendReason p raw)).setLinks p []).alive p) = false := by
    simp [State.setLinks, Pcb.dead]
  have h2 := (removeLinks_moves _ (s.pcb p).links p).invariant (fun _ _ => killMove_dead) h1
  have h3 := (killLinked_moves (fun _ _ _ _ => killFuel_moves _ _ _ _ _) _ _ _ _ _ _ ht).invariant
    (fun _ _ => killMove_dead) h2
  exact (KillMoves.invariant (fun _ _ => killMove_dead)
    (.head (.monitors t p []) (fireMonitors_moves _ _ _ _)) h3)

theorem killLinked_halt {kill : State → Nat → RawReason → Except Halt State} {e : Halt}
    (hk : ∀ s p r, kill s p r ≠ .error e) (links : List Nat) (s : State) (p : Nat) (reason : Reason)
    (raw : RawReason) : s.killLinked kill links p reason raw ≠ .error e := by
  induction links generalizing s with
  | nil => simp [State.killLinked]
  | cons l ls ih =>
    unfold State.killLinked
    split
    · exact ih s
    · split
      · exact ih _
      · split
        · exact ih s
        · cases hr : kill s l raw with
          | ok t => exact ih t
          | error e' =>
            simp only [Except.bind]
            rw [← hr]
            exact hk s l raw

theorem kill_halt (s : State) (p : Nat) (raw : RawReason) :
    s.kill p raw ≠ .error (.panic .runQueueEmpty) := by
  unfold State.kill
  generalize s.procs.last + 2 = n
  induction n generalizing s p raw with
  | zero => simp [State.killFuel]
  | succ n ih =>
    unfold State.killFuel
    split
    · simp
    · split
      · simp
      · intro hr
        simp only at hr
        generalize ht : State.killLinked (State.killFuel n) _ _ _ _ _ = t at hr
        cases t with
        | ok t => simp [Except.bind] at hr
        | error e =>
          simp only [Except.bind, Except.error.injEq] at hr
          subst hr
          exact killLinked_halt (fun s p r => ih s p r) _ _ _ _ _ ht

theorem Settled.kill_yield {raw : RawReason} {rt : Nat} (h : Settled s) :
    Fine ((s.kill s.self raw).bind fun s => s.yield none 0 rt) := by
  cases hk : s.kill s.self raw with
  | ok t =>
    have hd := kill_dead hk
    rw [← kill_self hk] at hd
    have ht := h.kill hk
    exact ht.yield (ht.leaving_dead hd)
  | error e =>
    intro he
    exact kill_halt s s.self raw (hk.trans (congrArg Except.error he))

theorem Settled.killProcess {raw : RawReason} {rt : Nat} (h : Settled s)
    (ha : s.alive s.self = true) : Fine (s.killProcess p raw rt) := by
  have hkill : ∀ r, Fine ((s.kill p r).bind fun s => s.yieldIfDead rt) := by
    intro r
    cases hk : s.kill p r with
    | ok t => exact (h.kill hk).yieldIfDead
    | error e =>
      intro he
      exact kill_halt s p r (hk.trans (congrArg Except.error he))
  unfold State.killProcess
  split
  · split
    · exact hkill _
    · split
      · exact (h.sendExit p s.self raw).yieldIfDead
      · split
        · exact h.yieldIfDead
        · exact hkill raw
  · exact ⟨h, ha⟩

theorem send_self (s : State) (p : Nat) (x : Contents) : (s.send p x).self = s.self := by
  unfold State.send
  split
  · exact wake_self _ _
  · rfl

theorem Settled.send_fine (h : Settled s) (ha : s.alive s.self = true) (p : Nat) (x : Contents) :
    Fine (.ok (s.send p x)) := by
  refine ⟨h.send p x, ?_⟩
  rw [send_self, State.alive, send_inbox]
  exact ha

theorem Settled.sendExit_fine (h : Settled s) (ha : s.alive s.self = true) (target : Nat)
    (r : RawReason) : Fine (.ok (s.sendExit target p r)) := by
  refine Settled.send_fine (h.modify target _ rfl rfl rfl rfl fun _ => rfl) ?_ target _
  by_cases ht : s.self = target
  · subst ht; simpa [State.modify] using ha
  · simpa [State.modify, ht] using ha

theorem Settled.linkProcess {rt : Nat} (h : Settled s) (ha : s.alive s.self = true) :
    Fine (s.linkProcess p rt) := by
  unfold State.linkProcess
  split
  · exact ⟨h, ha⟩
  · split
    · refine ⟨h.link2 p s.self, ?_⟩
      have hself : (s.link2 p s.self).self = s.self := by
        rcases link2_or_eq s p s.self with he | he
        · rw [he]
        · rw [he]; rfl
      rw [hself, State.alive, (link2_get _ _ _ _).1]
      exact ha
    · split
      · exact h.sendExit_fine ha _ _
      · split
        · exact ⟨h, ha⟩
        · exact h.kill_yield

/-- Changes to any pcb that the scheduler does not look at. -/
theorem Settled.modify_fine (h : Settled s) (ha : s.alive s.self = true) (p : Nat) (f : Pcb → Pcb)
    (hi : (f (s.pcb p)).inbox = (s.pcb p).inbox)
    (hs : (f (s.pcb p)).flags.sleeping = (s.pcb p).flags.sleeping)
    (hb : (f (s.pcb p)).flags.blockedIo = (s.pcb p).flags.blockedIo)
    (hn : (f (s.pcb p)).precedence = (s.pcb p).precedence)
    (hk : p ≠ s.self → (f (s.pcb p)).stack = (s.pcb p).stack) : Fine (.ok (s.modify p f)) := by
  refine ⟨h.modify p f hi hs hb hn hk, ?_⟩
  show ((s.modify p f).procs.get s.self).inbox = true
  rw [State.modify_get]
  split
  · rename_i he
    rw [hi, ← he]
    exact ha
  · exact ha

theorem Fine.monitors (h : Fine (.ok s)) (p : Nat) (f : List Mon → List Mon) :
    Fine (.ok (s.modify p fun x => { x with monitors := f x.monitors })) :=
  h.1.modify_fine h.2 p _ rfl rfl rfl rfl fun _ => rfl

theorem Fine.links (h : Fine (.ok s)) (p : Nat) (f : List Nat → List Nat) :
    Fine (.ok (s.modify p fun x => { x with links := f x.links })) :=
  h.1.modify_fine h.2 p _ rfl rfl rfl rfl fun _ => rfl

/-- Data outside the pcbs that the scheduler does not look at. -/
theorem Fine.frame (h : Fine (.ok s)) (hq : s'.queues = s.queues) (hp : s'.procs = s.procs)
    (hself : s'.self = s.self) (he : s'.eventLoop = s.eventLoop) (hl : s'.log = s.log) :
    Fine (.ok s') := by
  refine ⟨h.1.congr hq hself (by rw [hp]) (fun q => SameView.of_eq (by simp [hp])) he
    [] (by rw [hl]; rfl) (by simp), ?_⟩
  have := h.2
  simpa [hself, hp] using this

theorem Settled.monitor (h : Settled s) (ha : s.alive s.self = true) (p : Nat) :
    Fine (.ok (s.monitor p).1) := by
  have h1 : Fine (.ok (s.record (.monitor ⟨s.nextMon, s.self, p⟩))) :=
    ⟨h.record (by simp) (by simp) (by simp), ha⟩
  have hn : Fine (.ok { s.record (.monitor ⟨s.nextMon, s.self, p⟩) with nextMon := s.nextMon + 1 }) :=
    Fine.frame h1 rfl rfl rfl rfl rfl
  unfold State.monitor
  dsimp only
  split
  · exact (hn.monitors s.self (⟨s.nextMon, s.self, p⟩ :: ·)).monitors p (⟨s.nextMon, s.self, p⟩ :: ·)
  · exact hn.1.send_fine hn.2 _ _

theorem Settled.demonitor (h : Settled s) (ha : s.alive s.self = true) (m : Mon) :
    Fine (.ok (s.demonitor m)) := by
  have h1 := ((Fine.ok h ha).monitors s.self (·.filter (· ≠ m))).monitors m.target (·.filter (· ≠ m))
  exact ⟨h1.1.record (by simp) (by simp) (by simp), h1.2⟩

theorem Settled.unlink (h : Settled s) (ha : s.alive s.self = true) (p : Nat) :
    Fine (.ok (s.unlink p)) :=
  ((Fine.ok h ha).links s.self (·.filter (· ≠ p))).links p (·.filter (· ≠ s.self))

theorem Settled.register (h : Settled s) (ha : s.alive s.self = true) (name p : Nat) :
    Fine (.ok (s.register name p).1) := by
  unfold State.register
  split
  · exact ⟨h, ha⟩
  · split
    · exact ⟨h, ha⟩
    · split
      · exact ⟨h, ha⟩
      · exact Fine.frame (h.modify_fine ha p (fun x => { x with name := some name }) rfl rfl rfl rfl
          fun _ => rfl) rfl rfl rfl rfl rfl

theorem Settled.unregister (h : Settled s) (ha : s.alive s.self = true) (name : Nat) :
    Fine (.ok (s.unregister name).1) := by
  unfold State.unregister
  split
  · exact ⟨h, ha⟩
  · rename_i p _
    exact Fine.frame (h.modify_fine ha p (fun x => { x with name := none }) rfl rfl rfl rfl
      fun _ => rfl) rfl rfl rfl rfl rfl

theorem Settled.keyboardInterrupt (h : Settled s) (ha : s.alive s.self = true) (p : Nat) :
    Fine (.ok (s.keyboardInterrupt p)) := by
  unfold State.keyboardInterrupt
  split
  · rename_i hp
    have h1 := h.modify p (fun x => { x with flags := { x.flags with interrupt := true } })
      rfl rfl rfl rfl fun _ => rfl
    obtain ⟨rq, sq, hqs, hc⟩ := h1.queues
    refine ⟨Settled.wake hqs.shape hqs.procs (fun q _ => hqs.quiet q) hqs.eventLoop hc h1.awake
      ?_ h1.loop, ?_⟩
    · simpa [State.modify] using hp
    · rw [wake_self, State.alive, (SchedOnly.wake _ p).inbox]
      by_cases hs : s.self = p
      · simpa [State.setFlags, State.modify, hs] using hp
      · simpa [State.setFlags, State.modify, hs] using ha
  · exact ⟨h, ha⟩

theorem blocked_alive (h : Settled s) (hb : (s.flags p).blockedIo = true) : s.alive p = true := by
  obtain ⟨rq, sq, hqs, _⟩ := h.queues
  by_cases hp : p = s.self
  · subst hp
    rw [h.awake.2] at hb
    cases hb
  · exact ((hqs.procs p).blocked (by simpa using hp) hb).1

theorem Settled.completeIo (h : Settled s) (ha : s.alive s.self = true) (p : Nat) :
    Fine (.ok (s.completeIo p)) := by
  unfold State.completeIo
  split
  · rename_i hb
    have hp := blocked_alive h hb
    have hps : p ≠ s.self := by
      rintro rfl
      rw [h.awake.2] at hb
      cases hb
    obtain ⟨rq, sq, hqs, hc⟩ := h.queues
    have hsl := ((hqs.procs p).blocked (by simpa using hps) hb).2.2
    have hv : ∀ x, x ≠ p → SameView (some s.self) s
        (s.setFlags p fun f => { f with blockedIo := false }) x :=
      fun x hx => SameView.of_eq (by simp [hx])
    have hso := (SchedOnly.setBlockedIo s p false).trans
      (SchedOnly.enqueue (s.setFlags p fun f => { f with blockedIo := false }) p .runQueue 0)
    have hfl : ∀ x, x ≠ p → (((s.setFlags p fun f => { f with blockedIo := false }).enqueue p
        .runQueue 0).flags x) = s.flags x := fun x hx => by simp [hx]
    refine ⟨⟨⟨_, _, Queues.ready (hqs.shape.congr rfl (Nat.le_max_left _ _) ?_ fun _ => rfl)
      (fun x hx => (hqs.procs x).congr (hv x hx) Iff.rfl Iff.rfl)
      (fun x hx => (hqs.quiet x).congr (hv x hx) Iff.rfl id) (.inr hqs.eventLoop) ?_ fun _ => ?_, ?_⟩,
      ?_, ?_⟩, ?_⟩
    · intro x _
      by_cases hx : x = p <;> simp [hx]
    · simpa using hp
    · simpa using hsl
    · refine hc.mono (fun x hx => ?_) [.enqueue p] rfl (by simp)
      obtain ⟨h1, h2⟩ := Sleepers.ready (s := s.setFlags p fun f => { f with blockedIo := false })
        0 .runQueue x hx
      refine ⟨h1, h2.trans ?_⟩
      by_cases hx : x = p <;> simp [hx]
    · have := h.awake
      rw [← hfl s.self (Ne.symm hps)] at this
      exact this
    · rw [State.alive, hso.inbox]; exact h.loop
    · rw [State.alive, hso.inbox]; exact ha
  · exact ⟨h, ha⟩

/-- The running process is in user code, so it is not parked. -/
theorem parkedUntil_of_userCode (hu : userCode (s.pcb s.self).stack = true) :
    s.parkedUntil s.self = none := by
  unfold State.parkedUntil
  cases hk : (s.pcb s.self).stack with
  | nil => rfl
  | cons f fs =>
    rw [hk] at hu
    cases f with
    | receive r =>
      have hm : r.phase = .matching := by simpa [userCode] using hu
      simp [parkedIn, hm]
    | trapExitHandler => rfl
    | keyboardHandler => rfl

/-- Flags that the running process sets for itself just before it yields. -/
theorem Queues.setFlags {rq sq : List Nat} (h : Queues s (some s.self) rq sq) (hc : ChecksOk s sq)
    (f : Flags → Flags) : Queues (s.setFlags s.self f) (some s.self) rq sq ∧
      ChecksOk (s.setFlags s.self f) sq := by
  have hget : ∀ x, x ≠ s.self → (s.setFlags s.self f).pcb x = s.pcb x := fun x hx => by simp [hx]
  have hprec : ∀ x, ((s.setFlags s.self f).pcb x).precedence = (s.pcb x).precedence := by
    intro x
    by_cases hx : x = s.self <;> simp [hx]
  refine ⟨⟨h.shape.congr rfl (Nat.le_max_left _ _) (fun x _ => hprec x) fun _ => rfl, fun x => ?_,
    fun x => ?_, h.eventLoop⟩, hc.mono (Sleepers.same hprec) [] rfl (by simp)⟩
  · by_cases hx : x = s.self
    · subst hx
      refine ⟨fun h1 => ?_, (h.procs _).awake, ?_, ?_, ?_, ?_⟩
      · have := (h.procs s.self).live h1
        simpa using this
      all_goals intro hne; exact absurd rfl hne
    · exact (h.procs x).congr (SameView.of_eq (hget x hx)) Iff.rfl Iff.rfl
  · by_cases hx : x = s.self
    · subst hx
      intro hne
      exact absurd rfl hne
    · exact (h.quiet x).congr (SameView.of_eq (hget x hx)) Iff.rfl id

theorem Settled.setFlags_yield {queue : Option QPtr} {n rt : Nat} (h : Settled s) (f : Flags → Flags)
    (hl : Leaving (s.setFlags s.self f) queue n) :
    Fine ((s.setFlags s.self f).yield queue n rt) := by
  obtain ⟨rq, sq, hqs, hc⟩ := h.queues
  obtain ⟨h1, h2⟩ := hqs.setFlags hc f
  have hloop : (s.setFlags s.self f).alive (s.setFlags s.self f).eventLoop = true := by
    have := h.loop
    by_cases he : s.eventLoop = s.self
    · rw [he] at this
      simpa [State.setFlags, State.modify, he] using this
    · simpa [State.setFlags, State.modify, he] using this
  obtain ⟨s', h3, h4, h5⟩ := Queues.yield rt h1 h2 hl hloop
  rw [h3]
  exact ⟨h4, h5⟩

theorem Settled.waitForIo {rt : Nat} (h : Settled s) (ha : s.alive s.self = true)
    (hu : userCode (s.pcb s.self).stack = true) (he : s.self ≠ s.eventLoop) :
    Fine (s.waitForIo rt) := by
  have hp : (s.setFlags s.self fun f => { f with blockedIo := true }).parkedUntil s.self = none := by
    rw [← parkedUntil_of_userCode hu]
    simp [State.parkedUntil]
  refine h.setFlags_yield _ ⟨?_, by simp, by simp, fun _ _ => ⟨?_, he, fun t => ?_, fun h1 => ?_⟩, by simp⟩
  · intro hd
    have : s.alive s.self = false := by simpa [State.setFlags, State.modify] using hd
    rw [ha] at this
    cases this
  · have := h.awake.1
    simpa [State.setFlags, State.modify] using this
  · exact fun h1 => absurd (hp.symm.trans h1) (by simp)
  · exact absurd hp h1

theorem Settled.endOfInbox {r : Receive} {rest : List Frame} {now rt : Nat} (h : Settled s)
    (ha : s.alive s.self = true) : Fine (s.endOfInbox r rest now rt) := by
  obtain ⟨call, matcher, waketime, cursor, phase⟩ := r
  -- the process parks: its stack says so and the history starts afresh
  have hpark : Settled ((s.setStack s.self
      (.receive ⟨call, matcher, waketime, cursor, .parked⟩ :: rest)).record (.park s.self)) := (h.setStack _).record (by simp) (by simp) (by simp)
  have haw := hpark.awake
  have hq := QuietLog.park s.log s.self
  unfold State.endOfInbox
  cases waketime with
  | none =>
    dsimp only
    split
    · exact Fine.disabled
    · rename_i hne
      apply hpark.yield
      refine ⟨?_, by simp, by simp, fun _ _ => ⟨haw.1, hne, fun t => ?_, fun _ => ⟨haw.2, hq⟩⟩, by simp⟩
      · intro hd
        have : s.alive s.self = false := by
          simpa [State.record, State.setStack, State.modify] using hd
        rw [ha] at this
        cases this
      · simp [State.parkedUntil, parkedIn, State.record, State.setStack, State.modify]
  | some w =>
    dsimp only
    split
    · split
      · exact Fine.disabled
      · rename_i hne
        apply hpark.setFlags_yield
        refine ⟨?_, by simp, fun _ _ => ⟨?_, ?_, hne, fun t => ?_, fun _ => hq⟩, by simp, by simp⟩
        · intro hd
          have : s.alive s.self = false := by
            simpa [State.record, State.setFlags, State.setStack, State.modify] using hd
          rw [ha] at this
          cases this
        · simp [State.record, State.setFlags, State.setStack, State.modify]
        · have := haw.2
          simpa [State.record, State.setFlags, State.setStack, State.modify] using this
        · intro hp
          have : w = t := by
            simpa [State.parkedUntil, parkedIn, State.record, State.setFlags, State.setStack,
              State.modify] using hp
          exact this.symm
    · refine ⟨h.leave _ rest, ?_⟩
      unfold State.leave
      cases matcher with
      | user => simpa [State.setStack, State.modify] using ha
      | down m => simpa [State.record, State.setStack, State.modify] using ha

theorem handleTrapExitHelp_self (s : State) : s.handleTrapExitHelp.self = s.self := by
  unfold State.handleTrapExitHelp
  split
  · split <;> rfl
  · rfl

theorem handleTrapExitHelp_inbox (s : State) (q : Nat) :
    (s.handleTrapExitHelp.pcb q).inbox = (s.pcb q).inbox := by
  unfold State.handleTrapExitHelp
  by_cases hq : q = s.self
  · split
    · split <;> simp [hq, State.push, State.setStack, State.consume, State.record, State.removeMsg,
        State.setFlags, State.modify]
    · simp [hq]
  · split
    · split <;> simp [hq, State.push, State.setStack, State.consume, State.record, State.removeMsg,
        State.setFlags, State.modify]
    · simp [hq]

theorem Fine.handleTrapExitHelp (h : Fine (.ok s)) : Fine (.ok s.handleTrapExitHelp) := by
  refine ⟨h.1.handleTrapExitHelp, ?_⟩
  rw [handleTrapExitHelp_self, State.alive, handleTrapExitHelp_inbox]
  exact h.2

theorem Fine.setStack (h : Fine (.ok s)) (fs : List Frame) : Fine (.ok (s.setStack s.self fs)) :=
  ⟨h.1.setStack fs, alive_setStack h.2 fs⟩

theorem Fine.setFlags (h : Fine (.ok s)) (f : Flags → Flags)
    (hs : (f (s.flags s.self)).sleeping = (s.flags s.self).sleeping)
    (hb : (f (s.flags s.self)).blockedIo = (s.flags s.self).blockedIo) :
    Fine (.ok (s.setFlags s.self f)) :=
  h.1.modify_fine h.2 s.self _ rfl hs hb rfl fun _ => rfl

theorem Fine.record (h : Fine (.ok s)) {e : Event} (he : ∀ p, e ≠ .enqueue p)
    (hi : ∀ p k, e ≠ .insert p k) (hc : ∀ rt, e ≠ .check rt) : Fine (.ok (s.record e)) :=
  ⟨h.1.record he hi hc, h.2⟩

theorem Fine.leave (h : Fine (.ok s)) (r : Receive) (rest : List Frame) :
    Fine (.ok (s.leave r rest)) := by
  unfold State.leave
  cases r.matcher with
  | user => exact h.setStack rest
  | down m => exact (h.setStack rest).record (by simp) (by simp) (by simp)

theorem Fine.find1 (h : Fine (.ok s)) (r : Receive) (rest : List Frame) (now rt : Nat) :
    Fine (s.find1 r rest now rt) := by
  unfold State.find1
  split
  · exact h.1.endOfInbox h.2
  · split
    · exact (h.setStack _).record (by simp) (by simp) (by simp)
    · exact h.setStack _
  · exact Fine.disabled

theorem Fine.find0 (h : Fine (.ok s)) (r : Receive) (rest : List Frame) (atOne : Bool) :
    Fine (.ok (s.find0 r rest atOne)) := by
  unfold State.find0
  split
  · exact (h.setStack _).handleTrapExitHelp
  · exact h.setStack _

theorem Fine.matched (h : Fine (.ok s)) (r : Receive) (rest : List Frame) (k : Nat) (accept : Bool) :
    Fine (s.matched r rest k accept) := by
  unfold State.matched
  split
  · have hc : Fine (.ok (s.consume k (.clause r.call))) := ⟨h.1.consume _ _, h.2⟩
    exact hc.leave r rest
  · exact h.setStack _

theorem Fine.unwind (h : Fine (.ok s)) (n : Nat) : Fine (s.unwind n) := by
  unfold State.unwind
  exact Fine.ensure fun _ => (h.setStack _).setFlags _ rfl rfl

theorem Fine.receiveStep (h : Fine (.ok s)) (a : Action) : Fine (s.receiveStep a) := by
  unfold State.receiveStep
  split
  · split
    · split
      · exact h.find0 _ _ _
      · exact h.find0 _ _ _
      · exact h.find1 _ _ _ _
      · exact Fine.disabled
    · exact Fine.disabled
  · split
    · split
      · exact h.matched _ _ _ _
      · exact Fine.ensure fun _ => h.matched _ _ _ _
      · exact Fine.disabled
    · exact Fine.disabled
  · refine Fine.ensure fun _ => ?_
    have hi := h.setFlags (fun f => { f with interrupt := false }) rfl rfl
    dsimp only
    split
    · split
      · exact (hi.setStack _).setStack _
      · exact (hi.setStack _).setStack _
      · exact hi.setStack _
      · exact Fine.disabled
    · exact hi.setStack _
  · split
    · exact ((h.setStack _).setFlags _ rfl rfl).handleTrapExitHelp
    · exact h.setStack _
    · exact Fine.disabled
  · exact Fine.disabled

/-- Calls with a bad argument change nothing. -/
theorem Fine.guard (h : Fine (.ok s)) {c : Prop} [Decidable c] {r : Except Halt State}
    (hr : c → Fine r) : Fine (if c then r else .ok s) := by
  split
  · rename_i hc
    exact hr hc
  · exact h

theorem Fine.userStep (h : Fine (.ok s)) (hu : userCode (s.pcb s.self).stack = true) (a : Action) :
    Fine (s.userStep a) := by
  obtain ⟨hs, ha⟩ := h
  have hfin : Fine (.ok s) := ⟨hs, ha⟩
  cases a with
  | spawn =>
    refine ⟨hs.spawn ha, ?_⟩
    have hne : s.self ≠ s.procs.last + 1 := by
      have := le_last_of_alive ha
      omega
    rw [State.alive, State.spawn, (SchedOnly.enqueue _ _ _ _).inbox]
    exact (congrArg Pcb.inbox (makeProcess_get hne)).trans ha
  | spawnLink =>
    refine ⟨hs.spawnLink ha, ?_⟩
    have hne : s.self ≠ s.procs.last + 1 := by
      have := le_last_of_alive ha
      omega
    have hself : s.spawnLink.1.self = s.self := by
      rcases link2_or_eq s.makeProcess.1 (s.procs.last + 1) s.self with he | he
      · exact (congrArg State.self he :)
      · exact (congrArg State.self he :)
    rw [hself, State.alive, State.spawnLink, (SchedOnly.enqueue _ _ _ _).inbox]
    exact (link2_get _ _ _ _).1.trans ((congrArg Pcb.inbox (makeProcess_get hne)).trans ha)
  | send p d => exact hfin.guard fun _ => hs.send_fine ha _ _
  | sendName name d =>
    dsimp only [State.userStep]
    split
    · exact hs.send_fine ha _ _
    · exact hfin
  | kill p raw rt => exact hfin.guard fun _ => hs.killProcess ha
  | link p rt => exact hfin.guard fun _ => hs.linkProcess ha
  | unlink p => exact hfin.guard fun _ => hs.unlink ha p
  | monitor p => exact hfin.guard fun _ => hs.monitor ha p
  | demonitor m => exact hfin.guard fun _ => hs.demonitor ha m
  | demonitorFlush m => exact hfin.guard fun _ => Fine.frame ((hs.demonitor ha m).setStack _) rfl rfl rfl rfl rfl
  | register name p => exact hfin.guard fun _ => hs.register ha name p
  | unregister name => exact hs.unregister ha name
  | setTrapExit x => exact hs.modify_fine ha s.self _ rfl rfl rfl rfl fun _ => rfl
  | keyboardInterrupt p => exact hfin.guard fun _ => hs.keyboardInterrupt ha p
  | completeIo p => exact hfin.guard fun _ => hs.completeIo ha p
  | waitForIo rt =>
    dsimp only [State.userStep]
    split
    · exact Fine.disabled
    · rename_i he
      exact hs.waitForIo ha hu he
  | preempt rt => exact hs.yield (hs.leaving_run ha)
  | receive w => exact Fine.frame (hfin.setStack _) rfl rfl rfl rfl rfl
  | handleTrapExit => exact hfin.guard fun _ => hfin.handleTrapExitHelp
  | raise n => exact hfin.unwind n
  | exit raw rt => exact hs.kill_yield
  | find atOne now rt => exact Fine.disabled
  | matcher accept => exact Fine.disabled
  | handleInterrupt => exact Fine.disabled
  | handlerReturn => exact Fine.disabled

theorem Fine.step (h : Fine (.ok s)) (a : Action) : Fine (s.step a) := by
  unfold State.step
  split
  · exact h.receiveStep _
  · exact h.receiveStep _
  · exact h.receiveStep _
  · exact h.receiveStep _
  · split
    · rename_i hu
      exact h.userStep hu a
    · exact Fine.disabled

theorem Fine.run (h : Fine (.ok s)) (as : List Action) : Fine (s.run as) := by
  induction as generalizing s with
  | nil => exact h
  | cons a as ih =>
    have h1 := h.step a
    unfold State.run
    cases hr : s.step a with
    | error e => rw [hr] at h1; exact h1
    | ok t => rw [hr] at h1; exact ih h1

end Swish.Erlang
