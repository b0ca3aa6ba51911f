import Swish.EventMgr.Server
import Swish.Lib.Except

/-!
Where events go. What the event manager does for one event is a block of its trace,
and its whole trace is made of the blocks of the events it was notified of, in order.
-/

set_option autoImplicit false

namespace Swish.EventMgr

open Swish.Lib

variable {E X : Type} {env : Env E X}

namespace Action

/-- The acts that pass an event to someone, and the start on an event. -/
def isDelivery : Action E X → Bool
  | .processing _ _ _ => true
  | .call _ _ _ => true
  | .log _ _ _ => true
  | .console _ => true
  | _ => false

def started : Action E X → Option E
  | .processing event _ _ => some event
  | _ => none

end Action

/-- The deliveries of a trace. -/
def deliveries (trace : List (Action E X)) : List (Action E X) := trace.filter Action.isDelivery

/-- One event: the handlers that were called, the log handler if there was one, and
what they raised. -/
structure Block (E X : Type) where
  event : E
  calls : List (Handler × Option X)
  log : Option (Handler × Option X)

/-- The log handler takes the event if there is one and it does not raise. Otherwise
the console does. -/
def Block.last (b : Block E X) : List (Action E X) :=
  match b.log with
  | none => [.console b.event]
  | some (h, none) => [.log h b.event none]
  | some (h, some e) => [.log h b.event (some e), .console b.event]

/-- All handlers that are there as the event is started on get the event once, in
order, and then the log handler or the console does. -/
def Block.deliveries (b : Block E X) : List (Action E X) :=
  .processing b.event (b.calls.map Prod.fst) (b.log.map Prod.fst) ::
    (b.calls.map fun c => .call c.1 b.event c.2) ++ b.last

def notified (msgs : List (Message E)) : List E :=
  msgs.filterMap fun m => match m with
    | .notify event => some event
    | _ => none

def isFlush : Message E → Bool
  | .call .flushBuffer => true
  | _ => false

/-- flush-buffer is among the messages. -/
def flushes (msgs : List (Message E)) : Bool := msgs.any isFlush

/-- The events in the buffer, oldest first. -/
def waiting (s : Server E X) : List E := if s.ended then [] else (s.state.eventBuffer.getD []).reverse

theorem deliveries_append (trace new : List (Action E X)) :
    deliveries (trace ++ new) = deliveries trace ++ deliveries new := List.filter_append ..

theorem kill_ok {owner : Nat} {e : X} {trace trace' : List (Action E X)}
    (h : env.kill owner e trace = .ok trace') : trace' = trace ++ [.kill owner e] := by
  unfold Env.kill at h
  split at h
  · cases h
  · cases h
    rfl

/-- trace' goes on from trace with these deliveries. -/
def Adds (trace trace' : List (Action E X)) (ds : List (Action E X)) : Prop :=
  ∃ new, trace' = trace ++ new ∧ deliveries new = ds

theorem Adds.refl (trace : List (Action E X)) : Adds trace trace [] := ⟨[], by simp, rfl⟩

theorem Adds.of_eq {trace : List (Action E X)} (new : List (Action E X)) :
    Adds trace (trace ++ new) (deliveries new) := ⟨new, rfl, rfl⟩

theorem Adds.trans {t₁ t₂ t₃ ds ds' : List (Action E X)} (h : Adds t₁ t₂ ds) (h' : Adds t₂ t₃ ds') :
    Adds t₁ t₃ (ds ++ ds') := by
  obtain ⟨new, rfl, rfl⟩ := h
  obtain ⟨new', rfl, rfl⟩ := h'
  exact ⟨new ++ new', by simp, deliveries_append new new'⟩

/-- A call of a handler, and the kill of its owner if it has raised. -/
def callActs (event : E) (c : Handler × Option X) : List (Action E X) :=
  .call c.1 event c.2 :: (c.2.map fun e => .kill c.1.owner e).toList

/-- The handlers are called in order. -/
theorem callHandlers_acts {event : E} (hs : List Handler) {trace trace' : List (Action E X)}
    (h : env.callHandlers event hs trace = .ok trace') :
    ∃ calls : List (Handler × Option X), calls.map Prod.fst = hs ∧ trace' = trace ++ calls.flatMap (callActs event) := by
  induction hs generalizing trace with
  | nil =>
    cases h
    exact ⟨[], rfl, by simp⟩
  | cons hd hs ih =>
    unfold Env.callHandlers at h
    cases hr : env.raises trace.length hd.proc event with
    | some e =>
      rw [hr] at h
      obtain ⟨t₁, h₁, h₂⟩ := bind_ok h
      rw [kill_ok h₁] at h₂
      obtain ⟨calls, hc, rfl⟩ := ih h₂
      exact ⟨(hd, some e) :: calls, by rw [List.map_cons, hc], by simp [callActs]⟩
    | none =>
      rw [hr] at h
      obtain ⟨calls, hc, rfl⟩ := ih h
      exact ⟨(hd, none) :: calls, by rw [List.map_cons, hc], by simp [callActs]⟩

theorem deliveries_callActs (event : E) (calls : List (Handler × Option X)) :
    deliveries (calls.flatMap (callActs event)) = calls.map fun c => .call c.1 event c.2 := by
  induction calls with
  | nil => rfl
  | cons c calls ih =>
    obtain ⟨hd, raised⟩ := c
    rw [List.flatMap_cons, deliveries_append, ih]
    cases raised <;> rfl

theorem callHandlers_adds {event : E} (hs : List Handler) {trace trace' : List (Action E X)}
    (h : env.callHandlers event hs trace = .ok trace') :
    ∃ calls : List (Handler × Option X), calls.map Prod.fst = hs ∧
      Adds trace trace' (calls.map fun c => .call c.1 event c.2) := by
  obtain ⟨calls, hc, ht⟩ := callHandlers_acts hs h
  exact ⟨calls, hc, _, ht, deliveries_callActs event calls⟩

/-- What do-notify and the folds with it leave as it is. -/
structure Kept (state state' : State E) : Prop where
  eventBuffer : state'.eventBuffer = state.eventBuffer
  handlers : state'.handlers = state.handlers
  logHandler : state'.logHandler = state.logHandler ∨ state'.logHandler = none

theorem Kept.refl (state : State E) : Kept state state := ⟨rfl, rfl, .inl rfl⟩

theorem Kept.trans {s₁ s₂ s₃ : State E} (h : Kept s₁ s₂) (h' : Kept s₂ s₃) : Kept s₁ s₃ where
  eventBuffer := h'.eventBuffer.trans h.eventBuffer
  handlers := h'.handlers.trans h.handlers
  logHandler := by
    rcases h'.logHandler with h2 | h2
    · rw [h2]
      exact h.logHandler
    · exact .inr h2

theorem callLogHandler_adds {event : E} {state : State E} {trace : List (Action E X)}
    {r : State E × List (Action E X)} (h : env.callLogHandler event state trace = .ok r) :
    Kept state r.1 ∧ ∃ log : Option (Handler × Option X), log.map Prod.fst = state.logHandler ∧
      ∀ calls, Adds trace r.2 (Block.last ⟨event, calls, log⟩) := by
  unfold Env.callLogHandler at h
  cases hl : state.logHandler with
  | none =>
    rw [hl] at h
    cases h
    exact ⟨.refl _, none, rfl, fun _ => .of_eq [.console event]⟩
  | some hd =>
    rw [hl] at h
    dsimp only at h
    cases hr : env.raises trace.length hd.proc event with
    | none =>
      rw [hr] at h
      cases h
      exact ⟨.refl _, some (hd, none), rfl, fun _ => .of_eq [.log hd event none]⟩
    | some e =>
      rw [hr] at h
      dsimp only at h
      split at h
      · cases h
        refine ⟨.refl _, some (hd, some e), rfl, fun _ => ?_⟩
        rw [List.append_assoc]
        exact .of_eq [.log hd event (some e), .console event, .consoleError e]
      · obtain ⟨t₁, h₁, h₂⟩ := bind_ok h
        cases h₂
        rw [kill_ok h₁]
        refine ⟨⟨rfl, rfl, .inr rfl⟩, some (hd, some e), rfl, fun _ => ?_⟩
        rw [List.append_assoc, List.append_assoc]
        exact .of_eq [.log hd event (some e), .console event, .unlink hd.owner, .kill hd.owner e]

/-- What do-notify does for an event that it does not put in the buffer. -/
theorem doNotify_adds {event : E} {state : State E} {trace : List (Action E X)}
    {r : State E × List (Action E X)} (hb : state.eventBuffer = none)
    (h : env.doNotify event state trace = .ok r) :
    Kept state r.1 ∧ ∃ b : Block E X, b.event = event ∧ b.calls.map Prod.fst = state.handlers ∧
      b.log.map Prod.fst = state.logHandler ∧ Adds trace r.2 b.deliveries := by
  unfold Env.doNotify at h
  rw [hb] at h
  obtain ⟨t₁, h₁, h₂⟩ := bind_ok h
  obtain ⟨calls, hc, ha⟩ := callHandlers_adds _ h₁
  obtain ⟨hk, log, hl, ha'⟩ := callLogHandler_adds h₂
  refine ⟨hk, ⟨event, calls, log⟩, rfl, hc, hl, ?_⟩
  unfold Block.deliveries
  rw [hc, hl]
  exact ((Adds.of_eq [.processing event state.handlers state.logHandler]).trans ha).trans (ha' calls)

/-- trace' goes on from trace with the blocks of these events. -/
def AddsBlocks (trace trace' : List (Action E X)) (blocks : List (Block E X)) : Prop :=
  Adds trace trace' (blocks.flatMap Block.deliveries)

theorem AddsBlocks.trans {t₁ t₂ t₃ : List (Action E X)} {bs bs' : List (Block E X)}
    (h : AddsBlocks t₁ t₂ bs) (h' : AddsBlocks t₂ t₃ bs') : AddsBlocks t₁ t₃ (bs ++ bs') := by
  unfold AddsBlocks
  rw [List.flatMap_append]
  exact Adds.trans h h'

/-- The fold goes through the events from the last one, which came first. -/
theorem foldNotify_adds (events : List E) {state : State E} {trace : List (Action E X)}
    {r : State E × List (Action E X)} (hb : state.eventBuffer = none)
    (h : env.foldNotify events state trace = .ok r) :
    Kept state r.1 ∧ ∃ blocks : List (Block E X), blocks.map Block.event = events.reverse ∧
      (∀ b ∈ blocks, b.calls.map Prod.fst = state.handlers ∧
        (state.logHandler = none → b.log = none)) ∧ AddsBlocks trace r.2 blocks := by
  induction events generalizing r with
  | nil =>
    cases h
    exact ⟨.refl _, [], rfl, by simp, .refl _⟩
  | cons event events ih =>
    unfold Env.foldNotify at h
    obtain ⟨r₁, h₁, h₂⟩ := bind_ok h
    obtain ⟨hk, blocks, he, hbs, ha⟩ := ih h₁
    obtain ⟨hk', b, hev, hcalls, hlog, ha'⟩ := doNotify_adds (hk.eventBuffer.trans hb) h₂
    refine ⟨hk.trans hk', blocks ++ [b], by simp [he, hev], fun b' hb' => ?_, ha.trans ?_⟩
    · rcases List.mem_append.mp hb' with hb' | hb'
      · exact hbs b' hb'
      · rw [List.mem_singleton.mp hb']
        refine ⟨hcalls.trans hk.handlers, fun hnone => ?_⟩
        have hnone' : r₁.1.logHandler = none := by
          rcases hk.logHandler with hl | hl
          · rw [hl, hnone]
          · exact hl
        rw [hnone'] at hlog
        exact Option.map_eq_none_iff.mp hlog
    · unfold AddsBlocks
      simpa using ha'

theorem doFlushBuffer_adds {state : State E} {trace : List (Action E X)}
    {r : State E × List (Action E X)} (h : env.doFlushBuffer state trace = .ok r) :
    r.1.eventBuffer = none ∧ ∃ blocks : List (Block E X),
      blocks.map Block.event = (state.eventBuffer.getD []).reverse ∧
      (∀ b ∈ blocks, b.calls.map Prod.fst = state.handlers ∧
        (state.logHandler = none → b.log = none)) ∧ AddsBlocks trace r.2 blocks := by
  unfold Env.doFlushBuffer at h
  cases hb : state.eventBuffer with
  | none =>
    rw [hb] at h
    cases h
    exact ⟨hb, [], rfl, by simp, .refl _⟩
  | some buffer =>
    rw [hb] at h
    obtain ⟨hk, blocks, he, hbs, ha⟩ := foldNotify_adds buffer rfl h
    exact ⟨hk.eventBuffer, blocks, he, hbs, ha⟩

/-- At the end there are no handlers, so what is in the buffer goes to the console. -/
theorem terminate_adds {state : State E} {trace : List (Action E X)} {s : Server E X}
    (h : env.terminate state trace = .ok s) :
    s.ended = true ∧ ∃ blocks : List (Block E X),
      blocks.map Block.event = (state.eventBuffer.getD []).reverse ∧
      (∀ b ∈ blocks, b.calls = [] ∧ b.log = none) ∧ AddsBlocks trace s.trace blocks := by
  obtain ⟨r, h₁, h₂⟩ := bind_ok h
  cases h₂
  obtain ⟨-, blocks, he, hbs, ha⟩ := doFlushBuffer_adds h₁
  exact ⟨rfl, blocks, he, fun b hb => ⟨List.map_eq_nil_iff.mp (hbs b hb).1, (hbs b hb).2 rfl⟩, ha⟩

/-- What one message can do to the buffer and the trace. -/
inductive Outcome (msg : Message E) (s t : Server E X) : Prop where
  /-- An event is put in the buffer. -/
  | buffered (event : E) (buffer : List E) (hm : msg = .notify event)
      (hb : s.state.eventBuffer = some buffer) (hb' : t.state.eventBuffer = some (event :: buffer))
      (he : t.ended = false) (ht : t.trace = s.trace)
  /-- An event is processed. -/
  | passed (b : Block E X) (hm : msg = .notify b.event) (hb : s.state.eventBuffer = none)
      (hb' : t.state.eventBuffer = none) (he : t.ended = false) (ht : AddsBlocks s.trace t.trace [b])
  /-- The buffer is flushed. -/
  | flushed (blocks : List (Block E X)) (hm : msg = .call .flushBuffer)
      (hev : blocks.map Block.event = (s.state.eventBuffer.getD []).reverse)
      (hb' : t.state.eventBuffer = none) (he : t.ended = false) (ht : AddsBlocks s.trace t.trace blocks)
  /-- Nothing is passed to anyone. -/
  | quiet (hm : isFlush msg = false) (hn : ∀ event, msg ≠ .notify event)
      (hb' : t.state.eventBuffer = s.state.eventBuffer) (he : t.ended = false)
      (ht : AddsBlocks s.trace t.trace [])
  /-- The server ends. -/
  | ended (blocks : List (Block E X)) (hm : isFlush msg = false) (hn : ∀ event, msg ≠ .notify event)
      (hev : blocks.map Block.event = (s.state.eventBuffer.getD []).reverse)
      (hbs : ∀ b ∈ blocks, b.calls = [] ∧ b.log = none) (he : t.ended = true)
      (ht : AddsBlocks s.trace t.trace blocks)

theorem quiet_reply (r : Reply) (msg : Message E) {s : Server E X} {state : State E}
    (new : List (Action E X)) (hnew : deliveries new = [])
    (hm : isFlush msg = false) (hn : ∀ event, msg ≠ .notify event)
    (hb : state.eventBuffer = s.state.eventBuffer) :
    Outcome msg s (Env.reply r state (s.trace ++ new)) := by
  refine .quiet hm hn hb rfl ⟨new ++ [.reply r], by simp [Env.reply], ?_⟩
  rw [deliveries_append, hnew]
  rfl

/-- A reply that leaves the state as it is. -/
theorem quiet_same (r : Reply) (msg : Message E) (s : Server E X) (hm : isFlush msg = false)
    (hn : ∀ event, msg ≠ .notify event) : Outcome msg s (Env.reply r s.state s.trace) := by
  have h := @quiet_reply E X r msg s s.state [] rfl hm hn rfl
  rwa [List.append_nil] at h

theorem ended_of_terminate {msg : Message E} {s t : Server E X} (hm : isFlush msg = false)
    (hn : ∀ event, msg ≠ .notify event) (h : env.terminate s.state s.trace = .ok t) :
    Outcome msg s t := by
  obtain ⟨he, blocks, hev, hbs, ha⟩ := terminate_adds h
  exact .ended blocks hm hn hev hbs he ha

theorem handleCall_outcome {request : Call} {s t : Server E X}
    (h : env.handleCall request s.state s.trace = .ok t) : Outcome (.call request) s t := by
  have hn : ∀ event : E, Message.call request ≠ .notify event := fun _ h => (by cases h)
  cases request with
  | addHandler proc owner =>
    cases proc with
    | procedure proc =>
      cases owner with
      | process owner =>
        cases h
        exact quiet_reply .ok _ [.link owner] rfl rfl hn rfl
      | procedure n | other n =>
        cases h
        exact quiet_same _ _ s rfl hn
    | process n | other n =>
      cases h
      exact quiet_same _ _ s rfl hn
  | flushBuffer =>
    obtain ⟨r, h₁, h₂⟩ := bind_ok h
    cases h₂
    obtain ⟨hb, blocks, hev, -, ha⟩ := doFlushBuffer_adds h₁
    refine .flushed blocks rfl hev hb rfl ?_
    have hreply : AddsBlocks r.2 (r.2 ++ [.reply .ok]) ([] : List (Block E X)) := .of_eq [.reply .ok]
    have hall := ha.trans hreply
    rwa [List.append_nil] at hall
  | setLogHandler proc owner endure =>
    unfold Env.handleCall at h
    dsimp only at h
    split at h
    · cases h
      exact quiet_same _ _ s rfl hn
    · cases proc with
      | procedure proc =>
        cases owner with
        | process owner =>
          cases endure with
          | procedure endure =>
            cases h
            exact quiet_reply .ok _ [.link owner, .resetConsole] rfl rfl hn rfl
          | process n | other n =>
            cases h
            exact quiet_same _ _ s rfl hn
        | procedure n | other n =>
          cases h
          exact quiet_same _ _ s rfl hn
      | process n | other n =>
        cases h
        exact quiet_same _ _ s rfl hn
  | unregister registered =>
    cases registered with
    | true =>
      cases h
      exact quiet_same _ _ s rfl hn
    | false => exact ended_of_terminate rfl hn h
  | other => exact ended_of_terminate rfl hn h

theorem handleExit_eventBuffer (pid : Nat) (state : State E) :
    (handleExit pid state).eventBuffer = state.eventBuffer := by
  unfold handleExit
  split <;> rfl

/-- The outcomes of one message. -/
theorem step_outcome {msg : Message E} {s t : Server E X} (h : step env s msg = .ok t) :
    s.ended = false ∧ Outcome msg s t := by
  unfold step at h
  cases he : s.ended with
  | true =>
    rw [he] at h
    cases h
  | false =>
    rw [he] at h
    refine ⟨rfl, ?_⟩
    replace h : handleMsg env msg s.state s.trace = .ok t := h
    unfold handleMsg at h
    cases msg with
    | call request => exact handleCall_outcome h
    | cast => exact ended_of_terminate rfl (fun _ h => (by cases h)) h
    | other => exact ended_of_terminate rfl (fun _ h => (by cases h)) h
    | notify event =>
      obtain ⟨r, h₁, h₂⟩ := bind_ok h
      cases h₂
      cases hb : s.state.eventBuffer with
      | none =>
        obtain ⟨hk, b, hev, -, -, ha⟩ := doNotify_adds hb h₁
        refine .passed b (by rw [hev]) hb (hk.eventBuffer.trans hb) rfl ?_
        unfold AddsBlocks
        simpa using ha
      | some buffer =>
        unfold Env.doNotify at h₁
        rw [hb] at h₁
        cases h₁
        exact .buffered event buffer rfl hb rfl rfl rfl
    | exit pid =>
      dsimp only at h
      split at h
      · exact ended_of_terminate rfl (fun _ h => (by cases h)) h
      · cases h
        exact .quiet rfl (fun _ h => (by cases h)) (handleExit_eventBuffer pid _) rfl (.refl _)

/-- The blocks of a run account for every event. -/
structure Accounted (past : List (Message E)) (s : Server E X) (blocks : List (Block E X)) : Prop where
  trace : deliveries s.trace = blocks.flatMap Block.deliveries
  events : blocks.map Block.event ++ waiting s = notified past
  flushed : flushes past = true → waiting s = []
  unflushed : flushes past = false → ∀ b ∈ blocks, s.ended = true ∧ b.calls = [] ∧ b.log = none
  buffer : s.ended = false → (s.state.eventBuffer = none ↔ flushes past = true)

theorem AddsBlocks.deliveries {t₁ t₂ : List (Action E X)} {bs bs' : List (Block E X)}
    (h : deliveries t₁ = bs.flatMap Block.deliveries) (h' : AddsBlocks t₁ t₂ bs') :
    deliveries t₂ = (bs ++ bs').flatMap Block.deliveries := by
  obtain ⟨new, rfl, hnew⟩ := h'
  rw [deliveries_append, h, hnew, List.flatMap_append]

/-- Process 0 manages the events, which are numbers, and process 1 is its parent.
Procedure 5 raises the event it gets. -/
def sampleEnv : Env Nat Nat where
  self := 0
  parent := 1
  raises _ proc event := if proc = 5 then some event else none
  endures _ _ _ := false
  isKill _ := false

end Swish.EventMgr
