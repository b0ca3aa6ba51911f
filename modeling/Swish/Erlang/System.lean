import Swish.Erlang.State

/-!
Process termination, the scheduler and $receive as steps of the running
process. An action is one uninterruptible stretch of code; between two actions
user code does what it likes, so runs are arbitrary sequences of actions.
-/

set_option autoImplicit false

namespace Swish.Erlang
open CircularList

inductive Panic where
  | eventLoopProcessTerminated (reason : Reason)
  | finalizerProcessTerminated (reason : Reason)
  | runQueueEmpty
  deriving DecidableEq, Repr

/-- Ways for a run to end: the system exits, the model's bound on a recursion
is used up, or the action is not possible here. -/
inductive Halt where
  | panic (event : Panic)
  | outOfFuel
  | disabled
  deriving DecidableEq, Repr

/-- What @kill leaves of a pcb before it turns to the links. -/
def Pcb.dead (x : Pcb) (reason : RawReason) : Pcb :=
  { x with
    name := none, cont := false, exceptionState := some reason, inbox := false, flags := {}
    trapExitHandler := .off, stack := [] }

namespace State

/-- The reason @kill records: reasons other than normal and shutdown are wrapped
when there is a continuation to show. -/
def extendReason (s : State) (p : Nat) (raw : RawReason) : RawReason :=
  if (s.pcb p).cont then
    if raw.unwrap = .normal ∨ raw.unwrap = .shutdown then raw else .fault raw.unwrap [raw]
  else raw

/-- @kill up to the handling of links. -/
def die (s : State) (p : Nat) (reason : RawReason) : State :=
  { (s.removeQIfEnqueued p).modify p fun x => x.dead reason with
    registrar := match (s.pcb p).name with
      | none => s.registrar
      | some n => fun m => if m = n then none else s.registrar m }

@[simp] theorem die_get (s : State) (p q : Nat) (r : RawReason) :
    (s.die p r).procs.get q = if q = p then (s.procs.get p).dead r else s.procs.get q := rfl

def setLinks (s : State) (p : Nat) (ls : List Nat) : State :=
  s.modify p fun x => { x with links := ls }

def setMonitors (s : State) (p : Nat) (ms : List Mon) : State :=
  s.modify p fun x => { x with monitors := ms }

/-- The body of the for-each over the monitors of a killed process. -/
def fireMonitor (s : State) (p : Nat) (reason : RawReason) (m : Mon) : State :=
  if m.origin = p then s.removeMonitor m m.target
  else (s.send m.origin (.down m p reason)).removeMonitor m m.origin

def fireMonitors (s : State) (p : Nat) (reason : RawReason) : List Mon → State
  | [] => s
  | m :: ms => (s.fireMonitor p reason m).fireMonitors p reason ms

/-- @kill-linked, with @kill as a parameter. -/
def killLinked (kill : State → Nat → RawReason → Except Halt State) (s : State) :
    List Nat → Nat → Reason → RawReason → Except Halt State
  | [], _, _, _ => .ok s
  | linked :: links, p, reason, raw =>
    if s.alive linked = false then s.killLinked kill links p reason raw
    else if (s.flags linked).trapExit then
      (s.sendExit linked p raw).killLinked kill links p reason raw
    else if reason = .normal then s.killLinked kill links p reason raw
    else (kill s linked raw).bind fun s => s.killLinked kill links p reason raw

/-- @kill. Every nested call takes one more process from the live ones. -/
def killFuel : Nat → State → Nat → RawReason → Except Halt State
  | 0, _, _, _ => .error .outOfFuel
  | n+1, s, p, raw =>
    let reason := raw.unwrap
    let extended := s.extendReason p raw
    if p = s.eventLoop then .error (.panic (.eventLoopProcessTerminated reason))
    else if p = s.finalizer then .error (.panic (.finalizerProcessTerminated reason))
    else
      let s := s.die p extended
      let links := (s.pcb p).links
      let s := (s.setLinks p []).removeLinks links p
      (s.killLinked (killFuel n) links p reason extended).bind fun s =>
        let monitors := (s.pcb p).monitors
        .ok ((s.setMonitors p []).fireMonitors p extended monitors)

def kill (s : State) (p : Nat) (raw : RawReason) : Except Halt State :=
  killFuel (s.procs.last + 2) s p raw

/-- The loop wake of @event-check. -/
def wakeSleepers (s : State) (rt : Nat) : Nat → Option QPtr → State
  | 0, _ => s
  | n+1, some (.pcb p) =>
    if (s.pcb p).precedence ≤ rt then
      let next := (s.queues (.pcb p)).next
      ((s.setFlags p fun f => { f with sleeping := false }).enqueue p .runQueue 0).wakeSleepers rt n next
    else s
  | _+1, _ => s

/-- @event-check; rt is the clock it reads when there is a sleeper. -/
def eventCheck (s : State) (rt : Nat) : State :=
  if s.queueEmpty .sleepQueue then s
  else
    let s := { s with log := .check rt :: s.log }
    s.wakeSleepers rt (s.procs.last + 2) (s.queues .sleepQueue).next

/-- @yield up to the context switch: the running process leaves the processor. -/
def deschedule (s : State) (queue : Option QPtr) (precedence : Nat) : State :=
  if s.alive s.self then
    let s := s.modify s.self fun x => { x with cont := true }
    match queue with
    | some q => s.enqueue s.self q precedence
    | none => s.removeQIfEnqueued s.self
  else s

/-- The context switch of @yield and its restart point. -/
def dispatch (s : State) : Except Halt State :=
  match (s.queues .runQueue).next with
  | some (.pcb p) =>
    .ok ({ s.removeQ p with self := p }.modify p fun x => { x with cont := false })
  | _ => .error (.panic .runQueueEmpty)

/-- @yield; rt is the clock read by @event-check. -/
def yield (s : State) (queue : Option QPtr) (precedence rt : Nat) : Except Halt State :=
  ((s.eventCheck rt).deschedule queue precedence).dispatch

/-- The end of kill, link and the process thunk. -/
def yieldIfDead (s : State) (rt : Nat) : Except Halt State :=
  if s.alive s.self then .ok s else s.yield none 0 rt

/-- @make-process; the new pcb is in no queue and its inbox is empty. -/
def makeProcess (s : State) : State × Nat :=
  let p := s.procs.last + 1
  ({ s with
      procs := s.procs.set p { inbox := true, cont := true }
      queues := (s.queues.setPrev (.pcb p) none).setNext (.pcb p) none
      mail := s.mail.fresh (.inbox p) }, p)

def spawn (s : State) : State × Nat :=
  let (s, p) := s.makeProcess
  (s.enqueue p .runQueue 0, p)

/-- spawn&link. -/
def spawnLink (s : State) : State × Nat :=
  let (s, p) := s.makeProcess
  ((s.link2 p s.self).enqueue p .runQueue 0, p)

/-- The procedure kill. -/
def killProcess (s : State) (p : Nat) (raw : RawReason) (rt : Nat) : Except Halt State :=
  if s.alive p then
    (if raw.unwrap = .kill then s.kill p (.datum .killed)
      else if (s.flags p).trapExit then .ok (s.sendExit p s.self raw)
      else if raw.unwrap = .normal then .ok s
      else s.kill p raw).bind fun s => s.yieldIfDead rt
  else .ok s

/-- The reason kept by a dead process. -/
def exitReason (s : State) (p : Nat) : RawReason :=
  ((s.pcb p).exceptionState).getD (.datum .normal)

/-- The procedure link. -/
def linkProcess (s : State) (p : Nat) (rt : Nat) : Except Halt State :=
  if s.self = p then .ok s
  else if s.alive p then .ok (s.link2 p s.self)
  else if (s.flags s.self).trapExit then .ok (s.sendExit s.self p (s.exitReason p))
  else if (s.exitReason p).unwrap = .normal then .ok s
  else (s.kill s.self (s.exitReason p)).bind fun s => s.yield none 0 rt

def unlink (s : State) (p : Nat) : State := (s.removeLink s.self p).removeLink p s.self

def monitor (s : State) (p : Nat) : State × Mon :=
  let m : Mon := ⟨s.nextMon, s.self, p⟩
  let s := { s with nextMon := s.nextMon + 1, log := .monitor m :: s.log }
  if s.alive p then ((s.addMonitor m s.self).addMonitor m p, m)
  else (s.send s.self (.down m p (s.exitReason p)), m)

/-- (and (mon? m) (eq? (mon-origin m) self)). -/
def isOwnMon (s : State) (m : Mon) : Bool := m.id < s.nextMon && m.origin = s.self

def demonitor (s : State) (m : Mon) : State :=
  { (s.removeMonitor m s.self).removeMonitor m m.target with log := .demonitor m :: s.log }

/-- What register and unregister raise. -/
inductive RegisterError where
  | processDead (p : Nat)
  | processAlreadyRegistered (name : Nat)
  | nameAlreadyRegistered (p : Nat)
  | badArg (name : Nat)
  deriving DecidableEq, Repr

def whereis (s : State) (name : Nat) : Option Nat := s.registrar name

/-- The state is returned with the exception: a throw undoes nothing. -/
def register (s : State) (name : Nat) (p : Nat) : State × Except RegisterError Unit :=
  if s.alive p = false then (s, .error (.processDead p))
  else match (s.pcb p).name with
    | some n => (s, .error (.processAlreadyRegistered n))
    | none => match s.registrar name with
      | some pid => (s, .error (.nameAlreadyRegistered pid))
      | none =>
        let s := s.modify p fun x => { x with name := some name }
        ({ s with registrar := fun m => if m = name then some p else s.registrar m }, .ok ())

def unregister (s : State) (name : Nat) : State × Except RegisterError Unit :=
  match s.registrar name with
  | none => (s, .error (.badArg name))
  | some p =>
    let s := s.modify p fun x => { x with name := none }
    ({ s with registrar := fun m => if m = name then none else s.registrar m }, .ok ())

def keyboardInterrupt (s : State) (p : Nat) : State :=
  if s.alive p then (s.setFlags p fun f => { f with interrupt := true }).wake p else s

def waitForIo (s : State) (rt : Nat) : Except Halt State :=
  (s.setFlags s.self fun f => { f with blockedIo := true }).yield none 0 rt

def completeIo (s : State) (p : Nat) : State :=
  if (s.flags p).blockedIo then
    (s.setFlags p fun f => { f with blockedIo := false }).enqueue p .runQueue 0
  else s

/-- (process-trap-exit x). -/
def setTrapExit (s : State) (x : TrapExit) : State :=
  s.modify s.self fun pcb =>
    { pcb with flags := { pcb.flags with trapExit := x ≠ .off }, trapExitHandler := x }

def setStack (s : State) (p : Nat) (fs : List Frame) : State :=
  s.modify p fun x => { x with stack := fs }

def push (s : State) (f : Frame) : State := s.setStack s.self (f :: (s.pcb s.self).stack)

def record (s : State) (e : Event) : State := { s with log := e :: s.log }

/-- @get-EXIT-msg from the node prev on. -/
def getExitMsg (s : State) : Nat → MPtr → Option Nat
  | 0, _ => none
  | n+1, prev =>
    match (s.mail prev).next with
    | some (.msg k) => if (s.contents k).isExit then some k else s.getExitMsg n (.msg k)
    | _ => none

/-- Hand a message over and take it out of the inbox if it is still there. -/
def consume (s : State) (k : Nat) (c : Consumer) : State :=
  (s.record (.consume k c ((s.mail (.msg k)).prev).isSome)).removeMsg k

/-- @handle-trap-exit-help up to the call of the handler. -/
def handleTrapExitHelp (s : State) : State :=
  if (s.flags s.self).trapExit ∧ (s.pcb s.self).trapExitHandler = .handler then
    match s.getExitMsg (s.nextMsg + 1) (.inbox s.self) with
    | some k =>
      ((s.consume k (.handler s.self)).setFlags s.self fun f =>
        { f with handlingExit := true }).push .trapExitHandler
    | none => s.setFlags s.self fun f => { f with exit := false }
  else s.setFlags s.self fun f => { f with exit := false }

/-- The test of @handle-trap-exit but for the disable count, which depends on
what the caller did. -/
def exitPending (s : State) : Bool :=
  (s.flags s.self).exit && !(s.flags s.self).handlingExit

/-- The call of $receive. -/
def receive (s : State) (matcher : Matcher) (waketime : Option Nat) : State :=
  { s.push (.receive ⟨s.nextCall, matcher, waketime, .inbox s.self, .find0⟩) with
    nextCall := s.nextCall + 1 }

/-- A call of $receive returns: a clause or the timeout handler runs next. -/
def leave (s : State) (r : Receive) (rest : List Frame) : State :=
  let s := s.setStack s.self rest
  match r.matcher with
  | .down m => s.record (.flushed m)
  | .user => s

/-- The end-of-inbox branch of find1. The event loop's callbacks do not block. -/
def endOfInbox (s : State) (r : Receive) (rest : List Frame) (now rt : Nat) : Except Halt State :=
  let parked := (s.setStack s.self (.receive { r with phase := .parked } :: rest)).record (.park s.self)
  match r.waketime with
  | none => if s.self = s.eventLoop then .error .disabled else parked.yield none 0 rt
  | some w =>
    if now < w then
      if s.self = s.eventLoop then .error .disabled
      else (parked.setFlags s.self fun f => { f with sleeping := true }).yield (some .sleepQueue) w rt
    else .ok (s.leave r rest)

/-- One iteration of find1. -/
def find1 (s : State) (r : Receive) (rest : List Frame) (now rt : Nat) : Except Halt State :=
  match (s.mail r.cursor).next with
  | some (.inbox _) => s.endOfInbox r rest now rt
  | some (.msg k) =>
    if ((s.mail (.msg k)).prev).isSome then
      .ok ((s.setStack s.self (.receive { r with cursor := .msg k, phase := .matching } :: rest)).record
        (.offer r.call k))
    else .ok (s.setStack s.self (.receive { r with cursor := .msg k, phase := .find1 } :: rest))
  | none => .error .disabled

/-- find0 with the call of @handle-trap-exit, which acts when atOne says that
the disable count is 1. -/
def find0 (s : State) (r : Receive) (rest : List Frame) (atOne : Bool) : State :=
  if s.exitPending && atOne then
    (s.setStack s.self (.receive { r with phase := .find0 } :: rest)).handleTrapExitHelp
  else s.setStack s.self (.receive { r with phase := .find1 } :: rest)

/-- The matcher has returned for the message under the cursor. -/
def matched (s : State) (r : Receive) (rest : List Frame) (k : Nat) (accept : Bool) :
    Except Halt State :=
  if accept then .ok ((s.consume k (.clause r.call)).leave r rest)
  else .ok (s.setStack s.self (.receive { r with phase := .find1 } :: rest))

end State

inductive Action where
  | spawn | spawnLink
  | send (p d : Nat)
  | sendName (name d : Nat)
  | kill (p : Nat) (raw : RawReason) (rt : Nat)
  | link (p rt : Nat)
  | unlink (p : Nat)
  | monitor (p : Nat)
  | demonitor (m : Mon)
  | demonitorFlush (m : Mon)
  | register (name p : Nat)
  | unregister (name : Nat)
  | setTrapExit (x : TrapExit)
  | keyboardInterrupt (p : Nat)
  | completeIo (p : Nat)
  | waitForIo (rt : Nat)
  /-- (yield run-queue 0), by the timer or by the event loop. -/
  | preempt (rt : Nat)
  | receive (waketime : Option Nat)
  /-- The next stretch of find0 or find1; now and rt are clock readings. -/
  | find (atOne : Bool) (now rt : Nat)
  /-- The matcher of the innermost $receive returns. -/
  | matcher (accept : Bool)
  | handleTrapExit
  | handleInterrupt
  | handlerReturn
  /-- An exception leaves that many activations. -/
  | raise (n : Nat)
  /-- The thunk of the process returns or raises. -/
  | exit (raw : RawReason) (rt : Nat)

/-- User code runs: in the thunk of the process, in a matcher or in a handler. -/
def userCode : List Frame → Bool
  | [] => true
  | .receive r :: _ => r.phase = .matching
  | _ :: _ => true

namespace State

def ensure (b : Bool) (r : Except Halt State) : Except Halt State :=
  if b then r else .error .disabled

/-- An exception leaves n activations; leaving a trap-exit handler runs the
winder that clears handling-exit?. -/
def unwind (s : State) (n : Nat) : Except Halt State :=
  let dropped := (s.pcb s.self).stack.take n
  let rest := (s.pcb s.self).stack.drop n
  ensure (userCode rest) <|
    .ok ((s.setStack s.self rest).setFlags s.self fun f =>
      { f with handlingExit := f.handlingExit && !(dropped.contains .trapExitHandler) })

/-- The steps of $receive and of the handlers it runs under. -/
def receiveStep (s : State) : Action → Except Halt State
  | .find atOne now rt =>
    match (s.pcb s.self).stack with
    | .receive r :: rest =>
      match r.phase with
      | .find0 | .parked => .ok (s.find0 r rest atOne)
      | .find1 => s.find1 r rest now rt
      | .matching => .error .disabled
    | _ => .error .disabled
  | .matcher accept =>
    match (s.pcb s.self).stack with
    | .receive r :: rest =>
      match r.phase, r.cursor, r.matcher with
      | .matching, .msg k, .user => s.matched r rest k accept
      | .matching, .msg k, .down m =>
        ensure (accept = (s.contents k).isDown m) (s.matched r rest k accept)
      | _, _, _ => .error .disabled
    | _ => .error .disabled
  | .handleInterrupt =>
    ensure (s.flags s.self).interrupt <|
      let s := s.setFlags s.self fun f => { f with interrupt := false }
      match (s.pcb s.self).stack with
      | .receive r :: rest =>
        match r.phase with
        | .parked | .find0 =>
          .ok ((s.setStack s.self (.receive { r with phase := .find0 } :: rest)).push .keyboardHandler)
        | .matching => .ok (s.push .keyboardHandler)
        | .find1 => .error .disabled
      | _ => .ok (s.push .keyboardHandler)
  | .handlerReturn =>
    match (s.pcb s.self).stack with
    | .trapExitHandler :: rest =>
      .ok ((s.setStack s.self rest).setFlags s.self fun f =>
        { f with handlingExit := false }).handleTrapExitHelp
    | .keyboardHandler :: rest => .ok (s.setStack s.self rest)
    | _ => .error .disabled
  | _ => .error .disabled

/-- What user code can do. A call with a bad argument raises and changes
nothing. -/
def userStep (s : State) : Action → Except Halt State
  | .spawn => .ok s.spawn.1
  | .spawnLink => .ok s.spawnLink.1
  | .send p d => if s.isPcb p then .ok (s.send p (.user d)) else .ok s
  | .sendName name d =>
    match s.whereis name with
    | some p => .ok (s.send p (.user d))
    | none => .ok s
  | .kill p raw rt => if s.isPcb p then s.killProcess p raw rt else .ok s
  | .link p rt => if s.isPcb p then s.linkProcess p rt else .ok s
  | .unlink p => if s.isPcb p then .ok (s.unlink p) else .ok s
  | .monitor p => if s.isPcb p then .ok (s.monitor p).1 else .ok s
  | .demonitor m => if s.isOwnMon m then .ok (s.demonitor m) else .ok s
  | .demonitorFlush m =>
    if s.isOwnMon m then .ok ((s.demonitor m).receive (.down m) (some 0)) else .ok s
  | .register name p => if s.isPcb p then .ok (s.register name p).1 else .ok s
  | .unregister name => .ok (s.unregister name).1
  | .setTrapExit x => .ok (s.setTrapExit x)
  | .keyboardInterrupt p =>
    if s.isPcb p && p ≠ s.self then .ok (s.keyboardInterrupt p) else .ok s
  | .completeIo p => if s.isPcb p then .ok (s.completeIo p) else .ok s
  | .waitForIo rt => if s.self = s.eventLoop then .error .disabled else s.waitForIo rt
  | .preempt rt => s.yield (some .runQueue) 0 rt
  | .receive waketime => .ok (s.receive .user waketime)
  | .handleTrapExit => if s.exitPending then .ok s.handleTrapExitHelp else .ok s
  | .raise n => s.unwind n
  | .exit raw rt => (s.kill s.self raw).bind fun s => s.yield none 0 rt
  | _ => .error .disabled

def step (s : State) (a : Action) : Except Halt State :=
  match a with
  | .find .. | .matcher .. | .handleInterrupt | .handlerReturn => s.receiveStep a
  | _ => if userCode (s.pcb s.self).stack then s.userStep a else .error .disabled

def run (s : State) : List Action → Except Halt State
  | [] => .ok s
  | a :: as => (s.step a).bind fun s => s.run as

end State

/-- Before the first process exists. -/
def blankState : State where
  queues := ((Heap.fresh (fun _ => ⟨none, none⟩) .runQueue)).fresh .sleepQueue
  mail := fun _ => ⟨none, none⟩
  procs := .empty
  contents := fun _ => .user 0
  nextMsg := 0
  nextMon := 0
  nextCall := 0
  registrar := fun _ => none
  eventLoop := 2
  finalizer := 3
  self := 1
  log := []

/-- The end of erlang.ss: the first process runs, the event loop and the
finalizer are spawned. -/
def bootState : State :=
  let s := (blankState.makeProcess).1
  let s := s.modify 1 fun x => { x with cont := false }
  (s.spawn.1).spawn.1

def Reachable (s : State) : Prop := ∃ as, bootState.run as = .ok s

/-- A property of the state a schedule leads to, evaluated. -/
def runsTo (as : List Action) (P : State → Bool) : Bool :=
  match bootState.run as with
  | .ok s => P s
  | .error _ => false

theorem exists_of_runsTo {as : List Action} {P : State → Bool} (h : runsTo as P = true) :
    ∃ s, bootState.run as = .ok s ∧ P s = true := by
  unfold runsTo at h
  split at h
  · rename_i s hs
    exact ⟨s, hs, h⟩
  · cases h

end Swish.Erlang
