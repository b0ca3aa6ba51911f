import Swish.Lib.Reach

/-!
gatekeeper.ss as a generic server: its callbacks, its inbox, and the processes that
call it. Processes, resources, monitors and the tags of calls are numbers. A tag is the
monitor that gen-server:call makes in the caller.
-/

set_option autoImplicit false

namespace Swish.Gatekeeper

/-- The from argument of handle-call. -/
structure From where
  process : Nat
  tag : Nat
  deriving DecidableEq, Repr

/-- The tuple <mutex>. -/
structure Mutex where
  resource : Nat
  process : Nat
  monitor : Nat
  count : Nat
  waiters : List From
  deriving DecidableEq, Repr

inductive Request where
  | enter (resource : Nat)
  | leave (resource : Nat)
  deriving DecidableEq, Repr

inductive Message where
  | call (sender : From) (request : Request)
  | down (monitor : Nat)
  deriving DecidableEq, Repr

/-- What the callbacks do, for the specification only. The reply ok to an enter
request is recorded with the state in which it is sent, and a leave before the
hand-over it causes. -/
inductive Event where
  | granted (sender : From) (resource monitor : Nat) (state : List Mutex)
  | reentered (sender : From) (resource : Nat) (state : List Mutex)
  | queued (sender : From) (resource : Nat)
  | deadlock (sender : From) (resource : Nat)
  | left (sender : From) (resource : Nat)
  | unowned (sender : From) (resource : Nat)
  deriving DecidableEq, Repr

structure World where
  state : List Mutex
  inbox : List Message
  /-- The monitors of the server that have not fired. -/
  monitors : List (Nat × Nat)
  nextMonitor : Nat
  nextTag : Nat
  dead : List Nat
  /-- The tags of calls that have timed out. -/
  expired : List Nat
  log : List Event

/-- Ways for a step not to happen: it is not possible, the server loops forever, or
match-let* finds no match. -/
inductive Halt where
  | disabled
  | hangs
  | badMatch
  deriving DecidableEq, Repr

namespace World

def record (w : World) (e : Event) : World := { w with log := e :: w.log }

/-- (monitor process). -/
def monitor (w : World) (process : Nat) : World :=
  let m := w.nextMonitor
  if process ∈ w.dead then { w with nextMonitor := m + 1, inbox := w.inbox ++ [.down m] }
  else { w with nextMonitor := m + 1, monitors := (m, process) :: w.monitors }

def demonitorFlush (w : World) (m : Nat) : World :=
  { w with
    monitors := w.monitors.filter fun x => x.1 ≠ m
    inbox := w.inbox.filter fun x => x ≠ .down m }

/-- A process dies and its monitors fire. -/
def die (w : World) (p : Nat) : World :=
  { w with
    dead := p :: w.dead
    monitors := w.monitors.filter fun x => x.2 ≠ p
    inbox := w.inbox ++ (w.monitors.filter fun x => x.2 = p).map fun x => .down x.1 }

end World

/-- remq: no two tuples of the state are equal. -/
def remq (mutex : Mutex) (state : List Mutex) : List Mutex := state.filter fun x => x ≠ mutex

def findResource (resource : Nat) : List Mutex → Option Mutex
  | [] => none
  | mutex :: rest => if mutex.resource = resource then some mutex else findResource resource rest

def findMonitor (monitor : Nat) : List Mutex → Except Halt Mutex
  | [] => .error .badMatch
  | mutex :: rest => if mutex.monitor = monitor then .ok mutex else findMonitor monitor rest

def enterMutex (w : World) (resource : Nat) (sender : From) (waiters : List From) (state : List Mutex) :
    World :=
  let m := w.nextMonitor
  let w := (w.record (.granted sender resource m state)).monitor sender.process
  { w with state := ⟨resource, sender.process, m, 1, waiters⟩ :: state }

def leaveMutex (w : World) (mutex : Mutex) (state : List Mutex) : World :=
  let w := w.demonitorFlush mutex.monitor
  match mutex.waiters with
  | [] => { w with state := remq mutex state }
  | sender :: waiters => enterMutex w mutex.resource sender waiters (remq mutex state)

/-- The mutex whose waiters include a process. -/
def findWaiting (owner : Nat) (state : List Mutex) : Option Mutex :=
  state.find? fun waiting => waiting.waiters.any fun f => f.process = owner

/-- deadlock? with a bound on its recursion; none when the bound is used up. -/
def deadlockFuel : Nat → Nat → Mutex → List Mutex → Option Bool
  | 0, _, _, _ => none
  | n+1, process, mutex, state =>
    if mutex.process = process then some true
    else match findWaiting mutex.process state with
      | none => some false
      | some waiting => deadlockFuel n process waiting state

/-- A chain that is longer than the state visits a mutex twice and never ends. -/
def deadlock (process : Nat) (mutex : Mutex) (state : List Mutex) : Option Bool :=
  deadlockFuel (state.length + 1) process mutex state

/-- handle-call, with the replies that the generic server sends for it. -/
def handleCall (w : World) (request : Request) (sender : From) (state : List Mutex) : Except Halt World :=
  match request with
  | .enter resource =>
    match findResource resource state with
    | none => .ok (enterMutex w resource sender [] state)
    | some mutex =>
      if mutex.process = sender.process then
        .ok { w.record (.reentered sender resource state) with
          state := { mutex with count := mutex.count + 1 } :: remq mutex state }
      else match deadlock sender.process mutex state with
        | none => .error .hangs
        | some true => .ok { w.record (.deadlock sender resource) with state := state }
        | some false =>
          .ok { w.record (.queued sender resource) with
            state := { mutex with waiters := mutex.waiters ++ [sender] } :: remq mutex state }
  | .leave resource =>
    match findResource resource state with
    | none => .ok { w.record (.unowned sender resource) with state := state }
    | some mutex =>
      if mutex.process ≠ sender.process then .ok { w.record (.unowned sender resource) with state := state }
      else if 1 < mutex.count then
        .ok { w.record (.left sender resource) with
          state := { mutex with count := mutex.count - 1 } :: remq mutex state }
      else .ok (leaveMutex (w.record (.left sender resource)) mutex state)

/-- handle-info. -/
def handleInfo (w : World) (monitor : Nat) (state : List Mutex) : Except Halt World :=
  (findMonitor monitor state).map fun mutex => leaveMutex w mutex state

inductive Action where
  /-- A live process calls the server. -/
  | call (process : Nat) (request : Request)
  /-- The server takes the next message. -/
  | handle
  | die (process : Nat)
  /-- gen-server:call gives up in the caller. -/
  | timeout (tag : Nat)
  deriving DecidableEq, Repr

namespace World

/-- The calls that have no answer yet, as they came. -/
def unanswered (w : World) : List (From × Request) :=
  (w.state.flatMap fun x => x.waiters.map fun f => (f, .enter x.resource)) ++ w.inbox.filterMap fun
    | .call f request => some (f, request)
    | .down _ => none

def step (w : World) : Action → Except Halt World
  | .call p request =>
    if p ∈ w.dead then .error .disabled
    else .ok { w with nextTag := w.nextTag + 1, inbox := w.inbox ++ [.call ⟨p, w.nextTag⟩ request] }
  | .handle =>
    match w.inbox with
    | [] => .error .disabled
    | .call f request :: rest => handleCall { w with inbox := rest } request f w.state
    | .down m :: rest => handleInfo { w with inbox := rest } m w.state
  | .die p => if p ∈ w.dead then .error .disabled else .ok (w.die p)
  | .timeout tag =>
    if w.unanswered.any fun x => x.1.tag = tag && x.1.process ∉ w.dead then .ok { w with expired := tag :: w.expired }
    else .error .disabled

end World

/-- The state after init. -/
def initial : World where
  state := []
  inbox := []
  monitors := []
  nextMonitor := 0
  nextTag := 0
  dead := []
  expired := []
  log := []

end Swish.Gatekeeper
