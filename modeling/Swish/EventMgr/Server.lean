import Swish.Lib.Reach

/-!
The event manager of event-mgr.ss as a generic server. Its procedures call the
handlers, other processes and the console; each such act is put in a trace. The console
takes whatever is written to it.
-/

set_option autoImplicit false

namespace Swish.EventMgr

/-- The tuple <handler>. Procedures and processes are numbers. -/
structure Handler where
  proc : Nat
  owner : Nat
  deriving DecidableEq, Repr

/-- The tuple <event-mgr-state>. -/
structure State (E : Type) where
  eventBuffer : Option (List E)
  logHandler : Option Handler
  endure : Nat
  handlers : List Handler

/-- The arguments of a call, as far as they are checked. -/
inductive Value where
  | procedure (n : Nat)
  | process (n : Nat)
  | other (n : Nat)
  deriving DecidableEq, Repr

inductive Reply where
  | ok
  | logHandlerAlreadySet
  | invalidProcedure (v : Value)
  | invalidOwner (v : Value)
  deriving DecidableEq, Repr

inductive Call where
  | addHandler (proc owner : Value)
  | flushBuffer
  | setLogHandler (proc owner endure : Value)
  /-- The flag says whether the name is registered. -/
  | unregister (registered : Bool)
  | other
  deriving DecidableEq, Repr

inductive Message (E : Type) where
  | call (request : Call)
  | cast
  | notify (event : E)
  | exit (pid : Nat)
  | other

/-- What the event manager does. A handler is called with an event and returns or
raises; processing is for the specification only and shows the state do-notify is in
as it starts on an event that it does not put in the buffer. -/
inductive Action (E X : Type) where
  | processing (event : E) (handlers : List Handler) (log : Option Handler)
  | call (h : Handler) (event : E) (raised : Option X)
  | log (h : Handler) (event : E) (raised : Option X)
  | console (event : E)
  | consoleError (e : X)
  | link (p : Nat)
  | unlink (p : Nat)
  | kill (p : Nat) (e : X)
  | resetConsole
  | reply (r : Reply)

/-- What a procedure does on an event may depend on all that happened before, so it is
given by the number of acts before the call. -/
structure Env (E X : Type) where
  self : Nat
  parent : Nat
  /-- What the procedure raises, if it does. -/
  raises : Nat → Nat → E → Option X
  /-- Whether (try (and (endure? event) #t)) is #t. -/
  endures : Nat → Nat → E → Bool
  /-- Whether the reason is kill, which no process can trap. -/
  isKill : X → Bool

/-- Ways for a step not to happen: the event manager kills itself, or has ended. -/
inductive Halt where
  | killed
  | ended
  deriving DecidableEq, Repr

structure Server (E X : Type) where
  state : State E
  trace : List (Action E X)
  ended : Bool

variable {E X : Type}

namespace Env

/-- (kill owner e). -/
def kill (env : Env E X) (owner : Nat) (e : X) (trace : List (Action E X)) :
    Except Halt (List (Action E X)) :=
  if owner = env.self ∧ env.isKill e = true then .error .killed else .ok (trace ++ [.kill owner e])

/-- The for-each of do-notify. -/
def callHandlers (env : Env E X) (event : E) :
    List Handler → List (Action E X) → Except Halt (List (Action E X))
  | [], trace => .ok trace
  | h :: hs, trace =>
    match env.raises trace.length h.proc event with
    | some e => do
      let trace ← env.kill h.owner e (trace ++ [.call h event (some e)])
      env.callHandlers event hs trace
    | none => env.callHandlers event hs (trace ++ [.call h event none])

/-- The cond of do-notify. -/
def callLogHandler (env : Env E X) (event : E) (state : State E) (trace : List (Action E X)) :
    Except Halt (State E × List (Action E X)) :=
  match state.logHandler with
  | some h =>
    match env.raises trace.length h.proc event with
    | some e =>
      let trace := trace ++ [.log h event (some e), .console event]
      if env.endures trace.length state.endure event then .ok (state, trace ++ [.consoleError e])
      else do
        let trace ← env.kill h.owner e (trace ++ [.unlink h.owner])
        return ({ state with logHandler := none }, trace)
    | none => .ok (state, trace ++ [.log h event none])
  | none => .ok (state, trace ++ [.console event])

def doNotify (env : Env E X) (event : E) (state : State E) (trace : List (Action E X)) :
    Except Halt (State E × List (Action E X)) :=
  match state.eventBuffer with
  | none => do
    let trace ← env.callHandlers event state.handlers
      (trace ++ [.processing event state.handlers state.logHandler])
    env.callLogHandler event state trace
  | some buffer => .ok ({ state with eventBuffer := some (event :: buffer) }, trace)

/-- (fold-right do-notify state events). -/
def foldNotify (env : Env E X) : List E → State E → List (Action E X) →
    Except Halt (State E × List (Action E X))
  | [], state, trace => .ok (state, trace)
  | event :: events, state, trace => do
    let r ← env.foldNotify events state trace
    env.doNotify event r.1 r.2

def doFlushBuffer (env : Env E X) (state : State E) (trace : List (Action E X)) :
    Except Halt (State E × List (Action E X)) :=
  match state.eventBuffer with
  | none => .ok (state, trace)
  | some buffer => env.foldNotify buffer { state with eventBuffer := none } trace

/-- The callback terminate, and the end of the server. -/
def terminate (env : Env E X) (state : State E) (trace : List (Action E X)) : Except Halt (Server E X) := do
  let r ← env.doFlushBuffer { state with logHandler := none, handlers := [] } trace
  return ⟨r.1, r.2, true⟩

def reply (r : Reply) (state : State E) (trace : List (Action E X)) : Server E X :=
  ⟨state, trace ++ [.reply r], false⟩

/-- The callback handle-call, with what the server does on its result. A request that
is not known raises an exception, as unregister does when there is no such name. -/
def handleCall (env : Env E X) (request : Call) (state : State E) (trace : List (Action E X)) :
    Except Halt (Server E X) :=
  match request with
  | .addHandler proc owner =>
    match proc with
    | .procedure proc =>
      match owner with
      | .process owner =>
        .ok (reply .ok { state with handlers := state.handlers ++ [⟨proc, owner⟩] } (trace ++ [.link owner]))
      | owner => .ok (reply (.invalidOwner owner) state trace)
    | proc => .ok (reply (.invalidProcedure proc) state trace)
  | .flushBuffer => do
    let r ← env.doFlushBuffer state trace
    return reply .ok r.1 r.2
  | .setLogHandler proc owner endure =>
    if state.logHandler.isSome then .ok (reply .logHandlerAlreadySet state trace)
    else
      match proc with
      | .procedure proc =>
        match owner with
        | .process owner =>
          match endure with
          | .procedure endure =>
            .ok (reply .ok { state with logHandler := some ⟨proc, owner⟩, endure := endure }
              (trace ++ [.link owner, .resetConsole]))
          | endure => .ok (reply (.invalidProcedure endure) state trace)
        | owner => .ok (reply (.invalidOwner owner) state trace)
      | proc => .ok (reply (.invalidProcedure proc) state trace)
  | .unregister registered => if registered then .ok (reply .ok state trace) else env.terminate state trace
  | .other => env.terminate state trace

end Env

def removeOwner (pid : Nat) (handlers : List Handler) : List Handler :=
  handlers.filter fun h => h.owner ≠ pid

/-- handle-info for the exit of an owner. -/
def handleExit (pid : Nat) (state : State E) : State E :=
  if (state.logHandler.map Handler.owner) = some pid then { state with logHandler := none }
  else { state with handlers := removeOwner pid state.handlers }

/-- handle-msg of the generic server: the exit of the parent ends it, as an exception
in a callback does. -/
def handleMsg (env : Env E X) (msg : Message E) (state : State E) (trace : List (Action E X)) :
    Except Halt (Server E X) :=
  match msg with
  | .call request => env.handleCall request state trace
  | .cast => env.terminate state trace
  | .notify event => do
    let r ← env.doNotify event state trace
    return ⟨r.1, r.2, false⟩
  | .exit pid =>
    if pid = env.parent then env.terminate state trace
    else .ok ⟨handleExit pid state, trace, false⟩
  | .other => env.terminate state trace

def step (env : Env E X) (s : Server E X) (msg : Message E) : Except Halt (Server E X) :=
  if s.ended then .error .ended else handleMsg env msg s.state s.trace

/-- The procedure that endure? is at first, which returns #f. -/
def succumb : Nat := 0

/-- What init returns. -/
def init : Server E X where
  state := { eventBuffer := some [], logHandler := none, endure := succumb, handlers := [] }
  trace := []
  ended := false

/-- The server after some messages. -/
def run (env : Env E X) (msgs : List (Message E)) : Except Halt (Server E X) :=
  Lib.Reach.run (step env) init msgs

end Swish.EventMgr
