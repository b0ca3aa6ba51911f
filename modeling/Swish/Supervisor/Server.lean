import Swish.Lib.Reach

/-!
supervisor.ss as a generic server: init, the callbacks, and the ways for it to stop. What
a start thunk does on each attempt and what the clock shows come from an environment.
The messages to the event manager are left out.
-/

set_option autoImplicit false

namespace Swish.Supervisor

/-- Scheme values, as far as they are told apart. -/
inductive Datum where
  | symbol (name : String)
  | fixnum (value : Int)
  | procedure (id : Nat)
  | process (pid : Nat)
  | object (id : Nat)
  deriving DecidableEq, Repr

inductive Strategy where
  | oneForOne
  | oneForAll
  deriving DecidableEq, Repr

inductive RestartType where
  | permanent
  | temporary
  | transient
  | watchOnly
  deriving DecidableEq, Repr

inductive ShutdownType where
  | brutalKill
  | timeout (ms : Int)
  | infinity
  deriving DecidableEq, Repr

inductive ChildType where
  | worker
  | supervisor
  deriving DecidableEq, Repr

/-- The tuple <child>. -/
structure Child where
  pid : Option Nat
  name : String
  thunk : Nat
  restartType : RestartType
  shutdown : ShutdownType
  type : ChildType
  deriving DecidableEq, Repr

/-- The tuple <supervisor-state>. -/
structure State where
  strategy : Strategy
  intensity : Int
  period : Int
  children : List Child
  restarts : List Int
  deriving DecidableEq, Repr

/-- A child specification: a vector of five, or something else. -/
inductive Spec where
  | vector (name thunk restartType shutdown type : Datum)
  | other (value : Datum)
  deriving DecidableEq, Repr

inductive SpecError where
  | invalidName (value : Datum)
  | invalidThunk (value : Datum)
  | invalidRestartType (value : Datum)
  | invalidType (value : Datum)
  | invalidShutdown (value : Datum)
  | invalidChildSpec (spec : Spec)
  | duplicateChildName (name : String)
  deriving DecidableEq, Repr

/-- What a call of a start thunk ends in. -/
inductive Outcome where
  | ok (value : Datum)
  | ignore
  | error (reason : Datum)
  | raised (reason : Datum)
  | other (value : Datum)
  deriving DecidableEq, Repr

inductive StartError where
  | duplicateProcess (pid : Nat)
  | reason (value : Datum)
  | badReturnValue (value : Outcome)
  deriving DecidableEq, Repr

/-- What the supervisor does with processes, for the specification only. -/
inductive Event where
  | attempt (name : String)
  | linked (name : String) (pid : Nat)
  /-- An EXIT message is taken from the inbox. -/
  | exit (pid : Nat)
  /-- A process is passed to do-terminate. -/
  | terminated (pid : Nat)
  deriving DecidableEq, Repr

structure Env where
  /-- A thunk on an attempt, all attempts of the supervisor being numbered. -/
  thunk : Nat → Nat → Outcome
  /-- The readings of (erlang:now). -/
  now : Nat → Int

structure World where
  attempts : Nat
  ticks : Nat
  /-- The oldest event comes first. -/
  log : List Event
  deriving DecidableEq, Repr

/-- Ways for a step not to happen: the server has stopped, it is still busy with restarts,
or a match has no clause. -/
inductive Halt where
  | disabled
  | looping
  | badMatch
  deriving DecidableEq, Repr

def World.record (w : World) (e : Event) : World := { w with log := w.log ++ [e] }

/-- One thunk is called. -/
def World.attempt (w : World) (name : String) : World := { w.record (.attempt name) with attempts := w.attempts + 1 }

def findChild (name : String) (children : List Child) : Option Child := children.find? fun c => c.name = name

def findPid (pid : Nat) (children : List Child) : Option Child := children.find? fun c => c.pid = some pid

def stateFindChild (name : String) (state : State) : Option Child := findChild name state.children

def stateFindPid (pid : Nat) (state : State) : Option Child := findPid pid state.children

/-- The argument of mark-child-dead. -/
inductive Who where
  | name (name : String)
  | pid (pid : Option Nat)
  deriving DecidableEq

def markChildDead (who : Who) : List Child → List Child
  | ch :: chs =>
    if who = .name ch.name ∨ who = .pid ch.pid then { ch with pid := none } :: chs
    else ch :: markChildDead who chs
  | [] => []

def stateMarkChildDead (child : Child) (state : State) : State :=
  { state with children := markChildDead (.name child.name) state.children }

def replaceChild (child : Child) : List Child → Except Halt (List Child)
  | ch :: chs =>
    if ch.name = child.name then .ok (child :: chs)
    else (replaceChild child chs).map fun chs => ch :: chs
  | [] => .error .badMatch

def stateReplaceChild (child : Child) (state : State) : Except Halt State :=
  (replaceChild child state.children).map fun children => { state with children := children }

def stateRemoveChild (child : Child) (state : State) : State :=
  { state with children := state.children.filter fun c => c.name ≠ child.name }

def pruneRestarts (restarts : List Int) (now period : Int) : List Int :=
  match restarts with
  | r :: restarts => if now - r ≤ period then r :: pruneRestarts restarts now period else []
  | [] => []

inductive AddRestart where
  | ok (state : State)
  | terminate (state : State)

def addRestart (env : Env) (state : State) (w : World) : AddRestart × World :=
  let now := env.now w.ticks
  let r := pruneRestarts (now :: state.restarts) now state.period
  let state' := { state with restarts := r }
  (if r.length ≤ state.intensity then .ok state' else .terminate state', { w with ticks := w.ticks + 1 })

def validShutdown (shutdown : Datum) (type : ChildType) : Option ShutdownType :=
  match shutdown with
  | .fixnum n => if n > 0 then some (.timeout n) else none
  | .symbol "infinity" => if type = .supervisor then some .infinity else none
  | .symbol "brutal-kill" => some .brutalKill
  | _ => none

def restartTypeOf : Datum → Option RestartType
  | .symbol "permanent" => some .permanent
  | .symbol "temporary" => some .temporary
  | .symbol "transient" => some .transient
  | .symbol "watch-only" => some .watchOnly
  | _ => none

def childTypeOf : Datum → Option ChildType
  | .symbol "supervisor" => some .supervisor
  | .symbol "worker" => some .worker
  | _ => none

def checkChildSpec (spec : Spec) : Except SpecError Child :=
  match spec with
  | .vector name thunk restartType shutdown type =>
    match name with
    | .symbol n =>
      match thunk with
      | .procedure t =>
        match restartTypeOf restartType with
        | some rt =>
          match childTypeOf type with
          | some ty =>
            match validShutdown shutdown ty with
            | some sd => .ok ⟨none, n, t, rt, sd, ty⟩
            | none => .error (.invalidShutdown shutdown)
          | none => .error (.invalidType type)
        | none => .error (.invalidRestartType restartType)
      | _ => .error (.invalidThunk thunk)
    | _ => .error (.invalidName name)
  | .other _ => .error (.invalidChildSpec spec)

/-- The loop of check-start-specs, with the children in reverse. -/
def checkStartSpecsLoop : List Spec → List Child → Except SpecError (List Child)
  | [], children => .ok children.reverse
  | spec :: rest, children =>
    match checkChildSpec spec with
    | .ok child =>
      if (findChild child.name children).isSome then .error (.duplicateChildName child.name)
      else checkStartSpecsLoop rest (child :: children)
    | .error reason => .error reason

def checkStartSpecs (specs : List Spec) : Except SpecError (List Child) := checkStartSpecsLoop specs []

def doStartChild (env : Env) (child : Child) (children : List Child) (w : World) :
    Except StartError (Option Nat × Child) × World :=
  let outcome := env.thunk child.thunk w.attempts
  let w := w.attempt child.name
  match outcome with
  | .ok (.process pid) =>
    if (findPid pid children).isSome then (.error (.duplicateProcess pid), w)
    else (.ok (some pid, { child with pid := some pid }), w.record (.linked child.name pid))
  | .ignore => (.ok (none, child), w)
  | .error reason => (.error (.reason reason), w)
  | .raised reason => (.error (.reason reason), w)
  | other => (.error (.badReturnValue other), w)

/-- The loop of start-children. An error comes with the children that it leaves. -/
def startChildrenLoop (env : Env) : List Child → List Child → World → Except (List Child) (List Child) × World
  | [], newChildren, w => (.ok newChildren, w)
  | child :: rest, newChildren, w =>
    match doStartChild env child newChildren w with
    | (.ok (_, child), w) => startChildrenLoop env rest (child :: newChildren) w
    | (.error _, w) => (.error (rest.reverse ++ child :: newChildren), w)

def startChildren (env : Env) (children : List Child) (w : World) : Except (List Child) (List Child) × World :=
  startChildrenLoop env children [] w

/-- do-terminate, after which the process of the child is dead. -/
def doTerminate (child : Child) (w : World) : Child × World :=
  match child.pid with
  | some pid => ({ child with pid := none }, w.record (.terminated pid))
  | none => (child, w)

/-- The loop of terminate-children. -/
def terminateChildrenLoop : List Child → List Child → World → List Child × World
  | [], acc, w => (acc, w)
  | child :: rest, acc, w =>
    let (child, w) := doTerminate child w
    terminateChildrenLoop rest (child :: acc) w

def terminateChildren (children : List Child) (w : World) : List Child × World :=
  terminateChildrenLoop children [] w

inductive Verdict where
  | ok (state : State)
  | shutdown (state : State)

/-- strategic-restart, with the next round of restart as an argument. -/
def strategicRestart (env : Env) (again : Child → State → World → Except Halt (Verdict × World)) (child : Child)
    (state : State) (w : World) : Except Halt (Verdict × World) :=
  match state.strategy with
  | .oneForOne =>
    match doStartChild env child state.children w with
    | (.ok (_, child), w) => (stateReplaceChild child state).map fun state => (.ok state, w)
    | (.error _, w) => again child state w
  | .oneForAll =>
    let (children, w) := terminateChildren (markChildDead (.pid child.pid) state.children) w
    match startChildren env children w with
    | (.ok newChildren, w) => .ok (.ok { state with children := newChildren }, w)
    | (.error newChildren, w) => again child { state with children := newChildren } w

/-- restart, with a bound on its rounds. -/
def restart (env : Env) : Nat → Child → State → World → Except Halt (Verdict × World)
  | 0, _, _, _ => .error .looping
  | n+1, child, state, w =>
    match addRestart env state w with
    | (.ok state, w) => strategicRestart env (restart env n) child state w
    | (.terminate state, w) => .ok (.shutdown (stateRemoveChild child state), w)

/-- (memq reason '(normal shutdown)). -/
def isNormal (reason : Datum) : Bool := reason = .symbol "normal" || reason = .symbol "shutdown"

def doRestart (env : Env) (rounds : Nat) (restartType : RestartType) (reason : Datum) (child : Child)
    (state : State) (w : World) : Except Halt (Verdict × World) :=
  match restartType with
  | .permanent => restart env rounds child state w
  | .temporary => .ok (.ok (stateMarkChildDead child state), w)
  | .transient =>
    if isNormal reason then .ok (.ok (stateMarkChildDead child state), w) else restart env rounds child state w
  | .watchOnly => .ok (.ok (stateRemoveChild child state), w)

def restartChild (env : Env) (rounds : Nat) (pid : Nat) (reason : Datum) (state : State) (w : World) :
    Except Halt (Verdict × World) :=
  match stateFindPid pid state with
  | some child => doRestart env rounds child.restartType reason child state w
  | none => .ok (.ok state, w)

inductive Request where
  | startChild (spec : Spec)
  | restartChild (name : String)
  | deleteChild (name : String)
  | terminateChild (name : String)
  | getChildren
  deriving DecidableEq, Repr

inductive Reply where
  | started (pid : Option Nat)
  | ok
  | badSpec (reason : SpecError)
  | startError (reason : StartError)
  | alreadyPresent
  | alreadyStarted (pid : Nat)
  | running
  | notFound
  | children (children : List Child)
  deriving DecidableEq, Repr

def handleStartChild (env : Env) (child : Child) (state : State) (w : World) : Reply × State × World :=
  match stateFindChild child.name state with
  | none =>
    match doStartChild env child state.children w with
    | (.ok (pid, child), w) => (.started pid, { state with children := child :: state.children }, w)
    | (.error reason, w) => (.startError reason, state, w)
  | some found =>
    match found.pid with
    | none => (.alreadyPresent, state, w)
    | some pid => (.alreadyStarted pid, state, w)

def handleCall (env : Env) (request : Request) (state : State) (w : World) : Except Halt (Reply × State × World) :=
  match request with
  | .startChild spec =>
    match checkChildSpec spec with
    | .ok child => .ok (handleStartChild env child state w)
    | .error reason => .ok (.badSpec reason, state, w)
  | .restartChild name =>
    match stateFindChild name state with
    | some child =>
      match child.pid with
      | none =>
        match doStartChild env child state.children w with
        | (.ok (pid, child), w) => (stateReplaceChild child state).map fun state => (.started pid, state, w)
        | (.error reason, w) => .ok (.startError reason, state, w)
      | some _ => .ok (.running, state, w)
    | none => .ok (.notFound, state, w)
  | .deleteChild name =>
    match stateFindChild name state with
    | some child =>
      match child.pid with
      | none => .ok (.ok, stateRemoveChild child state, w)
      | some _ => .ok (.running, state, w)
    | none => .ok (.notFound, state, w)
  | .terminateChild name =>
    match stateFindChild name state with
    | some child =>
      let (child, w) := doTerminate child w
      (stateReplaceChild child state).map fun state => (.ok, state, w)
    | none => .ok (.notFound, state, w)
  | .getChildren => .ok (.children state.children, state, w)

inductive InitError where
  | invalidStrategy (value : Datum)
  | invalidIntensity (value : Datum)
  | invalidPeriod (value : Datum)
  | startSpecs (reason : SpecError)
  | shutdown
  deriving DecidableEq, Repr

def initChildren (env : Env) (specs : List Spec) (w : World) : Except InitError (List Child) × World :=
  match checkStartSpecs specs with
  | .ok children =>
    match startChildren env children w with
    | (.ok newChildren, w) => (.ok newChildren, w)
    | (.error newChildren, w) => (.error .shutdown, (terminateChildren newChildren w).2)
  | .error reason => (.error (.startSpecs reason), w)

def strategyOf : Datum → Option Strategy
  | .symbol "one-for-one" => some .oneForOne
  | .symbol "one-for-all" => some .oneForAll
  | _ => none

def init (env : Env) (strategy intensity period : Datum) (specs : List Spec) (w : World) :
    Except InitError State × World :=
  match strategyOf strategy with
  | none => (.error (.invalidStrategy strategy), w)
  | some s =>
    match intensity with
    | .fixnum i =>
      if i < 0 then (.error (.invalidIntensity intensity), w)
      else match period with
        | .fixnum p =>
          if p ≤ 0 then (.error (.invalidPeriod period), w)
          else match initChildren env specs w with
            | (.ok children, w) => (.ok ⟨s, i, p, children, []⟩, w)
            | (.error e, w) => (.error e, w)
        | _ => (.error (.invalidPeriod period), w)
    | _ => (.error (.invalidIntensity intensity), w)

structure Server where
  state : State
  world : World
  running : Bool
  deriving DecidableEq, Repr

inductive Action where
  | call (request : Request)
  /-- The EXIT message of a process that is not the parent, and a bound on the rounds of
  restarts that it causes. -/
  | exit (pid : Nat) (reason : Datum) (rounds : Nat)
  /-- The EXIT message of the parent. -/
  | stop
  deriving DecidableEq, Repr

/-- The generic server calls terminate and exits. -/
def terminate (state : State) (w : World) : Server := ⟨state, (terminateChildren state.children w).2, false⟩

def step (env : Env) (s : Server) (a : Action) : Except Halt Server :=
  if s.running then
    match a with
    | .call request => (handleCall env request s.state s.world).map fun x => ⟨x.2.1, x.2.2, true⟩
    | .exit pid reason rounds =>
      (restartChild env rounds pid reason s.state (s.world.record (.exit pid))).map fun
        | (.ok state, w) => ⟨state, w, true⟩
        | (.shutdown state, w) => terminate state w
    | .stop => .ok (terminate s.state s.world)
  else .error .disabled

def World.start : World := ⟨0, 0, []⟩

end Swish.Supervisor
