import Mathlib.Data.List.Basic

/-!
The loop of a generic server. A turn takes one message, runs one callback under
try and acts on what it returns.
-/

set_option autoImplicit false

namespace Swish.GenServer.Loop

/-- The symbols that the loop knows, and all others. -/
inductive Symbol where
  | genCall | genCast | genDebug
  | reply | noReply | stop | infinity | timeout
  | exit | badReturnValue | timeoutValue | badMatch | badArg
  | send | vectorRef | memq | message | state
  | user (name : Nat)
  deriving DecidableEq, Repr

inductive Datum where
  | symbol (s : Symbol)
  | integer (i : Int)
  | bool (b : Bool)
  | nil
  | pair (a d : Datum)
  | vector (xs : List Datum)
  | process (p : Nat)
  /-- A fault condition. The flag says whether it has a continuation. -/
  | fault (k : Bool) (reason : Datum)
  /-- The message that a linked process sends as it exits. -/
  | exitMsg (pid : Nat) (raw : Datum)
  /-- A condition of Chez Scheme. -/
  | condition (who : Symbol) (irritant : Datum)
  | other (n : Nat)

namespace Datum

def isTrue : Datum → Bool
  | .bool false => false
  | _ => true

/-- (list? x). -/
def isList : Datum → Bool
  | .nil => true
  | .pair _ d => d.isList
  | _ => false

/-- What gen-server:debug accepts as options. -/
def isOptions (d : Datum) : Bool :=
  !d.isTrue || d.isList

/-- Whether (memq s x) returns. -/
def memqReturns (s : Symbol) : Datum → Bool
  | .nil => true
  | .pair (.symbol r) d => r == s || d.memqReturns s
  | .pair _ d => d.memqReturns s
  | _ => false

/-- Whether (vector-ref x 0) returns. -/
def hasFirst : Datum → Bool
  | .vector (_ :: _) => true
  | _ => false

/-- The pattern `(catch ,r ,e). -/
def isCatch : Datum → Bool
  | .fault _ _ => true
  | .vector [.symbol .exit, _] => true
  | _ => false

/-- The reason that `(catch ,r ,e) and `(EXIT ,pid ,r ,e) bind. -/
def reason : Datum → Datum
  | .fault _ r => r
  | .vector [.symbol .exit, r] => r
  | d => d

/-- The err that `(catch ,r ,e) and `(EXIT ,pid ,r ,e) bind. -/
def err : Datum → Datum
  | .fault true r => .fault true r
  | .fault false r => r
  | .vector [.symbol .exit, r] => r
  | d => d

/-- What (receive (until x ...)) accepts. -/
def waits : Datum → Bool
  | .integer i => decide (0 ≤ i)
  | .symbol .infinity => true
  | _ => false

end Datum

/-- How a procedure ends. -/
inductive Result where
  | returned (v : Datum)
  | raised (x : Datum)

/-- The value of (try e). -/
def Result.tried : Result → Datum
  | .returned v => v
  | .raised (.fault k r) => .fault k r
  | .raised x => .fault false x

/-- A callback with its arguments, the state apart. -/
inductive Callback where
  | handleCall (msg client : Datum)
  | handleCast (msg : Datum)
  | handleInfo (msg : Datum)

inductive Event where
  | received (msg : Datum)
  | handled (c : Callback) (state : Datum) (r : Result)
  | terminated (reason state : Datum) (r : Result)
  | replied (client reply : Datum)

/-- What the loop meets in one turn. -/
structure Env where
  handleCall : Datum → Datum → Datum → Result
  handleCast : Datum → Datum → Result
  handleInfo : Datum → Datum → Result
  terminate : Datum → Datum → Result
  /-- (erlang:now) when the callback is back. -/
  now : Nat
  /-- The names that send finds. -/
  registered : Symbol → Bool
  /-- Scheme evaluates the arguments of debug-report in any order. -/
  clientFirst : Bool
  /-- Where an error of the loop itself comes from. -/
  src : Datum

/-- The process of a server. It has an exit reason once it is gone. -/
structure Proc where
  parent : Option Nat
  debug : Datum
  state : Datum
  timeout : Datum
  inbox : List Datum
  exit : Option Datum
  /-- For the specification: all messages that came, and what the loop did. -/
  arrived : List Datum
  log : List Event

def Proc.note (p : Proc) (es : List Event) : Proc :=
  { p with log := p.log ++ es }

def Proc.raise (p : Proc) (x : Datum) : Proc :=
  { p with exit := some x }

def debugReport (debug reply : Datum) : Result :=
  if [.message, .state, .reply].all (debug.memqReturns ·) then .returned reply
  else .raised (.condition .memq debug)

/-- (debug-report ... e) when debug is on, and e otherwise. -/
def Result.reported (debug : Datum) : Result → Result
  | .returned v => if debug.isTrue then debugReport debug v else .returned v
  | .raised x => .raised x

def resolveTimeout (now : Nat) : Datum → Datum
  | .integer i => if 0 ≤ i ∧ i ≤ 86400000 then .integer (now + i) else .integer i
  | x => x

namespace Env

def doHandleCall (env : Env) (debug msg client state : Datum) : List Event × Result :=
  let r := env.handleCall msg client state
  let es := [.handled (.handleCall msg client) state r]
  -- (vector-ref from 0) is an argument of debug-report, as the call is
  if debug.isTrue && !client.hasFirst then
    let failed := .raised (.condition .vectorRef client)
    if env.clientFirst then ([], failed)
    else
      match r with
      | .returned _ => (es, failed)
      | .raised x => (es, .raised x)
  else (es, r.reported debug)

def doHandleCast (env : Env) (debug msg state : Datum) : List Event × Result :=
  let r := env.handleCast msg state
  ([.handled (.handleCast msg) state r], r.reported debug)

def doHandleInfo (env : Env) (debug msg state : Datum) : List Event × Result :=
  let r := env.handleInfo msg state
  ([.handled (.handleInfo msg) state r], r.reported debug)

def doTerminate (env : Env) (debug reason state : Datum) : List Event × Result :=
  let r := env.terminate reason state
  ([.terminated reason state r], r.reported debug)

/-- Whether (send p x) returns. -/
def sends (env : Env) : Datum → Bool
  | .process _ => true
  | .symbol s => env.registered s
  | _ => false

/-- gen-server:reply. -/
def reply (env : Env) (p : Proc) (client reply : Datum) : Except Datum Proc :=
  match client with
  | .vector [pid, _] =>
    if env.sends pid then .ok (p.note [.replied client reply])
    else .error (.fault true (.vector [.symbol .badArg, .symbol .send, pid]))
  | _ => .error (.fault true (.vector [.symbol .badMatch, client, env.src]))

/-- The entry of loop, up to the wait for a message. -/
def loop (env : Env) (p : Proc) (state timeout : Datum) : Proc :=
  if timeout.waits then { p with state := state, timeout := timeout }
  else p.raise (.fault true (.vector [.symbol .timeoutValue, timeout, env.src]))

def terminateReason (env : Env) (p : Proc) (reason state : Datum) : Proc × Datum :=
  let (es, t) := env.doTerminate p.debug reason.reason state
  (p.note es, if t.tried.isCatch then t.tried.err else reason.err)

/-- The procedure terminate of the loop. -/
def stop (env : Env) (p : Proc) (reason state : Datum) : Proc :=
  let (p, e) := env.terminateReason p reason state
  p.raise e

def handleCommonReply (env : Env) (p : Proc) (reply : Datum) : Proc :=
  match reply with
  | .vector [.symbol .noReply, state] => env.loop p state (.symbol .infinity)
  | .vector [.symbol .noReply, state, timeout] => env.loop p state (resolveTimeout env.now timeout)
  | .vector [.symbol .stop, reason, state] => env.stop p reason state
  | other =>
    if other.isCatch then env.stop p other.err p.state
    else env.stop p (.vector [.symbol .badReturnValue, other]) p.state

/-- The match of handle-msg on what handle-call returns. -/
def handleCallReply (env : Env) (p : Proc) (client reply : Datum) : Proc :=
  match reply with
  | .vector [.symbol .reply, reply, state] =>
    match env.reply p client reply with
    | .ok p => env.loop p state (.symbol .infinity)
    | .error x => p.raise x
  | .vector [.symbol .reply, reply, state, timeout] =>
    match env.reply p client reply with
    | .ok p => env.loop p state (resolveTimeout env.now timeout)
    | .error x => p.raise x
  | .vector [.symbol .stop, reason, reply, state] =>
    let (p, r) := env.terminateReason p reason state
    match env.reply p client reply with
    | .ok p => p.raise r
    | .error x => p.raise x
  | other => env.handleCommonReply p other

def handleMsg (env : Env) (p : Proc) (msg : Datum) : Proc :=
  match msg with
  | .exitMsg q raw =>
    if p.parent = some q then env.stop p raw.err p.state
    else
      let (es, r) := env.doHandleInfo p.debug msg p.state
      env.handleCommonReply (p.note es) r.tried
  | .vector [.symbol .genCall, client, msg] =>
    let (es, r) := env.doHandleCall p.debug msg client p.state
    env.handleCallReply (p.note es) client r.tried
  | .vector [.symbol .genCast, msg] =>
    let (es, r) := env.doHandleCast p.debug msg p.state
    env.handleCommonReply (p.note es) r.tried
  | .vector [.symbol .genDebug, debug] => env.loop { p with debug := debug } p.state p.timeout
  | msg =>
    let (es, r) := env.doHandleInfo p.debug msg p.state
    env.handleCommonReply (p.note es) r.tried

/-- $enter-loop. make-starter enters the loop in the same way once init has returned. -/
def enterLoop (env : Env) (parent : Option Nat) (state timeout : Datum) : Proc :=
  env.loop ⟨parent, .bool false, state, timeout, [], none, [], []⟩ state (resolveTimeout env.now timeout)

end Env

inductive Action where
  /-- A message comes that no callback takes out of the inbox. -/
  | arrive (msg : Datum)
  | receive (env : Env)
  /-- The wait for a message ends at its timeout. -/
  | expire (env : Env)

/-- The loop takes msg. -/
def Proc.turn (p : Proc) (env : Env) (msg : Datum) : Proc :=
  env.handleMsg (p.note [.received msg]) msg

def Proc.step (p : Proc) (a : Action) : Except Unit Proc :=
  match p.exit with
  | some _ => .error ()
  | none =>
    match a with
    | .arrive msg => .ok { p with inbox := p.inbox ++ [msg], arrived := p.arrived ++ [msg] }
    | .receive env =>
      match p.inbox with
      | msg :: rest => .ok ({ p with inbox := rest }.turn env msg)
      | [] => .error ()
    | .expire env =>
      match p.inbox, p.timeout with
      | [], .integer i =>
        if i ≤ env.now then .ok (p.turn env (.symbol .timeout)) else .error ()
      | _, _ => .error ()

end Swish.GenServer.Loop
