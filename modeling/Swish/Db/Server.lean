import Swish.Db.Statements
import Swish.GenServer.Loop
import Swish.Lib.Reach
import Swish.Queue

/-!
The gen-server of db.ss with its worker processes and the database connection. Processes
and calls are numbers. A handler of the server is one step, and so is one statement of a
worker.
-/

set_option autoImplicit false

namespace Swish.Db

open Swish.GenServer.Loop (Datum Result)

/-- The tuple <log>. -/
structure Log where
  sql : Sql
  mbindings : Nat
  deriving DecidableEq

inductive Request where
  | log (l : Log)
  | transaction (f client : Nat)
  deriving DecidableEq

/-- The options of a server that its handlers use. -/
structure Options where
  commitDelay : Nat
  commitLimit : Nat
  /-- db:options admits positive limits only. -/
  positive : 0 < commitLimit

/-- The tuple <db-state>, the cache and the options apart. -/
structure State where
  queue : Queue Request
  worker : Option Nat
  logTimeout : Option Nat

inductive Reply where
  | ok (result : Datum)
  | error (e : Datum)

/-- What a worker has to do. -/
inductive Job where
  | logs (logs : List Log) (count : Nat)
  | transaction (f client : Nat)
  deriving DecidableEq

/-- Where a worker is. -/
inductive Point where
  /-- The loop that fills vstmt and vbind. -/
  | fill (logs : List Log) (i : Nat) (vstmt : List (Option Sql)) (vbind : List (Option Nat))
  | beginLogs (vstmt : List (Option Sql)) (vbind : List (Option Nat))
  | bulkExecute (vstmt : List (Option Sql)) (vbind : List (Option Nat))
  | commitLogs
  | unmarshal
  | beginTransaction
  | body
  | finalizeLazyObjects (x : Datum)
  /-- COMMIT or ROLLBACK, for the value of (try (limit-stack (f))). -/
  | finish (x : Datum)
  | reply (r : Reply)
  | done

structure Worker where
  pid : Nat
  job : Job
  point : Point

inductive Reason where
  | normal
  | fault (x : Fault)
  deriving DecidableEq

inductive Message where
  | request (r : Request)
  | filename (client : Nat)
  | debug
  | stop (client : Nat)
  | down (pid : Nat) (r : Reason)
  /-- From a linked process or the parent. -/
  | exit (pid : Nat) (r : Reason)

inductive Status where
  | running
  /-- terminate waits for the worker. -/
  | flushing (r : Reason)
  /-- stop-worker waits for the worker. -/
  | stopping (r : Reason)
  | stopped (r : Reason)

/-- What happens, for the specification. -/
inductive Event where
  /-- A worker is started on a queue. The flags say whether a transaction is open, and whether
  the server runs terminate. -/
  | started (pid : Nat) (job : Job) (queue : List Request) (isOpen terminating : Bool)
  /-- The procedure of a transaction ends. -/
  | ran (pid : Nat) (r : Result)
  | committed (pid : Nat)
  | rolledBack (pid : Nat)
  | replied (pid client : Nat) (r : Reply)
  /-- A worker fails, and has not replied. -/
  | failed (pid : Nat) (x : Fault)
  /-- The server runs remove-dead-entries. -/
  | expired (worker : Option Nat)

structure World where
  state : State
  cache : Cache
  /-- The connection has an open transaction. -/
  isOpen : Bool
  status : Status
  /-- The timeout that the loop waits with. -/
  timeout : Option Nat
  now : Nat
  inbox : List Message
  alive : List Worker
  nextPid : Nat
  /-- All requests in the order in which they were sent. -/
  requests : List Request
  /-- The last event is the first one. -/
  log : List Event

def Message.request? : Message → Option Request
  | .request r => some r
  | _ => none

/-! The queue. -/

def Request.isLog : Request → Bool
  | .log _ => true
  | .transaction _ _ => false

/-- get-logs, with a bound on its recursion. -/
def getLogs : Nat → Queue Request → Nat → Nat → Except Queue.Failure (List Log × Queue Request × Nat)
  | 0, _, _, _ => .error .badMatch
  | fuel + 1, queue, count, commitLimit => do
    let queue ← queue.drop
    let count := count + 1
    if queue.isEmpty ∨ commitLimit ≤ count then return ([], queue, count)
    else
      match ← queue.get with
      | .log head =>
        let (logs, queue, count) ← getLogs fuel queue count commitLimit
        return (head :: logs, queue, count)
      | .transaction _ _ => return ([], queue, count)

def getWork (queue : Queue Request) (commitLimit : Nat) : Except Queue.Failure (Queue Request × Job) := do
  match ← queue.get with
  | .log head =>
    let (logs, queue, count) ← getLogs queue.toList.length queue 0 commitLimit
    return (queue, .logs (head :: logs) count)
  | .transaction f client => return (← queue.drop, .transaction f client)

/-- The start of make-log-worker and make-transaction-worker. -/
def Job.point : Job → Point
  | .logs ls count => .fill ls 0 (List.replicate count none) (List.replicate count none)
  | .transaction _ _ => .beginTransaction

def World.note (w : World) (e : Event) : World := { w with log := e :: w.log }

/-- The worker is spawned and monitored. -/
def World.start (w : World) (queue : Queue Request) (job : Job) (terminating : Bool) : World :=
  { w with
    state := ⟨queue, some w.nextPid, if queue.isEmpty then none else w.state.logTimeout⟩
    alive := w.alive ++ [⟨w.nextPid, job, job.point⟩]
    nextPid := w.nextPid + 1
    log := .started w.nextPid job w.state.queue.toList w.isOpen terminating :: w.log }

def World.update (o : Options) (terminating : Bool) (w : World) : Except Queue.Failure World :=
  if w.state.worker.isSome ∨ w.state.queue.isEmpty then .ok w
  else do
    let (queue, job) ← getWork w.state.queue o.commitLimit
    return w.start queue job terminating

def World.getTimeout (w : World) : Option Nat :=
  match w.state.worker with
  | some _ => none
  | none => w.state.logTimeout <|> w.cache.waketime

/-- resolve-timeout of gen-server.ss. -/
def resolveTimeout (now : Nat) : Option Nat → Option Nat
  | none => none
  | some x => if x ≤ 86400000 then some (now + x) else some x

/-- The loop goes on with the timeout of the state. -/
def World.resume (w : World) : World := { w with timeout := resolveTimeout w.now w.getTimeout }

/-- terminate and the first part of flush. -/
def World.terminate (o : Options) (w : World) (r : Reason) : World :=
  match w.update o true with
  | .error _ => { w with status := .stopped (.fault .queue) }
  | .ok w => { w with status := if w.state.worker.isSome then .flushing r else .stopped r }

def World.noReply (o : Options) (w : World) : World :=
  match w.update o false with
  | .ok w => w.resume
  | .error _ => w.terminate o (.fault .queue)

def World.noReplyDelay (o : Options) (w : World) : World :=
  if o.commitDelay = 0 then w.noReply o else w.resume

def World.add (w : World) (r : Request) : World := { w with state := { w.state with queue := w.state.queue.add r } }

/-- handle-call, handle-cast and handle-info, the timeout apart. -/
def World.handle (o : Options) (w : World) : Message → World
  | .request (.transaction f client) => (w.add (.transaction f client)).noReply o
  | .request (.log l) =>
    let w := w.add (.log l)
    { w with state := { w.state with logTimeout := w.state.logTimeout <|> some (w.now + o.commitDelay) } }.noReplyDelay o
  | .filename _ => w.resume
  | .debug => w
  | .stop _ => w.terminate o .normal
  | .down pid r =>
    if w.state.worker = some pid then
      let w := { w with state := { w.state with worker := none } }
      if r = .normal then w.noReply o else w.terminate o r
    else w.noReply o
  | .exit pid r => if w.state.worker = some pid then w.noReply o else w.terminate o r

/-- handle-info for the message timeout. -/
def World.handleTimeout (o : Options) (finalizes : Sql → Bool) (w : World) : World :=
  if w.state.queue.isEmpty then
    let (ok, cache) := w.cache.removeDeadEntries w.now (fun _ => false) finalizes
    let w := { w with cache := cache }.note (.expired w.state.worker)
    if ok then w.noReply o else w.terminate o (.fault .finalize)
  else w.noReply o

/-! The workers. -/

inductive Work where
  /-- get-statement in the loop of a log worker. -/
  | fill (prepared : Bool) (elapsed : Nat)
  /-- execute-with-retry-on-busy. -/
  | control (prepared : Bool) (elapsed : Nat) (attempts : List Attempt)
  | bulkExecute (ok isOpen : Bool)
  | unmarshal (ok : Bool)
  /-- The procedure of a transaction uses a statement, which may change the transaction of the
  connection. -/
  | execute (sql : Sql) (prepared : Bool) (elapsed : Nat) (isOpen : Bool)
  /-- The procedure of db:expire-cache. -/
  | expireCache (finalizes : Sql → Bool)
  /-- The procedure of a transaction ends. -/
  | ends (r : Result)
  | finalizeLazyObjects (ok : Bool)
  | reply
  | exit

def World.goto (w : World) (pid : Nat) (point : Point) : World :=
  { w with alive := w.alive.map fun x => if x.pid = pid then { x with point := point } else x }

/-- A worker is gone, and its monitor fires. -/
def World.exit (w : World) (pid : Nat) (r : Reason) : World :=
  { w with
    alive := w.alive.filter fun x => x.pid ≠ pid
    inbox := w.inbox ++ [.down pid r] }

def World.fail (w : World) (pid : Nat) (x : Fault) : World := (w.note (.failed pid x)).exit pid (.fault x)

/-- The effect of a control statement. -/
def effect (sql : Sql) : Bool := sql = beginImmediate

/-- execute-with-retry-on-busy in a worker that goes on at a point. -/
def World.control (w : World) (pid : Nat) (sql : Sql) (prepared : Bool) (elapsed : Nat) (attempts : List Attempt)
    (next : World → World) : Except Unit World :=
  match w.cache.getStatement w.now (w.now + elapsed) prepared sql with
  | none => .ok (w.fail pid (.prepare sql))
  | some cache =>
    let w := { w with cache := cache, now := w.now + elapsed }
    match attempt sql 0 attempts with
    | none => .error ()
    | some (.error x) => .ok (w.fail pid x)
    | some (.ok _) => .ok (next { w with isOpen := effect sql })

/-- The last statement of a transaction, and the reply after it. -/
def ending (x : Datum) : Sql × Reply := if x.isCatch then (rollback, .error x.err) else (commit, .ok x)

/-- One step of a worker. -/
def World.work (w : World) (worker : Worker) (a : Work) : Except Unit World :=
  let pid := worker.pid
  match worker.point, a with
  | .fill [] _ vstmt vbind, .fill _ _ => .ok (w.goto pid (.beginLogs vstmt vbind))
  | .fill (l :: logs) i vstmt vbind, .fill prepared elapsed =>
    match w.cache.getStatement w.now (w.now + elapsed) prepared l.sql with
    | none => .ok (w.fail pid (.prepare l.sql))
    | some cache =>
      let w := { w with cache := cache, now := w.now + elapsed }
      if i < vstmt.length ∧ i < vbind.length then
        .ok (w.goto pid (.fill logs (i + 1) (vstmt.set i (some l.sql)) (vbind.set i (some l.mbindings))))
      else .ok (w.fail pid .outOfRange)
  | .beginLogs vstmt vbind, .control prepared elapsed attempts =>
    w.control pid beginImmediate prepared elapsed attempts fun w => w.goto pid (.bulkExecute vstmt vbind)
  | .bulkExecute _ _, .bulkExecute ok isOpen =>
    let w := { w with isOpen := isOpen }
    .ok (if ok then w.goto pid .commitLogs else w.fail pid .bulkExecute)
  | .commitLogs, .control prepared elapsed attempts =>
    w.control pid commit prepared elapsed attempts fun w => (w.note (.committed pid)).goto pid .unmarshal
  | .unmarshal, .unmarshal ok => .ok (if ok then w.goto pid .done else w.fail pid .badMatch)
  | .beginTransaction, .control prepared elapsed attempts =>
    w.control pid beginImmediate prepared elapsed attempts fun w => w.goto pid .body
  | .body, .execute sql prepared elapsed isOpen =>
    match w.cache.getStatement w.now (w.now + elapsed) prepared sql with
    | none => .ok w
    | some cache => .ok { w with cache := cache, now := w.now + elapsed, isOpen := isOpen }
  | .body, .expireCache finalizes => .ok { w with cache := (w.cache.removeDeadEntries w.now expires finalizes).2 }
  | .body, .ends r => .ok ((w.note (.ran pid r)).goto pid (.finalizeLazyObjects r.tried))
  | .finalizeLazyObjects x, .finalizeLazyObjects ok => .ok (if ok then w.goto pid (.finish x) else w.fail pid .finalize)
  | .finish x, .control prepared elapsed attempts =>
    w.control pid (ending x).1 prepared elapsed attempts fun w =>
      (w.note (if x.isCatch then .rolledBack pid else .committed pid)).goto pid (.reply (ending x).2)
  | .reply r, .reply =>
    match worker.job with
    | .transaction _ client => .ok ((w.note (.replied pid client r)).goto pid .done)
    | .logs _ _ => .error ()
  | .done, .exit => .ok (w.exit pid .normal)
  | _, _ => .error ()

inductive Action where
  | send (r : Request)
  | filename (client : Nat)
  | debug
  | stop (client : Nat)
  | exits (pid : Nat) (r : Reason)
  | turn
  | timeout (finalizes : Sql → Bool)
  | tick (elapsed : Nat)
  | work (pid : Nat) (a : Work)
  /-- A worker is killed. -/
  | kill (pid : Nat) (x : Fault)
  /-- flush receives the DOWN message of the worker. -/
  | flushDown
  /-- flush has waited for a second. -/
  | flushTimeout
  /-- The worker is gone in stop-worker or shutdown. -/
  | stopDown

def World.send (w : World) (m : Message) : World := { w with inbox := w.inbox ++ [m] }

def Message.downOf (pid : Nat) : Message → Option Reason
  | .down q r => if q = pid then some r else none
  | _ => none

/-- flush receives a DOWN message. -/
def World.flush (o : Options) (w : World) (pid : Nat) (r reason : Reason) : World :=
  let w := { w with inbox := w.inbox.eraseP fun m => (m.downOf pid).isSome }
  if r = .normal then { w with state := { w.state with worker := none } }.terminate o reason
  else { w with status := .stopped r }

def World.step (o : Options) (w : World) (a : Action) : Except Unit World :=
  match a with
  | .send r =>
    match r with
    | .transaction _ client =>
      if w.requests.any fun x => match x with
        | .transaction _ c => c = client
        | .log _ => false then .error ()
      else .ok ({ w with requests := w.requests ++ [r] }.send (.request r))
    | .log _ => .ok ({ w with requests := w.requests ++ [r] }.send (.request r))
  | .filename client => .ok (w.send (.filename client))
  | .debug => .ok (w.send .debug)
  | .stop client => .ok (w.send (.stop client))
  | .exits pid r => .ok (w.send (.exit pid r))
  | .tick elapsed => .ok { w with now := w.now + elapsed }
  | .work pid a =>
    match w.alive.find? fun x => x.pid = pid with
    | none => .error ()
    | some worker => w.work worker a
  | .kill pid x => if w.alive.any fun y => y.pid = pid then .ok (w.exit pid (.fault x)) else .error ()
  | .turn =>
    match w.status, w.inbox with
    | .running, m :: inbox => .ok ({ w with inbox := inbox }.handle o m)
    | _, _ => .error ()
  | .timeout finalizes =>
    match w.status, w.inbox, w.timeout with
    | .running, [], some t => if t ≤ w.now then .ok (w.handleTimeout o finalizes) else .error ()
    | _, _, _ => .error ()
  | .flushDown =>
    match w.status, w.state.worker with
    | .flushing reason, some pid =>
      match w.inbox.findSome? (Message.downOf pid) with
      | some r => .ok (w.flush o pid r reason)
      | none => .error ()
    | _, _ => .error ()
  | .flushTimeout =>
    match w.status with
    | .flushing reason => .ok { w with status := .stopping reason }
    | _ => .error ()
  | .stopDown =>
    match w.status, w.state.worker with
    | .stopping reason, some pid =>
      if w.inbox.any fun m => (m.downOf pid).isSome then .ok { w with status := .stopped reason } else .error ()
    | _, _ => .error ()

/-- The state after init. The procedure that initializes the database leaves no transaction open. -/
def World.initial (expireTimeout now : Nat) : World :=
  { state := ⟨.empty, none, none⟩
    cache := ⟨[], expireTimeout, none⟩
    isOpen := false
    status := .running
    timeout := none
    now := now
    inbox := []
    alive := []
    nextPid := 0
    requests := []
    log := [] }

end Swish.Db
