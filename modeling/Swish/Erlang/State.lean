import Swish.Lib.CircularList
import Swish.Lib.Table

/-!
The process system of erlang.ss: records, queues and the operations that run
with interrupts disabled. A `q` record is a node of a heap. Processes and
messages are never linked into the same queue, so each kind has a heap.
Processes, messages and calls of $receive are named by numbers in the order of
their creation, registered names by numbers that stand for symbols.
-/

set_option autoImplicit false

namespace Swish.Erlang
open CircularList

inductive QPtr where
  | runQueue | sleepQueue
  | pcb (p : Nat)
  deriving DecidableEq, Repr

inductive MPtr where
  | inbox (p : Nat)
  | msg (k : Nat)
  deriving DecidableEq, Repr

/-- Exit reasons without a fault condition around them. Only the named symbols
are ever compared with eq?. -/
inductive Reason where
  | normal | shutdown | kill | killed
  | other (d : Nat)
  deriving DecidableEq, Repr

/-- What raise, throw and kill accept: a datum, or a fault condition with its
reason and inner conditions. The continuation in the condition is left out. -/
inductive RawReason where
  | datum (reason : Reason)
  | fault (reason : Reason) (inner : List RawReason)

def RawReason.unwrap : RawReason → Reason
  | .datum r => r
  | .fault r _ => r

/-- Two monitors between the same processes are different records. -/
structure Mon where
  id : Nat
  origin : Nat
  target : Nat
  deriving DecidableEq, Repr

inductive Contents where
  | exit (p : Nat) (reason : RawReason)
  | down (m : Mon) (p : Nat) (reason : RawReason)
  | user (d : Nat)

def Contents.isExit : Contents → Bool
  | .exit _ _ => true
  | _ => false

/-- The pattern `(DOWN ,@m ,_ ,_). -/
def Contents.isDown (m : Mon) : Contents → Bool
  | .down m' _ _ => m' = m
  | _ => false

/-- The pcb-flags bits. -/
structure Flags where
  sleeping : Bool := false
  trapExit : Bool := false
  blockedIo : Bool := false
  interrupt : Bool := false
  exit : Bool := false
  handlingExit : Bool := false
  deriving DecidableEq, Repr

/-- The process parameter behind process-trap-exit. -/
inductive TrapExit where
  | off | on | handler
  deriving DecidableEq, Repr

/-- User code decides what a clause accepts; demonitor&flush accepts the DOWN
message of one monitor. -/
inductive Matcher where
  | user
  | down (m : Mon)
  deriving DecidableEq, Repr

/-- Where a $receive stands: before find0, before find1, inside the matcher
(with interrupts enabled), or in the yield at the end of the inbox. -/
inductive Phase where
  | find0 | find1 | matching | parked
  deriving DecidableEq, Repr

structure Receive where
  call : Nat
  matcher : Matcher
  waketime : Option Nat
  cursor : MPtr
  phase : Phase
  deriving DecidableEq, Repr

/-- The activations on a process's stack that the scheduler knows about; the
user code between them is arbitrary. -/
inductive Frame where
  | receive (r : Receive)
  | trapExitHandler
  | keyboardHandler
  deriving DecidableEq, Repr

structure Pcb where
  name : Option Nat := none
  cont : Bool := false
  /-- The exit reason once the process is dead; nothing else is recorded. -/
  exceptionState : Option RawReason := none
  /-- pcb-inbox is a queue (true) or #f (false). -/
  inbox : Bool := false
  precedence : Nat := 0
  flags : Flags := {}
  trapExitHandler : TrapExit := .off
  links : List Nat := []
  monitors : List Mon := []
  stack : List Frame := []

/-- An id that names no process. -/
def Pcb.blank : Pcb := {}

inductive Consumer where
  | clause (call : Nat)
  | handler (p : Nat)
  deriving DecidableEq, Repr

/-- History kept for the specification only; no operation reads it. -/
inductive Event where
  | insert (p k : Nat)
  | offer (call k : Nat)
  /-- A message is handed over; taken tells whether it was still linked. -/
  | consume (k : Nat) (c : Consumer) (taken : Bool)
  | park (p : Nat)
  | check (rt : Nat)
  | enqueue (p : Nat)
  | monitor (m : Mon)
  | demonitor (m : Mon)
  | flushed (m : Mon)
  deriving DecidableEq, Repr

structure State where
  queues : Heap QPtr
  mail : Heap MPtr
  /-- The bound of the table is last-process-id. -/
  procs : Table Pcb Pcb.blank
  contents : Nat → Contents
  nextMsg : Nat
  nextMon : Nat
  nextCall : Nat
  registrar : Nat → Option Nat
  eventLoop : Nat
  finalizer : Nat
  self : Nat
  log : List Event

namespace State

@[simp] abbrev pcb (s : State) (p : Nat) : Pcb := s.procs.get p

def modify (s : State) (p : Nat) (f : Pcb → Pcb) : State :=
  { s with procs := s.procs.set p (f (s.pcb p)) }

@[simp] theorem modify_get (s : State) (p q : Nat) (f : Pcb → Pcb) :
    (s.modify p f).procs.get q = if q = p then f (s.pcb p) else s.procs.get q := rfl

@[simp] abbrev alive (s : State) (p : Nat) : Bool := (s.pcb p).inbox

@[simp] abbrev flags (s : State) (p : Nat) : Flags := (s.pcb p).flags

def setFlags (s : State) (p : Nat) (f : Flags → Flags) : State :=
  s.modify p fun x => { x with flags := f x.flags }

@[simp] theorem setFlags_get (s : State) (p q : Nat) (f : Flags → Flags) :
    (s.setFlags p f).procs.get q =
      if q = p then { s.procs.get p with flags := f (s.procs.get p).flags } else s.procs.get q := rfl

/-- The queues and the inbox as lists, read off the next pointers. -/
def queue (s : State) (q : QPtr) : List Nat :=
  (s.queues.toList q (s.procs.last + 2) q).filterMap fun
    | .pcb p => some p
    | _ => none

def inbox (s : State) (p : Nat) : List Nat :=
  (s.mail.toList (.inbox p) (s.nextMsg + 1) (.inbox p)).filterMap fun
    | .msg k => some k
    | _ => none

/-- (pcb? p). -/
def isPcb (s : State) (p : Nat) : Bool := 0 < p && p ≤ s.procs.last

def queueEmpty (s : State) (q : QPtr) : Bool := (s.queues q).next = some q

def enqueued (s : State) (p : Nat) : Bool := ((s.queues (.pcb p)).prev).isSome

def removeQ (s : State) (p : Nat) : State := { s with queues := s.queues.unlink (.pcb p) }

/-- (when (enqueued? p) (@remove-q p)). -/
def removeQIfEnqueued (s : State) (p : Nat) : State :=
  { s with queues := if s.enqueued p then s.queues.unlink (.pcb p) else s.queues }

/-- (<= (pcb-precedence prev) precedence). -/
def notAfter (s : State) (precedence : Nat) : QPtr → Bool
  | .pcb p => (s.pcb p).precedence ≤ precedence
  | _ => false

/-- @enqueue. The loop find visits each process of the queue at most once, so
the number of processes bounds it. -/
def enqueue (s : State) (p : Nat) (queue : QPtr) (precedence : Nat) : State :=
  let s := s.removeQIfEnqueued p
  let s := s.modify p fun x => { x with precedence := precedence }
  let next := s.queues.findBack queue (s.notAfter precedence) (s.procs.last + 2) queue
  { s with queues := s.queues.insertBefore (.pcb p) next, log := .enqueue p :: s.log }

@[simp] theorem removeQIfEnqueued_procs (s : State) (p : Nat) :
    (s.removeQIfEnqueued p).procs = s.procs := rfl

@[simp] theorem enqueue_get (s : State) (p q : Nat) (queue : QPtr) (n : Nat) :
    (s.enqueue p queue n).procs.get q =
      if q = p then { s.procs.get p with precedence := n } else s.procs.get q := rfl

/-- The cond that @send and keyboard-interrupt share. -/
def wake (s : State) (p : Nat) : State :=
  if (s.flags p).sleeping then
    (s.setFlags p fun f => { f with sleeping := false }).enqueue p .runQueue 0
  else if (s.flags p).blockedIo then s
  else if s.enqueued p then s
  else s.enqueue p .runQueue 0

/-- (@insert-q (make-msg x) inbox). -/
def insertMsg (s : State) (p : Nat) (x : Contents) : State :=
  { s with
    mail := s.mail.insertBefore (.msg s.nextMsg) (.inbox p)
    contents := fun k => if k = s.nextMsg then x else s.contents k
    nextMsg := s.nextMsg + 1
    log := .insert p s.nextMsg :: s.log }

/-- @send. -/
def send (s : State) (p : Nat) (x : Contents) : State :=
  if s.alive p then (s.insertMsg p x).wake p else s

/-- @send-EXIT. -/
def sendExit (s : State) (target : Nat) (p : Nat) (reason : RawReason) : State :=
  (s.setFlags target fun f => { f with exit := true }).send target (.exit p reason)

/-- @remove-msg. -/
def removeMsg (s : State) (k : Nat) : State := { s with mail := s.mail.splice (.msg k) }

/-- @remove-link; remq drops every occurrence. -/
def removeLink (s : State) (p dest : Nat) : State :=
  s.modify p fun x => { x with links := x.links.filter (· ≠ dest) }

/-- @remove-links. -/
def removeLinks (s : State) : List Nat → Nat → State
  | [], _ => s
  | p :: ps, dest => (s.removeLink p dest).removeLinks ps dest

/-- @remove-monitor. -/
def removeMonitor (s : State) (m : Mon) (p : Nat) : State :=
  s.modify p fun x => { x with monitors := x.monitors.filter (· ≠ m) }

def addLink (s : State) (p dest : Nat) : State :=
  s.modify p fun x => { x with links := dest :: x.links }

/-- @link. -/
def link2 (s : State) (p1 p2 : Nat) : State :=
  if p2 ∈ (s.pcb p1).links then s else (s.addLink p1 p2).addLink p2 p1

def addMonitor (s : State) (m : Mon) (p : Nat) : State :=
  s.modify p fun x => { x with monitors := m :: x.monitors }

end State

end Swish.Erlang
