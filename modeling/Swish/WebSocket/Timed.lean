import Swish.WebSocket.Established

/-!
A websocket and its reader in time. The reader has set shared-read-timestamp whenever bytes have come,
and a callback of the websocket may take long, since its writes may have to wait: it looks at the
timestamp once, and at the clock at its end. Nobody sends the symbol timeout as a message.
-/

set_option autoImplicit false

namespace Swish.WebSocket.Established

inductive Event where
  /-- The reader has read bytes. -/
  | bytes
  | delivered (msg : Message)
  | timedOut
  /-- A callback has returned to the loop, or ended it. -/
  | finished (msg : Message) (websocket : Websocket)

/-- Where the loop of the server is: in receive, or in a callback that has or has not yet looked at the
shared timestamp. -/
inductive Phase where
  | waiting
  | begun (msg : Message)
  | looked (msg : Message) (seen : Nat)

structure World where
  websocket : Websocket
  clock : Nat
  sharedReadTimestamp : Nat
  inbox : List Message
  phase : Phase
  waketime : Nat
  /-- What has happened so far, with the readings of the clock. -/
  log : List (Nat × Event)

inductive Action where
  | tick (ms : Nat)
  | readBytes
  | deliver (msg : Message)
  /-- The loop receives the first message. -/
  | receive
  /-- The loop has waited until its waketime. -/
  | timeOut
  | look
  | finish (writes : Nat → Bool)

def oneDay : Nat := 86400000

def resolveTimeout (now x : Nat) : Nat := if x ≤ oneDay then now + x else x

/-- The waketime of the next call of loop, for a state with the timeout that no-reply has given it. -/
def nextWaketime (now : Nat) (msg : Message) (state : State) (waketime : Nat) : Nat :=
  match msg with
  | .debug => waketime
  | _ =>
    match state with
    | .ping t => resolveTimeout now t
    | .pong deadline => resolveTimeout now deadline
    | .closed _ _ => waketime

namespace World

def record (w : World) (e : Event) : World := { w with log := w.log ++ [(w.clock, e)] }

def deliver (w : World) (msg : Message) : World :=
  if w.websocket.ended.isSome then w else { w with inbox := w.inbox ++ [msg] }.record (.delivered msg)

def receive (w : World) : Except Unit World :=
  match w.inbox with
  | [] => .error ()
  | msg :: inbox => .ok { w with inbox := inbox, phase := .begun msg }

/-- The loop waits while there is no message, until the clock comes to the waketime. -/
def timeOut (w : World) : Except Unit World :=
  if w.inbox = [] ∧ w.waketime ≤ w.clock then .ok ({ w with phase := .begun .timeout }.record .timedOut)
  else .error ()

def finish (opts : Options) (w : World) (msg : Message) (seen : Nat) (writes : Nat → Bool) : World :=
  let websocket := handleMsg opts ⟨writes, w.clock, seen⟩ msg w.websocket
  { w with
    websocket := websocket
    phase := .waiting
    waketime := nextWaketime w.clock msg websocket.state w.waketime }.record (.finished msg websocket)

def step (opts : Options) (w : World) (a : Action) : Except Unit World :=
  match a with
  | .tick ms => .ok { w with clock := w.clock + ms }
  | .readBytes => .ok ({ w with sharedReadTimestamp := w.clock }.record .bytes)
  | .deliver msg => if msg = .timeout then .error () else .ok (w.deliver msg)
  | .receive =>
    match w.phase with
    | .waiting => if w.websocket.ended.isSome then .error () else w.receive
    | _ => .error ()
  | .timeOut =>
    match w.phase with
    | .waiting => if w.websocket.ended.isSome then .error () else w.timeOut
    | _ => .error ()
  | .look =>
    match w.phase with
    | .begun msg => .ok { w with phase := .looked msg w.sharedReadTimestamp }
    | _ => .error ()
  | .finish writes =>
    match w.phase with
    | .looked msg seen => .ok (w.finish opts msg seen writes)
    | _ => .error ()

/-- The call of enter-loop, which the reader may already have run before. -/
def start (opts : Options) (clock sharedReadTimestamp : Nat) (inbox : List Message) : World where
  websocket := enterLoop (sharedReadTimestamp + opts.pingFrequency)
  clock := clock
  sharedReadTimestamp := sharedReadTimestamp
  inbox := inbox
  phase := .waiting
  waketime := resolveTimeout clock (sharedReadTimestamp + opts.pingFrequency)
  log := []

end World

/-- A ping or a pong frame from the peer. -/
def Message.isHeartbeat : Message → Bool
  | .read (.ping _) => true
  | .read (.pong _) => true
  | _ => false

def Event.isHeartbeat : Event → Bool
  | .delivered msg => msg.isHeartbeat
  | _ => false

/-- At t a ping was sent and its deadline computed, and then these events came. -/
def PingAt (opts : Options) (log : List (Nat × Event)) (t : Nat) (since : List (Nat × Event)) : Prop :=
  ∃ before acts, log =
    before ++ (t, .finished .timeout ⟨.pong (t + opts.pongTimeout), acts ++ [.frame 9 true], none⟩) :: since

/-- The deadline of the state is that of a ping, and until it was waited for no longer, which was not
before the deadline, no byte was read later than the ping and no heartbeat was delivered. -/
def Silent (opts : Options) (w : World) : Prop :=
  ∃ t mid n after, w.websocket.state = .pong (t + opts.pongTimeout) ∧
    PingAt opts w.log t (mid ++ (n, .timedOut) :: after) ∧ t + opts.pongTimeout ≤ n ∧
    ∀ x, x ∈ mid → x.2.isHeartbeat = false ∧ (x.2 = .bytes → x.1 ≤ t)

/-- The websocket has closed because no pong came. -/
def ClosedNoPong (w : Websocket) : Prop := w.ended = some .noPong ∧ .closed 1002 noResponse ∈ w.acts

/-- The waketime is the one that the state has. -/
def Waits (w : World) : Prop := w.websocket.state = .ping w.waketime ∨ w.websocket.state = .pong w.waketime

/-- A ping frame is the next act. -/
def Pings (w w' : World) : Prop := ∃ written, w.websocket.acts ++ [.frame 9 written] <+: w'.websocket.acts

/-- A turn of the loop for a timeout. -/
def timeoutTurn (writes : Nat → Bool) : List Action := [.timeOut, .look, .finish writes]

/-- On a timeout, no ping is sent before ping-frequency is over after the last read, and when it is over
and nothing comes, one is sent with the first or the second timeout. -/
structure PingsIdle (opts : Options) (w : World) : Prop where
  notSooner : ∀ seen writes w', w.phase = .looked .timeout seen → w.step opts (.finish writes) = .ok w' →
    Pings w w' → seen + opts.pingFrequency ≤ w.clock
  idle : ∀ t writes, w.phase = .waiting → w.inbox = [] → w.websocket.state = .ping t →
    w.sharedReadTimestamp + opts.pingFrequency ≤ w.clock →
    (∃ w', Lib.Reach.run (World.step opts) w (timeoutTurn writes) = .ok w' ∧ Pings w w') ∨
      ∃ w', Lib.Reach.run (World.step opts) w (timeoutTurn writes ++ timeoutTurn writes) = .ok w' ∧ Pings w w'

end Swish.WebSocket.Established
