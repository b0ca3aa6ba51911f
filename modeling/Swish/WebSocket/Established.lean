import Swish.Lib.Reach
import Swish.WebSocket.RoundTrip

/-!
The process of ws:established: the callbacks of the websocket, in the loop of a generic
server. What it does is a list of acts. Every write of a frame may fail, and a write that
fails raises an exception.
-/

set_option autoImplicit false

namespace Swish.WebSocket.Established

/-- Exit reasons, as far as they are told apart. -/
inductive Reason where
  | normal
  | messageLimitExceeded
  | decodingError
  | condition
  | remoteClose (code : Nat)
  | noPong
  | other (n : Nat)
  deriving DecidableEq, Repr

inductive State where
  | closed (code : Nat) (reason : List UInt8)
  | ping (waketime : Nat)
  | pong (deadline : Nat)
  deriving DecidableEq, Repr

/-- What ws:send, ws:send! and ws:close cast, and any other cast. The string of a
text message is its UTF-8 encoding. -/
inductive Cast where
  | send (kind : Kind) (bv : List UInt8)
  | sendBang (kind : Kind) (bv : List UInt8)
  | close
  | other
  deriving DecidableEq

inductive Message where
  | parentExit (reason : Reason)
  | call
  | cast (c : Cast)
  | debug
  /-- The reader forwards a control message. -/
  | read (msg : Forwarded)
  | readerExit (reason : Reason)
  | processExit (reason : Reason)
  | processDown (reason : Reason)
  | timeout
  | other
  deriving DecidableEq

/-- What the process does: messages to the owner, and frames. A frame is written or its
write fails. -/
inductive Act where
  | init
  | closed (code : Nat) (reason : List UInt8)
  | frame (opcode : Nat) (written : Bool)
  | closePorts
  deriving DecidableEq, Repr

structure Options where
  fragmentationSize : Option Nat
  pingFrequency : Nat
  pongTimeout : Nat

/-- What a callback meets: whether the write after that many acts succeeds, and the
clocks. -/
structure Env where
  writes : Nat → Bool
  now : Nat
  sharedReadTimestamp : Nat

/-- What a callback returns or raises. -/
inductive Result where
  | noReply (state : State)
  | stop (reason : Reason) (state : State)
  | raised (reason : Reason)

/-- A procedure that writes: the acts so far and whether it returns. -/
abbrev Write := List Act × Bool

/-- The opcodes of the frames after the first. -/
def restOpcodes (maxPayloadSize : Nat) : Nat → Nat → List Nat
  | 0, _ => []
  | fuel + 1, remaining =>
    if remaining ≤ maxPayloadSize then [0]
    else 0 :: restOpcodes maxPayloadSize fuel (remaining - maxPayloadSize)

/-- The opcodes of the frames that send-frame writes. -/
def frameOpcodes (opcode : Nat) (maxPayloadSize : Option Nat) (payloadLen : Nat) : List Nat :=
  match maxPayloadSize with
  | none => [opcode]
  | some size =>
    if payloadLen ≤ size then [opcode]
    else opcode :: restOpcodes size (payloadLen - size) (payloadLen - size)

/-- Writes frames until one fails. -/
def writeFrames (env : Env) : List Nat → List Act → Write
  | [], acts => (acts, true)
  | opcode :: opcodes, acts =>
    if env.writes acts.length then writeFrames env opcodes (acts ++ [.frame opcode true])
    else (acts ++ [.frame opcode false], false)

def sendMessageFrame (opts : Options) (env : Env) (kind : Kind) (bv : List UInt8) (acts : List Act) : Write :=
  writeFrames env (frameOpcodes kind.opcode opts.fragmentationSize bv.length) acts

/-- send-close-frame catches what the write raises. -/
def sendCloseFrame (env : Env) (acts : List Act) : List Act :=
  (writeFrames env [8] acts).1

def sendPingFrame (env : Env) (acts : List Act) : Write := writeFrames env [9] acts

def sendPongFrame (env : Env) (acts : List Act) : Write := writeFrames env [10] acts

def onClose (code : Nat) (reason : List UInt8) (acts : List Act) : List Act := acts ++ [.closed code reason]

def doClose (env : Env) (reason : Reason) (code : Nat) (text : List UInt8) (acts : List Act) :
    List Act × Result :=
  (onClose code text (sendCloseFrame env acts), .stop reason (.closed code text))

def nextPingTime (opts : Options) (env : Env) : Nat := env.sharedReadTimestamp + opts.pingFrequency

def nextPongTime (opts : Options) (env : Env) : Nat := env.now + opts.pongTimeout

/-- What an exception of a write or of a match that fails is. -/
def failed : Result := .raised .condition

/-- no-reply has no case for a closed websocket. -/
def noReply : State → Result
  | .closed _ _ => failed
  | state => .noReply state

/-- A write, and then no-reply if it returns. -/
def andNoReply (w : Write) (state : State) : List Act × Result :=
  (w.1, if w.2 then noReply state else failed)

def processDied (env : Env) (reason : Reason) (acts : List Act) : List Act × Result :=
  doClose env reason (if reason = .normal then 1000 else 1011) [] acts

def handleCast (opts : Options) (env : Env) (c : Cast) (state : State) (acts : List Act) :
    List Act × Result :=
  match c with
  | .send kind bv => andNoReply (sendMessageFrame opts env kind bv acts) state
  | .sendBang kind bv => andNoReply (sendMessageFrame opts env kind bv acts) state
  | .close => doClose env .normal 1000 [] acts
  | .other => (acts, failed)

def handleRead (opts : Options) (env : Env) (msg : Forwarded) (acts : List Act) : List Act × Result :=
  match msg with
  | .closeWith code reason =>
    doClose env (if code = 1000 ∨ code = 1001 then .normal else .remoteClose code) code reason acts
  | .close => doClose env .normal 1000 [] acts
  | .ping _ => andNoReply (sendPongFrame env acts) (.ping (nextPingTime opts env))
  | .pong _ => (acts, noReply (.ping (nextPingTime opts env)))
  | .message _ _ => (acts, failed)

/-- The status code for the exit of the reader. -/
def readerExitCode : Reason → Nat
  | .normal => 1000
  | .messageLimitExceeded => 1009
  | .decodingError => 1007
  | .condition => 1011
  | _ => 1002

def noResponse : List UInt8 := "no response from ping".toList.map fun c => UInt8.ofNat c.toNat

def handleTimeout (opts : Options) (env : Env) (state : State) (acts : List Act) : List Act × Result :=
  match state with
  | .ping t =>
    if t = nextPingTime opts env then
      andNoReply (sendPingFrame env acts) (.pong (nextPongTime opts env))
    else (acts, noReply (.ping (nextPingTime opts env)))
  | .pong deadline =>
    if env.sharedReadTimestamp + opts.pongTimeout ≤ deadline then doClose env .noPong 1002 noResponse acts
    else (acts, noReply (.ping (nextPingTime opts env)))
  | .closed _ _ => (acts, failed)

/-- The websocket, with the reason of its exit once the loop has ended. -/
structure Websocket where
  state : State
  acts : List Act
  ended : Option Reason

/-- The callback terminate; the server then raises the reason. -/
def terminate (env : Env) (reason : Reason) (state : State) (acts : List Act) : Websocket :=
  match state with
  | .closed _ _ => ⟨state, acts ++ [.closePorts], some reason⟩
  | _ => ⟨state, onClose 1001 [] (sendCloseFrame env acts) ++ [.closePorts], some reason⟩

/-- handle-common-reply of the generic server. -/
def handleCommonReply (env : Env) (state : State) (r : List Act × Result) : Websocket :=
  match r.2 with
  | .noReply state => ⟨state, r.1, none⟩
  | .stop reason state => terminate env reason state r.1
  | .raised reason => terminate env reason state r.1

/-- The callback that a message is for. There is none for calls: handle-call has no
case. -/
def callback (opts : Options) (env : Env) (msg : Message) (state : State) (acts : List Act) :
    List Act × Result :=
  match msg with
  | .cast c => handleCast opts env c state acts
  | .read msg => handleRead opts env msg acts
  | .readerExit reason => doClose env reason (readerExitCode reason) [] acts
  | .processExit reason => processDied env reason acts
  | .processDown reason => processDied env reason acts
  | .timeout => handleTimeout opts env state acts
  | _ => (acts, failed)

/-- handle-msg of the generic server. -/
def handleMsg (opts : Options) (env : Env) (msg : Message) (w : Websocket) : Websocket :=
  match msg with
  | .parentExit reason => terminate env reason w.state w.acts
  | .debug => w
  | msg => handleCommonReply env w.state (callback opts env msg w.state w.acts)

def step (opts : Options) (w : Websocket) (m : Env × Message) : Except Unit Websocket :=
  match w.ended with
  | some _ => .error ()
  | none => .ok (handleMsg opts m.1 m.2 w)

/-- The websocket as it enters the loop: it has sent ws:init. -/
def enterLoop (waketime : Nat) : Websocket := ⟨.ping waketime, [.init], none⟩

def run (opts : Options) (waketime : Nat) (msgs : List (Env × Message)) : Except Unit Websocket :=
  Lib.Reach.run (step opts) (enterLoop waketime) msgs

/-- A frame that is not a close frame. -/
def Act.isOpen : Act → Bool
  | .frame opcode _ => opcode ≠ 8
  | _ => false

def Act.isClosed : Act → Bool
  | .closed _ _ => true
  | _ => false

def Act.isFrame : Act → Bool
  | .frame _ _ => true
  | _ => false

def Act.isCloseFrame : Act → Bool
  | .frame opcode _ => opcode = 8
  | _ => false

end Swish.WebSocket.Established
