import Swish.Http.Request
import Swish.Lib.Reach
import Mathlib.Algebra.Group.Nat.Defs

/-!
The connection gen-server of http.ss. A call that raises an exception ends the server.
-/

set_option autoImplicit false

namespace Swish.Http

inductive Input where
  | ready
  | advance (ipos : Option Nat)
  | close
  deriving DecidableEq

inductive Output where
  | ready
  | dirty
  deriving DecidableEq

/-- The tuple <conn>. -/
structure Conn where
  input : Input
  output : Output

/-- What a write of a response puts on the output port, and the exception it raises, if any. -/
structure Written where
  bytes : List UInt8
  error : Option HttpError

inductive Event where
  /-- A request line is read from this position on. -/
  | line (start : Nat)
  /-- A request is returned. Its header ends before this position. -/
  | request (stop : Nat) (len : Option Nat) (keep : Bool)
  /-- respond, respond-file or internal-server-error writes. -/
  | response
  /-- A procedure of call-with-ports has written. -/
  | wrote
  /-- No further request is to be read. -/
  | closed
  deriving DecidableEq

inductive Status where
  | running
  | raised (e : HttpError)
  | detached
  deriving DecidableEq

inductive Reply where
  | request (r : Request)
  | noRequest
  | outputReady (b : Bool)
  | result
  | outputViolation
  | failed (e : HttpError)
  | ports
  | noReply

/-- The server with its ports. For the specification it keeps a log, the last event first. -/
structure World where
  ip : InPort
  op : List UInt8
  conn : Conn
  status : Status
  log : List Event

def World.note (w : World) (e : Event) : World := { w with log := e :: w.log }

def World.raise (w : World) (e : HttpError) : World := { w with status := .raised e }

/-- respond or respond-file: the response goes to the output port. -/
def World.write (w : World) (out : Written) : Except (HttpError × World) World :=
  let w := { w with op := w.op ++ out.bytes }.note .response
  match out.error with
  | none => .ok w
  | some e => .error (e, w)

/-- internal-server-error. -/
def World.internalServerError (w : World) (out : Written) : Except (HttpError × World) World :=
  match w.conn.output with
  | .ready => do
    let w ← w.write out
    return { w with conn := ⟨.close, .dirty⟩ }
  | .dirty => return { w with conn := { w.conn with input := .close } }

def mostPositiveFixnum : Nat := 2 ^ 60 - 1

/-- The loop of advance-input, which skips remaining bytes. -/
def skipInput (remaining : Nat) (w : World) : Except (HttpError × World) World :=
  if mostPositiveFixnum < remaining then .error (.notFixnum, w)
  else if w.ip.rest.length < remaining then .error (.unexpectedEof, w)
  else .ok { w with ip := ⟨w.ip.pos + remaining, w.ip.rest.drop remaining⟩ }

def World.advanceInput (w : World) (out : Written) : Except (HttpError × World) World :=
  match w.conn.input with
  | .advance (some ipos) =>
    if ipos < w.ip.pos then do
      let w ← w.internalServerError out
      .error (.inputViolation, w)
    else do
      let w ← skipInput (ipos - w.ip.pos) w
      return { w with conn := { w.conn with input := .ready } }
  | .advance none => return { w with conn := { w.conn with input := .ready } }
  | _ => return w

/-- The limits for a request. -/
structure Options where
  text : Text
  host : List Char
  requestLimit : Int
  headerLimit : Int

/-- The part of get-request that reads a request. -/
def World.readRequest (o : Options) (w : World) : Except (HttpError × World) (Reply × World) :=
  let w := if w.ip.rest = [] then w else w.note (.line w.ip.pos)
  match readLine o.requestLimit w.ip with
  | .error e => .error (e, w)
  | .ok (none, _) => .ok (.noRequest, { w with conn := { w.conn with input := .close } }.note .closed)
  | .ok (some x, ip) =>
    match parseRequest o.text x with
    | none => .error (.unhandledInput x, w)
    | some request =>
      match readHeader o.text o.headerLimit ip with
      | .error e => .error (e, w)
      | .ok (header, ip) =>
        match getContentLength header with
        | .error e => .error (e, w)
        | .ok len =>
          let ipos := len.map (ip.pos + ·)
          let keep := keepAlive o.text header
          .ok (.request { request with host := some o.host, header := some header },
            { w with
              ip := ip
              conn := ⟨if keep then .advance ipos else .close, .ready⟩ }.note (.request ip.pos len keep))

def World.getRequest (o : Options) (out : Written) (w : World) : Except (HttpError × World) (Reply × World) := do
  let w ← w.advanceInput out
  match w.conn.output with
  | .ready => return (.outputViolation, { w with conn := { w.conn with input := .close } }.note .closed)
  | .dirty =>
    match w.conn.input with
    | .ready => w.readRequest o
    | _ => return (.noRequest, w)

def World.detachPorts (out : Written) (w : World) : Except (HttpError × World) (Reply × World) := do
  let w ← w.advanceInput out
  return (.ports, { w with status := .detached })

/-- respond and respond-file. -/
def World.respond (out : Written) (w : World) : Except (HttpError × World) (Reply × World) :=
  match w.conn.output with
  | .ready => do
    let w ← w.write out
    return (.result, { w with conn := { w.conn with output := .dirty } })
  | .dirty => return (.outputViolation, w)

/-- A procedure for call-with-ports: how many bytes it reads, what it writes and how it ends.
The flush of the output port may fail as well. -/
structure PortsProc where
  reads : Nat
  writes : List UInt8
  error : Option HttpError
  flush : Option HttpError

def World.callWithPorts (f : PortsProc) (w : World) : Except (HttpError × World) (Reply × World) :=
  let w := { w with ip := ⟨w.ip.pos + min f.reads w.ip.rest.length, w.ip.rest.drop f.reads⟩, op := w.op ++ f.writes }
  let w := if f.writes = [] then w else { w with conn := { w.conn with output := .dirty } }.note .wrote
  match f.flush with
  | some e => .error (e, w)
  | none =>
    match f.error with
    | some e => .ok (.failed e, w)
    | none => .ok (.result, w)

/-- The calls that handle-call knows. -/
inductive Call where
  | getRequest (out : Written)
  | detachPorts (out : Written)
  | outputReady
  | respond (out : Written)
  | respondFile (out : Written)
  | callWithPorts (f : PortsProc)
  | internalServerError (out : Written)

def World.handleCall (o : Options) (w : World) : Call → Except (HttpError × World) (Reply × World)
  | .getRequest out => w.getRequest o out
  | .detachPorts out => w.detachPorts out
  | .outputReady => .ok (.outputReady (w.conn.output = .ready), w)
  | .respond out => w.respond out
  | .respondFile out => w.respond out
  | .callWithPorts f => w.callWithPorts f
  | .internalServerError out => do
    let w ← w.internalServerError out
    return (.noReply, w.note .closed)

def World.step (o : Options) (w : World) (c : Call) : Except Unit World :=
  match w.status with
  | .running =>
    match w.handleCall o c with
    | .ok (_, w) => .ok w
    | .error (e, w) => .ok (w.raise e)
  | _ => .error ()

/-- The state after init, on the bytes of a connection. -/
def World.initial (stream : List UInt8) : World := ⟨⟨0, stream⟩, [], ⟨.ready, .dirty⟩, .running, []⟩

end Swish.Http
