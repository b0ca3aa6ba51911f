import Swish.WebSocket.Mask

/-!
Frames of the websocket protocol: send-frame of an established connection and
ws:read-loop. Text is kept as the bytes that the codec decodes. The length of a
bytevector is a fixnum, so that it fits into 64 bits.
-/

set_option autoImplicit false

namespace Swish.WebSocket

open Swish.Lib

inductive ReadError where
  | unexpectedEof
  | reservedBitsMustBeZero
  | controlFrameTooLong (len : Nat)
  | messageLimitExceeded
  | protocolViolation
  | unknownOpcode (opcode : Nat)
  deriving DecidableEq

structure Frame where
  final : Bool
  opcode : Nat
  payload : List UInt8
  deriving DecidableEq

abbrev Get (α : Type) := List UInt8 → Except ReadError (α × List UInt8)

def getU8 : Get UInt8
  | [] => .error .unexpectedEof
  | b :: ip => .ok (b, ip)

/-- $get-bytevector-exactly-n. -/
def getBytevectorExactlyN (n : Nat) : Get (List UInt8) := fun ip =>
  if ip.length < n then .error .unexpectedEof else .ok (ip.take n, ip.drop n)

def getU16 : Get Nat := fun ip => do
  let (bv, ip) ← getBytevectorExactlyN 2 ip
  return (beValue bv, ip)

def getU64 : Get Nat := fun ip => do
  let (bv, ip) ← getBytevectorExactlyN 8 ip
  return (beValue bv, ip)

def getPayloadLen (code : Nat) : Get Nat := fun ip =>
  if code = 126 then getU16 ip
  else if code = 127 then getU64 ip
  else .ok (code, ip)

/-- $get-bytevector-exactly-n for a mask key. -/
def getKey : Get Key := fun ip =>
  if h : ip.length < 4 then .error .unexpectedEof
  else .ok (⟨ip.take 4, by rw [List.length_take]; omega⟩, ip.drop 4)

/-- The mask key, when there is one, and the payload. -/
def getPayload (fixnumWidth : Nat) (masked : Bool) (len : Nat) : Get (List UInt8) := fun ip =>
  if masked then do
    let (key, ip) ← getKey ip
    let (payload, ip) ← getBytevectorExactlyN len ip
    return (maskBytevector fixnumWidth payload 0 len key, ip)
  else getBytevectorExactlyN len ip

def readFrame (fixnumWidth limit : Nat) : Get Frame := fun ip => do
  let (finOpcode, ip) ← getU8 ip
  let final := finOpcode.toNat.testBit 7
  if finOpcode &&& 0b01110000 ≠ 0 then throw .reservedBitsMustBeZero
  let opcode := (finOpcode &&& 0x0F).toNat
  let controlFrame := opcode.testBit 3
  let (maskLen, ip) ← getU8 ip
  let masked := maskLen.toNat.testBit 7
  let (len, ip) ← getPayloadLen (maskLen &&& 0x7F).toNat ip
  if controlFrame ∧ 125 < len then throw (.controlFrameTooLong len)
  if limit < len then throw .messageLimitExceeded
  let (payload, ip) ← getPayload fixnumWidth masked len ip
  return (⟨final, opcode, payload⟩, ip)

inductive Kind where
  | text | binary
  deriving DecidableEq

/-- What the reader forwards. -/
inductive Forwarded where
  | message (kind : Kind) (payload : List UInt8)
  | close
  | closeWith (code : Nat) (reason : List UInt8)
  | ping (payload : List UInt8)
  | pong (payload : List UInt8)
  deriving DecidableEq

inductive Ending where
  | closed
  | thrown (e : ReadError)
  | outOfFuel
  deriving DecidableEq

/-- The loop variables of ws:read-loop. -/
structure LoopState where
  type : Option Kind
  payloads : List (List UInt8)
  limit : Nat

def LoopState.start (messageLimit : Nat) : LoopState := ⟨none, [], messageLimit⟩

/-- How the loop goes on after a frame. -/
inductive Next where
  | loop (out : List Forwarded) (s : LoopState)
  | stop (out : List Forwarded) (e : Ending)

/-- The first frame of a message. -/
def firstFrame (messageLimit : Nat) (s : LoopState) (f : Frame) (kind : Kind) : Next :=
  match s.type with
  | some _ => .stop [] (.thrown .protocolViolation)
  | none =>
    if f.final ∧ s.payloads = [] then .loop [.message kind f.payload] (.start messageLimit)
    else .loop [] ⟨some kind, f.payload :: s.payloads, s.limit - f.payload.length⟩

def continuationFrame (extract : Kind → List (List UInt8) → List UInt8) (messageLimit : Nat)
    (s : LoopState) (f : Frame) : Next :=
  match s.type with
  | none => .stop [] (.thrown .protocolViolation)
  | some kind =>
    if f.final then
      .loop [.message kind (extract kind (f.payload :: s.payloads).reverse)] (.start messageLimit)
    else .loop [] ⟨some kind, f.payload :: s.payloads, s.limit - f.payload.length⟩

def closeFrame (f : Frame) : Next :=
  match f.payload with
  | [] => .stop [.close] .closed
  | [_] => .stop [] (.thrown .protocolViolation)
  | first :: second :: reason =>
    let code := beValue [first, second]
    if code < 1000 ∨ (1004 ≤ code ∧ code ≤ 1006) ∨ (1016 ≤ code ∧ code ≤ 2999) ∨ 4999 < code then
      .stop [] (.thrown .protocolViolation)
    else .stop [.closeWith code reason] .closed

def controlFrame (s : LoopState) (f : Frame) (msg : Forwarded) : Next :=
  if f.final then .loop [msg] s else .stop [] (.thrown .protocolViolation)

/-- The body of the loop, once a frame is read. -/
def handleFrame (extract : Kind → List (List UInt8) → List UInt8) (messageLimit : Nat) (s : LoopState)
    (f : Frame) : Next :=
  match f.opcode with
  | 0 => continuationFrame extract messageLimit s f
  | 1 => firstFrame messageLimit s f .text
  | 2 => firstFrame messageLimit s f .binary
  | 8 => closeFrame f
  | 9 => controlFrame s f (.ping f.payload)
  | 10 => controlFrame s f (.pong f.payload)
  | opcode => .stop [] (.thrown (.unknownOpcode opcode))

def readLoop (fixnumWidth : Nat) (extract : Kind → List (List UInt8) → List UInt8) (messageLimit : Nat) :
    Nat → LoopState → List UInt8 → List Forwarded × Ending
  | 0, _, _ => ([], .outOfFuel)
  | fuel + 1, s, ip =>
    match readFrame fixnumWidth s.limit ip with
    | .error e => ([], .thrown e)
    | .ok (f, ip) =>
      match handleFrame extract messageLimit s f with
      | .loop out s =>
        let (more, e) := readLoop fixnumWidth extract messageLimit fuel s ip
        (out ++ more, e)
      | .stop out e => (out, e)

/-- ws:read-loop. A frame has at least two bytes. -/
def wsReadLoop (fixnumWidth : Nat) (extract : Kind → List (List UInt8) → List UInt8) (messageLimit : Nat)
    (ip : List UInt8) : List Forwarded × Ending :=
  readLoop fixnumWidth extract messageLimit (ip.length + 1) (.start messageLimit) ip

def putU16 (n : Nat) : List UInt8 := [UInt8.ofNat (0xFF &&& (n >>> 8)), UInt8.ofNat (0xFF &&& n)]

def putU64 (n : Nat) : List UInt8 := beBytes 8 n

def maskLen (masked : Bool) (len : Nat) : UInt8 := if masked then 0x80 ||| UInt8.ofNat len else UInt8.ofNat len

def putLength (masked : Bool) (len : Nat) : List UInt8 :=
  if len < 126 then [maskLen masked len]
  else if len ≤ 0xFFFF then maskLen masked 126 :: putU16 len
  else maskLen masked 127 :: putU64 len

def putOpcode (final : Bool) (opcode : Nat) : UInt8 :=
  if final then 0x80 ||| UInt8.ofNat opcode else UInt8.ofNat opcode

/-- A message on its way: its bytevector, which masking changes in place, the number of
mask keys drawn so far and what is written. -/
structure Sending where
  payload : List UInt8
  used : Nat
  out : List UInt8

section

variable (fixnumWidth : Nat) (masked : Bool) (keys : Nat → Key)

def doSend (final : Bool) (opcode start payloadLen : Nat) (s : Sending) : Sending :=
  let head := putOpcode final opcode :: putLength masked payloadLen
  if masked then
    let key := keys s.used
    let payload := maskBytevector fixnumWidth s.payload start payloadLen key
    ⟨payload, s.used + 1, s.out ++ (head ++ (key.bytes ++ (payload.drop start).take payloadLen))⟩
  else ⟨s.payload, s.used, s.out ++ (head ++ (s.payload.drop start).take payloadLen)⟩

/-- The loop of send-frame. Each turn sends something, so the fuel is enough. -/
def sendRest (maxPayloadSize : Nat) : Nat → Nat → Nat → Sending → Sending
  | 0, _, _, s => s
  | fuel + 1, start, remaining, s =>
    if remaining ≤ maxPayloadSize then doSend fixnumWidth masked keys true 0 start remaining s
    else
      sendRest maxPayloadSize fuel (start + maxPayloadSize) (remaining - maxPayloadSize)
        (doSend fixnumWidth masked keys false 0 start maxPayloadSize s)

def sendFrame (opcode : Nat) (maxPayloadSize : Option Nat) (s : Sending) : Sending :=
  let payloadLen := s.payload.length
  match maxPayloadSize with
  | none => doSend fixnumWidth masked keys true opcode 0 payloadLen s
  | some size =>
    if payloadLen ≤ size then doSend fixnumWidth masked keys true opcode 0 payloadLen s
    else
      sendRest fixnumWidth masked keys size (payloadLen - size) size (payloadLen - size)
        (doSend fixnumWidth masked keys false opcode 0 size s)

end

end Swish.WebSocket
