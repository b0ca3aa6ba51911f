import Mathlib.Data.List.Basic

/-!
Reading of a request in http.ss: lines, the request line and the header. The string
operations of Chez Scheme that decide nothing here are parameters.
-/

set_option autoImplicit false

namespace Swish.Http

/-- Operations on strings of Chez Scheme. -/
structure Text where
  /-- (utf8->string bv). -/
  decode : List UInt8 → List Char
  /-- (string-downcase s). -/
  downcase : List Char → List Char
  /-- (string-foldcase s), which string-ci=? compares. -/
  foldcase : List Char → List Char

inductive HttpError where
  | inputLimitExceeded
  | invalidHeader
  | invalidContentLength (x : List Char)
  | unhandledInput (line : List UInt8)
  | inputViolation
  | unexpectedEof
  /-- A fixnum operation on another number. -/
  | notFixnum
  /-- A bytevector operation on the eof object. -/
  | notBytevector
  | other (n : Nat)
  deriving DecidableEq

/-- A binary input port: its position and the bytes that are still to come. -/
structure InPort where
  pos : Nat
  rest : List UInt8

/-- The port when only the bytes rest are left. -/
def InPort.leaving (ip : InPort) (rest : List UInt8) : InPort := ⟨ip.pos + (ip.rest.length - rest.length), rest⟩

def newline : UInt8 := 10

def carriageReturn : UInt8 := 13

/-- A newline after a carriage return belongs to it. -/
def skipNewline : List UInt8 → List UInt8
  | b :: rest => if b = newline then rest else b :: rest
  | [] => []

/-- The loop of read-line: the line and the bytes after it. -/
def readLineLoop (limit : Int) (n : Nat) : List UInt8 → Except HttpError (List UInt8 × List UInt8)
  | [] => if limit < n then .error .inputLimitExceeded else .ok ([], [])
  | x :: rest =>
    if limit < n then .error .inputLimitExceeded
    else if x = newline then .ok ([], rest)
    else if x = carriageReturn then .ok ([], skipNewline rest)
    else do
      let (line, rest) ← readLineLoop limit (n + 1) rest
      return (x :: line, rest)

/-- read-line, with none for the eof object. -/
def readLine (limit : Int) (ip : InPort) : Except HttpError (Option (List UInt8) × InPort) :=
  match ip.rest with
  | [] => .ok (none, ip)
  | _ :: _ => do
    let (line, rest) ← readLineLoop limit 0 ip.rest
    return (some line, ip.leaving rest)

/-- bv-match-positions from the position e. -/
def bvMatchPositions (sep : UInt8) (e n : Nat) : List UInt8 → List Nat
  | [] => []
  | b :: bv =>
    if n = 0 then []
    else if b = sep then e :: bvMatchPositions sep (e + 1) (n - 1) bv
    else bvMatchPositions sep (e + 1) n bv

def bvNextNonLws (bv : List UInt8) (i : Nat) : Nat :=
  i + ((bv.drop i).takeWhile fun c => c = 32 ∨ c = 9).length

def bvExtract (bv : List UInt8) (start stop : Nat) : List UInt8 := (bv.take stop).drop start

def decodeHex (c : UInt8) : Option UInt8 :=
  if 48 ≤ c ∧ c ≤ 57 then some (c - 48)
  else if 65 ≤ c ∧ c ≤ 70 then some (c - 55)
  else if 97 ≤ c ∧ c ≤ 102 then some (c - 87)
  else none

/-- parse-encoded-string on the bytes up to end: how many of them it reads, and what
they stand for. -/
def parseEncodedString (stop : Char) (query : Bool) : List UInt8 → Nat × List UInt8
  | [] => (0, [])
  | c :: rest =>
    let next := parseEncodedString stop query rest
    if c.toNat = stop.toNat then (0, [])
    else if query ∧ c = 43 then (next.1 + 1, 32 :: next.2)
    else if c = 37 then
      match rest with
      | high :: low :: rest' =>
        match decodeHex high, decodeHex low with
        | some high, some low =>
          let next := parseEncodedString stop query rest'
          (next.1 + 3, (high * 16 + low) :: next.2)
        | _, _ => (next.1 + 1, c :: next.2)
      | _ => (next.1 + 1, c :: next.2)
    else (next.1 + 1, c :: next.2)

/-- A JSON object with strings. -/
abbrev Object := List (List Char × List Char)

def Object.find (o : Object) (key : List Char) : Option (List Char) := (o.find? fun x => x.1 = key).map Prod.snd

def Object.set (o : Object) (key value : List Char) : Object := o.filter (fun x => x.1 ≠ key) ++ [(key, value)]

/-- parse-encoded-kv on the bytes up to end, with more fuel than there are bytes. -/
def parseEncodedKv (t : Text) : Nat → Object → List UInt8 → Object
  | 0, o, _ => o
  | fuel + 1, o, bv =>
    if bv = [] then o
    else
      let (n, key) := parseEncodedString '=' true bv
      let bv := bv.drop (n + 1)
      let (n, val) := parseEncodedString '&' true bv
      parseEncodedKv t fuel (Object.set o (t.decode key) (t.decode val)) (bv.drop (n + 1))

structure Request where
  method : List Char
  originalPath : List Char
  path : List Char
  params : Object
  host : Option (List Char)
  header : Option Object

def parseRequest (t : Text) (bv : List UInt8) : Option Request :=
  match bvMatchPositions 32 0 2 bv with
  | [s1, s2] =>
    if t.decode (bvExtract bv (s2 + 1) bv.length) = "HTTP/1.1".toList then
      let (n, path) := parseEncodedString '?' false (bvExtract bv (s1 + 1) s2)
      let params := bvExtract bv (s1 + 1 + n + 1) s2
      some ⟨t.decode (bvExtract bv 0 s1), t.decode path, t.decode path,
        parseEncodedKv t (params.length + 1) [] params, none, none⟩
    else none
  | _ => none

/-- json:update! in http:read-header. -/
def Object.join (o : Object) (key value : List Char) : Object :=
  match Object.find o key with
  | some old => Object.set o key (old ++ ',' :: value)
  | none => Object.set o key value

/-- The loop of http:read-header. Each line takes a byte, so the fuel is enough. -/
def readHeaderLoop (t : Text) : Nat → Int → Object → InPort → Except HttpError (Object × InPort)
  | 0, _, _, _ => .error .notBytevector
  | fuel + 1, limit, hdr, ip => do
    match ← readLine limit ip with
    | (none, _) => .error .notBytevector
    | (some line, ip) =>
      if line = [] then return (hdr, ip)
      else
        match bvMatchPositions 58 0 1 line with
        | [colon] =>
          let key := t.decode (bvExtract line 0 colon)
          let value := t.decode (bvExtract line (bvNextNonLws line (colon + 1)) line.length)
          readHeaderLoop t fuel (limit - line.length) (Object.join hdr (t.downcase key) value) ip
        | _ => .error .invalidHeader

def readHeader (t : Text) (limit : Int) (ip : InPort) : Except HttpError (Object × InPort) :=
  readHeaderLoop t (ip.rest.length + 1) limit [] ip

def isDigits (x : List Char) : Bool := decide (1 ≤ x.length ∧ x.length ≤ 20) && x.all Char.isDigit

def digitsValue (x : List Char) : Nat := x.foldl (fun n c => 10 * n + (c.toNat - 48)) 0

/-- http:get-content-length. -/
def getContentLength (header : Object) : Except HttpError (Option Nat) :=
  match Object.find header "content-length".toList with
  | some x => if isDigits x then .ok (some (digitsValue x)) else .error (.invalidContentLength x)
  | none => .ok none

def keepAlive (t : Text) (header : Object) : Bool :=
  match Object.find header "connection".toList with
  | some c => t.foldcase c ≠ t.foldcase "close".toList
  | none => true

end Swish.Http
