import Mathlib.Data.Nat.Digits.Defs

/-!
The reader of json.ss. A port is the characters still to be read, and json-buf is
part of the state, which an exception leaves as it is.
-/

set_option autoImplicit false

namespace Swish.Json

/-- Keys of json objects. A gensym is known by its unique name. -/
inductive Key where
  | symbol (name : List Char)
  | gensym (name unique : List Char)
  deriving DecidableEq, Repr

/-- Scheme data as far as the reader and the writer tell them apart. A flonum is
what inexact makes of a mantissa scaled by a power of ten. A json object is the
list of its cells in the order hashtable-cells gives them. -/
inductive Datum where
  | bool (b : Bool)
  | char (c : Char)
  | int (n : Int)
  | ratnum (numerator : Int) (denominator : Nat)
  | flonum (negative : Bool) (mantissa : Nat) (exponent : Int)
  | string (s : List Char)
  | symbol (key : Key)
  | vector (xs : List Datum)
  | nil
  | pair (a d : Datum)
  | object (cells : List (Key × Datum))

/-- The character #\nul stands for null. -/
def nul : Char := Char.ofNat 0

inductive ReadError where
  | unexpectedEof
  | unexpectedInput (c : Char) (position : Option Int)
  | invalidSurrogatePair
  /-- The bound on a recursion of the model is used up. -/
  | outOfFuel
  deriving DecidableEq, Repr

structure RState where
  rest : List Char
  /-- port-position, when the port has one. -/
  pos : Int
  hasPosition : Bool
  jsonBuf : List Char
  /-- How many strings have been taken out of the buffer; nothing reads it. -/
  taken : Nat

/-- What is not in json.ss: the reader of Scheme for text that looks like a
gensym, and the caller's custom-inflate. -/
structure ReadEnv where
  readGensym : List Char → Option Key
  customInflate : Datum → Datum

abbrev Read := EStateM ReadError RState

/-- read-char; none is the eof object. -/
def readChar : Read (Option Char) := fun s =>
  match s.rest with
  | [] => .ok none s
  | c :: cs => .ok (some c) { s with rest := cs, pos := s.pos + 1 }

/-- unread-char; nothing happens for the eof object. -/
def unreadChar (c : Option Char) : Read Unit := fun s =>
  match c with
  | none => .ok () s
  | some c => .ok () { s with rest := c :: s.rest, pos := s.pos - 1 }

def unexpectedInput {α : Type} (c : Option Char) : Read α := fun s =>
  match c with
  | none => .error .unexpectedEof s
  | some c => .error (.unexpectedInput c (if s.hasPosition then some (s.pos - 1) else none)) s

def nextChar : Read Char := do
  match ← readChar with
  | none => throw .unexpectedEof
  | some c => return c

def isWs (c : Char) : Bool :=
  c = ' ' || c = Char.ofNat 0x09 || c = Char.ofNat 0x0A || c = Char.ofNat 0x0D

/-- The loop of next-non-ws and seek-non-ws: the character it ends with, what
comes after it and the position there. -/
def skipWs : List Char → Int → Option Char × List Char × Int
  | [], pos => (none, [], pos)
  | c :: cs, pos => if isWs c then skipWs cs (pos + 1) else (some c, cs, pos + 1)

def nextNonWs : Read (Option Char) := fun s =>
  let (c, rest, pos) := skipWs s.rest s.pos
  .ok c { s with rest := rest, pos := pos }

/-- The test for the eof object comes first here, which makes no difference. -/
def seekNonWs : Read (Option Char) := nextNonWs

def writeBuf (c : Char) : Read Unit := fun s => .ok () { s with jsonBuf := s.jsonBuf ++ [c] }

def getJsonBufferString : Read (List Char) := fun s =>
  .ok s.jsonBuf { s with jsonBuf := [], taken := s.taken + 1 }

def digitValue (c : Char) : Nat := c.toNat - '0'.toNat

def hexDigit : Read Nat := do
  let c ← nextChar
  if '0' ≤ c ∧ c ≤ '9' then return digitValue c
  else if 'A' ≤ c ∧ c ≤ 'F' then return c.toNat - ('A'.toNat - 10)
  else if 'a' ≤ c ∧ c ≤ 'f' then return c.toNat - ('a'.toNat - 10)
  else unexpectedInput (some c)

def read4hexdig : Read Nat := do
  let x ← hexDigit
  let y ← hexDigit
  let x := 16 * x + y
  let y ← hexDigit
  let x := 16 * x + y
  let y ← hexDigit
  return 16 * x + y

def expectChar (expected : Char) : Read Unit := do
  let c ← nextChar
  if c = expected then return () else unexpectedInput (some c)

/-- The escape sequence after a backslash. -/
def readEscape : Read Unit := do
  let c ← nextChar
  if c = '"' ∨ c = '\\' ∨ c = '/' then writeBuf c
  else if c = 'b' then writeBuf (Char.ofNat 0x08)
  else if c = 'f' then writeBuf (Char.ofNat 0x0C)
  else if c = 'n' then writeBuf (Char.ofNat 0x0A)
  else if c = 'r' then writeBuf (Char.ofNat 0x0D)
  else if c = 't' then writeBuf (Char.ofNat 0x09)
  else if c = 'u' then
    let x ← read4hexdig
    if 0xD800 ≤ x ∧ x ≤ 0xDBFF then
      expectChar '\\'
      expectChar 'u'
      let y ← read4hexdig
      if 0xDC00 ≤ y ∧ y ≤ 0xDFFF then
        writeBuf (Char.ofNat (x % 0x400 * 1024 + y % 0x400 + 0x10000))
      else throw .invalidSurrogatePair
    else if 0xDC00 ≤ x ∧ x ≤ 0xDFFF then throw .invalidSurrogatePair
    else writeBuf (Char.ofNat x)
  else unexpectedInput (some c)

/-- read-string after the opening quote. -/
def readStringFuel : Nat → Read (List Char)
  | 0 => throw .outOfFuel
  | n+1 => do
    let c ← nextChar
    if c = '"' then getJsonBufferString
    else if c = '\\' then
      readEscape
      readStringFuel n
    else
      writeBuf c
      readStringFuel n

def readString : Read (List Char) := fun s => readStringFuel (s.rest.length + 1) s

def isDigit (c : Char) : Bool := '0' ≤ c && c ≤ '9'

/-- The loop of read-digits: mantissa, number of digits, the character after
them, what comes after that and the position there. -/
def takeDigits : List Char → Nat → Nat → Int → Nat × Nat × Option Char × List Char × Int
  | [], mantissa, n, pos => (mantissa, n, none, [], pos)
  | c :: cs, mantissa, n, pos =>
    if isDigit c then takeDigits cs (mantissa * 10 + digitValue c) (n + 1) (pos + 1)
    else (mantissa, n, some c, cs, pos + 1)

def readDigits (mantissa n : Nat) : Read (Nat × Nat × Option Char) := fun s =>
  let (mantissa, n, c, rest, pos) := takeDigits s.rest mantissa n s.pos
  .ok (mantissa, n, c) { s with rest := rest, pos := pos }

def scale (mantissa : Nat) (exponent : Int) : Datum := .flonum false mantissa exponent

def readInt : Read Nat := do
  let (int, n, c) ← readDigits 0 0
  if n = 0 then unexpectedInput c
  else
    unreadChar c
    return int

def readExp (mantissa m : Nat) : Read Datum := do
  let c ← nextChar
  if c = '+' then return scale mantissa ((← readInt) - m)
  else if c = '-' then return scale mantissa (-(← readInt) - m)
  else
    unreadChar (some c)
    return scale mantissa ((← readInt) - m)

def readUnsigned : Read Datum := do
  let (mantissa, n, c) ← readDigits 0 0
  if n = 0 then unexpectedInput c
  else if c = some '.' then
    let (mantissa, m, c) ← readDigits mantissa 0
    if m = 0 then unexpectedInput c
    else if c = some 'e' ∨ c = some 'E' then readExp mantissa m
    else
      unreadChar c
      return scale mantissa (-m)
  else if c = some 'e' ∨ c = some 'E' then readExp mantissa 0
  else
    unreadChar c
    return .int mantissa

/-- (- x). -/
def negate : Datum → Datum
  | .int n => .int (-n)
  | .flonum s m e => .flonum (!s) m e
  | x => x

def stringToKey (env : ReadEnv) (s : List Char) : Key :=
  if 6 ≤ s.length ∧ s[0]? = some '#' ∧ s[1]? = some '\x7b' ∧ s[s.length - 1]? = some '\x7d' then
    (env.readGensym s).getD (.symbol s)
  else .symbol s

/-- hashtable-set!. -/
def hashtableSet (key : Key) (val : Datum) : List (Key × Datum) → List (Key × Datum)
  | [] => [(key, val)]
  | cell :: cells => if cell.1 = key then (key, val) :: cells else cell :: hashtableSet key val cells

def Datum.ofList : List Datum → Datum
  | [] => .nil
  | x :: xs => .pair x (Datum.ofList xs)

mutual

def rd (env : ReadEnv) : Nat → Read Datum
  | 0 => throw .outOfFuel
  | n+1 => do
    let c ← nextNonWs
    if c = some 't' then
      expectChar 'r'
      expectChar 'u'
      expectChar 'e'
      return .bool true
    else if c = some 'f' then
      expectChar 'a'
      expectChar 'l'
      expectChar 's'
      expectChar 'e'
      return .bool false
    else if c = some 'n' then
      expectChar 'u'
      expectChar 'l'
      expectChar 'l'
      return .char nul
    else if c = some '"' then return .string (← readString)
    else if c = some '[' then rdList env n []
    else if c = some '\x7b' then return env.customInflate (.object (← rdObject env n []))
    else if c = some '-' then return negate (← readUnsigned)
    else
      unreadChar c
      readUnsigned

/-- The loop for the elements of a list. -/
def rdList (env : ReadEnv) : Nat → List Datum → Read Datum
  | 0, _ => throw .outOfFuel
  | n+1, acc => do
    let c ← nextNonWs
    if c = some ']' ∧ acc.isEmpty then return .nil
    else
      unreadChar c
      let x ← rd env n
      let c ← nextNonWs
      if c = some ',' then rdList env n (x :: acc)
      else if c = some ']' then return Datum.ofList (x :: acc).reverse
      else unexpectedInput c

/-- The loop for the members of an object. -/
def rdObject (env : ReadEnv) : Nat → List (Key × Datum) → Read (List (Key × Datum))
  | 0, _ => throw .outOfFuel
  | n+1, cells => do
    let c ← nextNonWs
    if c = some '"' then
      let key := stringToKey env (← readString)
      let c ← nextNonWs
      if c = some ':' then
        let val ← rd env n
        let cells := hashtableSet key val cells
        let c ← nextNonWs
        if c = some ',' then rdObject env n cells
        else if c = some '\x7d' then return cells
        else unexpectedInput c
      else unexpectedInput c
    else if c = some '\x7d' ∧ cells.isEmpty then return cells
    else unexpectedInput c

end

/-- json:read; none is the eof object. Every two nested calls read a character. -/
def read (env : ReadEnv) : Read (Option Datum) := do
  let x ← seekNonWs
  match x with
  | none => return none
  | some _ =>
    unreadChar x
    let x ← fun s => rd env (2 * s.rest.length + 2) s
    return some x

/-- ->object. -/
def toObject (env : ReadEnv) : Read (Option Datum) := do
  let obj ← read env
  match ← seekNonWs with
  | none => return obj
  | some c => unexpectedInput (some c)

/-- A string port. -/
def openStringInputPort (text jsonBuf : List Char) : RState where
  rest := text
  pos := 0
  hasPosition := true
  jsonBuf := jsonBuf
  taken := 0

/-- json:string->object, with the contents of json-buf. -/
def stringToObject (env : ReadEnv) (jsonBuf text : List Char) :
    EStateM.Result ReadError RState (Option Datum) :=
  toObject env (openStringInputPort text jsonBuf)

end Swish.Json
