import Mathlib.Data.List.Sort
import Swish.Json.Reader

/-!
The writer of json.ss. What is written to the port is the result, so an exception
loses the text before it.
-/

set_option autoImplicit false

namespace Swish.Json

inductive WriteError where
  /-- fx+ or fx- out of range. -/
  | fixnumOverflow
  /-- A write past the start of the buffer of display-fixnum. -/
  | bufferOverrun
  | badArg (indent : Int)
  | invalidDatum (x : Datum)

/-- The machine and the parameters. Fixnums have 61 bits on 64-bit machines and
30 bits on 32-bit machines. The order of keys is json:key<? with #t replaced by
the default. -/
structure WriteEnv where
  fixnumWidth : Nat
  keyLt : Option (List Char → List Char → Bool)
  printGensym : List Char → List Char → List Char
  /-- number->string of a flonum, none when it is not finite. -/
  flonumToString : Bool → Nat → Int → Option (List Char)
  /-- The text a custom writer writes, none when it returns #f. -/
  customWrite : Option (Datum → Option Int → Option (Except WriteError (List Char)))

namespace WriteEnv

def mostPositiveFixnum (env : WriteEnv) : Int := 2 ^ (env.fixnumWidth - 1) - 1

def mostNegativeFixnum (env : WriteEnv) : Int := -2 ^ (env.fixnumWidth - 1)

def isFixnum (env : WriteEnv) (n : Int) : Bool :=
  env.mostNegativeFixnum ≤ n && n ≤ env.mostPositiveFixnum

def fixnum (env : WriteEnv) (n : Int) : Except WriteError Int :=
  if env.isFixnum n then .ok n else .error .fixnumOverflow

end WriteEnv

def digitToChar (d : Nat) : Char := Char.ofNat (d + '0'.toNat)

/-- The digits of a natural number in base 10. -/
def natToString (n : Nat) : List Char :=
  if n = 0 then ['0'] else ((Nat.digits 10 n).map digitToChar).reverse

def numberToString (n : Int) : List Char :=
  if n < 0 then '-' :: natToString n.natAbs else natToString n.natAbs

def hexDigitToChar (d : Nat) : Char :=
  if d < 10 then digitToChar d else Char.ofNat (d - 10 + 'A'.toNat)

/-- The directive ~4,'0x. -/
def padHex4 (n : Nat) : List Char :=
  let digits := ((Nat.digits 16 n).map hexDigitToChar).reverse
  List.replicate (4 - digits.length) '0' ++ digits

/-- What write-string writes for one character. -/
def escapeChar (c : Char) : List Char :=
  if c = '"' ∨ c = '\\' then ['\\', c]
  else if c.toNat ≤ 0x1F then '\\' :: 'u' :: padHex4 c.toNat
  else [c]

def writeString (s : List Char) : List Char := '"' :: (s.flatMap escapeChar ++ ['"'])

/-- The loop of display-fixnum. The buffer is filled from its end. -/
def fillDigits (buf : List Char) : Nat → Nat → Int → Except WriteError (List Char × Int)
  | 0, _, _ => .error .bufferOverrun
  | k+1, n, i =>
    if i < 0 then .error .bufferOverrun
    else
      let buf := buf.set i.toNat (digitToChar (n % 10))
      if n / 10 = 0 then .ok (buf, i) else fillDigits buf k (n / 10) (i - 1)

def displayFixnum (env : WriteEnv) (x : Int) : Except WriteError (List Char) :=
  if 0 ≤ x ∧ x ≤ 9 then .ok [digitToChar x.natAbs]
  else if x = env.mostNegativeFixnum then .ok (numberToString x)
  else do
    let len := (numberToString env.mostNegativeFixnum).length
    let (buf, i) ← fillDigits (List.replicate len nul) (len + 1) x.natAbs (len - 1)
    return (if x < 0 then ['-'] else []) ++ buf.drop i.toNat

/-- The loop ends only when the count meets the indent. -/
def newlineAndIndent (indent : Int) : Except WriteError (List Char) :=
  if 0 ≤ indent then .ok ('\n' :: List.replicate indent.toNat ' ') else .error .fixnumOverflow

/-- json:write-structural-char, with the indent it returns. -/
def writeStructuralChar (env : WriteEnv) (x : Char) (indent : Option Int) :
    Except WriteError (List Char × Option Int) :=
  match indent with
  | none => .ok ([x], none)
  | some indent =>
    if x = '[' ∨ x = '\x7b' then do
      let indent ← env.fixnum (indent + 2)
      return (x :: (← newlineAndIndent indent), some indent)
    else if x = ']' ∨ x = '\x7d' then do
      let indent ← env.fixnum (indent - 2)
      return ((← newlineAndIndent indent) ++ [x], some indent)
    else if x = ':' then .ok ([x, ' '], some indent)
    else do
      return (x :: (← newlineAndIndent indent), some indent)

def Key.toSortKey : Key → List Char
  | .symbol name => name
  | .gensym _ unique => unique

def Key.toText (env : WriteEnv) : Key → List Char
  | .symbol name => name
  | .gensym name unique => env.printGensym name unique

/-- sort-cells!, when there is an order. What is sorted need not be the values
themselves. -/
def sortCells {α : Type} (env : WriteEnv) (cells : List (Key × α)) : List (Key × α) :=
  match env.keyLt with
  | none => cells
  | some lt => cells.mergeSort fun x y => !lt y.1.toSortKey x.1.toSortKey

/-- The elements after the first of a list or an object: a comma before each. -/
def writeRest (env : WriteEnv) (indent : Option Int) :
    List (Except WriteError (List Char)) → Except WriteError (List Char)
  | [] => .ok []
  | text :: texts => do
    let (comma, _) ← writeStructuralChar env ',' indent
    let text ← text
    return comma ++ text ++ (← writeRest env indent texts)

/-- Opening bracket, elements, closing bracket. -/
def writeAll (env : WriteEnv) (opening closing : Char) (indent : Option Int)
    (texts : Option Int → List (Except WriteError (List Char))) : Except WriteError (List Char) := do
  let (start, indent) ← writeStructuralChar env opening indent
  match texts indent with
  | [] => return start
  | text :: texts =>
    let text ← text
    let more ← writeRest env indent texts
    let (stop, _) ← writeStructuralChar env closing indent
    return start ++ text ++ more ++ stop

/-- A member of an object. -/
def writeCell (env : WriteEnv) (indent : Option Int)
    (cell : Key × Except WriteError (List Char)) : Except WriteError (List Char) := do
  let (colon, _) ← writeStructuralChar env ':' indent
  let text ← cell.2
  return writeString (cell.1.toText env) ++ colon ++ text

/-- The cases of wr after those before custom-write. -/
def orCustom (env : WriteEnv) (x : Datum) (indent : Option Int)
    (otherwise : Except WriteError (List Char)) : Except WriteError (List Char) :=
  match env.customWrite with
  | none => otherwise
  | some f => (f x indent).getD otherwise

mutual

def wr (env : WriteEnv) : Datum → Option Int → Except WriteError (List Char)
  | .bool true, _ => .ok ['t', 'r', 'u', 'e']
  | .bool false, _ => .ok ['f', 'a', 'l', 's', 'e']
  | .char c, indent =>
    if c = nul then .ok ['n', 'u', 'l', 'l']
    else orCustom env (.char c) indent (.error (.invalidDatum (.char c)))
  | .string s, _ => .ok (writeString s)
  | .int n, _ => if env.isFixnum n then displayFixnum env n else .ok (numberToString n)
  | .flonum s m e, indent =>
    match env.flonumToString s m e with
    | some text => .ok text
    | none => orCustom env (.flonum s m e) indent (.error (.invalidDatum (.flonum s m e)))
  | .ratnum a b, indent => orCustom env (.ratnum a b) indent (.error (.invalidDatum (.ratnum a b)))
  | .symbol k, indent => orCustom env (.symbol k) indent (.error (.invalidDatum (.symbol k)))
  | .vector xs, indent => orCustom env (.vector xs) indent (.error (.invalidDatum (.vector xs)))
  | .nil, indent => orCustom env .nil indent (.ok ['[', ']'])
  | .pair a d, indent =>
    orCustom env (.pair a d) indent <|
      writeAll env '[' ']' indent fun indent => wr env a indent :: wrTail env d indent
  | .object cells, indent =>
    orCustom env (.object cells) indent <|
      if cells.isEmpty then .ok ['\x7b', '\x7d']
      else
        writeAll env '\x7b' '\x7d' indent fun indent =>
          (sortCells env (wrCells env cells indent)).map (writeCell env indent)

/-- The elements of the cdr of a list; what is not a pair ends it. -/
def wrTail (env : WriteEnv) : Datum → Option Int → List (Except WriteError (List Char))
  | .pair a d, indent => wr env a indent :: wrTail env d indent
  | _, _ => []

/-- The text of the value in each cell. -/
def wrCells (env : WriteEnv) :
    List (Key × Datum) → Option Int → List (Key × Except WriteError (List Char))
  | [], _ => []
  | (key, val) :: cells, indent => (key, wr env val indent) :: wrCells env cells indent

end

/-- json:write. -/
def write (env : WriteEnv) (x : Datum) (indent : Option Int) : Except WriteError (List Char) :=
  match indent with
  | some i =>
    if !env.isFixnum i || i < 0 then .error (.badArg i)
    else do
      let text ← wr env x indent
      return if i = 0 then text ++ ['\n'] else text
  | none => wr env x none

end Swish.Json
