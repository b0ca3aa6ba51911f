import Mathlib.Data.List.Basic

/-!
The natural-string comparisons of string-utils.ss. A string is a list of characters, and its end
is the length of the list.
-/

set_option autoImplicit false

namespace Swish.NaturalString

/-- The predicates and the case folding of Unicode characters. -/
structure Chars where
  alphabetic : Char → Bool
  numeric : Char → Bool
  whitespace : Char → Bool
  foldcase : Char → Char

inductive Token where
  | eos
  | int (n : Int)
  | char (c : Char)
  deriving DecidableEq

/-- The three values of a tokenizer. -/
structure Got where
  tok : Option Token
  i : Nat
  len : Nat
  deriving DecidableEq

/-- A tokenizer is called with the character at an index, the string and the index. -/
abbrev Tokenizer := Char → List Char → Nat → Got

def charDigit (c : Char) : Bool := 48 ≤ c.toNat && c.toNat ≤ 57

def toDigit (c : Char) : Nat := c.toNat - 48

/-- The loop get-n&i over the characters from i on. -/
def getNI : List Char → Nat → Nat → Nat × Nat
  | [], n, i => (n, i)
  | d :: rest, n, i => if charDigit d then getNI rest (toDigit d + n * 10) (i + 1) else (n, i)

/-- What is before a minus sign that is a dash. -/
def dash (C : Chars) (s : List Char) (i : Nat) : Bool :=
  if 0 < i then (s[i - 1]?).any fun c => C.alphabetic c || C.numeric c else false

def getSigned (C : Chars) (s : List Char) (i : Nat) (k : Nat → Int) (maybeDash : Bool) : Got :=
  if maybeDash && dash C s i then ⟨none, i, 0⟩
  else
    let (n, j) := getNI (s.drop (i + 1)) 0 (i + 1)
    if 1 < j - i then ⟨some (.int (k n)), j, j - i⟩ else ⟨none, i, 0⟩

def getIntegerToken (C : Chars) : Tokenizer := fun c s i =>
  if charDigit c then
    let (n, j) := getNI (s.drop (i + 1)) (toDigit c) (i + 1)
    ⟨some (.int n), j, j - i⟩
  else if c = '-' then getSigned C s i (fun n => -n) true
  else if c = '+' then getSigned C s i (fun n => n) false
  else ⟨none, i, 0⟩

/-- The loop skip at the index j, where c is followed by the rest. -/
def skip (C : Chars) (i : Nat) : Char → List Char → Nat → Bool → Got
  | c, rest, j, found =>
    if C.whitespace c then
      match rest with
      | [] => ⟨some .eos, j, 0⟩
      | d :: rest => skip C i d rest (j + 1) true
    else if i = 0 then ⟨none, j, 0⟩
    else if found then ⟨some (.char ' '), j - 1, 1⟩
    else ⟨none, j, 0⟩

def elideWhitespace (C : Chars) : Tokenizer := fun c s i => skip C i c (s.drop (i + 1)) i false

/-- compose. Its result always has a token. -/
def compose (getToken : Tokenizer) : List Tokenizer → Char → List Char → Nat → Token × Nat × Nat
  | [], c, s, i0 =>
    let r := getToken c s i0
    match r.tok with
    | some tok => (tok, r.i, r.len)
    | none => (.char c, r.i, 1)
  | next :: rest, c, s, i0 =>
    let r := getToken c s i0
    match r.tok with
    | some tok => (tok, r.i, r.len)
    | none =>
      if r.i = i0 then compose next rest c s r.i
      else
        match s[r.i]? with
        | none => (.eos, r.i, 0)
        | some d => compose next rest d s r.i

/-- The composed tokenizer of natural-string<?. -/
def getToken (C : Chars) : Char → List Char → Nat → Token × Nat × Nat :=
  compose (elideWhitespace C) [getIntegerToken C]

def callGetToken (C : Chars) (s : List Char) (i : Nat) : Token × Nat × Nat :=
  match s[i]? with
  | none => (.eos, i, 0)
  | some c => getToken C c s i

/-- What token<? returns: #f, #t or shortest-wins. -/
inductive Result where
  | no
  | yes
  | shortestWins
  deriving DecidableEq

def intTokenLt (a b : Token) : Result :=
  match a with
  | .int x =>
    match b with
    | .int y => if x < y then .yes else if x = y then .shortestWins else .no
    | _ => .yes
  | _ => .no

/-- token<? and token-ci<? differ in what they compare two characters by. -/
def tokenLtBy (code : Char → Nat) (a b : Token) : Result :=
  match a with
  | .char x =>
    match b with
    | .char y => if code x < code y then .yes else .no
    | _ => intTokenLt a b
  | _ => intTokenLt a b

def charCode (c : Char) : Nat := c.toNat

def foldedCode (C : Chars) (c : Char) : Nat := (C.foldcase c).toNat

def tokenLt : Token → Token → Result := tokenLtBy charCode

def tokenCiLt (C : Chars) : Token → Token → Result := tokenLtBy (foldedCode C)

/-- The loop of do-compare, for at most so many rounds. -/
def loop (lt : Token → Token → Result) (C : Chars) (s1 s2 : List Char) : Nat → Nat → Nat → Option Bool
  | 0, _, _ => none
  | fuel + 1, i, j =>
    let (aTok, i, aLen) := callGetToken C s1 i
    let (bTok, j, bLen) := callGetToken C s2 j
    match lt aTok bTok with
    | .yes => some true
    | .shortestWins =>
      if aLen < bLen then some true
      else if aLen = bLen then loop lt C s1 s2 fuel i j
      else some false
    | .no =>
      if lt bTok aTok ≠ .no then some false
      else if aTok = .eos ∨ i = s1.length then some (!decide (bTok = .eos ∨ j = s2.length))
      else if bTok = .eos ∨ j = s2.length then some false
      else loop lt C s1 s2 fuel (i + 1) (j + 1)

/-- do-compare. The flag says that the strings are the same for eq?. -/
def doCompare (lt : Token → Token → Result) (C : Chars) (fuel : Nat) (same : Bool) (s1 s2 : List Char) :
    Option Bool :=
  if same then some false else loop lt C s1 s2 fuel 0 0

/-- natural-string<?. -/
def naturalStringLt (C : Chars) (fuel : Nat) (same : Bool) (s1 s2 : List Char) : Option Bool :=
  doCompare tokenLt C fuel same s1 s2

/-- natural-string-ci<?. -/
def naturalStringCiLt (C : Chars) (fuel : Nat) (same : Bool) (s1 s2 : List Char) : Option Bool :=
  doCompare (tokenCiLt C) C fuel same s1 s2

end Swish.NaturalString
