import Swish.NaturalString.Compare

/-!
The compiled patterns of pregexp.ss, the errors of its procedures and its character classes.
-/

set_option autoImplicit false

namespace Swish.Pregexp

/-- The procedures on Unicode characters that the classes use. -/
structure Chars extends NaturalString.Chars where
  lowerCase : Char → Bool
  upperCase : Char → Bool

inductive Class where
  | any
  | alnum
  | alpha
  | ascii
  | blank
  | cntrl
  | digit
  | graph
  | lower
  | print
  | punct
  | space
  | upper
  | word
  | xdigit
  deriving DecidableEq, Repr

/-- The symbols of a compiled pattern, without their colon. A class between brackets may have any name. -/
inductive Symbol where
  | bos
  | eos
  | empty
  | wbdry
  | notWbdry
  | cls (c : Class)
  | other (name : List Char)
  deriving DecidableEq, Repr

/-- string->symbol, for the letters that follow the colon. -/
def Symbol.ofName (name : List Char) : Symbol :=
  match String.ofList name with
  | "bos" => .bos
  | "eos" => .eos
  | "empty" => .empty
  | "wbdry" => .wbdry
  | "any" => .cls .any
  | "alnum" => .cls .alnum
  | "alpha" => .cls .alpha
  | "ascii" => .cls .ascii
  | "blank" => .cls .blank
  | "cntrl" => .cls .cntrl
  | "digit" => .cls .digit
  | "graph" => .cls .graph
  | "lower" => .cls .lower
  | "print" => .cls .print
  | "punct" => .cls .punct
  | "space" => .cls .space
  | "upper" => .cls .upper
  | "word" => .cls .word
  | "xdigit" => .cls .xdigit
  | _ => .other name

/-- A compiled pattern. A group is the pair that the matcher looks up with assv: its identity is where
the group starts in the pattern, and 0 for the whole. A number that string->number does not read is none. -/
inductive Re where
  | symbol (x : Symbol)
  | char (c : Char)
  | charRange (lo hi : Char)
  | oneOfChars (chars : List Re)
  | negChar (re : Re)
  | seq (res : List Re)
  | or (res : List Re)
  | backref (k : Option Nat)
  | sub (id : Nat) (re : Re)
  | lookahead (re : Re)
  | negLookahead (re : Re)
  | lookbehind (re : Re)
  | negLookbehind (re : Re)
  | noBacktrack (re : Re)
  | caseSensitive (re : Re)
  | caseInsensitive (re : Re)
  | between (minimal : Bool) (p q : Option Nat) (re : Re)

inductive Failure where
  /-- #(pregexp-error pregexp-read-piece backslash) -/
  | readPiece
  /-- #(pregexp-error pregexp-read-posix-char-class) -/
  | readPosixCharClass
  /-- #(pregexp-error pregexp-read-cluster-type) -/
  | readClusterType
  /-- #(pregexp-error pregexp-read-subpattern) -/
  | readSubpattern
  /-- #(pregexp-error pregexp-wrap-quantifier-if-any left-brace-must-be-followed-by-number) -/
  | wrapQuantifierIfAny
  /-- #(pregexp-error pregexp-read-nums) -/
  | readNums
  /-- #(pregexp-error pregexp-read-char-list character-class-ended-too-soon) -/
  | charClassEndedTooSoon
  /-- #(pregexp-error pregexp-read-char-list backslash) -/
  | charListBackslash
  /-- #(pregexp-error pregexp-check-if-in-char-class?) -/
  | checkIfInCharClass
  /-- #(pregexp-error pregexp-match-positions-aux non-existent-backref re) -/
  | nonExistentBackref
  /-- #(pregexp-error pregexp-match-positions-aux greedy-quantifier-operand-could-be-empty) -/
  | operandCouldBeEmpty
  /-- string-ref, substring, car or = is applied to something it is not for. -/
  | notValid
  /-- The loop goes on. -/
  | outOfFuel
  deriving DecidableEq, Repr

namespace Chars

variable (C : Chars)

/-- char-ci=?, where the flag is off. -/
def charEq (sensitive : Bool) (c d : Char) : Bool := if sensitive then c == d else C.foldcase c == C.foldcase d

def charLe (sensitive : Bool) (c d : Char) : Bool :=
  if sensitive then c.toNat ≤ d.toNat else (C.foldcase c).toNat ≤ (C.foldcase d).toNat

def charWord (c : Char) : Bool := C.alphabetic c || C.numeric c || c == '_'

def checkIfInCharClass (c : Char) : Class → Bool
  | .any => c != '\n'
  | .alnum => C.alphabetic c || C.numeric c
  | .alpha => C.alphabetic c
  | .ascii => c.toNat < 128
  | .blank => c == ' ' || c == '\t'
  | .cntrl => c.toNat < 32
  | .digit => C.numeric c
  | .graph => 32 ≤ c.toNat && !C.whitespace c
  | .lower => C.lowerCase c
  | .print => 32 ≤ c.toNat
  | .punct => 32 ≤ c.toNat && !C.whitespace c && !C.alphabetic c && !C.numeric c
  | .space => C.whitespace c
  | .upper => C.upperCase c
  | .word => C.charWord c
  | .xdigit => C.numeric c || "abcdef".toList.any fun d => C.charEq false c d

end Chars

/-- The characters of ASCII. -/
def ascii : Chars where
  alphabetic := Char.isAlpha
  numeric := Char.isDigit
  whitespace := Char.isWhitespace
  foldcase := Char.toLower
  lowerCase := Char.isLower
  upperCase := Char.isUpper

end Swish.Pregexp
