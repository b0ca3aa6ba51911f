import Mathlib.Data.List.Basic

/-!
The function wrap-text of string-utils.ss. Lengths and positions are natural numbers.
-/

set_option autoImplicit false

namespace Swish.WrapText

abbrev Word := List Char

inductive Token where
  | ws
  | line
  | word (s : Word)
  deriving DecidableEq

def inWord (c : Char) : Bool := c ≠ ' ' && c ≠ '\n'

/-- The match at the start of the text, and the text after it: a run of other characters, a space or
a newline. -/
def matchPositions : List Char → Option (List Char × List Char)
  | [] => none
  | c :: text =>
    if inWord c then some (c :: text.takeWhile inWord, text.dropWhile inWord) else some ([c], text)

theorem matchPositions_lt {text s rest : List Char} (h : matchPositions text = some (s, rest)) :
    rest.length < text.length := by
  cases text with
  | nil => cases h
  | cons c text =>
    rw [matchPositions] at h
    split at h
    · cases h
      exact Nat.lt_succ_of_le (List.dropWhile_suffix inWord).length_le
    · cases h
      exact Nat.lt_succ_self _

def token (s : List Char) : Token := if s = [' '] then .ws else if s = ['\n'] then .line else .word s

def extract (text : List Char) (acc : List Token) : List Token :=
  match _h : matchPositions text with
  | none => acc
  | some (s, rest) => extract rest (token s :: acc)
termination_by text.length
decreasing_by exact matchPositions_lt _h

/-- The loop of minimize-whitespace, with its flags. -/
def minimize : List Token → Bool → Bool → List Token
  | [], _, _ => []
  | .ws :: rest, bol, _ => minimize rest bol true
  | .line :: rest, _, _ => .line :: minimize rest true false
  | .word s :: rest, bol, ws =>
    let rest := .word s :: minimize rest false ws
    if bol || !ws then rest else .ws :: rest

def minimizeWhitespace (ls : List Token) : List Token := minimize ls true false

/-- A string or a list of strings. -/
inductive Text where
  | string (s : List Char)
  | strings (ls : List (List Char))

def Text.tokens : Text → List Token
  | .string s => (extract s []).reverse
  | .strings ls => (ls.foldl (fun ls s => .ws :: extract s ls) []).reverse

inductive WrapError where
  /-- The exception of string-length for a token that is not a string. -/
  | notString (x : Token)

def spaces (n : Nat) : List Char := List.replicate n ' '

/-- The loop of wrap-text. The output is what it writes to the port. -/
def wrapLoop (width subsequentIndent : Nat) : List Token → Nat → Nat → Bool → Except WrapError (List Char)
  | [], _, _, _ => .ok []
  | .ws :: .word s :: rest, pos, indent, indented =>
    if s.length + pos < width then do
      let out ← wrapLoop width subsequentIndent (.word s :: rest) (pos + 1) indent indented
      .ok (' ' :: out)
    else do
      let out ← wrapLoop width subsequentIndent (.word s :: rest) 0 subsequentIndent true
      .ok ('\n' :: out)
  | .line :: rest, _, _, _ => do
    let out ← wrapLoop width subsequentIndent rest 0 subsequentIndent true
    .ok ('\n' :: out)
  | .word s :: rest, pos, indent, indented => do
    let out ← wrapLoop width subsequentIndent rest (pos + s.length) indent false
    .ok ((if indented then spaces indent else []) ++ s ++ out)
  | .ws :: _, _, _, _ => .error (.notString .ws)

def wrapText (width initialIndent subsequentIndent : Nat) (text : Text) : Except WrapError (List Char) :=
  wrapLoop width subsequentIndent (minimizeWhitespace text.tokens) 0 initialIndent true

end Swish.WrapText
