import Mathlib.Data.List.Basic

/-!
The writer of html.ss. What is written to the port is the result, so an exception
loses the text before it.
-/

set_option autoImplicit false

namespace Swish.Html

def named (c : Char) : Bool := c = '"' || c = '&' || c = '<' || c = '>'

/-- What html:encode writes for one character. -/
def encodeChar (c : Char) : List Char :=
  if c = '"' then "&quot;".toList
  else if c = '&' then "&amp;".toList
  else if c = '<' then "&lt;".toList
  else if c = '>' then "&gt;".toList
  else [c]

def encode (s : List Char) : List Char := s.flatMap encodeChar

/-- A number, as number->string writes it. -/
structure Number where
  text : List Char
  plain : ∀ c, c ∈ text → named c = false

/-- The data that patterns are made of. -/
inductive Datum where
  | null
  | void
  | string (s : List Char)
  | number (n : Number)
  | symbol (name : List Char)
  | pair (car cdr : Datum)
  | other

namespace Datum

/-- The function list. -/
def list (xs : List Datum) : Datum := xs.foldr pair null

/-- The predicate list?. -/
def isList : Datum → Bool
  | null => true
  | pair _ cdr => cdr.isList
  | _ => false

def isNull : Datum → Bool
  | null => true
  | _ => false

end Datum

inductive HtmlError where
  | badArg (x : Datum)
  /-- The exception of car. It is not reached, lists are checked first. -/
  | notPair (x : Datum)

def writeStrings (x : Datum) : Datum → Except HtmlError (List Char)
  | .null => .ok []
  | .pair (.string s) strings => do
    let rest ← writeStrings x strings
    .ok (s ++ rest)
  | .pair _ _ => .error (.badArg x)
  | strings => .error (.notPair strings)

def langPresent : Datum → Bool
  | .pair (.pair (.symbol key) _) attrs => key = "lang".toList || langPresent attrs
  | .pair _ attrs => langPresent attrs
  | _ => false

/-- One round of write-attrs. -/
def writeAttr (x : Datum) : Datum → Except HtmlError (List Char)
  | .void => .ok []
  | .pair (.symbol key) .null => .ok (' ' :: key)
  | .pair (.symbol key) (.pair (.string value) .null) =>
    .ok (' ' :: key ++ ['=', '"'] ++ encode value ++ ['"'])
  | .pair (.symbol key) (.pair (.number value) .null) =>
    .ok (' ' :: key ++ ['=', '"'] ++ encode value.text ++ ['"'])
  | _ => .error (.badArg x)

def writeAttrs (x : Datum) : Datum → Except HtmlError (List Char)
  | .null => .ok []
  | .pair attr attrs => do
    let first ← writeAttr x attr
    let rest ← writeAttrs x attrs
    .ok (first ++ rest)
  | attrs => .error (.notPair attrs)

def openTag (x : Datum) (tag : List Char) (attrs : Datum) : Except HtmlError (List Char) := do
  let written ← writeAttrs x attrs
  .ok ('<' :: tag ++ written ++ ['>'])

def closeTag (tag : List Char) : List Char := ['<', '/'] ++ tag ++ ['>']

def voidTags : List (List Char) :=
  ["area", "base", "br", "col", "command", "embed", "hr", "img", "input", "keygen", "link", "meta", "param",
    "source", "track", "wbr"].map String.toList

/-- The attributes of html5, with (lang "en") unless one is given. -/
def withLang (attrs : Datum) : Datum :=
  if langPresent attrs then attrs
  else .pair (.pair (.symbol "lang".toList) (.pair (.string "en".toList) .null)) attrs

/-- The function tag->string. What write-patterns does with the patterns is given. -/
def tagString (x : Datum) (tag : List Char) (attrs patterns : Datum) (written : Except HtmlError (List Char)) :
    Except HtmlError (List Char) :=
  if !attrs.isList then .error (.badArg x)
  else if voidTags.contains tag then
    if !patterns.isNull then .error (.badArg x) else openTag x tag attrs
  else if tag = "html5".toList then do
    let start ← openTag x "html".toList (withLang attrs)
    let content ← written
    .ok ("<!DOCTYPE html>".toList ++ start ++ content ++ closeTag "html".toList)
  else if tag = "script".toList ∨ tag = "style".toList then do
    let start ← openTag x tag attrs
    let content ← writeStrings x patterns
    .ok (start ++ content ++ closeTag tag)
  else do
    let start ← openTag x tag attrs
    let content ← written
    .ok (start ++ content ++ closeTag tag)

mutual

/-- The function html->string. -/
def htmlString : Datum → Except HtmlError (List Char)
  | .null => .ok []
  | .void => .ok []
  | .string s => .ok (encode s)
  | .number n => .ok n.text
  | .pair (.symbol tag) rest =>
    let x := Datum.pair (.symbol tag) rest
    let written := writePatterns rest
    if tag = "begin".toList ∧ rest.isList then written
    else if tag = "cdata".toList ∧ rest.isList then do
      let strings ← writeStrings x rest
      .ok ("[!CDATA[".toList ++ strings ++ "]]".toList)
    else if tag = "raw".toList ∧ rest.isList then writeStrings x rest
    else
      match rest with
      | .pair (.pair (.symbol key) attrs) patterns =>
        if key = "@".toList ∧ patterns.isList then tagString x tag attrs patterns (writePatterns patterns)
        else if rest.isList then tagString x tag .null rest written
        else .error (.badArg x)
      | rest => if rest.isList then tagString x tag .null rest written else .error (.badArg x)
  | x => .error (.badArg x)

def writePatterns : Datum → Except HtmlError (List Char)
  | .null => .ok []
  | .pair pattern patterns => do
    let first ← htmlString pattern
    let rest ← writePatterns patterns
    .ok (first ++ rest)
  | patterns => .error (.notPair patterns)

end

end Swish.Html
