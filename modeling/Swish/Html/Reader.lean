import Swish.Html.Write

/-!
A reader of HTML. It splits the text at angle brackets and double quotes, and
unescapes the four entities.
-/

set_option autoImplicit false

namespace Swish.Html

abbrev Attr := List Char × Option (List Char)

/-- A text, or a text with an element after it and what follows that. No two texts are adjacent. -/
inductive Content where
  | text (s : List Char)
  | element (before tag : List Char) (attrs : List Attr) (children after : Content)
  deriving DecidableEq

namespace Content

def prepend (s : List Char) : Content → Content
  | text t => text (s ++ t)
  | element before tag attrs children after => element (s ++ before) tag attrs children after

def append : Content → Content → Content
  | text s, c => c.prepend s
  | element before tag attrs children after, c => element before tag attrs children (after.append c)

/-- One element. -/
def single (tag : List Char) (attrs : List Attr) (children : Content) : Content :=
  element [] tag attrs children (text [])

@[simp] theorem prepend_nil (c : Content) : c.prepend [] = c := by
  cases c <;> rfl

@[simp] theorem prepend_prepend (c : Content) (s t : List Char) : (c.prepend t).prepend s = c.prepend (s ++ t) := by
  cases c <;> simp [prepend]

@[simp] theorem prepend_append (c d : Content) (s : List Char) : (c.prepend s).append d = (c.append d).prepend s := by
  cases c with
  | text t => exact (prepend_prepend d s t).symm
  | element before tag attrs children after => rfl

@[simp] theorem text_nil_append (c : Content) : (text []).append c = c := prepend_nil c

@[simp] theorem append_text_nil (c : Content) : c.append (text []) = c := by
  induction c with
  | text s => simp [append, prepend]
  | element before tag attrs children after _ ih => simp [append, ih]

theorem append_assoc (c d e : Content) : (c.append d).append e = c.append (d.append e) := by
  induction c with
  | text s => simp [append]
  | element before tag attrs children after _ ih => simp [append, ih]

end Content

def unescape (name : List Char) : Option Char :=
  if name = "quot".toList then some '"'
  else if name = "amp".toList then some '&'
  else if name = "lt".toList then some '<'
  else if name = "gt".toList then some '>'
  else none

/-- What the reader is in the middle of. -/
inductive Mode where
  | text
  | entity (name : List Char)
  | tag (name : List Char)
  | closing (name : List Char)
  | attr (tag : List Char) (attrs : List Attr) (name : List Char)
  | equals (tag : List Char) (attrs : List Attr) (name : List Char)
  | value (tag : List Char) (attrs : List Attr) (name value : List Char)
  | valueEntity (tag : List Char) (attrs : List Attr) (name value entity : List Char)
  /-- After the value of an attribute. -/
  | quoted (tag : List Char) (attrs : List Attr)
  deriving DecidableEq

/-- An element that is open, with the content before it. -/
structure Frame where
  tag : List Char
  attrs : List Attr
  before : Content

structure Reader where
  stack : List Frame
  content : Content
  mode : Mode

/-- The characters that are not in names. -/
def nameEnds : List Char := [' ', '=', '<', '>', '"', '/', '!']

def NameChar (c : Char) : Prop := c ∉ nameEnds

instance decidableNameChar (c : Char) : Decidable (NameChar c) := inferInstanceAs (Decidable (c ∉ nameEnds))

namespace Reader

/-- A start tag is complete. A declaration has no content, nor has a void tag. -/
def opened (r : Reader) (tag : List Char) (attrs : List Attr) : Reader :=
  if tag.head? = some '!' then { r with mode := .text }
  else if voidTags.contains tag then
    { r with content := r.content.append (.single tag attrs (.text [])), mode := .text }
  else { stack := ⟨tag, attrs, r.content⟩ :: r.stack, content := .text [], mode := .text }

/-- An end tag is complete. It must be that of the last element opened. -/
def closed (r : Reader) (tag : List Char) : Option Reader :=
  match r.stack with
  | [] => none
  | f :: stack =>
    if f.tag = tag then
      some { stack := stack, content := f.before.append (.single f.tag f.attrs r.content), mode := .text }
    else none

def step (r : Reader) (c : Char) : Option Reader :=
  match r.mode with
  | .text =>
    if c = '<' then some { r with mode := .tag [] }
    else if c = '&' then some { r with mode := .entity [] }
    else if c = '>' ∨ c = '"' then none
    else some { r with content := r.content.append (.text [c]) }
  | .entity name =>
    if c = ';' then
      (unescape name).map fun c => { r with content := r.content.append (.text [c]), mode := .text }
    else some { r with mode := .entity (name ++ [c]) }
  | .tag name =>
    if c = ' ' then some { r with mode := .attr name [] [] }
    else if c = '>' then some (r.opened name [])
    else if c = '/' ∧ name = [] then some { r with mode := .closing [] }
    else if c = '!' ∧ name = [] then some { r with mode := .tag [c] }
    else if c ∈ nameEnds then none
    else some { r with mode := .tag (name ++ [c]) }
  | .closing name =>
    if c = '>' then r.closed name
    else if c ∈ nameEnds then none
    else some { r with mode := .closing (name ++ [c]) }
  | .attr tag attrs name =>
    if c = ' ' then some { r with mode := .attr tag (attrs ++ [(name, none)]) [] }
    else if c = '>' then some (r.opened tag (attrs ++ [(name, none)]))
    else if c = '=' then some { r with mode := .equals tag attrs name }
    else if c ∈ nameEnds then none
    else some { r with mode := .attr tag attrs (name ++ [c]) }
  | .equals tag attrs name => if c = '"' then some { r with mode := .value tag attrs name [] } else none
  | .value tag attrs name value =>
    if c = '"' then some { r with mode := .quoted tag (attrs ++ [(name, some value)]) }
    else if c = '&' then some { r with mode := .valueEntity tag attrs name value [] }
    else if c = '<' ∨ c = '>' then none
    else some { r with mode := .value tag attrs name (value ++ [c]) }
  | .valueEntity tag attrs name value entity =>
    if c = ';' then (unescape entity).map fun c => { r with mode := .value tag attrs name (value ++ [c]) }
    else some { r with mode := .valueEntity tag attrs name value (entity ++ [c]) }
  | .quoted tag attrs =>
    if c = ' ' then some { r with mode := .attr tag attrs [] }
    else if c = '>' then some (r.opened tag attrs)
    else none

def run (r : Reader) (s : List Char) : Option Reader := s.foldlM step r

end Reader

/-- The content of a text, when its tags are properly nested and all are closed. -/
def read (s : List Char) : Option Content :=
  match Reader.run ⟨[], .text [], .text⟩ s with
  | some ⟨[], content, .text⟩ => some content
  | _ => none

end Swish.Html
