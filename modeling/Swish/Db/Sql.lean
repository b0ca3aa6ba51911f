import Mathlib.Data.List.Basic

/-!
The function parse-sql of db.ss. Syntax objects are their data, and an identifier
is its name.
-/

set_option autoImplicit false

namespace Swish.Db

inductive Stx where
  | null
  | symbol (name : List Char)
  | string (s : List Char)
  | pair (car cdr : Stx)
  | other
  deriving DecidableEq

namespace Stx

def list (xs : List Stx) : Stx := xs.foldr pair null

def toList? : Stx → Option (List Stx)
  | null => some []
  | pair car cdr => cdr.toList?.map (car :: ·)
  | _ => none

/-- The form `,e`. -/
def unquote (e : Stx) : Stx := list [symbol "unquote".toList, e]

def unquoted? : Stx → Option Stx
  | pair (symbol key) (pair e null) => if key = "unquote".toList then some e else none
  | _ => none

end Stx

inductive SqlError where
  | invalidTerm (x : Stx)
  | invalidSyntax (x : Stx)

/-- A column with its terms. There is at least one. -/
structure Column where
  name : List Char
  first : Stx
  rest : List Stx

def Column.terms (c : Column) : List Stx := c.first :: c.rest

inductive Form where
  | insert (table : List Char) (columns : List Column)
  | update (table : List Char) (columns : List Column) (conditions : List Stx)
  | delete (table : List Char) (conditions : List Stx)

def column? (x : Stx) : Option Column :=
  match x.toList? with
  | some (.symbol name :: first :: rest) => some ⟨name, first, rest⟩
  | _ => none

def columns? (x : Stx) : Option (List Column) := do
  let xs ← x.toList?
  xs.mapM column?

/-- The clauses of parse-sql with their fenders. -/
def form? (x : Stx) : Option Form :=
  match x.toList? with
  | some (.symbol key :: .symbol table :: rest) =>
    if key = "insert".toList then
      match rest with
      | [columns] => (columns? columns).map (.insert table)
      | _ => none
    else if key = "update".toList then
      match rest with
      | columns :: conditions => (columns? columns).map (.update table · conditions)
      | [] => none
    else if key = "delete".toList then some (.delete table rest)
    else none
  | _ => none

/-- How the text is written: a character that is spliced in, and the ? for an expression. -/
structure Pen (α : Type) where
  char : Char → α
  mark : Stx → α

/-- What the code writes. -/
def plain : Pen Char := ⟨fun c => c, fun _ => '?'⟩

/-- The same text, with each ? that stands for an expression told from all other characters. -/
def tracing : Pen (Char × Option Stx) := ⟨fun c => (c, none), fun e => ('?', some e)⟩

section

variable {α : Type}

def Pen.text (pen : Pen α) (s : List Char) : List α := s.map pen.char

def join : List (List α) → List α → List α
  | [], _ => []
  | [s], _ => s
  | s :: t :: ls, separator => s ++ separator ++ join (t :: ls) separator

variable (symbolToSql : List Char → List Char) (pen : Pen α)

def stringify (x : Stx) : Except SqlError (List α) :=
  match x.unquoted? with
  | some e => .ok [pen.mark e]
  | none =>
    match x with
    | .symbol v => .ok (pen.text (symbolToSql v))
    | .string v => .ok (pen.text v)
    | _ => .error (.invalidTerm x)

/-- The terms, joined by spaces. -/
def stringifyAll (terms : List Stx) : Except SqlError (List α) := do
  let texts ← terms.mapM (stringify symbolToSql pen)
  .ok (join texts (pen.text [' ']))

def Form.text : Form → Except SqlError (List α)
  | .insert table columns => do
    let values ← columns.mapM fun c => stringifyAll symbolToSql pen c.terms
    let names := columns.map fun c => pen.text (symbolToSql c.name)
    .ok (pen.text "insert into ".toList ++ pen.text (symbolToSql table) ++ pen.text ['('] ++
      join names (pen.text ", ".toList) ++ pen.text ") values(".toList ++ join values (pen.text ", ".toList) ++
      pen.text [')'])
  | .update table columns conditions => do
    let settings ← columns.mapM fun c => do
      let value ← stringifyAll symbolToSql pen c.terms
      -- The name of the column is not given to symbol->sql.
      .ok (pen.text c.name ++ pen.text ['='] ++ value)
    let texts ← conditions.mapM (stringify symbolToSql pen)
    .ok (join ((pen.text "update ".toList ++ pen.text (symbolToSql table) ++ pen.text " set ".toList ++
      join settings (pen.text ", ".toList)) :: texts) (pen.text [' ']))
  | .delete table conditions => do
    let texts ← conditions.mapM (stringify symbolToSql pen)
    .ok (join ((pen.text "delete from ".toList ++ pen.text (symbolToSql table)) :: texts) (pen.text [' ']))

end

def collectArgs : List Stx → List Stx
  | [] => []
  | x :: rest =>
    match x.unquoted? with
    | some e => e :: collectArgs rest
    | none => collectArgs rest

def Form.args : Form → List Stx
  | .insert _ columns => columns.foldr (fun c ls => collectArgs c.terms ++ ls) []
  | .update _ columns conditions => columns.foldr (fun c ls => collectArgs c.terms ++ ls) (collectArgs conditions)
  | .delete _ conditions => collectArgs conditions

/-- The function parse-sql, with a pen for the text. -/
def parseWith {α : Type} (pen : Pen α) (symbolToSql : List Char → List Char) (x : Stx) :
    Except SqlError (List α × List Stx) :=
  match form? x with
  | some form => do
    let text ← form.text symbolToSql pen
    .ok (text, form.args)
  | none => .error (.invalidSyntax x)

def parseSql (symbolToSql : List Char → List Char) (x : Stx) : Except SqlError (List Char × List Stx) :=
  parseWith plain symbolToSql x

end Swish.Db
