import Swish.Http.Search
import Swish.Http.Utf8
import Swish.Lib.Assoc

/-!
parse-multipart/form-data. The port is passed on, and so is the state that an exception
leaves as it is: the table result and the temporary files.
-/

set_option autoImplicit false

namespace Swish.Http

inductive FormError where
  | header (e : HttpError)
  /-- #(http-invalid-header content-disposition). -/
  | noDisposition
  | invalidDisposition (d : List Char)
  | invalidBoundary
  | unexpectedEof
  | contentLimitExceeded
  | fileLimitExceeded
  /-- string->symbol on #f. -/
  | notString
  | openFailed
  | writeFailed
  | closeFailed
  /-- An error of the search that does not occur. -/
  | search (e : ScanError)
  | outOfFuel
  deriving DecidableEq

/-- A value of the form: a string, or an object with type file and the name of a temporary file. -/
inductive FormValue where
  | text (s : List Char)
  | file (fn : Nat)
  deriving DecidableEq

structure Form where
  result : List (List Char × FormValue)
  /-- The temporary files that exist. -/
  files : List Nat
  /-- The number of the next temporary file; osi_make_uuid never gives the same twice. -/
  next : Nat
  deriving DecidableEq

/-- Which operations on the temporary files succeed. -/
structure Disk where
  opens : Nat → Bool
  /-- Whether put-u8 takes the byte with this index. -/
  accepts : Nat → Nat → Bool
  closes : Nat → Bool

/-- What the reading of a part depends on. -/
structure PartEnv where
  text : Text
  headerLimit : Int
  pattern : List UInt8
  table : List Int

structure FormEnv extends PartEnv where
  files : List (List Char)
  disk : Disk

/-- (char-whitespace? c). -/
def charWhitespace (c : Char) : Bool :=
  let n := c.toNat
  (9 ≤ n && n ≤ 13) || n == 32 || n == 0x85 || n == 0xA0 || n == 0x1680 || (0x2000 ≤ n && n ≤ 0x200A) ||
    n == 0x2028 || n == 0x2029 || n == 0x202F || n == 0x205F || n == 0x3000

/-- The end \s*(.*)$ of both patterns. -/
def matchRest (s : List Char) : Option (List Char) :=
  let rest := s.dropWhile charWhitespace
  if '\n' ∈ rest then none else some rest

/-- The pattern ^form-data;\s*(.*)$ of pregexp. -/
def matchFormData (d : List Char) : Option (List Char) :=
  if "form-data;".toList <+: d then matchRest (d.drop 10) else none

/-- The pattern ^([^=]+)="([^"]*)"(?:;\s*(.*))?$ of pregexp, with none for a group that does not match. -/
def matchParam (params : List Char) : Option (List Char × List Char × Option (List Char)) :=
  let key := params.takeWhile (· ≠ '=')
  if key = [] then none
  else
    match params.drop key.length with
    | '=' :: '"' :: rest =>
      let val := rest.takeWhile (· ≠ '"')
      match rest.drop val.length with
      | ['"'] => some (key, val, none)
      | '"' :: ';' :: rest => (matchRest rest).map fun params => (key, val, some params)
      | _ => none
    | _ => none

/-- The loop of parse-form-data-disposition. Each round takes characters, so the fuel is enough. -/
def parseParams (d : List Char) : Nat → Option (List Char) → Except FormError (List (List Char × List Char))
  | 0, _ => .error .outOfFuel
  | _ + 1, none => .ok []
  | fuel + 1, some params =>
    match matchParam params with
    | some (key, val, params) => do
      let data ← parseParams d fuel params
      return (key, val) :: data
    | none => .error (.invalidDisposition d)

def parseFormDataDisposition (d : List Char) : Except FormError (List (List Char × List Char)) :=
  match matchFormData d with
  | some params => parseParams d (d.length + 2) (some params)
  | none => .error (.invalidDisposition d)

def nextU8 (ip : InPort) : Except FormError (UInt8 × InPort) :=
  match ip.rest with
  | [] => .error .unexpectedEof
  | x :: rest => .ok (x, ⟨ip.pos + 1, rest⟩)

/-- What parse-end decides: whether another part follows. -/
def partFollows (ip : InPort) : Except FormError (Bool × InPort) := do
  let (x1, ip) ← nextU8 ip
  let (x2, ip) ← nextU8 ip
  if x1 = carriageReturn ∧ x2 = newline then return (true, ip)
  else if x1 = 45 ∧ x2 = 45 then
    let (x3, ip) ← nextU8 ip
    if x3 = carriageReturn then
      let (x4, ip) ← nextU8 ip
      if x4 = newline then return (false, ip) else .error .invalidBoundary
    else .error .invalidBoundary
  else .error .invalidBoundary

/-- The header of a part, up to the parameters of its disposition. -/
def readDisposition (env : PartEnv) (ip : InPort) : Except FormError (List (List Char × List Char) × InPort) :=
  match readHeader env.text env.headerLimit ip with
  | .error e => .error (.header e)
  | .ok (header, ip) =>
    match Object.find header "content-disposition".toList with
    | none => .error .noDisposition
    | some d => do
      let data ← parseFormDataDisposition d
      return (data, ip)

def scanError (err : FormError) : ScanError → FormError
  | .unexpectedEof => .unexpectedEof
  | .limit => err
  | .write => .writeFailed
  | e => .search e

/-- copy-until-match with the exception err at the limit. -/
def copyPart (env : PartEnv) (accepts : Nat → Bool) (limit : Option Int) (err : FormError) (ip : InPort) :
    Except FormError (List UInt8 × InPort × Int) :=
  match copyUntilMatch env.pattern env.table accepts limit ip with
  | .error e => .error (scanError err e)
  | .ok r => .ok r

abbrev Outcome := Except (FormError × Form) (InPort × Form)

/-- What the parser does after a part, with the limits that are left. -/
abbrev AfterPart := Int → Int → InPort → Form → Outcome

/-- The handler of try in parse-file. -/
def deleteOnError (fn : Nat) : Outcome → Outcome
  | .error (e, form) => .error (e, { form with files := form.files.filter (· ≠ fn) })
  | .ok r => .ok r

def parseFile (env : FormEnv) (parseEnd : AfterPart) (key : List Char) (climit flimit : Int) (ip : InPort)
    (form : Form) : Outcome :=
  let fn := form.next
  let form := { form with next := fn + 1 }
  if env.disk.opens fn then
    let form := { form with files := form.files ++ [fn] }
    deleteOnError fn
      (match copyPart env.toPartEnv (env.disk.accepts fn) (some flimit) .fileLimitExceeded ip with
      | .error e => .error (e, form)
      | .ok (_, ip, n) =>
        if env.disk.closes fn then
          parseEnd climit (flimit - n) ip { form with result := Assoc.set form.result key (.file fn) }
        else .error (.closeFailed, form))
  else .error (.openFailed, form)

def parseNext (env : FormEnv) (parseEnd : AfterPart) (climit flimit : Int) (ip : InPort) (form : Form) : Outcome :=
  match readDisposition env.toPartEnv ip with
  | .error e => .error (e, form)
  | .ok (data, ip) =>
    let name := Assoc.find data "name".toList
    match Assoc.find data "filename".toList with
    | some _ =>
      match name with
      | none => .error (.notString, form)
      | some key =>
        if key ∈ env.files ∧ Assoc.find form.result key = none then parseFile env parseEnd key climit flimit ip form
        else
          match copyPart env.toPartEnv (fun _ => true) (some flimit) .fileLimitExceeded ip with
          | .error e => .error (e, form)
          | .ok (_, ip, n) => parseEnd climit (flimit - n) ip form
    | none =>
      match copyPart env.toPartEnv (fun _ => true) (some climit) .contentLimitExceeded ip with
      | .error e => .error (e, form)
      | .ok (content, ip, n) =>
        match name with
        | none => .error (.notString, form)
        | some name =>
          parseEnd (climit - n) flimit ip
            { form with result := Assoc.set form.result name (.text (env.text.decode content)) }

/-- Each round takes two bytes, so the fuel is enough. -/
def parseEnd (env : FormEnv) : Nat → AfterPart
  | 0, _, _, _, form => .error (.outOfFuel, form)
  | fuel + 1, climit, flimit, ip, form =>
    match partFollows ip with
    | .error e => .error (e, form)
    | .ok (true, ip) => parseNext env (parseEnd env fuel) climit flimit ip form
    | .ok (false, ip) => .ok (ip, form)

/-- The boundary occurs first. -/
def expectBytes : List UInt8 → InPort → Except FormError InPort
  | [], ip => .ok ip
  | b :: bv, ip => do
    let (x, ip) ← nextU8 ip
    if x = b then expectBytes bv ip else .error .invalidBoundary

def Form.empty : Form := ⟨[], [], 0⟩

/-- What make-copy-until-match is called with. -/
def delimiter (boundary : List Char) : List UInt8 := utf8 ('\r' :: '\n' :: boundary)

/-- parse-multipart/form-data, with the option header-limit. -/
def parseMultipart (t : Text) (disk : Disk) (headerLimit : Int) (boundary : List Char) (contentLimit fileLimit : Int)
    (files : List (List Char)) (ip : InPort) : Outcome :=
  match makePartial (delimiter boundary) with
  | .error e => .error (.search e, Form.empty)
  | .ok table =>
    match expectBytes (utf8 boundary) ip with
    | .error e => .error (e, Form.empty)
    | .ok ip =>
      parseEnd ⟨⟨t, headerLimit, delimiter boundary, table⟩, files, disk⟩ (ip.rest.length + 1) contentLimit fileLimit ip
        Form.empty

/-- The files that delete-tmp-files deletes. -/
def deleteTmpFiles (params : List (List Char × FormValue)) : List Nat :=
  params.filterMap fun kv =>
    match kv.2 with
    | .file fn => some fn
    | .text _ => none

end Swish.Http
