import Swish.Lib.Assoc

/-!
parse-arguments of cli.ss. The help and usage of a spec, which are for display only, are left out,
and fail is a procedure that returns.
-/

set_option autoImplicit false

namespace Swish.Cli

abbrev Name := String

abbrev Arg := List Char

/-- The predicates of Unicode characters. -/
structure Chars where
  numeric : Char → Bool
  whitespace : Char → Bool

/-- The patterns of a list type that valid-type? accepts: the last one can be for all arguments that
are left, or for as many as are no options. -/
inductive Patterns where
  | none
  | rest (p : String)
  | many (p : String)
  | one (p : String) (patterns : Patterns)
  deriving DecidableEq

inductive SpecType where
  | bool
  | count
  | string (s : String)
  | list (patterns : Patterns)
  deriving DecidableEq

/-- The tuple <arg-spec>. -/
structure Spec where
  name : Name
  type : SpecType
  short : Option Char
  long : Option Arg
  conflicts : List Name
  requires : List Name
  deriving DecidableEq

/-- A key of option->spec. -/
inductive Opt where
  | short (c : Char)
  | long (s : Arg)
  deriving DecidableEq

inductive BadSpec where
  | short (c : Char) (s : Spec)
  | type (s : Spec)
  | duplicateSpec (name : Name) (s : Spec)
  | missingSpecs (names : List Name) (s : Spec)
  | duplicateOptionSpec (o : Opt) (s : Spec)
  deriving DecidableEq

def validShortChar (C : Chars) (c : Char) : Bool := c ≠ '-' && !C.numeric c && !C.whitespace c

/-- A type that is a flag or a count needs a short or a long option. -/
def validType (s : Spec) : Bool :=
  match s.type with
  | .bool | .count => s.short.isSome || s.long.isSome
  | .string _ | .list _ => true

/-- The first loop of check-specs, with the names that it has put in ht. -/
def checkNames (C : Chars) : List Spec → List Name → Except BadSpec (List Name)
  | [], names => .ok names
  | s :: specs, names =>
    match s.short.filter fun c => !validShortChar C c with
    | some c => .error (.short c s)
    | none =>
      if validType s then
        if s.name ∈ names then .error (.duplicateSpec s.name s) else checkNames C specs (s.name :: names)
      else .error (.type s)

/-- The second loop of check-specs. -/
def checkRefs (names : List Name) : List Spec → Except BadSpec Unit
  | [] => .ok ()
  | s :: specs =>
    if s.conflicts.all (· ∈ names) then
      if s.requires.all (· ∈ names) then checkRefs names specs
      else .error (.missingSpecs (s.requires.filter (· ∉ names)) s)
    else .error (.missingSpecs (s.conflicts.filter (· ∉ names)) s)

def checkSpecs (C : Chars) (specs : List Spec) : Except BadSpec Unit :=
  (checkNames C specs []).bind fun names => checkRefs names specs

def addOption (o : Option Opt) (s : Spec) (table : List (Opt × Spec)) : Except BadSpec (List (Opt × Spec)) :=
  match o with
  | none => .ok table
  | some o =>
    if (Assoc.find table o).isSome then .error (.duplicateOptionSpec o s) else .ok (table ++ [(o, s)])

/-- The table option->spec. -/
def optionTable : List Spec → List (Opt × Spec) → Except BadSpec (List (Opt × Spec))
  | [], table => .ok table
  | s :: specs, table =>
    (addOption (s.short.map .short) s table).bind fun table =>
      (addOption (s.long.map .long) s table).bind fun table => optionTable specs table

def positional (s : Spec) : Bool := s.short.isNone && s.long.isNone

inductive Value where
  | true
  | count (n : Nat)
  | string (arg : Arg)
  | list (args : List Arg)
  deriving DecidableEq

/-- A call of fail. -/
inductive Failure where
  | tooManyArguments (ls : List Arg)
  | expectsValue (input : Option Arg) (s : Spec)
  | duplicateOption (input : Arg)
  | unexpected (arg : Arg)
  | conflicts (name : Name) (ls : List Name)
  | requires (name : Name) (ls : List Name)
  deriving DecidableEq

/-- The table ht, and the calls of fail. -/
structure Out where
  ht : List (Name × Value)
  fails : List Failure
  deriving DecidableEq

def Out.fail (out : Out) (f : Failure) : Out := { out with fails := out.fails ++ [f] }

def Out.set (out : Out) (name : Name) (value : Value) : Out := { out with ht := Assoc.set out.ht name value }

def Out.ref (out : Out) (name : Name) : Option Value := Assoc.find out.ht name

def Out.updateList (out : Out) (name : Name) (value : List Arg) : Out :=
  match out.ref name with
  | some (.list old) => out.set name (.list (old ++ value))
  | _ => out.set name (.list value)

def shortish (C : Chars) (x : Arg) : Bool :=
  x[0]? = some '-' && x ≠ ['-'] && (x[1]?).all fun c => !C.numeric c

def startsWithDashes (x : Arg) : Bool := ['-', '-'].isPrefixOf x

def maybeOption (C : Chars) (arg : Arg) : Bool := startsWithDashes arg || (arg ≠ [] && shortish C arg)

/-- What the loop over the patterns of a list ends with: the value and the arguments that are left, or
the arguments at which it has failed. -/
inductive Taken where
  | value (args rest : List Arg)
  | lacks (rest : List Arg)
  deriving DecidableEq

/-- The loop at a pattern for many arguments. -/
def takeMany (C : Chars) : List Arg → List Arg → Taken
  | [], acc => .value acc.reverse []
  | arg :: ls, acc => if maybeOption C arg then .value acc.reverse (arg :: ls) else takeMany C ls (arg :: acc)

/-- The loop lp that take-pos and take-named have both. -/
def takePatterns (C : Chars) : Patterns → List Arg → List Arg → Taken
  | .none, ls, acc => .value acc.reverse ls
  | .rest _, ls, acc => .value (acc.reverse ++ ls) []
  | .many _, ls, acc => takeMany C ls acc
  | .one _ patterns, ls, acc =>
    match ls with
    | [] => .lacks []
    | arg :: rest => if maybeOption C arg then .lacks ls else takePatterns C patterns rest (arg :: acc)

/-- The arguments of a call of take-opt, and what has been done before it. -/
structure Conf where
  ls : List Arg
  posSpecs : List Spec
  out : Out
  deriving DecidableEq

/-- take-opt returns, or it calls itself with or without a call of take-pos or take-named, or a match
in these has no clause. -/
inductive Step where
  | done (out : Out)
  | next (conf : Conf)
  | badMatch
  deriving DecidableEq

def takeList (C : Chars) (input : Option Arg) (spec : Spec) (patterns : Patterns) (ls : List Arg)
    (posSpecs : List Spec) (out : Out) : Step :=
  match takePatterns C patterns ls [] with
  | .value args rest => .next ⟨rest, posSpecs, out.updateList spec.name args⟩
  | .lacks rest => .next ⟨rest, posSpecs, out.fail (.expectsValue input spec)⟩

/-- take-pos, where args are all the arguments of the command line. -/
def takePos (C : Chars) (args : List Arg) (arg : Arg) (rest : List Arg) (posSpecs : List Spec) (out : Out) : Step :=
  match posSpecs with
  | [] => .next ⟨rest, [], out.fail (.tooManyArguments args)⟩
  | spec :: posSpecs =>
    match spec.type with
    | .string _ => .next ⟨rest, posSpecs, out.set spec.name (.string arg)⟩
    | .list patterns => takeList C none spec patterns (arg :: rest) posSpecs out
    | _ => .badMatch

def takeNamed (C : Chars) (input : Arg) (rest : List Arg) (spec : Spec) (posSpecs : List Spec) (out : Out) : Step :=
  match spec.type with
  | .bool =>
    if (out.ref spec.name).isSome then
      .next ⟨rest, posSpecs, (out.fail (.duplicateOption input)).set spec.name .true⟩
    else .next ⟨rest, posSpecs, out.set spec.name .true⟩
  | .count =>
    match out.ref spec.name with
    | some (.count n) => .next ⟨rest, posSpecs, out.set spec.name (.count (n + 1))⟩
    | _ => .next ⟨rest, posSpecs, out.set spec.name (.count 1)⟩
  | .string _ =>
    match rest with
    | [] => .next ⟨rest, posSpecs, out.fail (.expectsValue (some input) spec)⟩
    | arg :: rest' =>
      if maybeOption C arg then .next ⟨rest, posSpecs, out.fail (.expectsValue (some input) spec)⟩
      else if (out.ref spec.name).isSome then .next ⟨rest', posSpecs, out.fail (.duplicateOption input)⟩
      else .next ⟨rest', posSpecs, out.set spec.name (.string arg)⟩
  | .list patterns => takeList C (some input) spec patterns rest posSpecs out

/-- The options of a group, each by itself. -/
def ungroup (arg : Arg) : List Arg := (arg.drop 1).map fun c => ['-', c]

/-- The body of take-opt. -/
def takeOptStep (C : Chars) (args : List Arg) (table : List (Opt × Spec)) (conf : Conf) : Step :=
  match conf.ls with
  | [] => .done conf.out
  | arg :: rest =>
    if arg = [] then takePos C args arg rest conf.posSpecs conf.out
    else if startsWithDashes arg then
      match Assoc.find table (.long (arg.drop 2)) with
      | some s => takeNamed C arg rest s conf.posSpecs conf.out
      | none => .next ⟨rest, conf.posSpecs, conf.out.fail (.unexpected arg)⟩
    else if shortish C arg then
      if 2 < arg.length then .next ⟨ungroup arg ++ rest, conf.posSpecs, conf.out⟩
      else
        match (arg[1]?).bind fun c => Assoc.find table (.short c) with
        | some s => takeNamed C arg rest s conf.posSpecs conf.out
        | none => .next ⟨rest, conf.posSpecs, conf.out.fail (.unexpected arg)⟩
    else takePos C args arg rest conf.posSpecs conf.out

/-- Ways for the arguments not to be parsed: the specs are not valid, take-opt is still busy, or a
match has no clause. -/
inductive Halt where
  | badSpec (b : BadSpec)
  | running
  | badMatch
  deriving DecidableEq

def takeOpt (C : Chars) (args : List Arg) (table : List (Opt × Spec)) : Nat → Conf → Except Halt Out
  | 0, _ => .error .running
  | fuel + 1, conf =>
    match takeOptStep C args table conf with
    | .done out => .ok out
    | .next conf => takeOpt C args table fuel conf
    | .badMatch => .error .badMatch

/-- The names among ls that make fail be called for the spec with a name of the table. -/
def clashes (specs : List Spec) (select : Spec → List Name) (clash : Name → Bool) (name : Name) : List Name :=
  match specs.find? fun s => s.name = name with
  | some s => (select s).filter clash
  | none => []

/-- check-conflicts. -/
def checkConflicts (specs : List Spec) (out : Out) : Out :=
  out.ht.foldl (fun o x =>
    let ls := clashes specs Spec.conflicts (fun y => (out.ref y).isSome) x.1
    if ls = [] then o else o.fail (.conflicts x.1 ls)) out

/-- check-requires. -/
def checkRequires (specs : List Spec) (out : Out) : Out :=
  out.ht.foldl (fun o x =>
    let ls := clashes specs Spec.requires (fun y => (out.ref y).isNone) x.1
    if ls = [] then o else o.fail (.requires x.1 ls)) out

/-- parse-arguments up to the procedure that it returns, which looks names up in the table. -/
def parseArguments (C : Chars) (fuel : Nat) (specs : List Spec) (ls : List Arg) : Except Halt Out :=
  match checkSpecs C specs with
  | .error b => .error (.badSpec b)
  | .ok _ =>
    match optionTable specs [] with
    | .error b => .error (.badSpec b)
    | .ok table =>
      (takeOpt C ls table fuel ⟨ls, specs.filter positional, ⟨[], []⟩⟩).map fun out =>
        checkRequires specs (checkConflicts specs out)

end Swish.Cli
