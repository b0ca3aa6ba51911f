import Swish.Pregexp.Syntax

/-!
The reader of pregexp.ss. Its state is the process parameter pregexp-space-sensitive?; what it
reads comes with the index that follows. The indices go up to n, the length of the pattern.
-/

set_option autoImplicit false

namespace Swish.Pregexp

abbrev Reader := StateT Bool (Except Failure)

/-- (string-ref s i). -/
def stringRef (s : List Char) (i : Nat) : Except Failure Char :=
  match s[i]? with
  | some c => .ok c
  | none => .error .notValid

/-- string->number of characters that are char-numeric?. -/
def stringToNumber (r : List Char) : Option Nat :=
  if r ≠ [] ∧ r.all NaturalString.charDigit then some (r.foldl (fun n c => NaturalString.toDigit c + n * 10) 0) else none

section

variable (C : Chars) (s : List Char)

/-- The number after a backslash at i, and what follows. -/
def readEscapedNumber (i : Nat) : Option (Option Nat × Nat) :=
  match (s.drop (i + 1)).takeWhile C.numeric with
  | [] => none
  | r => some (stringToNumber r, i + 1 + r.length)

def readEscapedChar (i : Nat) : Option (Re × Nat) :=
  (s[i + 1]?).map fun c =>
    let re :=
      match c with
      | 'b' => .symbol .wbdry
      | 'B' => .symbol .notWbdry
      | 'd' => .symbol (.cls .digit)
      | 'D' => .negChar (.symbol (.cls .digit))
      | 'n' => .char '\n'
      | 'r' => .char '\r'
      | 's' => .symbol (.cls .space)
      | 'S' => .negChar (.symbol (.cls .space))
      | 't' => .char '\t'
      | 'w' => .symbol (.cls .word)
      | 'W' => .negChar (.symbol (.cls .word))
      | c => .char c
    (re, i + 2)

/-- The loop of pregexp-read-posix-char-class over the characters from i on. -/
def readPosixCharClass : List Char → Bool → List Char → Nat → Except Failure (Re × Nat)
  | [], _, _, _ => .error .readPosixCharClass
  | c :: rest, neg, r, i =>
    if c = '^' then readPosixCharClass rest true r (i + 1)
    else if C.alphabetic c then readPosixCharClass rest neg (c :: r) (i + 1)
    else if c = ':' then
      if rest.head? = some ']' then
        let re := Re.symbol (Symbol.ofName r.reverse)
        .ok (if neg then .negChar re else re, i + 2)
      else .error .readPosixCharClass
    else .error .readPosixCharClass

/-- The loop of pregexp-read-char-list, over what is read so far. -/
def readCharList : Nat → List Re → Nat → Except Failure (Re × Nat)
  | 0, _, _ => .error .outOfFuel
  | fuel + 1, r, i =>
    if s.length ≤ i then .error .charClassEndedTooSoon
    else do
      let c ← stringRef s i
      if c = ']' then
        if r.isEmpty then readCharList fuel (.char c :: r) (i + 1) else pure (.oneOfChars r.reverse, i + 1)
      else if c = '\\' then
        match readEscapedChar s i with
        | some (re, i) => readCharList fuel (re :: r) i
        | none => throw .charListBackslash
      else if c = '-' then
        if r.isEmpty || s[i + 1]? == some ']' then readCharList fuel (.char c :: r) (i + 1)
        else
          match r with
          | .char prev :: r' => do
            let hi ← stringRef s (i + 1)
            readCharList fuel (.charRange prev hi :: r') (i + 2)
          | _ => readCharList fuel (.char c :: r) (i + 1)
      else if c = '[' then do
        if (← stringRef s (i + 1)) = ':' then
          let (re, i) ← readPosixCharClass C (s.drop (i + 2)) false [] (i + 2)
          readCharList fuel (re :: r) i
        else readCharList fuel (.char c :: r) (i + 1)
      else readCharList fuel (.char c :: r) (i + 1)

/-- The loop of pregexp-read-nums over the characters from k on; second tells that reading is 2. -/
def readNums (sensitive : Bool) :
    List Char → List Char → List Char → Nat → Bool → Except Failure (Option (Option Nat × Option Nat × Nat))
  | [], _, _, _, _ => .error .readNums
  | c :: rest, p, q, k, second =>
    if C.numeric c then
      if second then readNums sensitive rest p (c :: q) (k + 1) true else readNums sensitive rest (c :: p) q (k + 1) false
    else if C.whitespace c && !sensitive then readNums sensitive rest p q (k + 1) second
    else if c = ',' && !second then readNums sensitive rest p q (k + 1) true
    else if c = '}' then
      let p := stringToNumber p.reverse
      let q := stringToNumber q.reverse
      if p.isNone && !second then .ok (some (some 0, none, k))
      else if second then .ok (some (p, q, k))
      else .ok (some (p, p, k))
    else .ok none

/-- Where a loop that skips whitespace stops. -/
def skipWhitespace (sensitive : Bool) (i : Nat) : Nat :=
  if sensitive then i else i + ((s.drop i).takeWhile C.whitespace).length

/-- What follows a quantifier whose last character is at i: whether it is minimal, and the next index. -/
def readMinimal (sensitive : Bool) (i : Nat) : Bool × Nat :=
  let j := skipWhitespace C s sensitive (i + 1)
  if s[j]? = some '?' then (true, j + 1) else (false, j)

def wrapQuantifierIfAny (vv : Re × Nat) : Reader (Re × Nat) := fun sensitive =>
  let j := skipWhitespace C s sensitive vv.2
  let quantified (p q : Option Nat) (i : Nat) : Except Failure ((Re × Nat) × Bool) :=
    let (minimal, next) := readMinimal C s sensitive i
    .ok ((.between minimal p q vv.1, next), sensitive)
  match s[j]? with
  | some '*' => quantified (some 0) none j
  | some '+' => quantified (some 1) none j
  | some '?' => quantified (some 0) (some 1) j
  | some '{' =>
    match readNums C sensitive (s.drop (j + 1)) [] [] (j + 1) false with
    | .ok (some (p, q, k)) => quantified p q k
    | .ok none => .error .wrapQuantifierIfAny
    | .error e => .error e
  | _ => .ok (vv, sensitive)

/-- A prefix that pregexp-read-subpattern puts before the pattern of a cluster. -/
inductive Cluster where
  | sub
  | lookahead
  | negLookahead
  | noBacktrack
  | lookbehind
  | negLookbehind
  | caseSensitive
  | caseInsensitive

/-- The letters of a cluster, from i on; inv is set by a minus sign. -/
def readFlags : List Char → List Cluster → Bool → Nat → Reader (List Cluster × Nat)
  | [], _, _, _ => throw .notValid
  | c :: rest, r, inv, i =>
    match c with
    | '-' => readFlags rest r true (i + 1)
    | 'i' => readFlags rest ((if inv then .caseSensitive else .caseInsensitive) :: r) false (i + 1)
    | 'x' => do
      set inv
      readFlags rest r false (i + 1)
    | ':' => pure (r, i + 1)
    | _ => throw .readClusterType

def readClusterType (i : Nat) : Reader (List Cluster × Nat) := do
  let c ← stringRef s i
  if c = '?' then
    match ← stringRef s (i + 1) with
    | ':' => pure ([], i + 2)
    | '=' => pure ([.lookahead], i + 2)
    | '!' => pure ([.negLookahead], i + 2)
    | '>' => pure ([.noBacktrack], i + 2)
    | '<' =>
      match ← stringRef s (i + 2) with
      | '=' => pure ([.lookbehind], i + 3)
      | '!' => pure ([.negLookbehind], i + 3)
      | _ => throw .readClusterType
    | _ => readFlags (s.drop (i + 1)) [] false (i + 1)
  else pure ([.sub], i)

/-- (list type re), for a cluster that starts at id. -/
def Cluster.wrap (id : Nat) (re : Re) : Cluster → Re
  | .sub => .sub id re
  | .lookahead => .lookahead re
  | .negLookahead => .negLookahead re
  | .noBacktrack => .noBacktrack re
  | .lookbehind => .lookbehind re
  | .negLookbehind => .negLookbehind re
  | .caseSensitive => .caseSensitive re
  | .caseInsensitive => .caseInsensitive re

/-- Where a run of whitespace and comments ends. -/
def skipComments : List Char → Bool → Nat → Nat
  | [], _, i => i
  | c :: rest, comment, i =>
    if comment then skipComments rest (c != '\n') (i + 1)
    else if C.whitespace c then skipComments rest false (i + 1)
    else if c = ';' then skipComments rest true (i + 1)
    else i

mutual

def readPattern : Nat → Nat → Reader (Re × Nat)
  | 0, _ => throw .outOfFuel
  | fuel + 1, i => if s.length ≤ i then pure (.or [.seq []], i) else readBranches fuel [] i
termination_by structural fuel => fuel

/-- The loop of pregexp-read-pattern. -/
def readBranches : Nat → List Re → Nat → Reader (Re × Nat)
  | 0, _, _ => throw .outOfFuel
  | fuel + 1, branches, i =>
    match s[i]? with
    | none | some ')' => pure (.or branches.reverse, i)
    | some c => do
      let (re, i) ← readBranch fuel [] (if c = '|' then i + 1 else i)
      readBranches fuel (re :: branches) i
termination_by structural fuel => fuel

def readBranch : Nat → List Re → Nat → Reader (Re × Nat)
  | 0, _, _ => throw .outOfFuel
  | fuel + 1, pieces, i =>
    match s[i]? with
    | none | some '|' | some ')' => pure (.seq pieces.reverse, i)
    | some c => do
      let (re, i) ← readPiece fuel c i
      readBranch fuel (re :: pieces) i
termination_by structural fuel => fuel

/-- The piece that starts with the character c at i. -/
def readPiece : Nat → Char → Nat → Reader (Re × Nat)
  | 0, _, _ => throw .outOfFuel
  | fuel + 1, c, i =>
    match c with
    | '^' => pure (.symbol .bos, i + 1)
    | '$' => pure (.symbol .eos, i + 1)
    | '.' => wrapQuantifierIfAny C s (.symbol (.cls .any), i + 1)
    | '[' => do
      if s[i + 1]? = some '^' then
        let (re, i) ← readCharList C s (s.length + 1) [] (i + 2)
        wrapQuantifierIfAny C s (.negChar re, i)
      else
        let vv ← readCharList C s (s.length + 1) [] (i + 1)
        wrapQuantifierIfAny C s vv
    | '(' => do
      let vv ← readSubpattern fuel (i + 1)
      wrapQuantifierIfAny C s vv
    | '\\' =>
      match readEscapedNumber C s i with
      | some (k, i) => wrapQuantifierIfAny C s (.backref k, i)
      | none =>
        match readEscapedChar s i with
        | some vv => wrapQuantifierIfAny C s vv
        | none => throw .readPiece
    | c => do
      if (← get) || (!C.whitespace c && c != ';') then wrapQuantifierIfAny C s (.char c, i + 1)
      else pure (.symbol .empty, skipComments C (s.drop i) false i)
termination_by structural fuel => fuel

def readSubpattern : Nat → Nat → Reader (Re × Nat)
  | 0, _ => throw .outOfFuel
  | fuel + 1, start => do
    let rememberSpaceSensitive ← get
    let (ctyp, i) ← readClusterType s start
    let (re, i) ← readPattern fuel i
    set rememberSpaceSensitive
    if s[i]? = some ')' then pure (ctyp.foldl (Cluster.wrap start) re, i + 1) else throw .readSubpattern
termination_by structural fuel => fuel

end

/-- The compiled pattern of a string. -/
def pregexp : Except Failure Re := do
  let ((re, _), _) ← readPattern C s (5 * (s.length + 1)) 0 true
  pure (.sub 0 re)

end

end Swish.Pregexp
