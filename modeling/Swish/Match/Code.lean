import Swish.Match.Pattern

/-!
The code that match-help makes of a pattern, in nested mode and in define mode, and
what it does.
-/

set_option autoImplicit false

namespace Swish.Match

/-- The identifiers of the pattern, and those that with-temporaries makes. -/
inductive Var where
  | user (x : Ident)
  | temp (n : Nat)
  deriving DecidableEq

/-- The expressions that a pattern is matched with. -/
inductive Exp where
  | var (v : Var)
  | car (v : Var)
  | cdr (v : Var)
  | vectorRef (v : Var) (i : Nat)

inductive Test (A : Type) where
  | equal (e : Exp) (var : Ident)
  | eqv (v : Var) (lit : A)
  | isString (v : Var) (s : String)
  | isEof (v : Var)
  | isBytevector (v : Var) (bv : List UInt8)
  | isNull (v : Var)
  | isPair (v : Var)
  | isVector (v : Var) (len : Nat)

/-- The hole is where the body goes. -/
inductive Code (A : Type) where
  | hole
  /-- (let ([v e]) code) -/
  | letIn (v : Var) (e : Exp) (code : Code A)
  /-- (if pred code (fail)) -/
  | ifElse (pred : Test A) (code : Code A)
  /-- (begin (define v e) code) -/
  | beginDefine (v : Var) (e : Exp) (code : Code A)
  /-- (begin (define tmp (unless pred (fail))) code) -/
  | beginTest (tmp : Var) (pred : Test A) (code : Code A)

variable {A V : Type}

/-- The next temporary and bound-vars of reject-duplicate. -/
structure Gen where
  next : Nat
  boundVars : List Ident

/-- Making code, which fails at a duplicate pattern variable. -/
abbrev Make (A : Type) := Gen → Except Ident (Code A × Gen)

def done (code : Code A) : Make A := fun g => .ok (code, g)

def rejectDuplicate (id : Ident) (g : Gen) : Except Ident Gen :=
  if id ∈ g.boundVars then .error id else .ok { g with boundVars := id :: g.boundVars }

def bindHelp (nested : Bool) (v : Var) (e : Exp) (code : Code A) : Code A :=
  if nested then .letIn v e code else .beginDefine v e code

def bindVar (nested : Bool) (v : Ident) (e : Exp) (expr : Make A) : Make A := fun g => do
  let g ← rejectDuplicate v g
  let r ← expr g
  .ok (bindHelp nested (.user v) e r.1, r.2)

def freshVar (nested : Bool) (e : Exp) (expr : Var → Make A) : Make A := fun g => do
  let v := .temp g.next
  let r ← expr v { g with next := g.next + 1 }
  .ok (bindHelp nested v e r.1, r.2)

def test (nested : Bool) (pred : Test A) (body : Make A) : Make A := fun g =>
  if nested then do
    let r ← body g
    .ok (.ifElse pred r.1, r.2)
  else do
    let tmp := .temp g.next
    let r ← body { g with next := g.next + 1 }
    .ok (.beginTest tmp pred r.1, r.2)

mutual

/-- The code for what is on the right is made first. -/
def convert (nested : Bool) (e : Exp) : Pattern A → Code A → Make A
  | .named v pattern, body => bindVar nested v e (convert nested (.var (.user v)) pattern body)
  | .unquote v, body => if v = "_" then done body else bindVar nested v e (done body)
  | .unquoteSplicing var, body => test nested (.equal e var) (done body)
  | .lit lit, body => freshVar nested e fun v => test nested (.eqv v lit) (done body)
  | .string s, body => freshVar nested e fun v => test nested (.isString v s) (done body)
  | .eof, body => freshVar nested e fun v => test nested (.isEof v) (done body)
  | .bytevector bv, body => freshVar nested e fun v => test nested (.isBytevector v bv) (done body)
  | .null, body => freshVar nested e fun v => test nested (.isNull v) (done body)
  | .pair first rest, body => freshVar nested e fun v => test nested (.isPair v) fun g => do
      let r ← convert nested (.cdr v) rest body g
      convert nested (.car v) first r.1 r.2
  | .vector elements, body => freshVar nested e fun v => test nested (.isVector v elements.length) fun g =>
      convertElements nested v 0 elements body g

def convertElements (nested : Bool) (v : Var) (i : Nat) : List (Pattern A) → Code A → Make A
  | [], body => done body
  | elt :: elts, body => fun g => do
      let r ← convertElements nested v (i + 1) elts body g
      convert nested (.vectorRef v i) elt r.1 r.2

end

/-- match-help for a pattern without extended patterns. -/
def matchHelp (nested : Bool) (e : Exp) (pattern : Pattern A) (next : Nat) : Except Ident (Code A) := do
  let r ← convert nested e pattern .hole ⟨next, []⟩
  .ok r.1

/-- What the variables are bound to. Those that are defined later on have no value
yet. -/
def Env (V : Type) := Var → Option V

/-- The variables that a programmer sees. -/
abbrev Scope (V : Type) := Ident → Option V

def Env.set (ρ : Env V) (x : Var) (v : V) : Env V := fun y => if y = x then some v else ρ y

def Env.scope (ρ : Env V) : Scope V := fun x => ρ (.user x)

/-- How the code ends: at the body, at (fail), or because a variable has no value or
an accessor is applied to the wrong object. -/
inductive Outcome (V : Type) where
  | body (ρ : Env V)
  | failed
  | undefined

def eval (o : Objects A V) (ρ : Env V) : Exp → Option V
  | .var x => ρ x
  | .car x => (ρ x).bind fun v => match o.view v with
    | .pair car _ => some car
    | _ => none
  | .cdr x => (ρ x).bind fun v => match o.view v with
    | .pair _ cdr => some cdr
    | _ => none
  | .vectorRef x i => (ρ x).bind fun v => match o.view v with
    | .vector elements => elements[i]?
    | _ => none

def View.isAtom [DecidableEq A] (lit : A) : View A V → Bool
  | .atom a => a = lit
  | _ => false

def View.isString (s : String) : View A V → Bool
  | .string s' => s' = s
  | _ => false

def View.isEof : View A V → Bool
  | .eof => true
  | _ => false

def View.isBytevector (bv : List UInt8) : View A V → Bool
  | .bytevector bv' => bv' = bv
  | _ => false

def View.isNull : View A V → Bool
  | .null => true
  | _ => false

def View.isPair : View A V → Bool
  | .pair _ _ => true
  | _ => false

def View.isVector (len : Nat) : View A V → Bool
  | .vector elements => elements.length = len
  | _ => false

variable [DecidableEq A]

def holds (o : Objects A V) (ρ : Env V) : Test A → Option Bool
  | .equal e var => (eval o ρ e).bind fun v => (ρ (.user var)).map fun w => o.equal v w
  | .eqv x lit => (ρ x).map fun v => (o.view v).isAtom lit
  | .isString x s => (ρ x).map fun v => (o.view v).isString s
  | .isEof x => (ρ x).map fun v => (o.view v).isEof
  | .isBytevector x bv => (ρ x).map fun v => (o.view v).isBytevector bv
  | .isNull x => (ρ x).map fun v => (o.view v).isNull
  | .isPair x => (ρ x).map fun v => (o.view v).isPair
  | .isVector x len => (ρ x).map fun v => (o.view v).isVector len

def run (o : Objects A V) (ρ : Env V) : Code A → Outcome V
  | .hole => .body ρ
  | .letIn x e code =>
    match eval o ρ e with
    | some v => run o (ρ.set x v) code
    | none => .undefined
  | .ifElse pred code =>
    match holds o ρ pred with
    | some true => run o ρ code
    | some false => .failed
    | none => .undefined
  | .beginDefine x e code =>
    match eval o ρ e with
    | some v => run o (ρ.set x v) code
    | none => .undefined
  | .beginTest tmp pred code =>
    match holds o ρ pred with
    | some true => run o (ρ.set tmp o.void) code
    | some false => .failed
    | none => .undefined

/-- The variables that the definitions of a body are about. -/
def Code.defines : Code A → List Var
  | .beginDefine x _ code => x :: code.defines
  | .beginTest tmp _ code => tmp :: code.defines
  | _ => []

/-- In a body its variables hide those outside, also before they are defined. -/
def Env.unassigned (ρ : Env V) (xs : List Var) : Env V := fun x => if x ∈ xs then none else ρ x

end Swish.Match
