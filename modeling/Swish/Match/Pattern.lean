/-!
Patterns of match, without the extended ones, and what they mean. A pattern is read
from left to right, and what it binds on the way is seen by what comes after.
-/

set_option autoImplicit false

namespace Swish.Match

abbrev Ident := String

/-- One constructor for each clause of convert. A literal is a symbol, a number, a
boolean or a character, up to eqv?. -/
inductive Pattern (A : Type) where
  /-- ,(v <= pattern) -/
  | named (v : Ident) (pattern : Pattern A)
  /-- ,v and ,_ -/
  | unquote (v : Ident)
  /-- ,@var -/
  | unquoteSplicing (var : Ident)
  | lit (lit : A)
  | string (s : String)
  | eof
  | bytevector (bv : List UInt8)
  | null
  | pair (first rest : Pattern A)
  | vector (elements : List (Pattern A))

/-- What the predicates and accessors tell about an object. -/
inductive View (A V : Type) where
  | atom (a : A)
  | string (s : String)
  | eof
  | bytevector (bv : List UInt8)
  | null
  | pair (car cdr : V)
  | vector (elements : List V)
  | other

/-- The objects of the run-time system. They may share structure and have cycles. -/
structure Objects (A V : Type) where
  view : V → View A V
  equal : V → V → Bool
  void : V

variable {A V : Type}

mutual

/-- The variables of a pattern from left to right. -/
def Pattern.vars : Pattern A → List Ident
  | .named v pattern => v :: pattern.vars
  | .unquote v => if v = "_" then [] else [v]
  | .pair first rest => first.vars ++ rest.vars
  | .vector elements => elementVars elements
  | _ => []

def elementVars : List (Pattern A) → List Ident
  | [] => []
  | p :: ps => p.vars ++ elementVars ps

end

mutual

/-- No ,@var refers to a variable that is bound further right, or in later. -/
def Pattern.Backward : Pattern A → List Ident → Prop
  | .named _ pattern, later => pattern.Backward later
  | .unquoteSplicing var, later => var ∉ later
  | .pair first rest, later => first.Backward (rest.vars ++ later) ∧ rest.Backward later
  | .vector elements, later => ElementsBackward elements later
  | _, _ => True

def ElementsBackward : List (Pattern A) → List Ident → Prop
  | [], _ => True
  | p :: ps, later => p.Backward (elementVars ps ++ later) ∧ ElementsBackward ps later

end

/-- The patterns that can be compiled, and whose references are to the left. -/
structure Pattern.Proper (p : Pattern A) : Prop where
  nodup : p.vars.Nodup
  backward : p.Backward []

def bindTo (env : Ident → V) (x : Ident) (v : V) : Ident → V := fun y => if y = x then v else env y

def extend (env : Ident → V) : List (Ident × V) → Ident → V
  | [] => env
  | (x, v) :: bs => extend (bindTo env x v) bs

mutual

/-- The object v matches the pattern, and these are the bindings. -/
def Matches (o : Objects A V) (env : Ident → V) : Pattern A → V → List (Ident × V) → Prop
  | .named x pattern, v, bs => ∃ bs', Matches o (bindTo env x v) pattern v bs' ∧ bs = (x, v) :: bs'
  | .unquote x, v, bs => bs = if x = "_" then [] else [(x, v)]
  | .unquoteSplicing x, v, bs => o.equal v (env x) = true ∧ bs = []
  | .lit a, v, bs => o.view v = .atom a ∧ bs = []
  | .string s, v, bs => o.view v = .string s ∧ bs = []
  | .eof, v, bs => o.view v = .eof ∧ bs = []
  | .bytevector bv, v, bs => o.view v = .bytevector bv ∧ bs = []
  | .null, v, bs => o.view v = .null ∧ bs = []
  | .pair first rest, v, bs => ∃ car cdr bs₁ bs₂, o.view v = .pair car cdr ∧
      Matches o env first car bs₁ ∧ Matches o (extend env bs₁) rest cdr bs₂ ∧ bs = bs₁ ++ bs₂
  | .vector elements, v, bs => ∃ vs, o.view v = .vector vs ∧ MatchesAll o env elements vs bs

def MatchesAll (o : Objects A V) (env : Ident → V) : List (Pattern A) → List V → List (Ident × V) → Prop
  | [], vs, bs => vs = [] ∧ bs = []
  | p :: ps, vs, bs => ∃ v vs' bs₁ bs₂, vs = v :: vs' ∧
      Matches o env p v bs₁ ∧ MatchesAll o (extend env bs₁) ps vs' bs₂ ∧ bs = bs₁ ++ bs₂

end

theorem extend_append (env : Ident → V) (bs bs' : List (Ident × V)) :
    extend env (bs ++ bs') = extend (extend env bs) bs' := by
  induction bs generalizing env with
  | nil => rfl
  | cons b bs ih => exact ih _

variable {o : Objects A V}

mutual

theorem matches_vars (p : Pattern A) {env : Ident → V} {v : V} {bs : List (Ident × V)}
    (h : Matches o env p v bs) : bs.map Prod.fst = p.vars := by
  cases p with
  | named x pattern =>
    obtain ⟨bs', hm, rfl⟩ := h
    rw [List.map_cons, matches_vars pattern hm, Pattern.vars]
  | unquote x =>
    rw [Matches] at h
    rw [h, Pattern.vars]
    split <;> rfl
  | pair first rest =>
    obtain ⟨car, cdr, bs₁, bs₂, -, h1, h2, rfl⟩ := h
    rw [List.map_append, matches_vars first h1, matches_vars rest h2, Pattern.vars]
  | vector elements =>
    obtain ⟨vs, -, hm⟩ := h
    rw [matchesAll_vars elements hm, Pattern.vars]
  | unquoteSplicing _ | lit _ | string _ | eof | bytevector _ | null =>
    obtain ⟨-, rfl⟩ := h
    rfl

theorem matchesAll_vars (ps : List (Pattern A)) {env : Ident → V} {vs : List V} {bs : List (Ident × V)}
    (h : MatchesAll o env ps vs bs) : bs.map Prod.fst = elementVars ps := by
  cases ps with
  | nil =>
    obtain ⟨-, rfl⟩ := h
    rfl
  | cons p ps =>
    obtain ⟨v, vs', bs₁, bs₂, -, h1, h2, rfl⟩ := h
    rw [List.map_append, matches_vars p h1, matchesAll_vars ps h2, elementVars]

end

theorem matchesAll_length (ps : List (Pattern A)) {env : Ident → V} {vs : List V} {bs : List (Ident × V)}
    (h : MatchesAll o env ps vs bs) : vs.length = ps.length := by
  induction ps generalizing env vs bs with
  | nil =>
    obtain ⟨rfl, -⟩ := h
    rfl
  | cons p ps ih =>
    obtain ⟨v, vs', bs₁, bs₂, rfl, -, h2, -⟩ := h
    rw [List.length_cons, ih h2, List.length_cons]

mutual

theorem matches_unique (p : Pattern A) {env : Ident → V} {v : V} {bs bs' : List (Ident × V)}
    (h : Matches o env p v bs) (h' : Matches o env p v bs') : bs = bs' := by
  cases p with
  | named x pattern =>
    obtain ⟨bs₁, hm, rfl⟩ := h
    obtain ⟨bs₂, hm', rfl⟩ := h'
    rw [matches_unique pattern hm hm']
  | unquote x =>
    rw [Matches] at h h'
    rw [h, h']
  | pair first rest =>
    obtain ⟨car, cdr, bs₁, bs₂, hv, h1, h2, rfl⟩ := h
    obtain ⟨car', cdr', bs₁', bs₂', hv', h1', h2', rfl⟩ := h'
    rw [hv] at hv'
    cases hv'
    cases matches_unique first h1 h1'
    rw [matches_unique rest h2 h2']
  | vector elements =>
    obtain ⟨vs, hv, hm⟩ := h
    obtain ⟨vs', hv', hm'⟩ := h'
    rw [hv] at hv'
    cases hv'
    exact matchesAll_unique elements hm hm'
  | unquoteSplicing _ | lit _ | string _ | eof | bytevector _ | null =>
    obtain ⟨-, rfl⟩ := h
    obtain ⟨-, rfl⟩ := h'
    rfl

theorem matchesAll_unique (ps : List (Pattern A)) {env : Ident → V} {vs : List V}
    {bs bs' : List (Ident × V)} (h : MatchesAll o env ps vs bs) (h' : MatchesAll o env ps vs bs') : bs = bs' := by
  cases ps with
  | nil =>
    obtain ⟨-, rfl⟩ := h
    obtain ⟨-, rfl⟩ := h'
    rfl
  | cons p ps =>
    obtain ⟨v, vs₁, bs₁, bs₂, rfl, h1, h2, rfl⟩ := h
    obtain ⟨v', vs₁', bs₁', bs₂', hvs, h1', h2', rfl⟩ := h'
    cases hvs
    cases matches_unique p h1 h1'
    rw [matchesAll_unique ps h2 h2']

end

end Swish.Match
