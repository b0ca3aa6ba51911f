import Swish.Match.Correct

/-!
The macros match, match-let* and match-define. Code is made once and then run in a
scope.
-/

set_option autoImplicit false

namespace Swish.Match

variable {A V R : Type}

/-- How a macro ends: in its body, or in bad-match. -/
inductive Result (V R : Type) where
  | value (r : R)
  | badMatch (v : V)
  | undefined

/-- A clause of match: the pattern, (guard g) if it has one, and b1 b2 ... -/
structure Clause (A V R : Type) where
  pattern : Pattern A
  guard : Option (Scope V → Bool)
  body : Scope V → R

/-- [pattern (guard g) exp] of match-let*. -/
structure Binding (A V : Type) where
  pattern : Pattern A
  guard : Option (Scope V → Bool)
  exp : Scope V → Option V

def guardHolds (guard : Option (Scope V → Bool)) (scope : Scope V) : Bool :=
  match guard with
  | none => true
  | some g => g scope

/-- The variables of the program, before there are temporaries. -/
def Env.ofScope (scope : Scope V) : Env V
  | .user x => scope x
  | .temp _ => none

section

variable [DecidableEq A] (o : Objects A V)

/-- match-one in the scope of (let ([v exp]) ...). -/
def matchOne (pattern : Pattern A) : Except Ident (Scope V → V → Outcome V) := do
  let code ← matchHelp true (.var (.temp 0)) pattern 1
  .ok fun scope v => run o ((Env.ofScope scope).set (.temp 0) v) code

def matchLet (body : Scope V → R) : List (Binding A V) → Except Ident (Scope V → Result V R)
  | [] => .ok fun scope => .value (body scope)
  | b :: bs => do
    let one ← matchOne o b.pattern
    let rest ← matchLet body bs
    .ok fun scope =>
      match b.exp scope with
      | none => .undefined
      | some v =>
        match one scope v with
        | .body ρ => if guardHolds b.guard ρ.scope then rest ρ.scope else .badMatch v
        | .failed => .badMatch v
        | .undefined => .undefined

/-- What fail-false and a guard that does not hold give is the same. -/
def matchPattern (c : Clause A V R) : Except Ident (Scope V → V → Outcome V) := do
  let one ← matchOne o c.pattern
  .ok fun scope v =>
    match one scope v with
    | .body ρ => if guardHolds c.guard ρ.scope then .body ρ else .failed
    | .failed => .failed
    | .undefined => .undefined

/-- match-or of the clauses and bad-match, and then the call of what it gives. -/
def matchOr : List (Clause A V R) → Except Ident (Scope V → V → Result V R)
  | [] => .ok fun _ v => .badMatch v
  | c :: cs => do
    let e0 ← matchPattern o c
    let rest ← matchOr cs
    .ok fun scope v =>
      match e0 scope v with
      | .body ρ => .value (c.body ρ.scope)
      | .failed => rest scope v
      | .undefined => .undefined

/-- The macro match. One clause is a match-let*. -/
def matchExp (exp : Scope V → Option V) : List (Clause A V R) → Except Ident (Scope V → Result V R)
  | [c] => matchLet o c.body [⟨c.pattern, c.guard, exp⟩]
  | cs => do
    let or ← matchOr o cs
    .ok fun scope =>
      match exp scope with
      | none => .undefined
      | some v => or scope v

/-- The macro match-define. Its result is the scope of the definitions after it. -/
def matchDefine (pattern : Pattern A) (e : Scope V → Option V) : Except Ident (Scope V → Result V (Scope V)) := do
  let code ← matchHelp false (.var (.temp 0)) pattern 1
  .ok fun scope =>
    let ρ := (Env.ofScope scope).unassigned code.defines
    match e ρ.scope with
    | none => .undefined
    | some v =>
      match run o (ρ.set (.temp 0) v) code with
      | .body ρ => .value ρ.scope
      | .failed => .badMatch v
      | .undefined => .undefined

end

/-- The scope in which all variables have their values. -/
def bound (env : Ident → V) : Scope V := fun x => some (env x)

/-- The object v matches the pattern of the clause, and its guard holds. -/
def Clause.Accepts (c : Clause A V R) (o : Objects A V) (env : Ident → V) (v : V) : Prop :=
  ∃ bs, Matches o env c.pattern v bs ∧ guardHolds c.guard (bound (extend env bs)) = true

theorem matchHelp_ok {p : Pattern A} (hp : p.Proper) (nested : Bool) (e : Exp) (next : Nat) :
    ∃ code g, convert nested e p .hole ⟨next, []⟩ = .ok (code, g) ∧ matchHelp nested e p next = .ok code := by
  obtain ⟨code, g, hc, -⟩ := convert_makes p hp.nodup nested e .hole ⟨next, []⟩ (by simp)
  exact ⟨code, g, hc, by simp [matchHelp, hc, bind, Except.bind]⟩

/-- The first clause that accepts the object is run, or there is none. -/
inductive Selected (o : Objects A V) (env : Ident → V) (v : V) (cs : List (Clause A V R)) (r : Result V R) :
    Prop where
  | first (before : List (Clause A V R)) (c : Clause A V R) (after : List (Clause A V R)) (bs : List (Ident × V))
      (hcs : cs = before ++ c :: after) (hbefore : ∀ c' ∈ before, ¬ c'.Accepts o env v)
      (hm : Matches o env c.pattern v bs) (hg : guardHolds c.guard (bound (extend env bs)) = true)
      (hr : r = .value (c.body (bound (extend env bs))))
  | none (hnone : ∀ c ∈ cs, ¬ c.Accepts o env v) (hr : r = .badMatch v)

theorem Selected.badMatch_iff {o : Objects A V} {env : Ident → V} {v : V} {cs : List (Clause A V R)} {r : Result V R} (h : Selected o env v cs r) :
    r = .badMatch v ↔ ∀ c ∈ cs, ¬ c.Accepts o env v := by
  cases h with
  | first before c after bs hcs hbefore hm hg hr =>
    refine ⟨fun hbad => ?_, fun hnone => absurd ⟨bs, hm, hg⟩ (hnone c (by simp [hcs]))⟩
    rw [hr] at hbad
    cases hbad
  | none hnone hr => exact ⟨fun _ => hnone, fun _ => hr⟩

section

variable [DecidableEq A] {o : Objects A V} {env : Ident → V} {v : V}

/-- What is to be shown of a pattern: the body with the bindings, or (fail). -/
inductive Settled (o : Objects A V) (env : Ident → V) (p : Pattern A) (v : V) (out : Outcome V) : Prop where
  | body (bs : List (Ident × V)) (hm : Matches o env p v bs) (ρ : Env V)
      (hscope : ρ.scope = bound (extend env bs)) (ho : out = .body ρ)
  | failed (hm : ∀ bs, ¬ Matches o env p v bs) (ho : out = .failed)

theorem settled {p : Pattern A} (hp : p.Proper) {nested : Bool} {e : Exp} {next : Nat} {code : Code A} {g : Gen}
    {ρ : Env V} (hc : convert nested e p .hole ⟨next, []⟩ = .ok (code, g)) (he : eval o ρ e = some v)
    (hk : Known ρ env p.vars) : Settled o env p v (run o ρ code) := by
  rw [← List.append_nil p.vars] at hk
  cases run_convert p hc hp.backward he hk with
  | reaches bs hm ρ' hk' hkeep hrun => exact .body bs hm ρ' (funext fun x => hk' x (by simp)) hrun
  | fails hm hrun => exact .failed hm hrun

theorem known_bound (env : Ident → V) (n : Nat) (v : V) (later : List Ident) :
    Known ((Env.ofScope (bound env)).set (.temp n) v) env later :=
  fun x _ => set_temp_user _ n v x

theorem matchOne_settled {p : Pattern A} (hp : p.Proper) :
    ∃ one, matchOne o p = .ok one ∧ ∀ env v, Settled o env p v (one (bound env) v) := by
  obtain ⟨code, g, hc, hcode⟩ := matchHelp_ok hp true (.var (.temp 0)) 1
  refine ⟨_, by simp only [matchOne, hcode, bind, Except.bind]; rfl, fun env v => ?_⟩
  exact settled hp hc (set_same _ _ v) (known_bound env 0 v p.vars)

/-- What one clause of match-or gives. -/
theorem matchPattern_settled {c : Clause A V R} (hc : c.pattern.Proper) :
    ∃ e0, matchPattern o c = .ok e0 ∧ ∀ env v,
      (∃ bs ρ, Matches o env c.pattern v bs ∧ guardHolds c.guard (bound (extend env bs)) = true ∧
        ρ.scope = bound (extend env bs) ∧ e0 (bound env) v = .body ρ) ∨
      (¬ c.Accepts o env v ∧ e0 (bound env) v = .failed) := by
  obtain ⟨one, hone, hsettled⟩ := @matchOne_settled A V _ o _ hc
  refine ⟨_, by simp only [matchPattern, hone, bind, Except.bind]; rfl, fun env v => ?_⟩
  cases hsettled env v with
  | body bs hm ρ hscope ho =>
    rw [ho]
    dsimp only
    rw [hscope]
    by_cases hg : guardHolds c.guard (bound (extend env bs)) = true
    · rw [if_pos hg]
      exact .inl ⟨bs, ρ, hm, hg, hscope, rfl⟩
    · rw [if_neg hg]
      refine .inr ⟨fun haccepts => ?_, rfl⟩
      obtain ⟨bs', hm', hg'⟩ := haccepts
      rw [matches_unique c.pattern hm' hm] at hg'
      exact hg hg'
  | failed hm ho =>
    rw [ho]
    refine .inr ⟨fun haccepts => ?_, rfl⟩
    obtain ⟨bs, hm', -⟩ := haccepts
    exact hm bs hm'

theorem matchOr_selected (cs : List (Clause A V R)) (hcs : ∀ c ∈ cs, c.pattern.Proper) :
    ∃ or, matchOr o cs = .ok or ∧ ∀ env v, Selected o env v cs (or (bound env) v) := by
  induction cs with
  | nil => exact ⟨_, rfl, fun env v => .none (by simp) rfl⟩
  | cons c cs ih =>
    obtain ⟨e0, he0, hsettled⟩ := @matchPattern_settled A V R _ o c (hcs c (by simp))
    obtain ⟨rest, hrest, hselected⟩ := ih fun c' hc' => hcs c' (List.mem_cons_of_mem _ hc')
    refine ⟨_, by simp only [matchOr, he0, hrest, bind, Except.bind]; rfl, fun env v => ?_⟩
    rcases hsettled env v with ⟨bs, ρ, hm, hg, hscope, he⟩ | ⟨hreject, he⟩
    · rw [he]
      dsimp only
      rw [hscope]
      exact .first [] c cs bs rfl (by simp) hm hg rfl
    · rw [he]
      dsimp only
      cases hselected env v with
      | first before c' after bs hcs' hbefore hm hg hr =>
        refine .first (c :: before) c' after bs (by rw [hcs', List.cons_append]) (fun c'' hc'' => ?_) hm hg hr
        rcases List.mem_cons.mp hc'' with rfl | hc''
        · exact hreject
        · exact hbefore c'' hc''
      | none hnone hr =>
        refine .none (fun c' hc' => ?_) hr
        rcases List.mem_cons.mp hc' with rfl | hc'
        · exact hreject
        · exact hnone c' hc'

/-- match-let* of one binding. -/
theorem matchLet_one {b : Binding A V} (hb : b.pattern.Proper) (body : Scope V → R) :
    ∃ let₁, matchLet o body [b] = .ok let₁ ∧ ∀ env v, b.exp (bound env) = some v →
      Selected o env v [⟨b.pattern, b.guard, body⟩] (let₁ (bound env)) := by
  obtain ⟨one, hone, hsettled⟩ := @matchOne_settled A V _ o _ hb
  refine ⟨_, by simp only [matchLet, hone, bind, Except.bind]; rfl, fun env v hv => ?_⟩
  rw [hv]
  dsimp only
  cases hsettled env v with
  | body bs hm ρ hscope ho =>
    rw [ho]
    dsimp only
    rw [hscope]
    by_cases hg : guardHolds b.guard (bound (extend env bs)) = true
    · rw [if_pos hg]
      exact .first [] _ [] bs rfl (by simp) hm hg rfl
    · rw [if_neg hg]
      refine .none (fun c hc haccepts => ?_) rfl
      obtain ⟨bs', hm', hg'⟩ := haccepts
      rw [List.mem_singleton.mp hc] at hm' hg'
      rw [matches_unique b.pattern hm' hm] at hg'
      exact hg hg'
  | failed hm ho =>
    rw [ho]
    refine .none (fun c hc haccepts => ?_) rfl
    obtain ⟨bs, hm', -⟩ := haccepts
    rw [List.mem_singleton.mp hc] at hm'
    exact hm bs hm'

theorem matchExp_selected (exp : Scope V → Option V) (cs : List (Clause A V R))
    (hcs : ∀ c ∈ cs, c.pattern.Proper) :
    ∃ f, matchExp o exp cs = .ok f ∧ ∀ env v, exp (bound env) = some v → Selected o env v cs (f (bound env)) := by
  have hmany : matchExp o exp cs = (do
      let or ← matchOr o cs
      .ok fun scope =>
        match exp scope with
        | none => .undefined
        | some v => or scope v) →
      ∃ f, matchExp o exp cs = .ok f ∧ ∀ env v, exp (bound env) = some v →
        Selected o env v cs (f (bound env)) := by
    intro heq
    obtain ⟨or, hor, hselected⟩ := @matchOr_selected A V R _ o cs hcs
    refine ⟨_, by rw [heq]; simp only [hor, bind, Except.bind]; rfl, fun env v hv => ?_⟩
    rw [hv]
    exact hselected env v
  cases cs with
  | nil => exact hmany rfl
  | cons c cs =>
    cases cs with
    | nil => exact matchLet_one (hcs c (by simp)) c.body
    | cons c' cs => exact hmany rfl

theorem matchDefine_settled {p : Pattern A} (hp : p.Proper) (e : Scope V → Option V) :
    ∃ define, matchDefine o p e = .ok define ∧ ∀ env v,
      (∀ scope, (∀ x, x ∉ p.vars → scope x = some (env x)) → e scope = some v) →
      (∃ bs, Matches o env p v bs ∧ define (bound env) = .value (bound (extend env bs))) ∨
      ((∀ bs, ¬ Matches o env p v bs) ∧ define (bound env) = .badMatch v) := by
  obtain ⟨code, g, hc, hcode⟩ := matchHelp_ok hp false (.var (.temp 0)) 1
  refine ⟨_, by simp only [matchDefine, hcode, bind, Except.bind]; rfl, fun env v he => ?_⟩
  have hunassigned : ∀ x, x ∉ p.vars → ((Env.ofScope (bound env)).unassigned code.defines).scope x = some (env x) := by
    intro x hx
    refine if_neg fun hdefined => ?_
    rcases convert_defines p hc hdefined with h | h
    · exact hx h
    · cases h
  have hk : Known (((Env.ofScope (bound env)).unassigned code.defines).set (.temp 0) v) env p.vars :=
    fun x hx => (set_temp_user _ 0 v x).trans (hunassigned x hx)
  rw [he _ hunassigned]
  dsimp only
  have hv : eval o (((Env.ofScope (bound env)).unassigned code.defines).set (.temp 0) v) (.var (.temp 0)) = some v :=
    set_same _ _ v
  cases settled hp hc hv hk with
  | body bs hm ρ hscope ho =>
    rw [ho]
    exact .inl ⟨bs, hm, by rw [← hscope]⟩
  | failed hm ho =>
    rw [ho]
    exact .inr ⟨hm, rfl⟩

end

/-- match-help in nested mode, match, and match-define against match-let*. -/
theorem match_compiler_correct [DecidableEq A] (o : Objects A V) :
    (∀ p : Pattern A, p.Proper → ∀ e next, ∃ code, matchHelp true e p next = .ok code ∧
      ∀ ρ env v, ρ.scope = bound env → eval o ρ e = some v →
        ((∃ ρ', run o ρ code = .body ρ') ↔ ∃ bs, Matches o env p v bs) ∧
        (run o ρ code = .failed ↔ ¬ ∃ bs, Matches o env p v bs) ∧
        ∀ bs, Matches o env p v bs → bs.map Prod.fst = p.vars ∧
          ∃ ρ', run o ρ code = .body ρ' ∧ ρ'.scope = bound (extend env bs)) ∧
    (∀ (exp : Scope V → Option V) (cs : List (Clause A V R)), (∀ c ∈ cs, c.pattern.Proper) →
      ∃ f, matchExp o exp cs = .ok f ∧ ∀ env v, exp (bound env) = some v →
        Selected o env v cs (f (bound env)) ∧
        (f (bound env) = .badMatch v ↔ ∀ c ∈ cs, ¬ c.Accepts o env v)) ∧
    (∀ p : Pattern A, p.Proper → ∀ exp : Scope V → Option V,
      ∃ define let₁, matchDefine o p exp = .ok define ∧ matchLet o id [⟨p, none, exp⟩] = .ok let₁ ∧
        ∀ env v, (∀ scope, (∀ x, x ∉ p.vars → scope x = some (env x)) → exp scope = some v) →
          define (bound env) = let₁ (bound env) ∧
          ((∃ scope, define (bound env) = .value scope) ↔ ∃ bs, Matches o env p v bs)) := by
  refine ⟨fun p hp e next => ?_, fun exp cs hcs => ?_, fun p hp exp => ?_⟩
  · obtain ⟨code, g, hc, hcode⟩ := matchHelp_ok hp true e next
    refine ⟨code, hcode, fun ρ env v hscope he => ?_⟩
    have hk : Known ρ env p.vars := fun x _ => congrFun hscope x
    cases settled hp hc he hk with
    | body bs hm ρ' hscope' ho =>
      rw [ho]
      refine ⟨⟨fun _ => ⟨bs, hm⟩, fun _ => ⟨ρ', rfl⟩⟩, ⟨fun h => (by cases h), fun h => absurd ⟨bs, hm⟩ h⟩, ?_⟩
      intro bs' hm'
      rw [matches_unique p hm' hm]
      exact ⟨matches_vars p hm, ρ', rfl, hscope'⟩
    | failed hm ho =>
      have hnone : ¬ ∃ bs, Matches o env p v bs := fun h => h.elim hm
      rw [ho]
      refine ⟨⟨fun h => ?_, fun h => absurd h hnone⟩, ⟨fun _ => hnone, fun _ => rfl⟩, fun bs hm' => absurd hm' (hm bs)⟩
      obtain ⟨ρ', h⟩ := h
      cases h
  · obtain ⟨f, hf, hselected⟩ := @matchExp_selected A V R _ o exp cs hcs
    exact ⟨f, hf, fun env v hv => ⟨hselected env v hv, (hselected env v hv).badMatch_iff⟩⟩
  · obtain ⟨define, hdefine, hsettled⟩ := @matchDefine_settled A V _ o p hp exp
    obtain ⟨let₁, hlet, hselected⟩ := @matchLet_one A V (Scope V) _ o ⟨p, none, exp⟩ hp id
    refine ⟨define, let₁, hdefine, hlet, fun env v he => ?_⟩
    have hv : exp (bound env) = some v := he _ fun x _ => rfl
    rcases hsettled env v he with ⟨bs, hm, hd⟩ | ⟨hnone, hd⟩
    · refine ⟨?_, fun _ => ⟨bs, hm⟩, fun _ => ⟨_, hd⟩⟩
      cases hselected env v hv with
      | first before c after bs' hcs hbefore hm' hg hr =>
        obtain ⟨rfl, hc⟩ : before = [] ∧ c :: after = [⟨p, none, id⟩] := by
          cases before with
          | nil => exact ⟨rfl, hcs.symm⟩
          | cons b before => simp at hcs
        cases hc
        rw [hd, hr, matches_unique p hm hm']
        rfl
      | none hnone hr => exact absurd (⟨bs, hm, rfl⟩ : Clause.Accepts ⟨p, none, id⟩ o env v) (hnone _ (by simp))
    · have hreject : ¬ ∃ bs, Matches o env p v bs := fun h => h.elim hnone
      refine ⟨?_, fun h => ?_, fun h => absurd h hreject⟩
      · rw [hd, (hselected env v hv).badMatch_iff.mpr fun c hc haccepts => ?_]
        obtain ⟨bs, hm, -⟩ := haccepts
        rw [List.mem_singleton.mp hc] at hm
        exact hnone bs hm
      · obtain ⟨scope, h⟩ := h
        rw [hd] at h
        cases h

/-- Lists of numbers. -/
inductive Datum where
  | number (n : Int)
  | null
  | pair (car cdr : Datum)
  deriving DecidableEq

def Datum.view : Datum → View Int Datum
  | .number n => .atom n
  | .null => .null
  | .pair car cdr => .pair car cdr

def datums : Objects Int Datum := ⟨Datum.view, fun v w => v = w, .null⟩

/-- The pattern (,x ,@x). -/
def twice : Pattern Int := .pair (.unquote "x") (.pair (.unquoteSplicing "x") .null)

theorem twice_proper : twice.Proper := ⟨by decide, by simp [twice, Pattern.Backward, Pattern.vars]⟩

/-- The clauses [(,x ,@x) x] and [,y (guard #f) 'y]. -/
def twiceClauses : List (Clause Int Datum (Option Datum)) :=
  [⟨twice, none, fun scope => scope "x"⟩, ⟨.unquote "y", some fun _ => false, fun scope => scope "y"⟩]

def sevenSeven : Datum := .pair (.number 7) (.pair (.number 7) .null)

theorem match_compiler_correct_twice :
    (∃ code, matchHelp true (.var (.temp 0)) twice 1 = .ok code ∧
      ((∃ ρ', run datums ((Env.ofScope (bound fun _ => .null)).set (.temp 0) sevenSeven) code = .body ρ') ↔
        ∃ bs, Matches datums (fun _ => .null) twice sevenSeven bs)) ∧
    (∃ f, matchExp datums (fun _ => some sevenSeven) twiceClauses = .ok f ∧
      Selected datums (fun _ => .null) sevenSeven twiceClauses (f (bound fun _ => .null))) ∧
    (∃ define let₁, matchDefine datums twice (fun _ => some sevenSeven) = .ok define ∧
      matchLet datums id [⟨twice, none, fun _ => some sevenSeven⟩] = .ok let₁ ∧
      define (bound fun _ => .null) = let₁ (bound fun _ => .null)) := by
  obtain ⟨hnested, hmatch, hdefine⟩ := @match_compiler_correct Int Datum (Option Datum) _ datums
  obtain ⟨code, hcode, hrun⟩ := hnested twice twice_proper (.var (.temp 0)) 1
  have hclauses : ∀ c ∈ twiceClauses, c.pattern.Proper := by
    intro c hc
    rcases List.mem_cons.mp hc with rfl | hc
    · exact twice_proper
    · rw [List.mem_singleton.mp hc]
      exact ⟨by decide, trivial⟩
  obtain ⟨f, hf, hselected⟩ := hmatch (fun _ => some sevenSeven) twiceClauses hclauses
  obtain ⟨define, let₁, hd, hl, hsame⟩ := hdefine twice twice_proper fun _ => some sevenSeven
  exact ⟨⟨code, hcode, (hrun _ _ _ rfl rfl).1⟩, ⟨f, hf, (hselected _ _ rfl).1⟩,
    ⟨define, let₁, hd, hl, (hsame _ _ fun _ _ => rfl).1⟩⟩

example : (matchExp datums (fun _ => some sevenSeven) twiceClauses).map (fun f => f (bound fun _ => .null)) =
    .ok (.value (some (.number 7))) := by rfl

example : (matchExp datums (fun _ => some (.number 7)) twiceClauses).map (fun f => f (bound fun _ => .null)) =
    .ok (.badMatch (.number 7)) := by rfl

end Swish.Match
