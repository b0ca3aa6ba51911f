import Swish.Lib.Except
import Swish.Match.Code

/-!
The code of a pattern reaches the body just on the objects that match, with their
bindings. The code is run from left to right while it is made from right to left, in
both modes.
-/

set_option autoImplicit false

namespace Swish.Match

open Lib

variable {A V : Type} {nested : Bool} {e : Exp} {c : Code A} {g g' : Gen}

theorem bindVar_ok {x : Ident} {expr : Make A} (h : bindVar nested x e expr g = .ok (c, g')) :
    ∃ c₁, expr { g with boundVars := x :: g.boundVars } = .ok (c₁, g') ∧ c = bindHelp nested (.user x) e c₁ := by
  obtain ⟨g₁, hg, h⟩ := bind_ok h
  obtain ⟨⟨c₁, g₂⟩, hc, h⟩ := bind_ok h
  cases h
  unfold rejectDuplicate at hg
  split at hg
  · cases hg
  · cases hg
    exact ⟨c₁, hc, rfl⟩

theorem freshVar_ok {expr : Var → Make A} (h : freshVar nested e expr g = .ok (c, g')) :
    ∃ c₁, expr (.temp g.next) { g with next := g.next + 1 } = .ok (c₁, g') ∧
      c = bindHelp nested (.temp g.next) e c₁ := by
  unfold freshVar at h
  obtain ⟨⟨c₁, g₁⟩, hc, h⟩ := bind_ok h
  cases h
  exact ⟨c₁, hc, rfl⟩

/-- The test is made first, and in define mode takes a temporary. -/
theorem test_ok {pred : Test A} {inner : Make A} (h : test nested pred inner g = .ok (c, g')) :
    (nested = true ∧ ∃ c₁, inner g = .ok (c₁, g') ∧ c = .ifElse pred c₁) ∨
    (nested = false ∧ ∃ c₁, inner { g with next := g.next + 1 } = .ok (c₁, g') ∧
      c = .beginTest (.temp g.next) pred c₁) := by
  unfold test at h
  cases nested with
  | true =>
    refine .inl ⟨rfl, ?_⟩
    obtain ⟨⟨c₁, g₁⟩, hc, h⟩ := bind_ok h
    cases h
    exact ⟨c₁, hc, rfl⟩
  | false =>
    refine .inr ⟨rfl, ?_⟩
    obtain ⟨⟨c₁, g₁⟩, hc, h⟩ := bind_ok h
    cases h
    exact ⟨c₁, hc, rfl⟩

theorem test_next {pred : Test A} {inner : Make A} (hinner : ∀ {g c}, inner g = .ok (c, g') → g.next ≤ g'.next)
    (h : test nested pred inner g = .ok (c, g')) : g.next ≤ g'.next := by
  rcases test_ok h with ⟨-, c₁, hc, -⟩ | ⟨-, c₁, hc, -⟩
  · exact hinner hc
  · exact Nat.le_of_succ_le (hinner hc)

theorem freshVar_next {expr : Var → Make A} (hexpr : ∀ {v g c}, expr v g = .ok (c, g') → g.next ≤ g'.next)
    (h : freshVar nested e expr g = .ok (c, g')) : g.next ≤ g'.next := by
  obtain ⟨c₁, hc, -⟩ := freshVar_ok h
  exact Nat.le_of_succ_le (hexpr hc)

theorem done_next {code : Code A} (h : done code g = .ok (c, g')) : g.next ≤ g'.next := by
  cases h
  exact Nat.le_refl _

mutual

/-- Temporaries are used once. -/
theorem convert_next (p : Pattern A) {nested : Bool} {e : Exp} {body c : Code A} {g g' : Gen}
    (h : convert nested e p body g = .ok (c, g')) : g.next ≤ g'.next := by
  cases p with
  | named x pattern =>
    obtain ⟨c₁, hc, -⟩ := bindVar_ok h
    have hnext := convert_next pattern hc
    exact hnext
  | unquote x =>
    rw [convert] at h
    split at h
    · exact done_next h
    · obtain ⟨c₁, hc, -⟩ := bindVar_ok h
      cases hc
      exact Nat.le_refl _
  | unquoteSplicing x => exact test_next done_next h
  | lit _ | string _ | eof | bytevector _ | null => exact freshVar_next (test_next done_next) h
  | pair first rest =>
    refine freshVar_next (test_next fun hr => ?_) h
    obtain ⟨⟨c₁, g₁⟩, h1, h2⟩ := bind_ok hr
    exact Nat.le_trans (convert_next rest h1) (convert_next first h2)
  | vector elements => exact freshVar_next (test_next (convertElements_next elements)) h

theorem convertElements_next (ps : List (Pattern A)) {nested : Bool} {v : Var} {i : Nat} {body c : Code A}
    {g g' : Gen} (h : convertElements nested v i ps body g = .ok (c, g')) : g.next ≤ g'.next := by
  cases ps with
  | nil => exact done_next h
  | cons p ps =>
    obtain ⟨⟨c₁, g₁⟩, h1, h2⟩ := bind_ok h
    exact Nat.le_trans (convertElements_next ps h1) (convert_next p h2)

end

section

variable [DecidableEq A] {o : Objects A V} {ρ ρ' : Env V} {v : V}

/-- The variables of the pattern that are not to come have their values. -/
def Known (ρ : Env V) (env : Ident → V) (later : List Ident) : Prop :=
  ∀ x, x ∉ later → ρ (.user x) = some (env x)

/-- The temporaries up to n are unchanged. -/
def Keeps (n : Nat) (ρ ρ' : Env V) : Prop := ∀ k, k < n → ρ' (.temp k) = ρ (.temp k)

theorem Keeps.mono {m n : Nat} (hmn : m ≤ n) (h : Keeps n ρ ρ') : Keeps m ρ ρ' :=
  fun k hk => h k (Nat.lt_of_lt_of_le hk hmn)

theorem Keeps.trans {ρ'' : Env V} {n : Nat} (h : Keeps n ρ ρ') (h' : Keeps n ρ' ρ'') : Keeps n ρ ρ'' :=
  fun k hk => (h' k hk).trans (h k hk)

theorem set_same (ρ : Env V) (x : Var) (v : V) : ρ.set x v x = some v := if_pos rfl

theorem set_temp_user (ρ : Env V) (n : Nat) (v : V) (x : Ident) : ρ.set (.temp n) v (.user x) = ρ (.user x) :=
  if_neg (by simp)

theorem keeps_set_temp (ρ : Env V) (n : Nat) (v : V) : Keeps n ρ (ρ.set (.temp n) v) :=
  fun k hk => if_neg (by simp; omega)

theorem keeps_set_user (ρ : Env V) (n : Nat) (x : Ident) (v : V) : Keeps n ρ (ρ.set (.user x) v) :=
  fun k _ => if_neg (by simp)

theorem Known.set_temp {env : Ident → V} {later : List Ident} (h : Known ρ env later) (n : Nat) (v : V) :
    Known (ρ.set (.temp n) v) env later := fun x hx => (set_temp_user ρ n v x).trans (h x hx)

/-- The variable is known from here on. -/
theorem Known.set_user {env : Ident → V} {later : List Ident} {x : Ident} (h : Known ρ env (x :: later)) (v : V) :
    Known (ρ.set (.user x) v) (bindTo env x v) later := by
  intro y hy
  unfold Env.set bindTo
  by_cases hyx : y = x
  · simp [hyx]
  · simp [hyx, h y (by simp [hyx, hy])]

theorem run_bindHelp {x : Var} (he : eval o ρ e = some v) :
    run o ρ (bindHelp nested x e c) = run o (ρ.set x v) c := by
  cases nested <;> simp [bindHelp, run, he]

/-- What the code does after a test. -/
theorem run_test {pred : Test A} {inner : Make A} {b : Bool} {env : Ident → V} {later : List Ident}
    (h : test nested pred inner g = .ok (c, g')) (hp : holds o ρ pred = some b) (hk : Known ρ env later) :
    ∃ c₁ g₁, g.next ≤ g₁.next ∧ inner g₁ = .ok (c₁, g') ∧ (b = false → run o ρ c = .failed) ∧
      (b = true → ∃ ρ', Known ρ' env later ∧ Keeps g.next ρ ρ' ∧ run o ρ c = run o ρ' c₁) := by
  rcases test_ok h with ⟨-, c₁, hc, rfl⟩ | ⟨-, c₁, hc, rfl⟩
  · refine ⟨c₁, g, Nat.le_refl _, hc, fun hb => ?_, fun hb => ⟨ρ, hk, fun _ _ => rfl, ?_⟩⟩
    all_goals
      subst hb
      simp [run, hp]
  · refine ⟨c₁, _, Nat.le_succ _, hc, fun hb => ?_,
      fun hb => ⟨ρ.set (.temp g.next) o.void, hk.set_temp _ _, keeps_set_temp _ _ _, ?_⟩⟩
    all_goals
      subst hb
      simp [run, hp]

/-- What the code does that names the object and tests it. -/
theorem run_fresh_test {pred : Var → Test A} {inner : Var → Make A} {b : Bool} {env : Ident → V}
    {later : List Ident} (h : freshVar nested e (fun x => test nested (pred x) (inner x)) g = .ok (c, g'))
    (he : eval o ρ e = some v) (hp : ∀ (ρ : Env V) x, ρ x = some v → holds o ρ (pred x) = some b)
    (hk : Known ρ env later) :
    ∃ c₁ g₁, g.next < g₁.next ∧ inner (.temp g.next) g₁ = .ok (c₁, g') ∧ (b = false → run o ρ c = .failed) ∧
      (b = true → ∃ ρ', ρ' (.temp g.next) = some v ∧ Known ρ' env later ∧ Keeps g.next ρ ρ' ∧
        run o ρ c = run o ρ' c₁) := by
  obtain ⟨c₀, hc, rfl⟩ := freshVar_ok h
  have hset := set_same ρ (.temp g.next) v
  obtain ⟨c₁, g₁, hg, hc₁, hfalse, htrue⟩ := run_test hc (hp _ _ hset) (hk.set_temp g.next v)
  refine ⟨c₁, g₁, hg, hc₁, fun hb => ?_, fun hb => ?_⟩
  · rw [run_bindHelp he]
    exact hfalse hb
  · obtain ⟨ρ', hk', hkeep, hrun⟩ := htrue hb
    refine ⟨ρ', ?_, hk', .trans (keeps_set_temp _ _ _) (hkeep.mono (Nat.le_succ _)), ?_⟩
    · rw [hkeep _ (Nat.lt_succ_self _), hset]
    · rw [run_bindHelp he]
      exact hrun

/-- The code c does what the pattern says and then goes on to the body. -/
inductive Follows (o : Objects A V) (M : List (Ident × V) → Prop) (env : Ident → V) (later : List Ident)
    (n : Nat) (ρ : Env V) (c body : Code A) : Prop where
  | reaches (bs : List (Ident × V)) (hm : M bs) (ρ' : Env V) (hk : Known ρ' (extend env bs) later)
      (hkeep : Keeps n ρ ρ') (hrun : run o ρ c = run o ρ' body)
  | fails (hm : ∀ bs, ¬ M bs) (hrun : run o ρ c = .failed)

/-- A pattern that binds nothing and makes one test. -/
theorem follows_test {pred : Var → Test A} {body : Code A} {b : Bool} {M : List (Ident × V) → Prop}
    {env : Ident → V} {later : List Ident}
    (h : freshVar nested e (fun x => test nested (pred x) (done body)) g = .ok (c, g'))
    (he : eval o ρ e = some v) (hp : ∀ (ρ : Env V) x, ρ x = some v → holds o ρ (pred x) = some b)
    (hM : ∀ bs, M bs ↔ b = true ∧ bs = []) (hk : Known ρ env later) :
    Follows o M env later g.next ρ c body := by
  obtain ⟨c₁, g₁, -, hc, hfalse, htrue⟩ := run_fresh_test h he hp hk
  cases hc
  cases b with
  | false => exact .fails (fun bs hm => by simp [hM] at hm) (hfalse rfl)
  | true =>
    obtain ⟨ρ', -, hk', hkeep, hrun⟩ := htrue rfl
    exact .reaches [] ((hM []).mpr ⟨rfl, rfl⟩) ρ' hk' hkeep hrun

mutual

/-- The induction follows the pattern; later are the variables that are still to come
when the pattern has been matched. -/
theorem run_convert (p : Pattern A) {nested : Bool} {e : Exp} {body c : Code A} {g g' : Gen} {ρ : Env V}
    {v : V} {env : Ident → V} {later : List Ident} (h : convert nested e p body g = .ok (c, g'))
    (hb : p.Backward later) (he : eval o ρ e = some v) (hk : Known ρ env (p.vars ++ later)) :
    Follows o (Matches o env p v) env later g.next ρ c body := by
  cases p with
  | named x pattern =>
    obtain ⟨c₁, hc, rfl⟩ := bindVar_ok h
    have hx : eval o (ρ.set (.user x) v) (.var (.user x)) = some v := set_same ρ (.user x) v
    cases run_convert pattern hc hb hx (hk.set_user v) with
    | reaches bs hm ρ' hk' hkeep hrun =>
      refine .reaches ((x, v) :: bs) ⟨bs, hm, rfl⟩ ρ' hk' (.trans (keeps_set_user ρ _ x v) hkeep) ?_
      rw [run_bindHelp he, hrun]
    | fails hm hrun =>
      refine .fails (fun bs hm' => ?_) ?_
      · obtain ⟨bs', hm', -⟩ := hm'
        exact hm bs' hm'
      · rw [run_bindHelp he, hrun]
  | unquote x =>
    rw [convert] at h
    rw [Pattern.vars] at hk
    by_cases hx : x = "_"
    · rw [if_pos hx] at h hk
      cases h
      exact .reaches [] (by simp [Matches, hx]) ρ hk (fun _ _ => rfl) rfl
    · rw [if_neg hx] at h hk
      obtain ⟨c₁, hc, rfl⟩ := bindVar_ok h
      cases hc
      exact .reaches [(x, v)] (by simp [Matches, hx]) _ (hk.set_user v) (keeps_set_user ρ _ x v) (run_bindHelp he)
  | unquoteSplicing x =>
    have hp : holds o ρ (.equal e x) = some (o.equal v (env x)) := by
      simp [holds, he, hk x hb]
    obtain ⟨c₁, g₁, -, hc, hfalse, htrue⟩ := run_test h hp hk
    cases hc
    cases hequal : o.equal v (env x) with
    | false => exact .fails (fun bs hm => by simp [Matches, hequal] at hm) (hfalse hequal)
    | true =>
      obtain ⟨ρ', hk', hkeep, hrun⟩ := htrue hequal
      exact .reaches [] ⟨hequal, rfl⟩ ρ' hk' hkeep hrun
  | lit a =>
    refine follows_test h he (fun ρ x hx => by rw [holds, hx]; rfl) (fun bs => ?_) hk
    cases hv : o.view v <;> simp [Matches, hv, View.isAtom]
  | string s =>
    refine follows_test h he (fun ρ x hx => by rw [holds, hx]; rfl) (fun bs => ?_) hk
    cases hv : o.view v <;> simp [Matches, hv, View.isString]
  | eof =>
    refine follows_test h he (fun ρ x hx => by rw [holds, hx]; rfl) (fun bs => ?_) hk
    cases hv : o.view v <;> simp [Matches, hv, View.isEof]
  | bytevector bv =>
    refine follows_test h he (fun ρ x hx => by rw [holds, hx]; rfl) (fun bs => ?_) hk
    cases hv : o.view v <;> simp [Matches, hv, View.isBytevector]
  | null =>
    refine follows_test h he (fun ρ x hx => by rw [holds, hx]; rfl) (fun bs => ?_) hk
    cases hv : o.view v <;> simp [Matches, hv, View.isNull]
  | pair first rest =>
    rw [Pattern.vars, List.append_assoc] at hk
    obtain ⟨c₁, g₁, hg, hc, hfalse, htrue⟩ := run_fresh_test h he (fun ρ x hx => by rw [holds, hx]; rfl) hk
    cases hpair : (o.view v).isPair with
    | false =>
      refine .fails (fun bs hm => ?_) (hfalse hpair)
      obtain ⟨car, cdr, bs₁, bs₂, hv, -⟩ := hm
      rw [hv] at hpair
      cases hpair
    | true =>
      obtain ⟨car, cdr, hv⟩ : ∃ car cdr, o.view v = .pair car cdr := by
        cases hv : o.view v <;> simp_all [View.isPair]
      obtain ⟨ρ₁, hx, hk₁, hkeep₁, hrun₁⟩ := htrue hpair
      obtain ⟨⟨c₂, g₂⟩, hrest, hfirst⟩ := bind_ok hc
      have hcar : eval o ρ₁ (.car (.temp g.next)) = some car := by simp [eval, hx, hv]
      have hnext := convert_next rest hrest
      -- The first pattern runs first, though the code of the rest is inside its own.
      cases run_convert first hfirst hb.1 hcar hk₁ with
      | fails hm hrun =>
        refine .fails (fun bs hm' => ?_) (by rw [hrun₁, hrun])
        obtain ⟨car', cdr', bs₁, bs₂, hv', hm', -⟩ := hm'
        rw [hv] at hv'
        cases hv'
        exact hm bs₁ hm'
      | reaches bs₁ hm ρ₂ hk₂ hkeep₂ hrun₂ =>
        have hx₂ : ρ₂ (.temp g.next) = some v := by
          rw [hkeep₂ _ (Nat.lt_of_lt_of_le hg hnext), hx]
        have hcdr : eval o ρ₂ (.cdr (.temp g.next)) = some cdr := by simp [eval, hx₂, hv]
        have hkeep : Keeps g.next ρ ρ₂ :=
          .trans hkeep₁ (hkeep₂.mono (Nat.le_of_lt (Nat.lt_of_lt_of_le hg hnext)))
        cases run_convert rest hrest hb.2 hcdr hk₂ with
        | fails hm' hrun =>
          refine .fails (fun bs hmatch => ?_) (by rw [hrun₁, hrun₂, hrun])
          obtain ⟨car', cdr', bs₁', bs₂, hv', h1, h2, -⟩ := hmatch
          rw [hv] at hv'
          cases hv'
          cases matches_unique first hm h1
          exact hm' bs₂ h2
        | reaches bs₂ hm' ρ₃ hk₃ hkeep₃ hrun₃ =>
          refine .reaches (bs₁ ++ bs₂) ⟨car, cdr, bs₁, bs₂, hv, hm, hm', rfl⟩ ρ₃ ?_
            (.trans hkeep (hkeep₃.mono (Nat.le_of_lt hg))) ?_
          · rw [extend_append]
            exact hk₃
          · rw [hrun₁, hrun₂, hrun₃]
  | vector elements =>
    rw [Pattern.vars] at hk
    obtain ⟨c₁, g₁, hg, hc, hfalse, htrue⟩ := run_fresh_test h he (fun ρ x hx => by rw [holds, hx]; rfl) hk
    have hlength : ∀ vs bs, MatchesAll o env elements vs bs → vs.length = elements.length :=
      fun vs bs hm => matchesAll_length elements hm
    cases hvector : (o.view v).isVector elements.length with
    | false =>
      refine .fails (fun bs hm => ?_) (hfalse hvector)
      obtain ⟨vs, hv, hm⟩ := hm
      rw [hv] at hvector
      simp [View.isVector, hlength vs bs hm] at hvector
    | true =>
      obtain ⟨vs, hv⟩ : ∃ vs, o.view v = .vector vs := by
        cases hv : o.view v <;> simp_all [View.isVector]
      obtain ⟨ρ₁, hx, hk₁, hkeep₁, hrun₁⟩ := htrue hvector
      have hlen : vs.length = elements.length := by
        rw [hv] at hvector
        simpa [View.isVector] using hvector
      cases run_convertElements elements hc hb hx hg hv (by simp [hlen]) hk₁ with
      | fails hm hrun =>
        refine .fails (fun bs hm' => ?_) (by rw [hrun₁, hrun])
        obtain ⟨vs', hv', hm'⟩ := hm'
        rw [hv] at hv'
        cases hv'
        exact hm bs hm'
      | reaches bs hm ρ' hk' hkeep hrun =>
        exact .reaches bs ⟨vs, hv, hm⟩ ρ' hk' (.trans hkeep₁ (hkeep.mono (Nat.le_of_lt hg)))
          (by rw [hrun₁, hrun])

/-- The elements from the i-th on. -/
theorem run_convertElements (ps : List (Pattern A)) {nested : Bool} {m i : Nat} {body c : Code A} {g g' : Gen}
    {ρ : Env V} {v : V} {vs : List V} {env : Ident → V} {later : List Ident}
    (h : convertElements nested (.temp m) i ps body g = .ok (c, g')) (hb : ElementsBackward ps later)
    (hx : ρ (.temp m) = some v) (hm : m < g.next) (hv : o.view v = .vector vs)
    (hlen : vs.length = i + ps.length) (hk : Known ρ env (elementVars ps ++ later)) :
    Follows o (MatchesAll o env ps (vs.drop i)) env later g.next ρ c body := by
  cases ps with
  | nil =>
    cases h
    exact .reaches [] ⟨by simp [hlen], rfl⟩ ρ hk (fun _ _ => rfl) rfl
  | cons p ps =>
    rw [elementVars, List.append_assoc] at hk
    obtain ⟨⟨c₁, g₁⟩, hrest, hfirst⟩ := bind_ok h
    have hnext := convertElements_next ps hrest
    have hi : i < vs.length := by
      rw [hlen]
      simp
    have hdrop : vs.drop i = vs[i] :: vs.drop (i + 1) := List.drop_eq_getElem_cons hi
    have href : eval o ρ (.vectorRef (.temp m) i) = some vs[i] := by simp [eval, hx, hv, hi]
    cases run_convert p hfirst hb.1 href hk with
    | fails hmatch hrun =>
      refine .fails (fun bs hm' => ?_) hrun
      obtain ⟨w, vs', bs₁, bs₂, hvs, hm', -⟩ := hm'
      rw [hdrop] at hvs
      cases hvs
      exact hmatch bs₁ hm'
    | reaches bs₁ h1 ρ₁ hk₁ hkeep₁ hrun₁ =>
      have hx₁ : ρ₁ (.temp m) = some v := by
        rw [hkeep₁ m (Nat.lt_of_lt_of_le hm hnext), hx]
      have hlen' : vs.length = i + 1 + ps.length := by
        rw [hlen, List.length_cons]
        omega
      cases run_convertElements ps hrest hb.2 hx₁ hm hv hlen' hk₁ with
      | fails hmatch hrun =>
        refine .fails (fun bs hm' => ?_) (by rw [hrun₁, hrun])
        obtain ⟨w, vs', bs₁', bs₂, hvs, h1', h2, -⟩ := hm'
        rw [hdrop] at hvs
        cases hvs
        cases matches_unique p h1 h1'
        exact hmatch bs₂ h2
      | reaches bs₂ h2 ρ₂ hk₂ hkeep₂ hrun₂ =>
        refine .reaches (bs₁ ++ bs₂) ⟨_, _, bs₁, bs₂, hdrop, h1, h2, rfl⟩ ρ₂ ?_ 
          (.trans (hkeep₁.mono hnext) hkeep₂) ?_
        · rw [extend_append]
          exact hk₂
        · rw [hrun₁, hrun₂]

end

end

/-- The code can be made if no bound variable is among these, which are then bound. -/
def Makes (m : Make A) (xs : List Ident) : Prop :=
  ∀ g, (∀ x ∈ xs, x ∉ g.boundVars) →
    ∃ c g', m g = .ok (c, g') ∧ ∀ x, x ∈ g'.boundVars ↔ x ∈ xs ∨ x ∈ g.boundVars

theorem makes_done (code : Code A) : Makes (done code) [] := fun g _ => ⟨code, g, rfl, by simp⟩

theorem makes_freshVar {expr : Var → Make A} {xs : List Ident} (h : ∀ v, Makes (expr v) xs) :
    Makes (freshVar nested e expr) xs := by
  intro g hg
  obtain ⟨c, g', hc, hbound⟩ := h (.temp g.next) { g with next := g.next + 1 } hg
  exact ⟨bindHelp nested (.temp g.next) e c, g', by simp [freshVar, hc, bind, Except.bind], hbound⟩

theorem makes_test {pred : Test A} {inner : Make A} {xs : List Ident} (h : Makes inner xs) :
    Makes (test nested pred inner) xs := by
  intro g hg
  cases nested with
  | true =>
    obtain ⟨c, g', hc, hbound⟩ := h g hg
    exact ⟨.ifElse pred c, g', by simp [test, hc, bind, Except.bind], hbound⟩
  | false =>
    obtain ⟨c, g', hc, hbound⟩ := h { g with next := g.next + 1 } hg
    exact ⟨.beginTest (.temp g.next) pred c, g', by simp [test, hc, bind, Except.bind], hbound⟩

theorem makes_bindVar {x : Ident} {expr : Make A} {xs : List Ident} (h : Makes expr xs) (hx : x ∉ xs) :
    Makes (bindVar nested x e expr) (x :: xs) := by
  intro g hg
  have hnew : x ∉ g.boundVars := hg x (by simp)
  obtain ⟨c, g', hc, hbound⟩ := h { g with boundVars := x :: g.boundVars } fun y hy => by
    have hyx : y ≠ x := fun he => hx (he ▸ hy)
    simp [hyx, hg y (by simp [hy])]
  refine ⟨bindHelp nested (.user x) e c, g', ?_, fun y => ?_⟩
  · simp [bindVar, rejectDuplicate, hnew, hc, bind, Except.bind]
  · rw [hbound, List.mem_cons, List.mem_cons, or_left_comm, or_assoc]

theorem makes_bind {m : Make A} {f : Code A → Make A} {xs ys : List Ident} (h : Makes m xs)
    (hf : ∀ c, Makes (f c) ys) (hd : ∀ y ∈ ys, y ∉ xs) :
    Makes (fun g => do let r ← m g; f r.1 r.2) (ys ++ xs) := by
  intro g hg
  obtain ⟨c, g₁, hc, hbound⟩ := h g fun x hx => hg x (by simp [hx])
  obtain ⟨c', g', hc', hbound'⟩ := hf c g₁ fun y hy => by
    simp [hbound, hd y hy, hg y (by simp [hy])]
  refine ⟨c', g', by simp [hc, bind, Except.bind, hc'], fun x => ?_⟩
  rw [hbound', hbound, List.mem_append, or_assoc]

mutual

/-- Without duplicate variables there is code. -/
theorem convert_makes (p : Pattern A) (hp : p.vars.Nodup) (nested : Bool) (e : Exp) (body : Code A) :
    Makes (convert nested e p body) p.vars := by
  cases p with
  | named x pattern =>
    obtain ⟨hx, hp⟩ := List.nodup_cons.mp hp
    exact makes_bindVar (convert_makes pattern hp _ _ body) hx
  | unquote x =>
    rw [convert, Pattern.vars]
    split
    · exact makes_done body
    · exact makes_bindVar (makes_done body) (by simp)
  | unquoteSplicing x => exact makes_test (makes_done body)
  | lit _ | string _ | eof | bytevector _ | null => exact makes_freshVar fun v => makes_test (makes_done body)
  | pair first rest =>
    obtain ⟨h1, h2, hd⟩ := List.nodup_append.mp hp
    exact makes_freshVar fun v => makes_test (makes_bind (convert_makes rest h2 _ _ body)
      (fun c => convert_makes first h1 _ _ c) fun y hy hy' => hd y hy y hy' rfl)
  | vector elements =>
    exact makes_freshVar fun v => makes_test (convertElements_makes elements hp _ v 0 body)

theorem convertElements_makes (ps : List (Pattern A)) (hp : (elementVars ps).Nodup) (nested : Bool) (v : Var)
    (i : Nat) (body : Code A) : Makes (convertElements nested v i ps body) (elementVars ps) := by
  cases ps with
  | nil => exact makes_done body
  | cons p ps =>
    obtain ⟨h1, h2, hd⟩ := List.nodup_append.mp hp
    exact makes_bind (convertElements_makes ps h2 _ _ _ body) (fun c => convert_makes p h1 _ _ c)
      fun y hy hy' => hd y hy y hy' rfl

end

theorem defines_bindHelp {x y : Var} (h : y ∈ (bindHelp nested x e c).defines) : y = x ∨ y ∈ c.defines := by
  cases nested with
  | true => cases h
  | false => exact List.mem_cons.mp h

theorem test_defines {pred : Test A} {inner : Make A} {x : Ident} (h : test nested pred inner g = .ok (c, g'))
    (hx : .user x ∈ c.defines) : ∃ c₁ g₁, inner g₁ = .ok (c₁, g') ∧ .user x ∈ c₁.defines := by
  rcases test_ok h with ⟨-, c₁, hc, rfl⟩ | ⟨-, c₁, hc, rfl⟩
  · cases hx
  · refine ⟨c₁, _, hc, ?_⟩
    rcases List.mem_cons.mp hx with hx | hx
    · cases hx
    · exact hx

theorem freshVar_defines {expr : Var → Make A} {x : Ident} (h : freshVar nested e expr g = .ok (c, g'))
    (hx : .user x ∈ c.defines) : ∃ v c₁ g₁, expr v g₁ = .ok (c₁, g') ∧ .user x ∈ c₁.defines := by
  obtain ⟨c₁, hc, rfl⟩ := freshVar_ok h
  rcases defines_bindHelp hx with hx | hx
  · cases hx
  · exact ⟨_, c₁, _, hc, hx⟩

mutual

/-- Nothing but the variables of the pattern is defined. -/
theorem convert_defines (p : Pattern A) {nested : Bool} {e : Exp} {body c : Code A} {g g' : Gen} {x : Ident}
    (h : convert nested e p body g = .ok (c, g')) (hx : .user x ∈ c.defines) :
    x ∈ p.vars ∨ .user x ∈ body.defines := by
  cases p with
  | named y pattern =>
    obtain ⟨c₁, hc, rfl⟩ := bindVar_ok h
    rw [Pattern.vars, List.mem_cons, or_assoc]
    rcases defines_bindHelp hx with hx | hx
    · exact .inl (Var.user.inj hx)
    · exact .inr (convert_defines pattern hc hx)
  | unquote y =>
    rw [convert] at h
    rw [Pattern.vars]
    by_cases hy : y = "_"
    · rw [if_pos hy] at h
      cases h
      exact .inr hx
    · rw [if_neg hy] at h
      obtain ⟨c₁, hc, rfl⟩ := bindVar_ok h
      cases hc
      rw [if_neg hy, List.mem_singleton]
      exact (defines_bindHelp hx).imp_left Var.user.inj
  | unquoteSplicing y =>
    obtain ⟨c₁, g₁, hc, hx₁⟩ := test_defines h hx
    cases hc
    exact .inr hx₁
  | lit _ | string _ | eof | bytevector _ | null =>
    obtain ⟨v, c₁, g₁, ht, hx₁⟩ := freshVar_defines h hx
    obtain ⟨c₂, g₂, hc, hx₂⟩ := test_defines ht hx₁
    cases hc
    exact .inr hx₂
  | pair first rest =>
    obtain ⟨v, c₁, g₁, ht, hx₁⟩ := freshVar_defines h hx
    obtain ⟨c₂, g₂, hc, hx₂⟩ := test_defines ht hx₁
    obtain ⟨⟨c₃, g₃⟩, h1, h2⟩ := bind_ok hc
    rw [Pattern.vars, List.mem_append, or_assoc]
    exact (convert_defines first h2 hx₂).imp_right (convert_defines rest h1)
  | vector elements =>
    obtain ⟨v, c₁, g₁, ht, hx₁⟩ := freshVar_defines h hx
    obtain ⟨c₂, g₂, hc, hx₂⟩ := test_defines ht hx₁
    exact convertElements_defines elements hc hx₂

theorem convertElements_defines (ps : List (Pattern A)) {nested : Bool} {v : Var} {i : Nat} {body c : Code A}
    {g g' : Gen} {x : Ident} (h : convertElements nested v i ps body g = .ok (c, g'))
    (hx : .user x ∈ c.defines) : x ∈ elementVars ps ∨ .user x ∈ body.defines := by
  cases ps with
  | nil =>
    cases h
    exact .inr hx
  | cons p ps =>
    obtain ⟨⟨c₁, g₁⟩, h1, h2⟩ := bind_ok h
    rw [elementVars, List.mem_append, or_assoc]
    exact (convert_defines p h2 hx).imp_right (convertElements_defines ps h1)

end

end Swish.Match
