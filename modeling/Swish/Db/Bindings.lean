import Mathlib.Data.List.Basic

/-!
The binding of parameters in sqlite.c. The results of the calls of SQLite are arguments:
bind gives the result of sqlite3_bind_* for an index and a datum, step that of
sqlite3_step.
-/

set_option autoImplicit false

namespace Swish.Db.Bindings

/-- A binding_t: the type, and the member that it selects. A double is known by its bits. -/
inductive Binding where
  | null
  | integer (i : Int)
  | float (d : Nat)
  | text (utf8 : List UInt8)
  | blob (blob : List UInt8)
  deriving DecidableEq

def sqliteOk : Int := 0

def sqliteRow : Int := 100

def sqliteDone : Int := 101

def Binding.who : Binding → String
  | .null => "sqlite3_bind_null"
  | .integer _ => "sqlite3_bind_int64"
  | .float _ => "sqlite3_bind_double"
  | .text _ => "sqlite3_bind_text64"
  | .blob _ => "sqlite3_bind_blob"

/-- The loop of bind_bindings from the index j on: the variables rc and who. -/
def bindFrom (bind : Nat → Binding → Int) : Nat → List Binding → Int → Option String → Int × Option String
  | _, [], rc, who => (rc, who)
  | j, curr :: bindings, _, _ => bindFrom bind (j + 1) bindings (bind j curr) (some curr.who)

/-- bind_bindings; none is a null pointer. -/
def bindBindings (bind : Nat → Binding → Int) : Option (List Binding) → Int × Option String
  | none => (sqliteOk, none)
  | some bindings => bindFrom bind 1 bindings sqliteOk none

inductive Answer where
  | strue
  | errorPair (who : String) (error : String)
  | sqliteError (who : Option String) (rc : Int)
  deriving DecidableEq

def osiBindStatementBindings (hasDatabase busy : Bool) (bind : Nat → Binding → Int) (b : Option (List Binding)) : Answer :=
  if !hasDatabase then .errorPair "osi_bind_statement_bindings" "UV_EINVAL"
  else if busy then .errorPair "osi_bind_statement_bindings" "UV_EBUSY"
  else
    let (rc, who) := bindBindings bind b
    if rc ≠ sqliteOk then .sqliteError who rc else .strue

def stepGoesOn (rc : Int) : Prop := rc = sqliteOk ∨ rc = sqliteDone ∨ rc = sqliteRow

instance (rc : Int) : Decidable (stepGoesOn rc) := inferInstanceAs (Decidable (_ ∨ _ ∨ _))

/-- The loop of bulk_worker from the statement i on: the statements that are stepped, and sqlite_rc. -/
def bulkWorker (bind : Nat → Nat → Binding → Int) (step : Nat → Int) :
    Nat → List (Option (List Binding)) → List Nat × Int
  | _, [] => ([], sqliteOk)
  | i, b :: bs =>
    let rc := (bindBindings (bind i) b).1
    if rc ≠ sqliteOk then ([], rc)
    else if stepGoesOn (step i) then
      let (stepped, rc) := bulkWorker bind step (i + 1) bs
      (i :: stepped, rc)
    else ([i], step i)

/-- Every call of sqlite3_bind_* for the bindings returns SQLITE_OK. -/
def AllBound (bind : Nat → Binding → Int) (b : Option (List Binding)) : Prop :=
  ∀ bindings j curr, b = some bindings → bindings[j]? = some curr → bind (j + 1) curr = sqliteOk

/-- The last call returns SQLITE_OK, if there is one. -/
def LastBound (bind : Nat → Binding → Int) (b : Option (List Binding)) : Prop :=
  ∀ bindings curr, b = some bindings → bindings.getLast? = some curr → bind bindings.length curr = sqliteOk

/-- A call fails, and the last one does not. -/
def Masked (bind : Nat → Binding → Int) (b : Option (List Binding)) : Prop := LastBound bind b ∧ ¬ AllBound bind b

theorem bindFrom_last (bind : Nat → Binding → Int) (bindings : List Binding) (j : Nat) (rc : Int) (who : Option String) :
    (bindings = [] ∧ bindFrom bind j bindings rc who = (rc, who)) ∨
    ∃ curr, bindings.getLast? = some curr ∧
      bindFrom bind j bindings rc who = (bind (j + bindings.length - 1) curr, some curr.who) := by
  induction bindings generalizing j rc who with
  | nil => exact Or.inl ⟨rfl, rfl⟩
  | cons b bindings ih =>
    refine Or.inr ?_
    obtain ⟨rfl, h⟩ | ⟨curr, hlast, h⟩ := ih (j + 1) (bind j b) (some b.who)
    · exact ⟨b, rfl, h⟩
    · refine ⟨curr, ?_, ?_⟩
      · cases bindings with
        | nil => cases hlast
        | cons c bindings => exact hlast
      · have hindex : j + 1 + bindings.length - 1 = j + (b :: bindings).length - 1 := by
          rw [List.length_cons]
          omega
        rw [bindFrom, h, hindex]

/-- The result of bind_bindings is the result of the last call. -/
theorem bindBindings_ok (bind : Nat → Binding → Int) (b : Option (List Binding)) :
    (bindBindings bind b).1 = sqliteOk ↔ LastBound bind b := by
  cases b with
  | none => exact ⟨fun _ bindings curr h => (by cases h), fun _ => rfl⟩
  | some bindings =>
    have hdef : bindBindings bind (some bindings) = bindFrom bind 1 bindings sqliteOk none := rfl
    rw [hdef]
    unfold LastBound
    obtain ⟨rfl, h⟩ | ⟨curr, hlast, h⟩ := bindFrom_last bind bindings 1 sqliteOk none
    · rw [h]
      refine ⟨fun _ bindings curr hb hlast => ?_, fun _ => rfl⟩
      cases hb
      cases hlast
    · have hindex : 1 + bindings.length - 1 = bindings.length := by omega
      rw [h, hindex]
      constructor
      · intro hok bindings' curr' hb hlast'
        cases hb
        rw [hlast] at hlast'
        cases hlast'
        exact hok
      · intro hall
        exact hall bindings curr rfl hlast

theorem ok_only_iff (bind : Nat → Binding → Int) (b : Option (List Binding)) :
    ((bindBindings bind b).1 = sqliteOk → AllBound bind b) ↔ ¬ Masked bind b := by
  rw [bindBindings_ok]
  constructor
  · intro h hmasked
    exact hmasked.2 (h hmasked.1)
  · intro h hlast
    by_contra hall
    exact h ⟨hlast, hall⟩

theorem osiBindStatementBindings_true {hasDatabase busy : Bool} {bind : Nat → Binding → Int} {b : Option (List Binding)} :
    osiBindStatementBindings hasDatabase busy bind b = .strue ↔
      (hasDatabase = true ∧ busy = false) ∧ (bindBindings bind b).1 = sqliteOk := by
  unfold osiBindStatementBindings
  cases hasDatabase with
  | false => simp
  | true =>
    cases busy with
    | true => simp
    | false => simp

/-- What bulk_worker does with the first statement. -/
theorem bulkWorker_cons (bind : Nat → Nat → Binding → Int) (step : Nat → Int) (n : Nat) (b : Option (List Binding))
    (bs : List (Option (List Binding))) :
    (¬ LastBound (bind n) b ∧ (bulkWorker bind step n (b :: bs)).1 = []) ∨
    (LastBound (bind n) b ∧ ¬ stepGoesOn (step n) ∧ (bulkWorker bind step n (b :: bs)).1 = [n]) ∨
    (LastBound (bind n) b ∧ stepGoesOn (step n) ∧
      (bulkWorker bind step n (b :: bs)).1 = n :: (bulkWorker bind step (n + 1) bs).1) := by
  rw [← bindBindings_ok, bulkWorker]
  dsimp only
  by_cases hrc : (bindBindings (bind n) b).1 = sqliteOk
  · rw [if_neg (not_not_intro hrc)]
    by_cases hstep : stepGoesOn (step n)
    · rw [if_pos hstep]
      exact Or.inr (Or.inr ⟨hrc, hstep, rfl⟩)
    · rw [if_neg hstep]
      exact Or.inr (Or.inl ⟨hrc, hstep, rfl⟩)
  · rw [if_pos hrc]
    exact Or.inl ⟨hrc, rfl⟩

/-- A statement is stepped when those before it went on, and its own last call returned SQLITE_OK. -/
theorem mem_stepped (bind : Nat → Nat → Binding → Int) (step : Nat → Int) (bs : List (Option (List Binding))) (n k : Nat)
    {b : Option (List Binding)} (hb : bs[k]? = some b) :
    n + k ∈ (bulkWorker bind step n bs).1 ↔
      (∀ j < k, ∀ b', bs[j]? = some b' → LastBound (bind (n + j)) b' ∧ stepGoesOn (step (n + j))) ∧
        LastBound (bind (n + k)) b := by
  induction bs generalizing n k with
  | nil => cases hb
  | cons b₀ bs ih =>
    cases k with
    | zero =>
      cases hb
      have hnone : ∀ j < 0, ∀ b', (b :: bs)[j]? = some b' → LastBound (bind (n + j)) b' ∧ stepGoesOn (step (n + j)) :=
        fun j hj => absurd hj (Nat.not_lt_zero j)
      obtain ⟨hlast, heq⟩ | ⟨hlast, -, heq⟩ | ⟨hlast, -, heq⟩ := bulkWorker_cons bind step n b bs
      · rw [heq]
        exact ⟨fun h => (by cases h), fun h => absurd h.2 hlast⟩
      · rw [heq]
        exact ⟨fun _ => ⟨hnone, hlast⟩, fun _ => List.mem_singleton_self n⟩
      · rw [heq]
        exact ⟨fun _ => ⟨hnone, hlast⟩, fun _ => List.mem_cons_self⟩
    | succ k =>
      have hindex : n + (k + 1) = n + 1 + k := by omega
      have hne : n + 1 + k ≠ n := by omega
      have hnext := ih (n + 1) k hb
      rw [hindex]
      obtain ⟨hlast, heq⟩ | ⟨-, hstep, heq⟩ | ⟨hlast, hstep, heq⟩ := bulkWorker_cons bind step n b₀ bs
      · rw [heq]
        exact ⟨fun h => (by cases h), fun h => absurd (h.1 0 (Nat.succ_pos k) b₀ rfl).1 hlast⟩
      · rw [heq]
        exact ⟨fun h => absurd (List.mem_singleton.mp h) hne, fun h => absurd (h.1 0 (Nat.succ_pos k) b₀ rfl).2 hstep⟩
      · rw [heq, List.mem_cons, or_iff_right hne, hnext]
        refine and_congr_left fun _ => ⟨fun h j hj b' hb' => ?_, fun h j hj b' hb' => ?_⟩
        · cases j with
          | zero =>
            cases hb'
            exact ⟨hlast, hstep⟩
          | succ j =>
            have hj' : n + (j + 1) = n + 1 + j := by omega
            rw [hj']
            exact h j (Nat.lt_of_succ_lt_succ hj) b' hb'
        · have hj' : n + 1 + j = n + (j + 1) := by omega
          rw [hj']
          exact h (j + 1) (Nat.succ_lt_succ hj) b' hb'

/-- SQLITE_OK means that all parameters are bound exactly where no failed call is followed by a last one
that succeeds. -/
theorem parameters_bound (bind : Nat → Binding → Int) (b : Option (List Binding)) (hasDatabase busy : Bool)
    (binds : Nat → Nat → Binding → Int) (step : Nat → Int) (bs : List (Option (List Binding))) :
    (((bindBindings bind b).1 = sqliteOk → AllBound bind b) ↔ ¬ Masked bind b) ∧
    ((osiBindStatementBindings hasDatabase busy bind b = .strue → AllBound bind b) ↔
      (hasDatabase = true ∧ busy = false → ¬ Masked bind b)) ∧
    ((∀ i b, bs[i]? = some b → i ∈ (bulkWorker binds step 0 bs).1 → AllBound (binds i) b) ↔
      ∀ i b, bs[i]? = some b →
        (∀ j < i, ∀ b', bs[j]? = some b' → LastBound (binds j) b' ∧ stepGoesOn (step j)) → ¬ Masked (binds i) b) := by
  refine ⟨ok_only_iff bind b, ?_, ?_⟩
  · rw [osiBindStatementBindings_true, ← ok_only_iff]
    exact ⟨fun h hopen hok => h ⟨hopen, hok⟩, fun h hok => h hok.1 hok.2⟩
  · refine forall_congr' fun i => forall_congr' fun b => forall_congr' fun hb => ?_
    have hmem := mem_stepped binds step bs 0 i hb
    simp only [Nat.zero_add] at hmem
    rw [hmem, ← ok_only_iff, bindBindings_ok]
    exact ⟨fun h hbefore hlast => h ⟨hbefore, hlast⟩, fun h hall => h hall.1 hall.2⟩

/-- The first of two parameters is not bound, and the statement is stepped. -/
theorem failed_bind_masked :
    bindBindings (fun j _ => if j = 1 then 18 else 0) (some [.text [97], .null]) = (sqliteOk, some "sqlite3_bind_null") ∧
    osiBindStatementBindings true false (fun j _ => if j = 1 then 18 else 0) (some [.text [97], .null]) = .strue ∧
    (bulkWorker (fun _ j _ => if j = 1 then 18 else 0) (fun _ => 101) 0 [some [.text [97], .null]]).1 = [0] ∧
    ¬ AllBound (fun j _ => if j = 1 then 18 else 0) (some [.text [97], .null]) := by
  refine ⟨by decide, by decide, by decide, fun h => ?_⟩
  exact absurd (h _ 0 _ rfl rfl) (by decide)

end Swish.Db.Bindings
