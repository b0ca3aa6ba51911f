import Swish.Json.Canonical
import Swish.Lib.Except

/-!
The macro json:write-object, with json:write as the writer. It sorts the clauses and
renders the keys, and some of the values, when it is expanded. What the expanded code
writes is what json:write writes for the object with the same members.
-/

set_option autoImplicit false

namespace Swish.Json

variable {env : WriteEnv}

/-- A clause [key value]. The value is that of the expression, which is a literal
or not. -/
structure Clause where
  key : Key
  value : Datum
  literal : Bool

def Clause.cell (c : Clause) : Key × Datum := (c.key, c.value)

/-- The indent expression is the constant #f or has a value at run time. -/
inductive IndentExpr where
  | constFalse
  | expr (indent : Option Int)

def IndentExpr.value : IndentExpr → Option Int
  | .constFalse => none
  | .expr indent => indent

/-- The parameters json:key<? and json:custom-write when the macro is expanded. -/
structure Expansion where
  keyLt : Option (List Char → List Char → Bool)
  customWrite : Option (Datum → Option Int → Option (Except WriteError (List Char)))

def Expansion.within (x : Expansion) (env : WriteEnv) : WriteEnv :=
  { env with keyLt := x.keyLt, customWrite := x.customWrite }

def getKey (env : WriteEnv) (k : Key) : List Char := writeString (k.toText env)

def getPreamble (env : WriteEnv) (pre : Char) (k : Key) : List Char :=
  pre :: (writeString (k.toText env) ++ [':'])

def writeKey (env : WriteEnv) (indent : Option Int) (pre : Char) (key whole : List Char) :
    Except WriteError (List Char × Option Int) :=
  match indent with
  | some indent => do
    let (start, indent) ← writeStructuralChar env pre (some indent)
    let (colon, indent) ← writeStructuralChar env ':' indent
    return (start ++ key ++ colon, indent)
  | none => .ok (whole, none)

/-- The literals that format-value renders. -/
def rendersEarly (env : WriteEnv) : Datum → Bool
  | .bool _ => true
  | .int n => env.isFixnum n
  | .string _ => true
  | .flonum s m e => (env.flonumToString s m e).isSome
  | .char c => c = nul
  | _ => false

def formatValue (env : WriteEnv) (c : Clause) : Option (Except WriteError (List Char)) :=
  if c.literal && rendersEarly env c.value then some (objectToString env c.value none) else none

/-- json-write-kv where the indent is the constant #f. -/
def jsonWriteKvFalse (env : WriteEnv) (x : Expansion) (pre : Char) (c : Clause) :
    Except WriteError (List Char) :=
  match formatValue (x.within env) c with
  | some val => do
    return getPreamble (x.within env) pre c.key ++ (← val)
  | none => do
    return getPreamble (x.within env) pre c.key ++ (← write env c.value none)

/-- json-write-kv, with the indent it returns. -/
def jsonWriteKv (env : WriteEnv) (x : Expansion) (indent : Option Int) (pre : Char) (c : Clause) :
    Except WriteError (List Char × Option Int) := do
  let (start, indent) ← writeKey env indent pre (getKey (x.within env) c.key) (getPreamble (x.within env) pre c.key)
  let text ← write env c.value indent
  return (start ++ text, indent)

/-- The clauses after the first. -/
def writeMore (kv : Clause → Except WriteError (List Char)) : List Clause → Except WriteError (List Char)
  | [] => .ok []
  | c :: cs => do
    let text ← kv c
    return text ++ (← writeMore kv cs)

def maybeSort (env : WriteEnv) (clauses : List Clause) : List Clause :=
  (sortCells env (clauses.map fun c => (c.key, c))).map Prod.snd

/-- The newline after the outermost object. -/
def endLine (indent : Option Int) (text : List Char) : List Char :=
  if indent = some 0 then text ++ ['\n'] else text

/-- The code json:write-object is expanded to; none is a syntax error. -/
def writeObject (env : WriteEnv) (x : Expansion) (indentExpr : IndentExpr) (clauses : List Clause) :
    Option (Except WriteError (List Char)) :=
  if clauses.isEmpty then some (.ok (endLine indentExpr.value ['\x7b', '\x7d']))
  else if (clauses.map Clause.key).Nodup then
    match maybeSort (x.within env) clauses with
    | [] => none
    | c :: cs =>
      match indentExpr with
      | .constFalse => some do
        let first ← jsonWriteKvFalse env x '\x7b' c
        let more ← writeMore (jsonWriteKvFalse env x ',') cs
        let (stop, _) ← writeStructuralChar env '\x7d' none
        return first ++ more ++ stop
      | .expr indent => some do
        let (first, inner) ← jsonWriteKv env x indent '\x7b' c
        let more ← writeMore (fun c => Prod.fst <$> jsonWriteKv env x inner ',' c) cs
        let (stop, _) ← writeStructuralChar env '\x7d' inner
        return endLine indent (first ++ more ++ stop)
  else none

theorem ok_bind {α β : Type} (a : α) (f : α → Except WriteError β) :
    (Except.ok a >>= f) = f a := rfl

/-- Inside an object json:write neither checks the indent nor ends the line. -/
theorem write_inner {indent : Option Int} (h : ∀ i, indent = some i → env.isFixnum i = true ∧ 0 < i)
    (v : Datum) : write env v indent = wr env v indent := by
  cases indent with
  | none => rfl
  | some i =>
    obtain ⟨h1, h2⟩ := h i rfl
    have hno : ¬ (!env.isFixnum i || decide (i < 0)) = true := by
      simp [h1]
      omega
    have h0 : i ≠ 0 := by omega
    simp only [write]
    rw [if_neg hno]
    simp only [h0, if_false]
    exact bind_pure _

/-- What is rendered early does not depend on the parameters. -/
theorem wr_rendersEarly (x : Expansion) {v : Datum} (h : rendersEarly (x.within env) v = true) :
    wr (x.within env) v none = wr env v none := by
  cases v with
  | bool b => cases b <;> rfl
  | char c =>
    have hc : c = nul := of_decide_eq_true h
    rw [hc]
    rfl
  | int n => rw [wr_int, wr_int]
  | flonum s m e =>
    obtain ⟨text, ht⟩ := Option.isSome_iff_exists.mp h
    have ht' : env.flonumToString s m e = some text := ht
    rw [wr, wr, ht, ht']
  | string s => rfl
  | ratnum _ _ => cases h
  | symbol _ => cases h
  | vector _ => cases h
  | nil => cases h
  | pair _ _ => cases h
  | object _ => cases h

theorem toText_within (x : Expansion) (k : Key) : k.toText (x.within env) = k.toText env := by
  cases k <;> rfl

theorem jsonWriteKvFalse_eq (x : Expansion) (pre : Char) (c : Clause) :
    jsonWriteKvFalse env x pre c = do
      let text ← writeCell env none (c.key, wr env c.value none)
      return pre :: text := by
  have hval : jsonWriteKvFalse env x pre c = do
      return getPreamble (x.within env) pre c.key ++ (← wr env c.value none) := by
    unfold jsonWriteKvFalse formatValue
    by_cases h : (c.literal && rendersEarly (x.within env) c.value) = true
    · rw [if_pos h, ← wr_rendersEarly x (Bool.and_eq_true_iff.mp h).2]
      rfl
    · rw [if_neg h]
      rfl
  rw [hval]
  unfold getPreamble
  rw [toText_within]
  cases wr env c.value none with
  | error e => rfl
  | ok text =>
    show Except.ok _ = Except.ok _
    simp

theorem jsonWriteKv_eq (x : Expansion) (indent : Option Int) {pre : Char} (c : Clause)
    (h : ∀ text inner, writeStructuralChar env pre indent = .ok (text, inner) →
      ∀ i, inner = some i → env.isFixnum i = true ∧ 0 < i) :
    jsonWriteKv env x indent pre c = do
      let r ← writeStructuralChar env pre indent
      let text ← writeCell env r.2 (c.key, wr env c.value r.2)
      return (r.1 ++ text, r.2) := by
  unfold jsonWriteKv getKey getPreamble writeCell
  rw [toText_within]
  cases indent with
  | none =>
    show (do let text ← wr env c.value none; _) =
      (do let text ← (do let text ← wr env c.value none; _); _)
    cases wr env c.value none with
    | error e => rfl
    | ok text =>
      show Except.ok _ = Except.ok _
      simp
  | some i =>
    unfold writeKey
    dsimp only
    cases hs : writeStructuralChar env pre (some i) with
    | error e => rfl
    | ok r =>
      obtain ⟨start, inner⟩ := r
      obtain ⟨ws, hcolon, -⟩ := writeStructuralChar_colon env inner
      have hw := write_inner (h start inner hs) c.value
      simp only [ok_bind, hcolon, hw, pure_bind]
      cases wr env c.value inner with
      | error e => rfl
      | ok text =>
        show Except.ok _ = Except.ok _
        simp

/-- The indent is #f or a fixnum that is not negative. -/
def IndentOk (env : WriteEnv) (indent : Option Int) : Prop :=
  ∀ i, indent = some i → env.isFixnum i = true ∧ 0 ≤ i

theorem structural_inner {indent inner : Option Int} {text : List Char} (h : IndentOk env indent)
    (hs : writeStructuralChar env '\x7b' indent = .ok (text, inner)) :
    ∀ i, inner = some i → env.isFixnum i = true ∧ 0 < i := by
  cases indent with
  | none =>
    cases hs
    exact fun i hi => (by cases hi)
  | some j =>
    obtain ⟨-, hj⟩ := h j rfl
    have hs' : (env.fixnum (j + 2) >>= fun indent => newlineAndIndent indent >>= fun ws =>
        pure ('\x7b' :: ws, some indent)) = Except.ok (text, inner) := hs
    unfold WriteEnv.fixnum at hs'
    by_cases hfix : env.isFixnum (j + 2) = true
    · rw [if_pos hfix, ok_bind, newlineAndIndent, if_pos (by omega), ok_bind] at hs'
      cases hs'
      intro i hi
      cases hi
      exact ⟨hfix, by omega⟩
    · rw [if_neg hfix] at hs'
      cases hs'

theorem structural_comma {indent inner : Option Int} {text : List Char}
    (hs : writeStructuralChar env ',' indent = .ok (text, inner)) : inner = indent := by
  cases indent with
  | none =>
    cases hs
    rfl
  | some j =>
    have hs' : (newlineAndIndent j >>= fun ws => pure (',' :: ws, some j)) = Except.ok (text, inner) := hs
    obtain ⟨ws, hn, hs'⟩ := Lib.bind_ok hs'
    cases hs'
    rfl

/-- A member as wr writes it. -/
def memberOf (env : WriteEnv) (indent : Option Int) (cell : Key × Datum) : Except WriteError (List Char) :=
  writeCell env indent (cell.1, wr env cell.2 indent)

theorem writeMore_eq (x : Expansion) {inner : Option Int}
    (h : ∀ i, inner = some i → env.isFixnum i = true ∧ 0 < i) (cs : List Clause) :
    writeMore (fun c => Prod.fst <$> jsonWriteKv env x inner ',' c) cs =
      writeRest env inner (cs.map fun c => memberOf env inner c.cell) := by
  induction cs with
  | nil => rfl
  | cons c cs ih =>
    rw [writeMore, List.map_cons, writeRest, ih, jsonWriteKv_eq]
    · cases hs : writeStructuralChar env ',' inner with
      | error e => rfl
      | ok r =>
        obtain ⟨comma, inner'⟩ := r
        rw [structural_comma hs]
        show (do let text ← Prod.fst <$> (do let text ← memberOf env inner c.cell; _); _) =
          (do let text ← memberOf env inner c.cell; _)
        cases memberOf env inner c.cell with
        | error e => rfl
        | ok text => rfl
    · intro text inner' hs
      rw [structural_comma hs]
      exact h

/-- The expanded code at run time, on the sorted clauses. -/
theorem runTime_eq (x : Expansion) {indent : Option Int} (h : IndentOk env indent) (c : Clause)
    (cs : List Clause) :
    (do
      let (first, inner) ← jsonWriteKv env x indent '\x7b' c
      let more ← writeMore (fun c => Prod.fst <$> jsonWriteKv env x inner ',' c) cs
      let (stop, _) ← writeStructuralChar env '\x7d' inner
      return endLine indent (first ++ more ++ stop)) =
    endLine indent <$> writeAll env '\x7b' '\x7d' indent
      fun inner => (c :: cs).map fun c => memberOf env inner c.cell := by
  rw [jsonWriteKv_eq x indent c fun text inner hs => structural_inner h hs]
  unfold writeAll
  cases hs : writeStructuralChar env '\x7b' indent with
  | error e => rfl
  | ok r =>
    obtain ⟨start, inner⟩ := r
    have hmore := writeMore_eq x (structural_inner h hs) cs
    simp only [ok_bind, List.map_cons]
    change (do
      let r ← (do let text ← memberOf env inner c.cell; pure (start ++ text, inner))
      _) = _
    cases memberOf env inner c.cell with
    | error e => rfl
    | ok text =>
      simp only [ok_bind, pure_bind]
      rw [hmore]
      cases writeRest env inner (cs.map fun c => memberOf env inner c.cell) with
      | error e => rfl
      | ok more =>
        simp only [ok_bind]
        cases writeStructuralChar env '\x7d' inner with
        | error e => rfl
        | ok stop => rfl

/-- The expanded code for the constant #f is what the other code does for #f. -/
theorem constFalse_eq (x : Expansion) (c : Clause) (cs : List Clause) :
    (do
      let first ← jsonWriteKvFalse env x '\x7b' c
      let more ← writeMore (jsonWriteKvFalse env x ',') cs
      let (stop, _) ← writeStructuralChar env '\x7d' none
      return first ++ more ++ stop) =
    writeAll env '\x7b' '\x7d' none
      fun inner => (c :: cs).map fun c => memberOf env inner c.cell := by
  have hmore : ∀ cs, writeMore (jsonWriteKvFalse env x ',') cs =
      writeRest env none (cs.map fun c => memberOf env none c.cell) := by
    intro cs
    induction cs with
    | nil => rfl
    | cons c cs ih =>
      rw [writeMore, List.map_cons, writeRest, ih, jsonWriteKvFalse_eq]
      show (do let text ← (do let text ← memberOf env none c.cell; _); _) =
        (do let text ← memberOf env none c.cell; _)
      cases memberOf env none c.cell with
      | error e => rfl
      | ok text => rfl
  rw [hmore, jsonWriteKvFalse_eq]
  show (do let text ← (do let text ← memberOf env none c.cell; _); _) =
    (do let text ← memberOf env none c.cell; _)
  cases memberOf env none c.cell with
  | error e => rfl
  | ok text => rfl

/-- Cells with the same keys in the same order. -/
theorem eq_of_perm_of_keys {cells cells' : List (Key × Datum)} (hp : cells.Perm cells')
    (hnd : (cells.map Prod.fst).Nodup) (hk : cells.map Prod.fst = cells'.map Prod.fst) :
    cells = cells' := by
  refine List.ext_getElem (by simpa using congrArg List.length hk) fun i h1 h2 => ?_
  have hi : (cells.get ⟨i, h1⟩).1 = (cells'.get ⟨i, h2⟩).1 := by
    have := List.getElem_of_eq hk (by simpa using h1)
    simpa using this
  exact eq_of_key hnd (List.getElem_mem h1) (hp.mem_iff.mpr (List.getElem_mem h2)) hi

theorem cells_maybeSort (env : WriteEnv) (clauses : List Clause) :
    (maybeSort env clauses).map Clause.cell = sortCells env (clauses.map Clause.cell) := by
  have hmap : clauses.map Clause.cell =
      (clauses.map fun c => (c.key, c)).map fun m => (m.1, Clause.value m.2) := by
    rw [List.map_map]
    rfl
  rw [hmap, sortCells_map, maybeSort, List.map_map]
  refine List.map_congr_left fun m hm => ?_
  obtain ⟨c, -, rfl⟩ := List.mem_map.mp ((sortCells_perm _ _).mem_iff.mp hm)
  rfl

/-- Both write the members in the same order. -/
def SameOrder (env : WriteEnv) (x : Expansion) (cells : List (Key × Datum)) (clauses : List Clause) : Prop :=
  (sortCells env cells).map Prod.fst = (sortCells (x.within env) (clauses.map Clause.cell)).map Prod.fst

theorem keys_cell (clauses : List Clause) :
    (clauses.map Clause.cell).map Prod.fst = clauses.map Clause.key := by
  rw [List.map_map]
  rfl

/-- The default order is the same for all ordinary symbols. -/
theorem sameOrder_default {x : Expansion} {cells : List (Key × Datum)} {clauses : List Clause}
    (hcells : cells.Perm (clauses.map Clause.cell)) (hkeys : (clauses.map Clause.key).Nodup)
    (hlt : env.keyLt = some stringLt) (hlt' : x.keyLt = some stringLt)
    (hsym : ∀ c ∈ clauses, c.key.Ordinary) : SameOrder env x cells clauses := by
  have hsort : sortCells (x.within env) (clauses.map Clause.cell) = sortCells env (clauses.map Clause.cell) := by
    have hlt'' : (x.within env).keyLt = some stringLt := hlt'
    unfold sortCells
    rw [hlt, hlt'']
  have hnd : ((clauses.map Clause.cell).map Prod.fst).Nodup := by
    rw [keys_cell]
    exact hkeys
  unfold SameOrder
  rw [hsort, sortCells_of_perm hlt hcells ((hcells.map Prod.fst).nodup_iff.mpr hnd)]
  intro cell hcell
  obtain ⟨c, hc, rfl⟩ := List.mem_map.mp (hcells.mem_iff.mp hcell)
  exact hsym c hc

/-- wr on an object that the custom writer leaves to it. -/
theorem wr_members {cells : List (Key × Datum)} {indent : Option Int}
    (hcustom : ∀ f, env.customWrite = some f → f (.object cells) indent = none)
    (hne : cells.isEmpty = false) :
    wr env (.object cells) indent = writeAll env '\x7b' '\x7d' indent
      fun inner => (sortCells env cells).map (memberOf env inner) := by
  have hcells : ∀ inner, (sortCells env (wrCells env cells inner)).map (writeCell env inner) =
      (sortCells env cells).map (memberOf env inner) := by
    intro inner
    rw [wrCells_eq, sortCells_map env (fun v => wr env v inner), List.map_map]
    rfl
  rw [wr, hne]
  simp only [hcells]
  unfold orCustom
  cases h : env.customWrite with
  | none => rfl
  | some f =>
    dsimp only
    rw [hcustom f h]
    rfl

theorem write_outer {indent : Option Int} (h : IndentOk env indent) (v : Datum) :
    write env v indent = endLine indent <$> wr env v indent := by
  cases indent with
  | none => exact (id_map _).symm
  | some i =>
    obtain ⟨h1, h2⟩ := h i rfl
    have hno : ¬ (!env.isFixnum i || decide (i < 0)) = true := by
      simp [h1]
      omega
    simp only [write]
    rw [if_neg hno]
    cases wr env v (some i) with
    | error e => rfl
    | ok text =>
      show Except.ok _ = Except.ok _
      simp [endLine]

/-- Distinct keys, an indent that json:write takes, the same order of the members, and
a custom writer, if there is one, that leaves the object itself to json:write: the text
is the same on both paths. -/
theorem write_object_agrees (env : WriteEnv) (x : Expansion) (indentExpr : IndentExpr)
    (clauses : List Clause) (cells : List (Key × Datum)) (hkeys : (clauses.map Clause.key).Nodup)
    (hcells : cells.Perm (clauses.map Clause.cell)) (hindent : IndentOk env indentExpr.value)
    (horder : SameOrder env x cells clauses ∨
      env.keyLt = some stringLt ∧ x.keyLt = some stringLt ∧ ∀ c ∈ clauses, c.key.Ordinary)
    (hcustom : ∀ f, env.customWrite = some f → f (.object cells) indentExpr.value = none) :
    writeObject env x indentExpr clauses = some (write env (.object cells) indentExpr.value) := by
  have hsame : SameOrder env x cells clauses := by
    rcases horder with h | ⟨h1, h2, h3⟩
    · exact h
    · exact sameOrder_default hcells hkeys h1 h2 h3
  have hnd : (cells.map Prod.fst).Nodup := by
    rw [(hcells.map Prod.fst).nodup_iff, keys_cell]
    exact hkeys
  have hsorted : sortCells env cells = (maybeSort (x.within env) clauses).map Clause.cell := by
    have hp := (sortCells_perm env cells).trans (hcells.trans (sortCells_perm (x.within env) _).symm)
    rw [cells_maybeSort]
    exact eq_of_perm_of_keys hp (((sortCells_perm env cells).map Prod.fst).nodup_iff.mpr hnd) hsame
  rw [write_outer hindent]
  unfold writeObject
  cases he : clauses.isEmpty with
  | true =>
    rw [List.isEmpty_iff.mp he] at hcells
    rw [List.perm_nil.mp hcells] at hcustom ⊢
    rw [wr]
    unfold orCustom
    cases h : env.customWrite with
    | none => rfl
    | some f =>
      dsimp only
      rw [hcustom f h]
      rfl
  | false =>
    have hne : cells.isEmpty = false := by
      cases cells with
      | nil => simp_all
      | cons _ _ => rfl
    rw [wr_members hcustom hne, hsorted, if_pos hkeys]
    simp only [Bool.false_eq_true, if_false]
    cases hm : maybeSort (x.within env) clauses with
    | nil =>
      have hnil := sortCells_perm env cells
      rw [hsorted, hm] at hnil
      rw [List.nil_perm.mp hnil] at hne
      cases hne
    | cons c cs =>
      cases indentExpr with
      | constFalse =>
        refine congrArg some ((constFalse_eq x c cs).trans ?_)
        simp only [List.map_map]
        exact (id_map _).symm
      | expr indent =>
        refine congrArg some ((runTime_eq x hindent c cs).trans ?_)
        simp only [List.map_map]
        rfl

/-- The clauses [b 1] [a (list "x")]. -/
def twoClauses : List Clause :=
  [⟨.symbol ['b'], .int 1, true⟩, ⟨.symbol ['a'], .pair (.string ['x']) .nil, false⟩]

theorem write_object_agrees_two :
    writeObject machine64 ⟨some stringLt, none⟩ (.expr (some 0)) twoClauses =
      some (write machine64 (.object (twoClauses.map Clause.cell)) (some 0)) :=
  write_object_agrees machine64 ⟨some stringLt, none⟩ (.expr (some 0)) twoClauses _ (by decide) (.refl _)
    (fun i hi => (by cases hi; decide)) (.inr ⟨rfl, rfl, by simp [twoClauses, Key.Ordinary]⟩)
    (fun _ h => (by cases h))

/-- json:custom-write is set to a procedure that writes an X for every object. -/
def objectsAsX : WriteEnv :=
  { machine64 with customWrite := some fun x _ => if let .object _ := x then some (.ok ['X']) else none }

/-- The clause [a 1]. -/
def oneClause : Clause := ⟨.symbol ['a'], .int 1, true⟩

theorem maybeSort_singleton (env : WriteEnv) (c : Clause) : maybeSort env [c] = [c] := by
  unfold maybeSort sortCells
  cases env.keyLt with
  | none => rfl
  | some lt => simp

/-- json:write asks the custom writer about the object; json:write-object does not. -/
theorem custom_writer_takes_object :
    ¬ ∀ (env : WriteEnv) (x : Expansion) (indentExpr : IndentExpr) (clauses : List Clause)
      (cells : List (Key × Datum)), (clauses.map Clause.key).Nodup →
      cells.Perm (clauses.map Clause.cell) → IndentOk env indentExpr.value →
      SameOrder env x cells clauses →
      writeObject env x indentExpr clauses = some (write env (.object cells) indentExpr.value) := by
  intro h
  have hno := h objectsAsX ⟨some stringLt, none⟩ .constFalse [oneClause] [oneClause.cell] (by decide)
    (.refl _) (fun i hi => (by cases hi)) rfl
  have hwrite : write objectsAsX (.object [oneClause.cell]) none = .ok ['X'] := rfl
  have hobject : writeObject objectsAsX ⟨some stringLt, none⟩ .constFalse [oneClause] =
      some (.ok ['\x7b', '"', 'a', '"', ':', '1', '\x7d']) := by
    unfold writeObject
    rw [maybeSort_singleton]
    rfl
  rw [hobject, show IndentExpr.value .constFalse = none from rfl, hwrite] at hno
  cases hno

end Swish.Json
