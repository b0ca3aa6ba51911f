import Swish.Db.Sql
import Swish.Lib.Except

/-!
Each ? of the text stands for one argument, in order.
-/

set_option autoImplicit false

namespace Swish.Db

open Lib

/-- What is spliced in for a term. -/
def Stx.literal (symbolToSql : List Char → List Char) (x : Stx) : Option (List Char) :=
  match x.unquoted? with
  | some _ => none
  | none =>
    match x with
    | .symbol v => some (symbolToSql v)
    | .string v => some v
    | _ => none

/-- The literal terms of the form and the names of its table and its columns, as they are written. -/
def Form.literals (symbolToSql : List Char → List Char) : Form → List (List Char)
  | .insert table columns =>
    symbolToSql table ::
      columns.flatMap fun c => symbolToSql c.name :: c.terms.filterMap (Stx.literal symbolToSql)
  | .update table columns conditions =>
    symbolToSql table ::
      columns.flatMap (fun c => c.name :: c.terms.filterMap (Stx.literal symbolToSql)) ++
      conditions.filterMap (Stx.literal symbolToSql)
  | .delete table conditions => symbolToSql table :: conditions.filterMap (Stx.literal symbolToSql)

def literals (symbolToSql : List Char → List Char) (x : Stx) : List (List Char) :=
  match form? x with
  | some form => form.literals symbolToSql
  | none => []

/-- What the ?s of a text were generated from, from left to right. -/
def origins (text : List (Char × Option Stx)) : List (Option Stx) := (text.filter (·.1 = '?')).map (·.2)

section

variable {symbolToSql : List Char → List Char}

@[simp] theorem origins_append (s t : List (Char × Option Stx)) : origins (s ++ t) = origins s ++ origins t := by
  simp [origins]

theorem origins_text {s : List Char} (h : '?' ∉ s) : origins (tracing.text s) = [] := by
  induction s with
  | nil => rfl
  | cons c s ih =>
    simp only [List.mem_cons, not_or] at h
    have hs := ih h.2
    rw [origins, Pen.text] at hs ⊢
    rw [List.map_cons, List.filter_cons_of_neg (by simp [tracing, Ne.symm h.1])]
    exact hs

/-- The arguments and the ?s, for texts that are joined. -/
theorem origins_join {separator : List (Char × Option Stx)} (h : origins separator = [])
    (ls : List (List (Char × Option Stx))) : origins (join ls separator) = (ls.map origins).flatten := by
  induction ls with
  | nil => rfl
  | cons s ls ih =>
    cases ls with
    | nil => simp [join]
    | cons t ls => rw [join, origins_append, origins_append, h, ih, List.append_nil]; rfl

theorem collectArgs_eq (terms : List Stx) : collectArgs terms = (terms.map (·.unquoted?.toList)).flatten := by
  induction terms with
  | nil => rfl
  | cons x terms ih =>
    rw [collectArgs, List.map_cons, List.flatten_cons, ih]
    cases x.unquoted? <;> rfl

theorem origins_stringify {x : Stx} {text : List (Char × Option Stx)} (h : stringify symbolToSql tracing x = .ok text)
    (hq : ∀ s, x.literal symbolToSql = some s → '?' ∉ s) : origins text = x.unquoted?.toList.map some := by
  unfold stringify at h
  unfold Stx.literal at hq
  cases hu : x.unquoted? with
  | some e =>
    rw [hu] at h
    cases h
    rfl
  | none =>
    simp only [hu] at h hq
    split at h
    · cases h
      exact origins_text (hq _ rfl)
    · cases h
      exact origins_text (hq _ rfl)
    · cases h

theorem origins_terms {terms : List Stx} {texts : List (List (Char × Option Stx))}
    (h : terms.mapM (stringify symbolToSql tracing) = .ok texts)
    (hq : ∀ s, s ∈ terms.filterMap (Stx.literal symbolToSql) → '?' ∉ s) :
    (texts.map origins).flatten = (collectArgs terms).map some := by
  have he := mapM_ok (g := origins) h fun x hx text htext =>
    origins_stringify htext fun s hs => hq s (List.mem_filterMap.mpr ⟨x, hx, hs⟩)
  rw [he, collectArgs_eq, List.map_flatten, List.map_map]
  rfl

theorem origins_stringifyAll {terms : List Stx} {text : List (Char × Option Stx)}
    (h : stringifyAll symbolToSql tracing terms = .ok text)
    (hq : ∀ s, s ∈ terms.filterMap (Stx.literal symbolToSql) → '?' ∉ s) :
    origins text = (collectArgs terms).map some := by
  obtain ⟨texts, htexts, h⟩ := bind_ok h
  cases h
  rw [origins_join (origins_text (by decide)), origins_terms htexts hq]

/-- The fold of the columns appends the arguments of each. -/
theorem foldr_collectArgs (columns : List Column) (ls : List Stx) :
    columns.foldr (fun c ls => collectArgs c.terms ++ ls) ls =
      (columns.map fun c => collectArgs c.terms).flatten ++ ls := by
  induction columns with
  | nil => rfl
  | cons c columns ih => simp [ih]

theorem origins_columns {columns : List Column} {write : Column → Except SqlError (List (Char × Option Stx))}
    {texts : List (List (Char × Option Stx))} (h : columns.mapM write = .ok texts)
    (hw : ∀ c, c ∈ columns → ∀ text, write c = .ok text → origins text = (collectArgs c.terms).map some) :
    (texts.map origins).flatten = ((columns.map fun c => collectArgs c.terms).flatten).map some := by
  rw [mapM_ok h hw, List.map_flatten, List.map_map]
  rfl

theorem origins_names {α : Type} {name : α → List Char} {xs : List α} (h : ∀ x, x ∈ xs → '?' ∉ name x) :
    ((xs.map fun x => tracing.text (name x)).map origins).flatten = [] := by
  simp only [List.flatten_eq_nil_iff, List.mem_map]
  intro l hl
  obtain ⟨text, ⟨x, hx, rfl⟩, rfl⟩ := hl
  exact origins_text (h x hx)

/-- The ?s of the text are generated from the arguments. -/
theorem origins_form {form : Form} {text : List (Char × Option Stx)} (h : form.text symbolToSql tracing = .ok text)
    (hq : ∀ s, s ∈ form.literals symbolToSql → '?' ∉ s) : origins text = form.args.map some := by
  have space : origins (tracing.text [' ']) = [] := origins_text (by decide)
  have comma : origins (tracing.text ", ".toList) = [] := origins_text (by decide)
  cases form with
  | insert table columns =>
    obtain ⟨values, hvalues, h⟩ := bind_ok h
    cases h
    have htable : '?' ∉ symbolToSql table := hq _ List.mem_cons_self
    have hcolumns (c : Column) (hc : c ∈ columns) (s : List Char)
        (hs : s ∈ symbolToSql c.name :: c.terms.filterMap (Stx.literal symbolToSql)) : '?' ∉ s :=
      hq s (List.mem_cons_of_mem _ (List.mem_flatMap.mpr ⟨c, hc, hs⟩))
    have hnames := origins_names fun c hc => hcolumns c hc _ List.mem_cons_self
    have hterms := origins_columns hvalues fun c hc text htext =>
      origins_stringifyAll htext fun s hs => hcolumns c hc s (List.mem_cons_of_mem _ hs)
    have hinsert : origins (tracing.text "insert into ".toList) = [] := origins_text (by decide)
    have hopen : origins (tracing.text ['(']) = [] := origins_text (by decide)
    have hvalues : origins (tracing.text ") values(".toList) = [] := origins_text (by decide)
    have hclose : origins (tracing.text [')']) = [] := origins_text (by decide)
    simp only [origins_append, origins_join comma, hinsert, origins_text htable, hopen, hnames, hvalues, hterms, hclose,
      List.nil_append, List.append_nil, Form.args, foldr_collectArgs]
  | update table columns conditions =>
    obtain ⟨settings, hsettings, h⟩ := bind_ok h
    obtain ⟨texts, htexts, h⟩ := bind_ok h
    cases h
    have htable : '?' ∉ symbolToSql table := hq _ List.mem_cons_self
    have hcolumns (c : Column) (hc : c ∈ columns) (s : List Char)
        (hs : s ∈ c.name :: c.terms.filterMap (Stx.literal symbolToSql)) : '?' ∉ s :=
      hq s (List.mem_append_left _ (List.mem_cons_of_mem _ (List.mem_flatMap.mpr ⟨c, hc, hs⟩)))
    have hconditions := origins_terms htexts fun s hs => hq s (List.mem_append_right _ hs)
    have hterms := origins_columns hsettings fun c hc text htext => by
      obtain ⟨value, hvalue, htext⟩ := bind_ok htext
      cases htext
      have hname : origins (tracing.text c.name) = [] := origins_text (hcolumns c hc _ List.mem_cons_self)
      have hequals : origins (tracing.text ['=']) = [] := origins_text (by decide)
      have hv := origins_stringifyAll hvalue fun s hs => hcolumns c hc s (List.mem_cons_of_mem _ hs)
      simp only [origins_append, hname, hequals, hv, List.nil_append]
    have hupdate : origins (tracing.text "update ".toList) = [] := origins_text (by decide)
    have hset : origins (tracing.text " set ".toList) = [] := origins_text (by decide)
    simp only [origins_join space, List.map_cons, List.flatten_cons, origins_append, origins_join comma, hupdate,
      origins_text htable, hset, hterms, hconditions, List.nil_append, Form.args, foldr_collectArgs, List.map_append]
  | delete table conditions =>
    obtain ⟨texts, htexts, h⟩ := bind_ok h
    cases h
    have htable : '?' ∉ symbolToSql table := hq _ List.mem_cons_self
    have hconditions := origins_terms htexts fun s hs => hq s (List.mem_cons_of_mem _ hs)
    have hdelete : origins (tracing.text "delete from ".toList) = [] := origins_text (by decide)
    simp only [origins_join space, List.map_cons, List.flatten_cons, origins_append, hdelete, origins_text htable,
      hconditions, List.nil_append, Form.args]

end

section

variable {α β : Type}

/-- The pen that writes what another writes, under a function. -/
def Pen.map (g : α → β) (pen : Pen α) : Pen β := ⟨fun c => g (pen.char c), fun e => g (pen.mark e)⟩

theorem map_tracing : tracing.map Prod.fst = plain := rfl

variable (g : α → β) (pen : Pen α) (symbolToSql : List Char → List Char)

theorem text_map (s : List Char) : (pen.map g).text s = (pen.text s).map g := by
  simp [Pen.text, Pen.map]

theorem join_map (ls : List (List α)) (separator : List α) :
    join (ls.map (List.map g)) (separator.map g) = (join ls separator).map g := by
  induction ls with
  | nil => rfl
  | cons s ls ih =>
    cases ls with
    | nil => rfl
    | cons t ls =>
      rw [List.map_cons] at ih
      rw [List.map_cons, List.map_cons, join, join, ih, List.map_append, List.map_append]

theorem stringify_map (x : Stx) :
    stringify symbolToSql (pen.map g) x = (stringify symbolToSql pen x).map (List.map g) := by
  unfold stringify
  cases x.unquoted? with
  | some e => rfl
  | none => cases x <;> simp [Except.map, text_map]

theorem stringifyAll_map (terms : List Stx) :
    stringifyAll symbolToSql (pen.map g) terms = (stringifyAll symbolToSql pen terms).map (List.map g) := by
  rw [stringifyAll, stringifyAll, funext (stringify_map g pen symbolToSql), mapM_map]
  cases terms.mapM (stringify symbolToSql pen) with
  | error e => rfl
  | ok texts =>
    change Except.ok (join (texts.map (List.map g)) ((pen.map g).text [' '])) = .ok ((join texts (pen.text [' '])).map g)
    rw [text_map, join_map]

theorem setting_map (c : Column) :
    (do
      let value ← stringifyAll symbolToSql (pen.map g) c.terms
      .ok ((pen.map g).text c.name ++ (pen.map g).text ['='] ++ value)) =
    (do
      let value ← stringifyAll symbolToSql pen c.terms
      Except.ok (pen.text c.name ++ pen.text ['='] ++ value)).map (List.map g) := by
  rw [stringifyAll_map]
  cases stringifyAll symbolToSql pen c.terms with
  | error e => rfl
  | ok value =>
    change Except.ok _ = Except.ok (List.map g _)
    rw [text_map, text_map, List.map_append, List.map_append]

/-- The end of an update or a delete. -/
theorem conditions_map (start : List α) (conditions : List Stx) :
    (do
      let texts ← conditions.mapM (stringify symbolToSql (pen.map g))
      .ok (join (start.map g :: texts) ((pen.map g).text [' ']))) =
    (do
      let texts ← conditions.mapM (stringify symbolToSql pen)
      Except.ok (join (start :: texts) (pen.text [' ']))).map (List.map g) := by
  rw [funext (stringify_map g pen symbolToSql), mapM_map]
  cases conditions.mapM (stringify symbolToSql pen) with
  | error e => rfl
  | ok texts =>
    change Except.ok _ = Except.ok (List.map g _)
    rw [text_map, ← join_map, List.map_cons]

theorem form_text_map (form : Form) :
    form.text symbolToSql (pen.map g) = (form.text symbolToSql pen).map (List.map g) := by
  cases form with
  | insert table columns =>
    have names_map : columns.map (fun c => (pen.map g).text (symbolToSql c.name)) =
        (columns.map fun c => pen.text (symbolToSql c.name)).map (List.map g) := by
      simp [text_map]
    simp only [Form.text, stringifyAll_map, mapM_map]
    cases columns.mapM fun c => stringifyAll symbolToSql pen c.terms with
    | error e => rfl
    | ok values =>
      change Except.ok _ = Except.ok (List.map g _)
      rw [names_map]
      simp only [text_map, join_map, List.map_append]
  | update table columns conditions =>
    simp only [Form.text, setting_map, mapM_map]
    cases columns.mapM fun c => do
        let value ← stringifyAll symbolToSql pen c.terms
        Except.ok (pen.text c.name ++ pen.text ['='] ++ value) with
    | error e => rfl
    | ok settings =>
      refine Eq.trans ?_ (conditions_map g pen symbolToSql
        (pen.text "update ".toList ++ pen.text (symbolToSql table) ++ pen.text " set ".toList ++
          join settings (pen.text ", ".toList)) conditions)
      simp only [List.map_append, ← text_map, ← join_map]
      rfl
  | delete table conditions =>
    refine Eq.trans ?_ (conditions_map g pen symbolToSql
      (pen.text "delete from ".toList ++ pen.text (symbolToSql table)) conditions)
    simp only [List.map_append, ← text_map]
    rfl

end

/-- The text is that of the code. -/
theorem parseSql_eq (symbolToSql : List Char → List Char) (x : Stx) :
    parseSql symbolToSql x = (parseWith tracing symbolToSql x).map fun r => (r.1.map Prod.fst, r.2) := by
  rw [parseSql, ← map_tracing, parseWith, parseWith]
  cases form? x with
  | none => rfl
  | some form =>
    simp only [form_text_map]
    cases form.text symbolToSql tracing <;> rfl

theorem count_eq_origins (text : List (Char × Option Stx)) :
    (text.map Prod.fst).count '?' = (origins text).length := by
  induction text with
  | nil => rfl
  | cons c text ih =>
    rw [origins] at ih ⊢
    by_cases hc : c.1 = '?' <;> simp_all

/-- The ?s of the text are as many as the arguments, and the ? at each place, counted from the left, was
generated from the unquoted term whose expression is the argument at that place. -/
theorem placeholders_are_args {symbolToSql : List Char → List Char} {x : Stx} {sql : List Char} {args : List Stx}
    (h : parseSql symbolToSql x = .ok (sql, args)) (hq : ∀ s, s ∈ literals symbolToSql x → '?' ∉ s) :
    ∃ text, parseWith tracing symbolToSql x = .ok (text, args) ∧ text.map Prod.fst = sql ∧
      origins text = args.map some ∧ sql.count '?' = args.length := by
  rw [parseSql_eq] at h
  unfold parseWith literals at *
  cases hf : form? x with
  | none =>
    rw [hf] at h
    cases h
  | some form =>
    simp only [hf] at h hq ⊢
    cases ht : form.text symbolToSql tracing with
    | error e =>
      rw [ht] at h
      cases h
    | ok text =>
      rw [ht] at h
      cases h
      have horigins := origins_form ht hq
      refine ⟨text, rfl, rfl, horigins, ?_⟩
      rw [count_eq_origins, horigins, List.length_map]

/-- The form `(update t ([a ,x "+" ,y]) where b = ,z)`. -/
def exampleUpdate : Stx :=
  .list [.symbol "update".toList, .symbol "t".toList,
    .list [.list [.symbol "a".toList, .unquote (.symbol "x".toList), .string "+".toList,
      .unquote (.symbol "y".toList)]],
    .symbol "where".toList, .symbol "b".toList, .symbol "=".toList, .unquote (.symbol "z".toList)]

theorem placeholders_are_args_update :
    ∃ text, parseWith tracing (fun v => v) exampleUpdate =
        .ok (text, [.symbol "x".toList, .symbol "y".toList, .symbol "z".toList]) ∧
      text.map Prod.fst = "update t set a=? + ? where b = ?".toList ∧
      origins text = [some (.symbol "x".toList), some (.symbol "y".toList), some (.symbol "z".toList)] ∧
      "update t set a=? + ? where b = ?".toList.count '?' = 3 :=
  placeholders_are_args rfl (by decide)

/-- The form `(insert table ([c ,x]))`. -/
def insertOne (table : List Char) : Stx :=
  .list [.symbol "insert".toList, .symbol table, .list [.list [.symbol "c".toList, .unquote (.symbol "x".toList)]]]

/-- Neither form has a literal term. The names of tables and columns are spliced in as symbol->sql gives them, so
there can be more ?s than arguments. -/
theorem name_placeholder :
    parseSql (fun v => v) (insertOne "t?".toList) =
      .ok ("insert into t?(c) values(?)".toList, [.symbol "x".toList]) ∧
    "insert into t?(c) values(?)".toList.count '?' = 2 ∧
    parseSql (fun v => v ++ ['?']) (insertOne "t".toList) =
      .ok ("insert into t?(c?) values(?)".toList, [.symbol "x".toList]) ∧
    "insert into t?(c?) values(?)".toList.count '?' = 3 := by
  refine ⟨rfl, by decide, rfl, by decide⟩

end Swish.Db
