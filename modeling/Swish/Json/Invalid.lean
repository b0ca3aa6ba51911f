import Swish.Json.RoundTrip

/-!
Which data json:write refuses. The tests are spread over the recursion, so the data
are described by the parts that wr comes to; what follows the last pair of a list is
not one of them.
-/

set_option autoImplicit false

namespace Swish.Json

variable {env : WriteEnv}

mutual

/-- The JSON values. Among flonums these are the finite ones. -/
def JsonValue (env : WriteEnv) : Datum → Prop
  | .bool _ => True
  | .char c => c = nul
  | .int _ => True
  | .flonum s m e => (env.flonumToString s m e).isSome
  | .string _ => True
  | .nil => True
  | .pair a d => JsonValue env a ∧ JsonRest env d
  | .object cells => JsonCells env cells
  | .ratnum _ _ => False
  | .symbol _ => False
  | .vector _ => False

/-- The rest of a proper list of JSON values. -/
def JsonRest (env : WriteEnv) : Datum → Prop
  | .nil => True
  | .pair a d => JsonValue env a ∧ JsonRest env d
  | _ => False

def JsonCells (env : WriteEnv) : List (Key × Datum) → Prop
  | [] => True
  | (_, val) :: cells => JsonValue env val ∧ JsonCells env cells

end

mutual

/-- The datum, the elements of its lists and the values of its objects. -/
def parts : Datum → List Datum
  | .pair a d => .pair a d :: (parts a ++ restParts d)
  | .object cells => .object cells :: cellParts cells
  | x => [x]

def restParts : Datum → List Datum
  | .pair a d => parts a ++ restParts d
  | _ => []

def cellParts : List (Key × Datum) → List Datum
  | [] => []
  | (_, val) :: cells => parts val ++ cellParts cells

end

/-- What follows the last pair is not the empty list. -/
def endsImproperly : Datum → Bool
  | .nil => false
  | .pair _ d => endsImproperly d
  | _ => true

def isImproperList : Datum → Bool
  | .pair _ d => endsImproperly d
  | _ => false

/-- The kinds of data that no case of wr takes. -/
def noCase (env : WriteEnv) : Datum → Bool
  | .char c => c ≠ nul
  | .ratnum _ _ => true
  | .flonum s m e => (env.flonumToString s m e).isNone
  | .symbol _ => true
  | .vector _ => true
  | _ => false

mutual

theorem jsonValue_iff : ∀ x : Datum, JsonValue env x ↔
    ∀ y ∈ parts x, isImproperList y = false ∧ noCase env y = false
  | .bool _ | .int _ | .string _ | .nil | .ratnum _ _ | .symbol _ | .vector _ => by
    simp [JsonValue, parts, isImproperList, noCase]
  | .char c => by simp [JsonValue, parts, isImproperList, noCase]
  | .flonum s m e => by
    simp only [JsonValue, parts, isImproperList, noCase, List.mem_singleton, forall_eq, true_and]
    cases env.flonumToString s m e <;> simp
  | .pair a d => by
    have ha := jsonValue_iff a
    have hd := jsonRest_iff d
    simp only [JsonValue, parts, ha, hd, List.mem_cons, List.mem_append, forall_eq_or_imp,
      isImproperList, noCase, and_true]
    constructor
    · intro h
      refine ⟨h.2.1, fun y hy => ?_⟩
      rcases hy with hy | hy
      · exact h.1 y hy
      · exact h.2.2 y hy
    · intro h
      exact ⟨fun y hy => h.2 y (.inl hy), h.1, fun y hy => h.2 y (.inr hy)⟩
  | .object cells => by
    have hcells := jsonCells_iff cells
    simp [JsonValue, parts, hcells, isImproperList, noCase]

theorem jsonRest_iff : ∀ x : Datum, JsonRest env x ↔
    endsImproperly x = false ∧ ∀ y ∈ restParts x, isImproperList y = false ∧ noCase env y = false
  | .pair a d => by
    have ha := jsonValue_iff a
    have hd := jsonRest_iff d
    simp only [JsonRest, restParts, ha, hd, List.mem_append, endsImproperly]
    constructor
    · intro h
      refine ⟨h.2.1, fun y hy => ?_⟩
      rcases hy with hy | hy
      · exact h.1 y hy
      · exact h.2.2 y hy
    · intro h
      exact ⟨fun y hy => h.2 y (.inl hy), h.1, fun y hy => h.2 y (.inr hy)⟩
  | .nil => by simp [JsonRest, restParts, endsImproperly]
  | .bool _ | .int _ | .string _ | .ratnum _ _ | .symbol _ | .vector _ | .char _ | .flonum _ _ _
  | .object _ => by simp [JsonRest, endsImproperly]

theorem jsonCells_iff : ∀ cells : List (Key × Datum), JsonCells env cells ↔
    ∀ y ∈ cellParts cells, isImproperList y = false ∧ noCase env y = false
  | [] => by simp [JsonCells, cellParts]
  | (_, val) :: cells => by
    have hv := jsonValue_iff val
    have hcells := jsonCells_iff cells
    simp only [JsonCells, cellParts, hv, hcells, List.mem_append]
    constructor
    · intro h y hy
      rcases hy with hy | hy
      · exact h.1 y hy
      · exact h.2 y hy
    · intro h
      exact ⟨fun y hy => h y (.inl hy), fun y hy => h y (.inr hy)⟩

end

/-- What is written for some elements, or the failure of one of them. -/
def SettledBy (texts : List (Except WriteError (List Char))) (r : Except WriteError (List Char)) : Prop :=
  (∃ text, r = .ok text) ∧ (∀ t ∈ texts, ∃ s, t = .ok s) ∨ ∃ e, .error e ∈ texts ∧ r = .error e

theorem writeRest_settledBy {d : Nat} {indent : Option Int} (h : Fits env d indent)
    (texts : List (Except WriteError (List Char))) : SettledBy texts (writeRest env indent texts) := by
  obtain ⟨ws, hcomma, -⟩ := writeStructuralChar_comma h
  induction texts with
  | nil => exact .inl ⟨⟨[], rfl⟩, by simp⟩
  | cons t texts ih =>
    rw [writeRest, hcomma]
    cases t with
    | error e => exact .inr ⟨e, by simp, rfl⟩
    | ok s =>
      rcases ih with ⟨⟨more, hmore⟩, hall⟩ | ⟨e, he, hmore⟩
      · refine .inl ⟨⟨',' :: ws ++ s ++ more, ?_⟩, by simpa using hall⟩
        show (writeRest env indent texts).bind _ = _
        rw [hmore]
        rfl
      · refine .inr ⟨e, List.mem_cons_of_mem _ he, ?_⟩
        show (writeRest env indent texts).bind _ = _
        rw [hmore]
        rfl

theorem writeAll_settledBy {d : Nat} {indent : Option Int} (h : Fits env (d + 1) indent)
    {opening closing : Char} (ho : opening = '[' ∨ opening = '\x7b') (hc : closing = ']' ∨ closing = '\x7d')
    (texts : Option Int → List (Except WriteError (List Char))) :
    SettledBy (texts (indent.map (· + 2))) (writeAll env opening closing indent texts) := by
  obtain ⟨ws, h₀, -, hf⟩ := writeStructuralChar_open h ho
  obtain ⟨ws₂, h₂, -⟩ := writeStructuralChar_close h hc
  unfold writeAll
  rw [h₀]
  dsimp only [bind, Except.bind]
  cases texts (indent.map (· + 2)) with
  | nil => exact .inl ⟨⟨_, rfl⟩, by simp⟩
  | cons t ts =>
    cases t with
    | error e => exact .inr ⟨e, by simp, rfl⟩
    | ok s =>
      dsimp only
      rcases writeRest_settledBy hf ts with ⟨⟨more, hmore⟩, hall⟩ | ⟨e, he, hmore⟩
      · rw [hmore]
        dsimp only
        rw [h₂]
        exact .inl ⟨⟨_, rfl⟩, by simpa using hall⟩
      · rw [hmore]
        exact .inr ⟨e, List.mem_cons_of_mem _ he, rfl⟩

/-- Something is written and wr has a case for every part, or one without a case is
reported. -/
def Verdict (env : WriteEnv) (ps : List Datum) (r : Except WriteError (List Char)) : Prop :=
  (∃ text, r = .ok text) ∧ (∀ y ∈ ps, noCase env y = false) ∨
    ∃ y ∈ ps, noCase env y = true ∧ r = .error (.invalidDatum y)

/-- The same for elements that have these parts together. -/
structure Verdicts (env : WriteEnv) (ps : List Datum) (texts : List (Except WriteError (List Char))) : Prop where
  each : ∀ t ∈ texts, (∃ s, t = .ok s) ∨ ∃ y ∈ ps, noCase env y = true ∧ t = .error (.invalidDatum y)
  all : (∀ t ∈ texts, ∃ s, t = .ok s) → ∀ y ∈ ps, noCase env y = false

theorem Verdicts.nil (env : WriteEnv) : Verdicts env [] [] := ⟨by simp, by simp⟩

theorem Verdicts.cons {ps qs : List Datum} {t : Except WriteError (List Char)}
    {texts : List (Except WriteError (List Char))} (h : Verdict env ps t) (hs : Verdicts env qs texts) :
    Verdicts env (ps ++ qs) (t :: texts) := by
  refine ⟨fun t' ht => ?_, fun hok y hy => ?_⟩
  · rcases List.mem_cons.mp ht with rfl | ht
    · rcases h with ⟨h, -⟩ | ⟨y, hy, h1, h2⟩
      · exact .inl h
      · exact .inr ⟨y, List.mem_append_left _ hy, h1, h2⟩
    · rcases hs.each t' ht with h | ⟨y, hy, h1, h2⟩
      · exact .inl h
      · exact .inr ⟨y, List.mem_append_right _ hy, h1, h2⟩
  · rcases List.mem_append.mp hy with hy | hy
    · rcases h with ⟨-, h⟩ | ⟨y', hy', h1, h2⟩
      · exact h y hy
      · obtain ⟨s, hs⟩ := hok t (by simp)
        rw [hs] at h2
        cases h2
    · exact hs.all (fun t' ht => hok t' (List.mem_cons_of_mem _ ht)) y hy

/-- From the elements to the list or object around them. -/
theorem Verdicts.settle {ps : List Datum} {texts : List (Except WriteError (List Char))}
    {r : Except WriteError (List Char)} (h : Verdicts env ps texts) (hr : SettledBy texts r) :
    Verdict env ps r := by
  rcases hr with ⟨hok, hall⟩ | ⟨e, he, hr⟩
  · exact .inl ⟨hok, h.all hall⟩
  · rcases h.each _ he with ⟨s, hs⟩ | ⟨y, hy, h1, h2⟩
    · cases hs
    · refine .inr ⟨y, hy, h1, ?_⟩
      rw [hr, h2]

theorem writeCell_error (key : Key) (e : WriteError) (indent : Option Int) :
    writeCell env indent (key, .error e) = .error e := by
  obtain ⟨ws, hcolon, -⟩ := writeStructuralChar_colon env indent
  unfold writeCell
  rw [hcolon]
  rfl

theorem writeCell_text (key : Key) (s : List Char) (indent : Option Int) :
    ∃ s', writeCell env indent (key, .ok s) = .ok s' := by
  obtain ⟨ws, hcolon, -⟩ := writeStructuralChar_colon env indent
  unfold writeCell
  rw [hcolon]
  exact ⟨_, rfl⟩

/-- The order of the members does not matter here. -/
theorem Verdicts.members {ps : List Datum} {cells : List (Key × Except WriteError (List Char))}
    {indent : Option Int} (h : Verdicts env ps (cells.map Prod.snd)) :
    Verdicts env ps ((sortCells env cells).map (writeCell env indent)) := by
  refine ⟨fun t ht => ?_, fun hok => h.all fun t ht => ?_⟩
  · obtain ⟨⟨key, t'⟩, hcell, rfl⟩ := List.mem_map.mp ht
    have hcell' : t' ∈ cells.map Prod.snd :=
      List.mem_map_of_mem ((sortCells_perm env cells).mem_iff.mp hcell)
    rcases h.each t' hcell' with ⟨s, rfl⟩ | ⟨y, hy, h1, rfl⟩
    · exact .inl (writeCell_text key s indent)
    · exact .inr ⟨y, hy, h1, writeCell_error key _ indent⟩
  · obtain ⟨⟨key, t'⟩, hcell, rfl⟩ := List.mem_map.mp ht
    obtain ⟨s, hs⟩ := hok _ (List.mem_map_of_mem ((sortCells_perm env cells).mem_iff.mpr hcell))
    cases t' with
    | ok s' => exact ⟨s', rfl⟩
    | error e =>
      rw [writeCell_error] at hs
      cases hs

theorem Verdict.self {x : Datum} {ps : List Datum} {r : Except WriteError (List Char)}
    (hx : noCase env x = false) (h : Verdict env ps r) : Verdict env (x :: ps) r := by
  rcases h with ⟨hok, hps⟩ | ⟨y, hy, h1, h2⟩
  · exact .inl ⟨hok, by simpa [hx] using hps⟩
  · exact .inr ⟨y, List.mem_cons_of_mem _ hy, h1, h2⟩

theorem verdict_ok {x : Datum} {r : Except WriteError (List Char)} (hx : noCase env x = false)
    (hr : ∃ text, r = .ok text) : Verdict env [x] r := .inl ⟨hr, by simpa using hx⟩

theorem verdict_error {x : Datum} {r : Except WriteError (List Char)} (hx : noCase env x = true)
    (hr : r = .error (.invalidDatum x)) : Verdict env [x] r := .inr ⟨x, by simp, hx, hr⟩

mutual

theorem wr_verdict (hcw : env.customWrite = none) : ∀ (x : Datum) (indent : Option Int),
    Fits env (depth x) indent → Verdict env (parts x) (wr env x indent)
  | .bool true, _, _ | .bool false, _, _ | .string _, _, _ => verdict_ok rfl ⟨_, rfl⟩
  | .int n, indent, _ => verdict_ok rfl ⟨_, wr_int n indent⟩
  | .nil, indent, _ => by
    rw [wr, orCustom_none hcw]
    exact verdict_ok rfl ⟨_, rfl⟩
  | .char c, indent, _ => by
    rw [wr, orCustom_none hcw]
    by_cases hc : c = nul
    · rw [if_pos hc]
      exact verdict_ok (by simp [noCase, hc]) ⟨_, rfl⟩
    · rw [if_neg hc]
      exact verdict_error (by simp [noCase, hc]) rfl
  | .flonum s m e, indent, _ => by
    rw [wr, orCustom_none hcw]
    cases h : env.flonumToString s m e with
    | some text => exact verdict_ok (by simp [noCase, h]) ⟨_, rfl⟩
    | none => exact verdict_error (by simp [noCase, h]) rfl
  | .ratnum _ _, indent, _ | .symbol _, indent, _ | .vector _, indent, _ => by
    rw [wr, orCustom_none hcw]
    exact verdict_error rfl rfl
  | .pair a d, indent, hf => by
    rw [depth] at hf
    obtain ⟨ws, h₁, h₂, hroom⟩ := writeStructuralChar_open hf (.inl rfl)
    have ha := wr_verdict hcw a (indent.map (· + 2)) (hroom.mono (by omega))
    have hd := wrTail_verdicts hcw d (indent.map (· + 2)) (hroom.mono (by omega))
    rw [wr, orCustom_none hcw, parts]
    exact ((Verdicts.cons ha hd).settle (writeAll_settledBy hf (.inl rfl) (.inl rfl) _)).self rfl
  | .object cells, indent, hf => by
    rw [depth] at hf
    rw [wr, orCustom_none hcw, parts]
    cases he : cells.isEmpty with
    | true =>
      rw [List.isEmpty_iff.mp he]
      exact verdict_ok rfl ⟨_, rfl⟩
    | false =>
      rw [he] at hf
      obtain ⟨ws, h₁, h₂, hroom⟩ := writeStructuralChar_open hf (.inr rfl)
      have hcells := wrCells_verdicts hcw cells (indent.map (· + 2)) hroom
      rw [if_neg (by simp)]
      exact (hcells.members.settle (writeAll_settledBy hf (.inr rfl) (.inr rfl)
        fun indent => (sortCells env (wrCells env cells indent)).map (writeCell env indent))).self rfl

theorem wrTail_verdicts (hcw : env.customWrite = none) : ∀ (x : Datum) (indent : Option Int),
    Fits env (tailDepth x) indent → Verdicts env (restParts x) (wrTail env x indent)
  | .pair a d, indent, hf => by
    rw [tailDepth] at hf
    have ha := wr_verdict hcw a indent (hf.mono (by omega))
    have hd := wrTail_verdicts hcw d indent (hf.mono (by omega))
    rw [wrTail, restParts]
    exact .cons ha hd
  | .bool _, _, _ | .int _, _, _ | .string _, _, _ | .nil, _, _ | .char _, _, _ | .flonum _ _ _, _, _
  | .ratnum _ _, _, _ | .symbol _, _, _ | .vector _, _, _ | .object _, _, _ => .nil env

theorem wrCells_verdicts (hcw : env.customWrite = none) : ∀ (cells : List (Key × Datum))
    (indent : Option Int), Fits env (cellsDepth cells) indent →
    Verdicts env (cellParts cells) ((wrCells env cells indent).map Prod.snd)
  | [], _, _ => .nil env
  | (_, val) :: cells, indent, hf => by
    rw [cellsDepth] at hf
    have hv := wr_verdict hcw val indent (hf.mono (by omega))
    have hcells := wrCells_verdicts hcw cells indent (hf.mono (by omega))
    rw [wrCells, cellParts, List.map_cons]
    exact .cons hv hcells

end

/-- json:write throws invalid-datum for a part of the datum. -/
def Rejects (env : WriteEnv) (x : Datum) (indent : Option Int) : Prop :=
  ∃ y ∈ parts x, write env x indent = .error (.invalidDatum y)

/-- json:write fails as wr does. -/
theorem write_verdict (hcw : env.customWrite = none) {x : Datum} {indent : Option Int}
    (hf : Fits env (depth x) indent) : Verdict env (parts x) (write env x indent) := by
  have hwr := wr_verdict hcw x indent hf
  unfold write
  cases indent with
  | none => exact hwr
  | some i =>
    obtain ⟨hf1, hf2⟩ := hf
    have hno : ¬ (!env.isFixnum i || decide (i < 0)) = true := by
      simp [isFixnum_of_fits hf1 (show i ≤ env.mostPositiveFixnum by omega), hf1]
    dsimp only
    rw [if_neg hno]
    rcases hwr with ⟨⟨text, h1⟩, h2⟩ | ⟨y, hy, h1, h2⟩
    · rw [h1]
      exact .inl ⟨⟨_, rfl⟩, h2⟩
    · rw [h2]
      exact .inr ⟨y, hy, h1, rfl⟩

theorem rejects_iff (hcw : env.customWrite = none) {x : Datum} {indent : Option Int}
    (hf : Fits env (depth x) indent) : Rejects env x indent ↔ ∃ y ∈ parts x, noCase env y = true := by
  rcases write_verdict hcw hf with ⟨⟨text, h1⟩, h2⟩ | ⟨y, hy, h1, h2⟩
  · constructor
    · intro h
      obtain ⟨y, -, h3⟩ := h
      rw [h1] at h3
      cases h3
    · intro h
      obtain ⟨y, hy, h3⟩ := h
      rw [h2 y hy] at h3
      cases h3
  · exact ⟨fun _ => ⟨y, hy, h1⟩, fun _ => ⟨y, hy, h2⟩⟩

/-- Exactly the data that are not JSON values are rejected if and only if there is no
improper list among the parts, or besides it a part that wr has no case for. -/
theorem invalid_datum_iff (env : WriteEnv) (hcw : env.customWrite = none) (x : Datum)
    (indent : Option Int) (hf : Fits env (depth x) indent) :
    (Rejects env x indent ↔ ¬ JsonValue env x) ↔
      ((∀ y ∈ parts x, isImproperList y = false) ∨ ∃ y ∈ parts x, noCase env y = true) := by
  rw [rejects_iff hcw hf, jsonValue_iff]
  by_cases hno : ∃ y ∈ parts x, noCase env y = true
  · refine iff_of_true (iff_of_true hno fun h => ?_) (.inr hno)
    obtain ⟨y, hy, h1⟩ := hno
    rw [(h y hy).2] at h1
    cases h1
  · have hcase : ∀ y ∈ parts x, noCase env y = false := by
      intro y hy
      cases h : noCase env y with
      | false => rfl
      | true => exact absurd ⟨y, hy, h⟩ hno
    constructor
    · intro h
      have hall := not_not.mp (mt h.mpr hno)
      exact .inl fun y hy => (hall y hy).1
    · intro h
      rcases h with h | h
      · exact iff_of_false hno (not_not_intro fun y hy => ⟨h y hy, hcase y hy⟩)
      · exact absurd h hno

/-- The list (1 foo), which is rejected for its symbol. -/
theorem invalid_datum_iff_symbol :
    (Rejects machine64 (.pair (.int 1) (.pair (.symbol (.symbol ['f', 'o', 'o'])) .nil)) (some 0) ↔
      ¬ JsonValue machine64 (.pair (.int 1) (.pair (.symbol (.symbol ['f', 'o', 'o'])) .nil))) ↔
    ((∀ y ∈ parts (.pair (.int 1) (.pair (.symbol (.symbol ['f', 'o', 'o'])) .nil)), isImproperList y = false) ∨
      ∃ y ∈ parts (.pair (.int 1) (.pair (.symbol (.symbol ['f', 'o', 'o'])) .nil)), noCase machine64 y = true) :=
  invalid_datum_iff machine64 rfl _ (some 0)
    (by simp [Fits, depth, tailDepth, machine64, WriteEnv.mostPositiveFixnum])

/-- The pair (1 . 2) is written as the list of 1. -/
theorem improper_list_written :
    write machine64 (.pair (.int 1) (.int 2)) none = .ok ['[', '1', ']'] ∧
      ¬ (Rejects machine64 (.pair (.int 1) (.int 2)) none ↔
        ¬ JsonValue machine64 (.pair (.int 1) (.int 2))) := by
  have hwrite : write machine64 (.pair (.int 1) (.int 2)) none = .ok ['[', '1', ']'] := rfl
  refine ⟨hwrite, fun h => ?_⟩
  obtain ⟨y, -, hy⟩ := h.mpr (by simp [JsonValue, JsonRest])
  rw [hwrite] at hy
  cases hy

end Swish.Json
