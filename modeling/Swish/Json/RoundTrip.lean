import Swish.Json.Tokens

/-!
What json:write writes, json:string->object reads back. The induction is on the
value: the text of each part is an item that the reader takes off the front of the
text, whatever comes after it.
-/

set_option autoImplicit false

namespace Swish.Json

variable {α : Type} {env : WriteEnv} {renv : ReadEnv}

/-- An ordinary symbol that the reader does not take for a gensym. -/
def Key.Plain : Key → Prop
  | .symbol name => ¬ (name[0]? = some '#' ∧ name[1]? = some '\x7b')
  | .gensym _ _ => False

mutual

/-- The values the writer and the reader are meant for. -/
def IsJson : Datum → Prop
  | .bool _ => True
  | .char c => c = nul
  | .int _ => True
  | .string _ => True
  | .nil => True
  | .pair a d => IsJson a ∧ IsTail d
  | .object cells => (cells.map Prod.fst).Nodup ∧ CellsJson cells
  | .flonum _ _ _ => False
  | .ratnum _ _ => False
  | .symbol _ => False
  | .vector _ => False

/-- The rest of a proper list. -/
def IsTail : Datum → Prop
  | .nil => True
  | .pair a d => IsJson a ∧ IsTail d
  | _ => False

def CellsJson : List (Key × Datum) → Prop
  | [] => True
  | (key, val) :: cells => key.Plain ∧ IsJson val ∧ CellsJson cells

end

mutual

/-- How deep lists and objects that are not empty are nested. -/
def depth : Datum → Nat
  | .pair a d => max (depth a) (tailDepth d) + 1
  | .object cells => if cells.isEmpty then 0 else cellsDepth cells + 1
  | _ => 0

def tailDepth : Datum → Nat
  | .pair a d => max (depth a) (tailDepth d)
  | _ => 0

def cellsDepth : List (Key × Datum) → Nat
  | [] => 0
  | (_, val) :: cells => max (depth val) (cellsDepth cells)

end

mutual

/-- The same lists, strings and numbers, and objects with the same mapping. -/
inductive Same : Datum → Datum → Prop where
  | refl (x : Datum) : Same x x
  | pair {a a' d d' : Datum} (ha : Same a a') (hd : Same d d') : Same (.pair a d) (.pair a' d')
  | object {cells cells₁ cells' : List (Key × Datum)} (hp : cells₁.Perm cells)
      (hs : SameCells cells₁ cells') : Same (.object cells) (.object cells')

inductive SameCells : List (Key × Datum) → List (Key × Datum) → Prop where
  | nil : SameCells [] []
  | cons {key : Key} {x y : Datum} {l l' : List (Key × Datum)} (hx : Same x y) (hl : SameCells l l') :
      SameCells ((key, x) :: l) ((key, y) :: l')

end

/-- Room for the indent to grow by 2 on each of d levels. -/
def Fits (env : WriteEnv) (d : Nat) : Option Int → Prop
  | none => True
  | some i => 0 ≤ i ∧ i + 2 * d ≤ env.mostPositiveFixnum

theorem Fits.mono {d d' : Nat} {indent : Option Int} (h : Fits env d indent) (hd : d' ≤ d) :
    Fits env d' indent := by
  cases indent with
  | none => trivial
  | some i =>
    obtain ⟨h1, h2⟩ := h
    exact ⟨h1, by omega⟩

theorem isFixnum_of_fits {i : Int} (h0 : 0 ≤ i) (h1 : i ≤ env.mostPositiveFixnum) :
    env.isFixnum i = true := by
  have hneg : env.mostNegativeFixnum ≤ 0 := by
    have : (0 : Int) < 2 ^ (env.fixnumWidth - 1) := by positivity
    unfold WriteEnv.mostNegativeFixnum
    omega
  simp only [WriteEnv.isFixnum, Bool.and_eq_true, decide_eq_true_eq]
  omega

theorem newlineAndIndent_ok {i : Int} (h : 0 ≤ i) :
    ∃ ws, newlineAndIndent i = .ok ws ∧ AllWs ws ∧ ws.head? = some '\n' := by
  refine ⟨_, if_pos h, fun c hc => ?_, rfl⟩
  rcases List.mem_cons.mp hc with rfl | h1
  · decide
  · rw [(List.mem_replicate.mp h1).2]
    decide

theorem writeStructuralChar_open {d : Nat} {indent : Option Int} (h : Fits env (d + 1) indent) {c : Char}
    (hc : c = '[' ∨ c = '\x7b') :
    ∃ ws, writeStructuralChar env c indent = .ok (c :: ws, indent.map (· + 2)) ∧ AllWs ws ∧
      Fits env d (indent.map (· + 2)) := by
  cases indent with
  | none => exact ⟨[], rfl, allWs_nil, trivial⟩
  | some i =>
    obtain ⟨h1, h2⟩ := h
    obtain ⟨ws, h3, h4, _⟩ := newlineAndIndent_ok (i := i + 2) (by omega)
    have hfix : env.fixnum (i + 2) = .ok (i + 2) :=
      if_pos (isFixnum_of_fits (by omega) (by omega))
    have hroom : 0 ≤ i + 2 ∧ i + 2 + 2 * (d : Int) ≤ env.mostPositiveFixnum := by omega
    refine ⟨ws, ?_, h4, hroom⟩
    unfold writeStructuralChar
    simp only [hc, if_true]
    rw [hfix]
    show (newlineAndIndent (i + 2)).bind _ = _
    rw [h3]
    rfl

theorem writeStructuralChar_close {d : Nat} {indent : Option Int} (h : Fits env (d + 1) indent) {c : Char}
    (hc : c = ']' ∨ c = '\x7d') :
    ∃ ws, writeStructuralChar env c (indent.map (· + 2)) = .ok (ws ++ [c], indent) ∧ AllWs ws ∧
      ∀ x, ws.head? = some x → x = '\n' := by
  cases indent with
  | none => exact ⟨[], rfl, allWs_nil, by simp⟩
  | some i =>
    obtain ⟨h1, h2⟩ := h
    obtain ⟨ws, h3, h4, h5⟩ := newlineAndIndent_ok (i := i) h1
    have hfix : env.fixnum (i + 2 - 2) = .ok i := by
      rw [Int.add_sub_cancel]
      exact if_pos (isFixnum_of_fits h1 (by omega))
    have hno : ¬ (c = '[' ∨ c = '\x7b') := by
      rcases hc with rfl | rfl <;> decide
    refine ⟨ws, ?_, h4, fun x hx => ?_⟩
    · unfold writeStructuralChar
      simp only [Option.map_some, hno, hc, if_true, if_false]
      rw [hfix]
      show (newlineAndIndent i).bind _ = _
      rw [h3]
      rfl
    · rw [h5] at hx
      cases hx
      rfl

theorem writeStructuralChar_comma {d : Nat} {indent : Option Int} (h : Fits env d indent) :
    ∃ ws, writeStructuralChar env ',' indent = .ok (',' :: ws, indent) ∧ AllWs ws := by
  cases indent with
  | none => exact ⟨[], rfl, allWs_nil⟩
  | some i =>
    obtain ⟨ws, h3, h4, _⟩ := newlineAndIndent_ok h.1
    refine ⟨ws, ?_, h4⟩
    show (newlineAndIndent i).bind _ = _
    rw [h3]
    rfl

theorem writeStructuralChar_colon (env : WriteEnv) (indent : Option Int) :
    ∃ ws, writeStructuralChar env ':' indent = .ok (':' :: ws, indent) ∧ AllWs ws := by
  cases indent with
  | none => exact ⟨[], rfl, allWs_nil⟩
  | some i => exact ⟨[' '], rfl, fun c hc => by rw [List.mem_singleton.mp hc]; decide⟩

/-- The text of one value, which the reader turns into y. A call of the reader
reads at least half a character. -/
structure Item (renv : ReadEnv) (text : List Char) (y : Datum) : Prop where
  starts : ∃ c cs, text = c :: cs ∧ isWs c = false ∧ c ≠ ']'
  reads : ∀ (n : Nat) (ws rest : List Char), AllWs ws → 2 * text.length ≤ n → Follows rest →
    Reads (rd renv n) (ws ++ (text ++ rest)) rest y

theorem Item.length_pos {text : List Char} {y : Datum} (h : Item renv text y) : 1 ≤ text.length := by
  obtain ⟨c, cs, rfl, -⟩ := h.starts
  simp

/-- The values after the first of a list, with the commas before them. -/
def joined (ws : List Char) (texts : List (List Char)) : List Char :=
  texts.flatMap fun text => ',' :: (ws ++ text)

theorem joined_cons (ws text : List Char) (texts : List (List Char)) (rest : List Char) :
    joined ws (text :: texts) ++ rest = ',' :: (ws ++ (text ++ (joined ws texts ++ rest))) := by
  simp [joined]

/-- What stands after a value inside of a list or an object does not go on with a number. -/
theorem follows_joined (ws : List Char) (texts : List (List Char)) {ws₂ : List Char}
    (h₂ : ∀ x, ws₂.head? = some x → x = '\n') {c : Char} (hc : c = ']' ∨ c = '\x7d')
    (rest : List Char) : Follows (joined ws texts ++ (ws₂ ++ c :: rest)) := by
  intro x hx
  cases texts with
  | cons text texts =>
    rw [joined_cons] at hx
    cases hx
    exact .inl rfl
  | nil =>
    cases ws₂ with
    | nil =>
      cases hx
      exact .inr (hc.imp_right .inl)
    | cons w ws₂ =>
      cases hx
      exact .inr (.inr (.inr (h₂ x rfl)))

theorem writeRest_ok {d : Nat} {indent : Option Int} (h : Fits env d indent) :
    ∃ ws, AllWs ws ∧ ∀ texts, writeRest env indent (texts.map .ok) = .ok (joined ws texts) := by
  obtain ⟨ws, hcomma, hws⟩ := writeStructuralChar_comma h
  refine ⟨ws, hws, fun texts => ?_⟩
  induction texts with
  | nil => rfl
  | cons text texts ih =>
    rw [List.map_cons, writeRest, hcomma]
    show (writeRest env indent (texts.map .ok)).bind _ = _
    rw [ih]
    show Except.ok _ = Except.ok _
    simp [joined]

theorem writeAll_ok {d : Nat} {indent : Option Int} (h : Fits env (d + 1) indent) {opening closing : Char}
    (ho : opening = '[' ∨ opening = '\x7b') (hc : closing = ']' ∨ closing = '\x7d')
    (texts : Option Int → List (Except WriteError (List Char))) {t : List Char} {ts : List (List Char)}
    (ht : texts (indent.map (· + 2)) = (t :: ts).map .ok) :
    ∃ ws₀ ws₁ ws₂, AllWs ws₀ ∧ AllWs ws₁ ∧ AllWs ws₂ ∧ (∀ x, ws₂.head? = some x → x = '\n') ∧
      writeAll env opening closing indent texts =
        .ok (opening :: (ws₀ ++ (t ++ (joined ws₁ ts ++ (ws₂ ++ [closing]))))) := by
  obtain ⟨ws₀, h₀, hw₀, hf⟩ := writeStructuralChar_open h ho
  obtain ⟨ws₁, hw₁, h₁⟩ := writeRest_ok hf
  obtain ⟨ws₂, h₂, hw₂, hn₂⟩ := writeStructuralChar_close h hc
  refine ⟨ws₀, ws₁, ws₂, hw₀, hw₁, hw₂, hn₂, ?_⟩
  unfold writeAll
  rw [h₀]
  dsimp only [bind, Except.bind]
  rw [ht]
  show (writeRest env (indent.map (· + 2)) (ts.map .ok)).bind _ = _
  rw [h₁]
  show (writeStructuralChar env closing (indent.map (· + 2))).bind _ = _
  rw [h₂]
  show Except.ok _ = Except.ok _
  simp

/-- One element of a list, before the comma or the bracket. -/
theorem rdList_item {ws t rest z : List Char} {y v : Datum} (hws : AllWs ws) (ht : Item renv t y)
    (acc : List Datum) {n : Nat} (hfuel : 2 * t.length ≤ n) (hr : Follows rest)
    (h : Reads (do
      let c ← nextNonWs
      if c = some ',' then rdList renv n (y :: acc)
      else if c = some ']' then pure (Datum.ofList (y :: acc).reverse)
      else unexpectedInput c) rest z v) :
    Reads (rdList renv (n + 1) acc) (ws ++ (t ++ rest)) z v := by
  obtain ⟨c, cs, rfl, hc, hb⟩ := ht.starts
  rw [rdList]
  refine (nextNonWs_runs hws hc _).bind (Runs.ite_false (by simp [hb]) ?_)
  refine (unreadChar_runs (c :: (cs ++ rest))).bind ?_
  exact (ht.reads n [] rest allWs_nil hfuel hr).bind h

theorem rdList_reads {ws₁ ws₂ : List Char} (hw₁ : AllWs ws₁) (hw₂ : AllWs ws₂)
    (hn₂ : ∀ x, ws₂.head? = some x → x = '\n') {ts : List (List Char)} {ys : List Datum}
    (h : List.Forall₂ (Item renv) ts ys) {ws t : List Char} {y : Datum} (hws : AllWs ws)
    (ht : Item renv t y) (acc : List Datum) (n : Nat) (rest : List Char)
    (hfuel : 2 * (t.length + (joined ws₁ ts).length + 1) ≤ n + 1) :
    Reads (rdList renv n acc) (ws ++ (t ++ (joined ws₁ ts ++ (ws₂ ++ ']' :: rest)))) rest
      (Datum.ofList (acc.reverse ++ y :: ys)) := by
  have hrest := fun ts => follows_joined ws₁ ts hn₂ (.inl rfl) rest
  induction h generalizing ws t y acc n with
  | nil =>
    have := ht.length_pos
    obtain ⟨n, rfl⟩ : ∃ k, n = k + 1 := ⟨n - 1, by omega⟩
    refine rdList_item hws ht acc (by omega) (hrest []) ?_
    refine (nextNonWs_runs hw₂ (by decide) rest).bind ?_
    refine Runs.ite_false (by decide) (Runs.ite_true rfl ?_)
    rw [List.reverse_cons]
    exact Runs.pure _ _ _
  | @cons t' y' ts ys ht' hts ih =>
    have := ht.length_pos
    obtain ⟨n, rfl⟩ : ∃ k, n = k + 1 := ⟨n - 1, by omega⟩
    refine rdList_item hws ht acc (by omega) (hrest _) ?_
    rw [joined_cons]
    refine (nextNonWs_runs allWs_nil (by decide) _).bind (Runs.ite_true rfl ?_)
    have hlen : (joined ws₁ (t' :: ts)).length = 1 + ws₁.length + t'.length + (joined ws₁ ts).length := by
      simp [joined]
      omega
    have hnext := ih hw₁ ht' (y :: acc) n (by omega)
    rw [List.reverse_cons, List.append_assoc] at hnext
    exact hnext

/-- A value that is written, its text and what is read back. -/
structure Entry where
  x : Datum
  text : List Char
  y : Datum

structure Entry.Ok (renv : ReadEnv) (e : Entry) : Prop where
  item : Item renv e.text e.y
  same : Same e.x e.y

theorem stringToKey_plain {key : Key} (h : key.Plain) : stringToKey renv (key.toText env) = key := by
  cases key with
  | symbol name => exact if_neg fun h1 => h ⟨h1.2.1, h1.2.2.1⟩
  | gensym name unique => exact h.elim

theorem hashtableSet_new {key : Key} {val : Datum} {cells : List (Key × Datum)}
    (h : key ∉ cells.map Prod.fst) : hashtableSet key val cells = cells ++ [(key, val)] := by
  induction cells with
  | nil => rfl
  | cons cell cells ih =>
    rw [List.map_cons, List.mem_cons, not_or] at h
    rw [hashtableSet, if_neg fun h1 => h.1 h1.symm, ih h.2]
    rfl

/-- The text of a member of an object. -/
def memberText (env : WriteEnv) (ws : List Char) (m : Key × Entry) : List Char :=
  writeString (m.1.toText env) ++ (':' :: (ws ++ m.2.text))

theorem memberText_length (env : WriteEnv) (ws : List Char) (m : Key × Entry) :
    m.2.text.length + 3 ≤ (memberText env ws m).length := by
  simp [memberText, writeString]
  omega

theorem memberText_append (ws rest : List Char) (m : Key × Entry) :
    memberText env ws m ++ rest =
      '"' :: ((m.1.toText env).flatMap escapeChar ++ '"' :: (':' :: (ws ++ (m.2.text ++ rest)))) := by
  simp [memberText, writeString]

/-- One member of an object, before the comma or the brace. -/
theorem rdObject_member {ws wsc rest z : List Char} {v : List (Key × Datum)} (hws : AllWs ws)
    (hwsc : AllWs wsc) {m : Key × Entry} (hm : m.1.Plain ∧ m.2.Ok renv) {cells : List (Key × Datum)}
    (hnew : m.1 ∉ cells.map Prod.fst) {n : Nat} (hfuel : 2 * m.2.text.length ≤ n) (hr : Follows rest)
    (h : Reads (do
      let c ← nextNonWs
      if c = some ',' then rdObject renv n (cells ++ [(m.1, m.2.y)])
      else if c = some '\x7d' then pure (cells ++ [(m.1, m.2.y)])
      else unexpectedInput c) rest z v) :
    Reads (rdObject renv (n + 1) cells) (ws ++ (memberText env wsc m ++ rest)) z v := by
  rw [rdObject, memberText_append]
  refine (nextNonWs_runs hws (by decide) _).bind (Runs.ite_true rfl ?_)
  refine (readString_runs _ _ []).bind ?_
  refine (nextNonWs_runs allWs_nil (by decide) _).bind (Runs.ite_true rfl ?_)
  refine (hm.2.item.reads n wsc rest hwsc hfuel hr).bind ?_
  rw [List.nil_append, stringToKey_plain hm.1, hashtableSet_new hnew]
  exact h

theorem rdObject_reads (env : WriteEnv) {ws₁ ws₂ wsc : List Char} (hw₁ : AllWs ws₁) (hw₂ : AllWs ws₂) (hwsc : AllWs wsc)
    (hn₂ : ∀ x, ws₂.head? = some x → x = '\n') {ms : List (Key × Entry)} {m : Key × Entry}
    {ws : List Char} (hws : AllWs ws) (cells : List (Key × Datum))
    (hok : ∀ m' ∈ m :: ms, m'.1.Plain ∧ m'.2.Ok renv)
    (hnd : (cells.map Prod.fst ++ (m :: ms).map Prod.fst).Nodup) (n : Nat) (rest : List Char)
    (hfuel : 2 * ((memberText env wsc m).length +
      (joined ws₁ (ms.map (memberText env wsc))).length + 1) ≤ n + 1) :
    Reads (rdObject renv n cells)
      (ws ++ (memberText env wsc m ++ (joined ws₁ (ms.map (memberText env wsc)) ++ (ws₂ ++ '\x7d' :: rest))))
      rest (cells ++ (m :: ms).map fun m => (m.1, m.2.y)) := by
  have hrest := fun ts => follows_joined ws₁ ts hn₂ (.inr rfl) rest
  induction ms generalizing ws m cells n with
  | nil =>
    have := memberText_length env wsc m
    obtain ⟨n, rfl⟩ : ∃ k, n = k + 1 := ⟨n - 1, by omega⟩
    have hnew : m.1 ∉ cells.map Prod.fst := fun h1 =>
      (List.disjoint_of_nodup_append hnd) h1 (by simp)
    refine rdObject_member hws hwsc (hok m (by simp)) hnew (by omega) (hrest _) ?_
    refine (nextNonWs_runs hw₂ (by decide) rest).bind ?_
    exact Runs.ite_false (by decide) (Runs.ite_true rfl (Runs.pure _ _ _))
  | cons m' ms ih =>
    have := memberText_length env wsc m
    obtain ⟨n, rfl⟩ : ∃ k, n = k + 1 := ⟨n - 1, by omega⟩
    have hnew : m.1 ∉ cells.map Prod.fst := fun h1 =>
      (List.disjoint_of_nodup_append hnd) h1 (by simp)
    refine rdObject_member hws hwsc (hok m (by simp)) hnew (by omega) (hrest _) ?_
    rw [List.map_cons, joined_cons]
    refine (nextNonWs_runs allWs_nil (by decide) _).bind (Runs.ite_true rfl ?_)
    have hlen : (joined ws₁ ((m' :: ms).map (memberText env wsc))).length =
        1 + ws₁.length + (memberText env wsc m').length +
          (joined ws₁ (ms.map (memberText env wsc))).length := by
      simp [joined]
      omega
    have hnext := @ih m' ws₁ hw₁ (cells ++ [(m.1, m.2.y)]) (fun x hx => hok x (by simp [hx]))
      (by simpa using hnd) n (by omega)
    rw [List.append_assoc] at hnext
    exact hnext

theorem sortCells_map {β : Type} (env : WriteEnv) (f : α → β) (cells : List (Key × α)) :
    sortCells env (cells.map fun m => (m.1, f m.2)) = (sortCells env cells).map fun m => (m.1, f m.2) := by
  unfold sortCells
  cases env.keyLt with
  | none => rfl
  | some lt =>
    refine (List.map_mergeSort ?_).symm
    intro a _ b _
    rfl

theorem sortCells_perm (env : WriteEnv) (cells : List (Key × α)) : (sortCells env cells).Perm cells := by
  unfold sortCells
  cases env.keyLt with
  | none => exact List.Perm.refl _
  | some lt => exact List.mergeSort_perm _ _

theorem sameCells_of_ok {ms : List (Key × Entry)} (h : ∀ m ∈ ms, m.2.Ok renv) :
    SameCells (ms.map fun m => (m.1, m.2.x)) (ms.map fun m => (m.1, m.2.y)) := by
  induction ms with
  | nil => exact .nil
  | cons m ms ih => exact .cons (h m (by simp)).same (ih fun x hx => h x (by simp [hx]))

theorem writeCell_ok (env : WriteEnv) (indent : Option Int) :
    ∃ ws, AllWs ws ∧ ∀ m : Key × Entry, writeCell env indent (m.1, .ok m.2.text) = .ok (memberText env ws m) := by
  obtain ⟨ws, hcolon, hws⟩ := writeStructuralChar_colon env indent
  refine ⟨ws, hws, fun m => ?_⟩
  unfold writeCell
  rw [hcolon]
  show Except.ok _ = Except.ok _
  simp [memberText]

/-- It is enough to read a text from its first character on. -/
theorem item_of_rd {text : List Char} {y : Datum} {c : Char} {cs : List Char} (htext : text = c :: cs)
    (hws : isWs c = false) (hb : c ≠ ']')
    (h : ∀ (n : Nat) (ws rest : List Char), AllWs ws → 2 * cs.length ≤ n → Follows rest →
      Reads (rd renv (n + 1)) (ws ++ c :: (cs ++ rest)) rest y) : Item renv text y := by
  refine ⟨⟨c, cs, htext, hws, hb⟩, fun n ws rest hw hn hr => ?_⟩
  rw [htext, List.length_cons] at hn
  obtain ⟨n, rfl⟩ : ∃ k, n = k + 1 := ⟨n - 1, by omega⟩
  rw [htext]
  exact h n ws rest hw (by omega) hr

theorem item_true : Item renv ['t', 'r', 'u', 'e'] (.bool true) := by
  refine item_of_rd rfl (by decide) (by decide) fun n ws rest hws _ _ => ?_
  rw [rd]
  refine (nextNonWs_runs hws (by decide) _).bind (Runs.ite_true rfl ?_)
  exact (expectChar_reads 'r' _).bind ((expectChar_reads 'u' _).bind
    ((expectChar_reads 'e' _).bind (Runs.pure _ _ _)))

theorem item_false : Item renv ['f', 'a', 'l', 's', 'e'] (.bool false) := by
  refine item_of_rd rfl (by decide) (by decide) fun n ws rest hws _ _ => ?_
  rw [rd]
  refine (nextNonWs_runs hws (by decide) _).bind (Runs.ite_false (by decide) (Runs.ite_true rfl ?_))
  exact (expectChar_reads 'a' _).bind ((expectChar_reads 'l' _).bind ((expectChar_reads 's' _).bind
    ((expectChar_reads 'e' _).bind (Runs.pure _ _ _))))

theorem item_null : Item renv ['n', 'u', 'l', 'l'] (.char nul) := by
  refine item_of_rd rfl (by decide) (by decide) fun n ws rest hws _ _ => ?_
  rw [rd]
  refine (nextNonWs_runs hws (by decide) _).bind ?_
  iterate 2 refine Runs.ite_false (by decide) ?_
  refine Runs.ite_true rfl ?_
  exact (expectChar_reads 'u' _).bind ((expectChar_reads 'l' _).bind
    ((expectChar_reads 'l' _).bind (Runs.pure _ _ _)))

theorem item_string (str : List Char) : Item renv (writeString str) (.string str) := by
  refine item_of_rd rfl (by decide) (by decide) fun n ws rest hws _ _ => ?_
  rw [rd, List.append_assoc]
  refine (nextNonWs_runs hws (by decide) _).bind ?_
  iterate 3 refine Runs.ite_false (by decide) ?_
  exact Runs.ite_true rfl ((readString_runs str rest []).bind (Runs.pure _ _ _))

theorem item_nil : Item renv ['[', ']'] .nil := by
  refine item_of_rd rfl (by decide) (by decide) fun n ws rest hws hn _ => ?_
  obtain ⟨n, rfl⟩ : ∃ k, n = k + 1 := ⟨n - 1, by simp at hn; omega⟩
  rw [rd]
  refine (nextNonWs_runs hws (by decide) _).bind ?_
  iterate 4 refine Runs.ite_false (by decide) ?_
  refine Runs.ite_true rfl ?_
  rw [rdList]
  exact (nextNonWs_runs allWs_nil (by decide) rest).bind (Runs.ite_true (by simp) (Runs.pure _ _ _))

theorem item_list {ws₀ ws₁ ws₂ t : List Char} {ts : List (List Char)} {y : Datum} {ys : List Datum}
    (hw₀ : AllWs ws₀) (hw₁ : AllWs ws₁) (hw₂ : AllWs ws₂) (hn₂ : ∀ x, ws₂.head? = some x → x = '\n')
    (h : Item renv t y) (hs : List.Forall₂ (Item renv) ts ys) :
    Item renv ('[' :: (ws₀ ++ (t ++ (joined ws₁ ts ++ (ws₂ ++ [']']))))) (Datum.ofList (y :: ys)) := by
  refine item_of_rd rfl (by decide) (by decide) fun n ws rest hws hn _ => ?_
  rw [rd]
  refine (nextNonWs_runs hws (by decide) _).bind ?_
  iterate 4 refine Runs.ite_false (by decide) ?_
  refine Runs.ite_true rfl ?_
  have hlist := rdList_reads hw₁ hw₂ hn₂ hs hw₀ h [] n rest (by
    simp only [List.length_append, List.length_cons, List.length_nil] at hn
    omega)
  simpa using hlist

theorem item_object (env : WriteEnv) (hinf : ∀ x, renv.customInflate x = x) {ws₀ ws₁ ws₂ wsc : List Char}
    (hw₀ : AllWs ws₀) (hw₁ : AllWs ws₁) (hw₂ : AllWs ws₂) (hwsc : AllWs wsc)
    (hn₂ : ∀ x, ws₂.head? = some x → x = '\n') {m : Key × Entry} {ms : List (Key × Entry)}
    (hok : ∀ m' ∈ m :: ms, m'.1.Plain ∧ m'.2.Ok renv) (hnd : ((m :: ms).map Prod.fst).Nodup) :
    Item renv
      ('\x7b' :: (ws₀ ++ (memberText env wsc m ++ (joined ws₁ (ms.map (memberText env wsc)) ++
        (ws₂ ++ ['\x7d'])))))
      (.object ((m :: ms).map fun m => (m.1, m.2.y))) := by
  refine item_of_rd rfl (by decide) (by decide) fun n ws rest hws hn _ => ?_
  rw [rd]
  refine (nextNonWs_runs hws (by decide) _).bind ?_
  iterate 5 refine Runs.ite_false (by decide) ?_
  refine Runs.ite_true rfl ?_
  have hobject := rdObject_reads env hw₁ hw₂ hwsc hn₂ hw₀ [] hok hnd n rest (by
    simp only [List.length_append, List.length_cons, List.length_nil] at hn
    omega)
  simp only [List.append_assoc]
  refine hobject.bind ?_
  rw [hinf]
  exact Runs.pure _ _ _

theorem item_emptyObject (hinf : ∀ x, renv.customInflate x = x) :
    Item renv ['\x7b', '\x7d'] (.object []) := by
  refine item_of_rd rfl (by decide) (by decide) fun n ws rest hws hn _ => ?_
  obtain ⟨n, rfl⟩ : ∃ k, n = k + 1 := ⟨n - 1, by simp at hn; omega⟩
  rw [rd]
  refine (nextNonWs_runs hws (by decide) _).bind ?_
  iterate 5 refine Runs.ite_false (by decide) ?_
  refine Runs.ite_true rfl ?_
  have hobject : Reads (rdObject renv (n + 1) []) ('\x7d' :: rest) rest [] := by
    rw [rdObject]
    exact (nextNonWs_runs allWs_nil (by decide) rest).bind (Runs.ite_false (by decide)
      (Runs.ite_true (by simp) (Runs.pure _ _ _)))
  refine hobject.bind ?_
  rw [hinf]
  exact Runs.pure _ _ _

/-- The first character of a number. -/
theorem natToString_starts (n : Nat) : ∃ c cs, natToString n = c :: cs ∧ isDigit c = true := by
  obtain ⟨c, cs, h⟩ := List.exists_cons_of_ne_nil (natToString_ne_nil n)
  exact ⟨c, cs, h, natToString_digits n c (by simp [h])⟩

theorem isDigit_ne {c d : Char} (hc : isDigit c = true) (hd : isDigit d = false) : c ≠ d := by
  rintro rfl
  rw [hc] at hd
  cases hd

theorem item_nat (n : Nat) : Item renv (natToString n) (.int n) := by
  obtain ⟨c, cs, htext, hc⟩ := natToString_starts n
  have hne := fun d hd => @isDigit_ne c d hc hd
  have hws : isWs c = false := by
    simp only [isWs, Bool.or_eq_false_iff, decide_eq_false_iff_not]
    exact ⟨⟨⟨hne _ (by decide), hne _ (by decide)⟩, hne _ (by decide)⟩, hne _ (by decide)⟩
  refine item_of_rd htext hws (hne _ (by decide)) fun k ws rest hw _ hr => ?_
  rw [rd]
  refine (nextNonWs_runs hw hws _).bind ?_
  iterate 7 refine Runs.ite_false (fun h => hne _ (by decide) (Option.some.inj h)) ?_
  refine (unreadChar_runs (c :: (cs ++ rest))).bind ?_
  rw [← List.cons_append, ← htext]
  exact readUnsigned_reads n hr

theorem item_int (n : Int) : Item renv (numberToString n) (.int n) := by
  unfold numberToString
  by_cases hn : n < 0
  · rw [if_pos hn]
    refine item_of_rd rfl (by decide) (by decide) fun k ws rest hws _ hr => ?_
    rw [rd]
    refine (nextNonWs_runs hws (by decide) _).bind ?_
    iterate 6 refine Runs.ite_false (by decide) ?_
    refine Runs.ite_true rfl ((readUnsigned_reads n.natAbs hr).bind ?_)
    have hneg : negate (.int n.natAbs) = .int n := by
      rw [negate]
      congr 1
      omega
    rw [hneg]
    exact Runs.pure _ _ _
  · rw [if_neg hn]
    have hitem := @item_nat renv n.natAbs
    rw [show ((n.natAbs : Nat) : Int) = n from by omega] at hitem
    exact hitem

theorem orCustom_none (hcw : env.customWrite = none) (x : Datum) (indent : Option Int) (r : Except WriteError (List Char)) :
    orCustom env x indent r = r := by
  unfold orCustom
  rw [hcw]

/-- From the members to the object, in the order in which they are written. -/
theorem wr_object (hcw : env.customWrite = none) (hinf : ∀ x, renv.customInflate x = x)
    {cells : List (Key × Datum)} {indent : Option Int} {d : Nat} (hne : cells.isEmpty = false)
    (hnd : (cells.map Prod.fst).Nodup) (hf : Fits env (d + 1) indent) {ms : List (Key × Entry)}
    (hcells : cells = ms.map fun m => (m.1, m.2.x))
    (hwr : wrCells env cells (indent.map (· + 2)) = ms.map fun m => (m.1, .ok m.2.text))
    (hok : ∀ m ∈ ms, m.1.Plain ∧ m.2.Ok renv) :
    ∃ text y, wr env (.object cells) indent = .ok text ∧ Item renv text y ∧ Same (.object cells) y := by
  have hperm := sortCells_perm env ms
  obtain ⟨wsc, hwsc, hcell⟩ := writeCell_ok env (indent.map (· + 2))
  have htexts : (sortCells env (wrCells env cells (indent.map (· + 2)))).map
      (writeCell env (indent.map (· + 2))) = ((sortCells env ms).map (memberText env wsc)).map .ok := by
    rw [hwr, sortCells_map env (fun e : Entry => Except.ok e.text) ms, List.map_map, List.map_map]
    exact List.map_congr_left fun m _ => hcell m
  generalize hms : sortCells env ms = ms' at hperm htexts
  cases ms' with
  | nil =>
    rw [hcells, List.nil_perm.mp hperm] at hne
    cases hne
  | cons m ms' =>
    obtain ⟨ws₀, ws₁, ws₂, hw₀, hw₁, hw₂, hn₂, hall⟩ := writeAll_ok hf (.inr rfl) (.inr rfl)
      (fun indent => (sortCells env (wrCells env cells indent)).map (writeCell env indent)) htexts
    have hok' : ∀ m' ∈ m :: ms', m'.1.Plain ∧ m'.2.Ok renv := fun m' hm => hok m' (hperm.mem_iff.mp hm)
    have hkeys : ((m :: ms').map Prod.fst).Nodup := by
      rw [hcells, List.map_map] at hnd
      exact (hperm.map Prod.fst).nodup_iff.mpr hnd
    refine ⟨_, _, ?_, item_object env hinf hw₀ hw₁ hw₂ hwsc hn₂ hok' hkeys,
      .object ?_ (sameCells_of_ok fun m' hm => (hok' m' hm).2)⟩
    · rw [wr, orCustom_none hcw, hne]
      exact hall
    · rw [hcells]
      exact hperm.map _

mutual

theorem wr_item (hcw : env.customWrite = none) (hinf : ∀ x, renv.customInflate x = x) :
    ∀ (x : Datum) (indent : Option Int), IsJson x → Fits env (depth x) indent →
    ∃ text y, wr env x indent = .ok text ∧ Item renv text y ∧ Same x y
  | .bool true, _, _, _ => ⟨_, _, rfl, item_true, .refl _⟩
  | .bool false, _, _, _ => ⟨_, _, rfl, item_false, .refl _⟩
  | .char c, _, hj, _ => by
    rw [IsJson] at hj
    rw [wr, if_pos hj, hj]
    exact ⟨_, _, rfl, item_null, .refl _⟩
  | .int n, _, _, _ => ⟨_, _, wr_int n _, item_int n, .refl _⟩
  | .string str, _, _, _ => ⟨_, _, rfl, item_string str, .refl _⟩
  | .nil, _, _, _ => by
    rw [wr, orCustom_none hcw]
    exact ⟨_, _, rfl, item_nil, .refl _⟩
  | .pair a d, indent, hj, hf => by
    rw [IsJson] at hj
    rw [depth] at hf
    obtain ⟨ws, h₁, h₂, hroom⟩ := writeStructuralChar_open hf (.inl rfl)
    obtain ⟨t, y, ht, hi, hs⟩ := wr_item hcw hinf a (indent.map (· + 2)) hj.1 (hroom.mono (by omega))
    obtain ⟨ts, ys, hts, his, hss⟩ := wrTail_items hcw hinf d (indent.map (· + 2)) hj.2 (hroom.mono (by omega))
    have htexts : wr env a (indent.map (· + 2)) :: wrTail env d (indent.map (· + 2)) =
        (t :: ts).map .ok := by
      rw [ht, hts]
      rfl
    obtain ⟨ws₀, ws₁, ws₂, hw₀, hw₁, hw₂, hn₂, hall⟩ := writeAll_ok hf (.inl rfl) (.inl rfl)
      (fun indent => wr env a indent :: wrTail env d indent) htexts
    refine ⟨_, _, ?_, item_list hw₀ hw₁ hw₂ hn₂ hi his, .pair hs hss⟩
    rw [wr, orCustom_none hcw]
    exact hall
  | .object cells, indent, hj, hf => by
    rw [IsJson] at hj
    rw [depth] at hf
    cases he : cells.isEmpty with
    | true =>
      rw [List.isEmpty_iff.mp he, wr, orCustom_none hcw]
      exact ⟨_, _, rfl, item_emptyObject hinf, .refl _⟩
    | false =>
      rw [he] at hf
      obtain ⟨ws, h₁, h₂, hroom⟩ := writeStructuralChar_open hf (.inr rfl)
      obtain ⟨ms, h₃, h₄, h₅⟩ := wrCells_items hcw hinf cells (indent.map (· + 2)) hj.2 hroom
      exact wr_object hcw hinf he hj.1 hf h₃ h₄ h₅

theorem wrTail_items (hcw : env.customWrite = none) (hinf : ∀ x, renv.customInflate x = x) :
    ∀ (x : Datum) (indent : Option Int), IsTail x → Fits env (tailDepth x) indent →
    ∃ ts ys, wrTail env x indent = ts.map .ok ∧ List.Forall₂ (Item renv) ts ys ∧ Same x (Datum.ofList ys)
  | .nil, _, _, _ => ⟨[], [], rfl, .nil, .refl _⟩
  | .pair a d, indent, hj, hf => by
    rw [IsTail] at hj
    rw [tailDepth] at hf
    obtain ⟨t, y, ht, hi, hs⟩ := wr_item hcw hinf a indent hj.1 (hf.mono (by omega))
    obtain ⟨ts, ys, hts, his, hss⟩ := wrTail_items hcw hinf d indent hj.2 (hf.mono (by omega))
    refine ⟨t :: ts, y :: ys, ?_, .cons hi his, .pair hs hss⟩
    rw [wrTail, ht, hts]
    rfl
  | .bool _, _, hj, _ | .char _, _, hj, _ | .int _, _, hj, _ | .string _, _, hj, _
  | .object _, _, hj, _ | .flonum _ _ _, _, hj, _ | .ratnum _ _, _, hj, _ | .symbol _, _, hj, _
  | .vector _, _, hj, _ => by
    rw [IsTail] at hj
    all_goals simp_all

theorem wrCells_items (hcw : env.customWrite = none) (hinf : ∀ x, renv.customInflate x = x) :
    ∀ (cells : List (Key × Datum)) (indent : Option Int), CellsJson cells →
    Fits env (cellsDepth cells) indent → ∃ ms : List (Key × Entry),
      cells = ms.map (fun m => (m.1, m.2.x)) ∧
      wrCells env cells indent = ms.map (fun m => (m.1, .ok m.2.text)) ∧
      ∀ m ∈ ms, m.1.Plain ∧ m.2.Ok renv
  | [], _, _, _ => ⟨[], rfl, rfl, by simp⟩
  | (key, val) :: cells, indent, hj, hf => by
    rw [CellsJson] at hj
    rw [cellsDepth] at hf
    obtain ⟨t, y, ht, hi, hs⟩ := wr_item hcw hinf val indent hj.2.1 (hf.mono (by omega))
    obtain ⟨ms, h₁, h₂, h₃⟩ := wrCells_items hcw hinf cells indent hj.2.2 (hf.mono (by omega))
    refine ⟨(key, ⟨val, t, y⟩) :: ms, by rw [h₁]; rfl, by rw [wrCells, ht, h₂]; rfl, fun m hm => ?_⟩
    rcases List.mem_cons.mp hm with rfl | hm
    · exact ⟨hj.1, hi, hs⟩
    · exact h₃ m hm

end

/-- json:read and ->object on the text of a value, with white space after it. -/
theorem toObject_reads {text rest : List Char} {y : Datum} (h : Item renv text y) (hr : Follows rest)
    (hws : AllWs rest) : Reads (toObject renv) (text ++ rest) [] (some y) := by
  obtain ⟨c, cs, rfl, hc, -⟩ := h.starts
  have hread : Reads (read renv) (c :: cs ++ rest) rest (some y) := by
    refine (nextNonWs_runs allWs_nil hc (cs ++ rest)).bind ?_
    refine (unreadChar_runs (c :: (cs ++ rest))).bind ?_
    have hrd : Reads (fun s => rd renv (2 * s.rest.length + 2) s) (c :: (cs ++ rest)) rest y := by
      intro s hs hb
      refine h.reads _ [] rest allWs_nil ?_ hr s hs hb
      rw [hs, List.length_cons, List.length_cons, List.length_append]
      omega
    exact hrd.bind (Runs.pure _ _ _)
  exact hread.bind ((nextNonWs_end hws).bind (Runs.pure _ _ _))

/-- No custom-inflate is given. -/
def noCustomInflate (readGensym : List Char → Option Key) : ReadEnv where
  readGensym := readGensym
  customInflate := id

/-- As long as the deepest indent is a fixnum, json:write succeeds, and
json:string->object takes its whole output back to the same value. -/
theorem json_round_trip (env : WriteEnv) (readGensym : List Char → Option Key) (x : Datum)
    (indent : Option Int) (hcw : env.customWrite = none) (hj : IsJson x)
    (hf : Fits env (depth x) indent) :
    ∃ text y t, write env x indent = .ok text ∧
      stringToObject (noCustomInflate readGensym) [] text = .ok (some y) t ∧ t.rest = [] ∧ Same x y := by
  obtain ⟨text, y, hw, hi, hs⟩ := @wr_item env (noCustomInflate readGensym) hcw (fun _ => rfl) x indent hj hf
  -- at indent 0 a newline ends the text
  have hwrite : ∃ rest, write env x indent = .ok (text ++ rest) ∧ Follows rest ∧ AllWs rest := by
    unfold write
    cases indent with
    | none => exact ⟨[], by rw [List.append_nil]; exact hw, by simp [Follows], allWs_nil⟩
    | some i =>
      obtain ⟨hf1, hf2⟩ := hf
      have hfix : env.isFixnum i = true := isFixnum_of_fits hf1 (by omega)
      have hno : ¬ (!env.isFixnum i || decide (i < 0)) = true := by
        simp [hfix, hf1]
      dsimp only
      rw [if_neg hno, hw]
      by_cases h0 : i = 0
      · refine ⟨['\n'], ?_, ?_, ?_⟩
        · show Except.ok (if i = 0 then _ else _) = _
          rw [if_pos h0]
        · intro c hc
          cases hc
          exact .inr (.inr (.inr rfl))
        · intro c hc
          rw [List.mem_singleton.mp hc]
          decide
      · refine ⟨[], ?_, by simp [Follows], allWs_nil⟩
        show Except.ok (if i = 0 then _ else _) = _
        rw [if_neg h0, List.append_nil]
  obtain ⟨rest, h1, h2, h3⟩ := hwrite
  obtain ⟨t, h4, h5, -⟩ := toObject_reads hi h2 h3 (openStringInputPort (text ++ rest) []) rfl rfl
  exact ⟨text ++ rest, y, t, h1, h4, h5, hs⟩

/-- A 64-bit machine and no parameters set. -/
def machine64 : WriteEnv where
  fixnumWidth := 61
  keyLt := some fun a b => a < b
  printGensym _ unique := unique
  flonumToString _ _ _ := none
  customWrite := none

/-- The object of two members that are not in order. -/
def sampleObject : Datum :=
  .object [(.symbol ['b'], .pair (.int (-12)) (.pair (.string ['"']) .nil)), (.symbol ['a'], .bool true)]

theorem json_round_trip_sample :
    ∃ text y t, write machine64 sampleObject (some 0) = .ok text ∧
      stringToObject (noCustomInflate fun _ => none) [] text = .ok (some y) t ∧ t.rest = [] ∧
      Same sampleObject y :=
  json_round_trip machine64 (fun _ => none) sampleObject (some 0) rfl
    (by simp [sampleObject, IsJson, IsTail, CellsJson, Key.Plain])
    (by simp [sampleObject, Fits, depth, tailDepth, cellsDepth, machine64, WriteEnv.mostPositiveFixnum])

/-- The list (1) at an indent that is the largest fixnum. -/
theorem json_write_indent_overflow :
    IsJson (.pair (.int 1) .nil) ∧ machine64.isFixnum (2 ^ 60 - 1) = true ∧
      ¬ ∃ text, write machine64 (.pair (.int 1) .nil) (some (2 ^ 60 - 1)) = .ok text := by
  refine ⟨by simp [IsJson, IsTail], by decide, ?_⟩
  have herr : write machine64 (.pair (.int 1) .nil) (some (2 ^ 60 - 1)) = .error .fixnumOverflow := by
    rfl
  rw [herr]
  rintro ⟨text, h⟩
  cases h

end Swish.Json
