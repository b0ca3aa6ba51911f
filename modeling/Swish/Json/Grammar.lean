import Mathlib.Algebra.Field.Rat
import Mathlib.Tactic.FieldSimp
import Mathlib.Tactic.Ring
import Swish.Json.Canonical

/-!
The texts that are JSON per RFC 8259, and what they denote. The integer part of a
number may begin with zeros, and the characters of a string may be control
characters; the escape sequences of surrogates come in pairs. The words of the
grammar are lists of characters.
-/

set_option autoImplicit false

namespace Swish.Json

/-- 1*DIGIT. -/
def Digits (ds : List Char) : Prop := ds ≠ [] ∧ ∀ c ∈ ds, isDigit c = true

def decimal (ds : List Char) : Nat := ds.foldl (fun a c => a * 10 + digitValue c) 0

structure Exponent where
  marker : Char
  sign : Option Char
  digits : List Char

structure Numeral where
  minus : Bool
  int : List Char
  frac : Option (List Char)
  exp : Option Exponent

structure Exponent.Ok (e : Exponent) : Prop where
  marker : e.marker = 'e' ∨ e.marker = 'E'
  sign : e.sign = none ∨ e.sign = some '+' ∨ e.sign = some '-'
  digits : Digits e.digits

structure Numeral.Ok (n : Numeral) : Prop where
  int : Digits n.int
  frac : ∀ fs, n.frac = some fs → Digits fs
  exp : ∀ e, n.exp = some e → e.Ok

def Exponent.text (e : Exponent) : List Char := e.marker :: (e.sign.toList ++ e.digits)

def Exponent.value (e : Exponent) : Int :=
  if e.sign = some '-' then -(decimal e.digits) else decimal e.digits

namespace Numeral

def fracText (n : Numeral) : List Char :=
  match n.frac with
  | none => []
  | some fs => '.' :: fs

def expText (n : Numeral) : List Char :=
  match n.exp with
  | none => []
  | some e => e.text

/-- What comes after the sign. -/
def unsigned (n : Numeral) : List Char := n.int ++ n.fracText ++ n.expText

def text (n : Numeral) : List Char := if n.minus then '-' :: n.unsigned else n.unsigned

/-- The digits behind the point. -/
def places (n : Numeral) : List Char := n.frac.getD []

def expValue (n : Numeral) : Int :=
  match n.exp with
  | none => 0
  | some e => e.value

/-- The number itself. -/
def exact (n : Numeral) : ℚ :=
  (if n.minus then -1 else 1) *
    ((decimal n.int + decimal n.places / 10 ^ n.places.length) * 10 ^ n.expValue)

/-- An exact integer, or what inexact makes of the number. -/
def datum (n : Numeral) : Datum :=
  if n.frac.isNone && n.exp.isNone then .int (if n.minus then -(decimal n.int) else decimal n.int)
  else .flonum n.minus (decimal (n.int ++ n.places)) (n.expValue - n.places.length)

end Numeral

/-- HEXDIG. -/
inductive Hex : Char → Nat → Prop where
  | digit (c : Char) (h : isDigit c = true) : Hex c (digitValue c)
  | upper (c : Char) (h : 'A' ≤ c ∧ c ≤ 'F') : Hex c (c.toNat - 'A'.toNat + 10)
  | lower (c : Char) (h : 'a' ≤ c ∧ c ≤ 'f') : Hex c (c.toNat - 'a'.toNat + 10)

/-- 4HEXDIG. -/
inductive Hex4 : List Char → Nat → Prop where
  | mk (a b c d : Char) (w x y z : Nat) (ha : Hex a w) (hb : Hex b x) (hc : Hex c y) (hd : Hex d z) :
    Hex4 [a, b, c, d] (w * 4096 + x * 256 + y * 16 + z)

/-- The escape sequences of two characters. -/
def shortEscapes : List (Char × Char) :=
  [('"', '"'), ('\\', '\\'), ('/', '/'), ('b', Char.ofNat 0x08), ('f', Char.ofNat 0x0C),
    ('n', Char.ofNat 0x0A), ('r', Char.ofNat 0x0D), ('t', Char.ofNat 0x09)]

/-- What comes after a backslash, and the character it denotes. -/
inductive Escape : List Char → Char → Prop where
  | short (c d : Char) (h : (c, d) ∈ shortEscapes) : Escape [c] d
  | unicode (ds : List Char) (x : Nat) (h : Hex4 ds x) (hx : x < 0xD800 ∨ 0xDFFF < x) :
    Escape ('u' :: ds) (Char.ofNat x)
  | pair (ds es : List Char) (x y : Nat) (h : Hex4 ds x) (h' : Hex4 es y) (hx : 0xD800 ≤ x ∧ x ≤ 0xDBFF)
    (hy : 0xDC00 ≤ y ∧ y ≤ 0xDFFF) :
    Escape ('u' :: (ds ++ '\\' :: 'u' :: es)) (Char.ofNat (0x10000 + (x - 0xD800) * 0x400 + (y - 0xDC00)))

/-- The inside of a string literal. -/
inductive Chars : List Char → List Char → Prop where
  | nil : Chars [] []
  | raw (c : Char) (w s : List Char) (hq : c ≠ '"') (hb : c ≠ '\\') (h : Chars w s) : Chars (c :: w) (c :: s)
  | escape (e w : List Char) (c : Char) (s : List Char) (he : Escape e c) (h : Chars w s) :
    Chars ('\\' :: (e ++ w)) (c :: s)

/-- A word with its value and the white space around it. -/
structure Padded where
  before : List Char
  word : List Char
  after : List Char
  value : Datum

structure Padded.WsOk (p : Padded) : Prop where
  before : AllWs p.before
  after : AllWs p.after

def Padded.text (p : Padded) : List Char := p.before ++ (p.word ++ p.after)

/-- A member of an object: the inside of the literal of its name, the name, the white
space around the literal, and the value. -/
structure Member where
  before : List Char
  literal : List Char
  name : List Char
  after : List Char
  val : Padded

structure Member.Ok (m : Member) : Prop where
  before : AllWs m.before
  literal : Chars m.literal m.name
  after : AllWs m.after
  val : m.val.WsOk

def Member.text (m : Member) : List Char :=
  m.before ++ '"' :: (m.literal ++ '"' :: (m.after ++ ':' :: m.val.text))

/-- Words with commas between them. -/
def commas : List (List Char) → List Char
  | [] => []
  | [w] => w
  | w :: ws => w ++ ',' :: commas ws

/-- The cells after one more member. -/
def addMember (env : ReadEnv) (cells : List (Key × Datum)) (m : Member) : List (Key × Datum) :=
  hashtableSet (stringToKey env m.name) m.val.value cells

/-- The cells of an object with these members. -/
def bindings (env : ReadEnv) (ms : List Member) : List (Key × Datum) := ms.foldl (addMember env) []

/-- The words for values; an object is what custom-inflate makes of it. -/
inductive Value (env : ReadEnv) : List Char → Datum → Prop where
  | litTrue : Value env ['t', 'r', 'u', 'e'] (.bool true)
  | litFalse : Value env ['f', 'a', 'l', 's', 'e'] (.bool false)
  | litNull : Value env ['n', 'u', 'l', 'l'] (.char nul)
  | number (n : Numeral) (h : n.Ok) : Value env n.text n.datum
  | string (w s : List Char) (h : Chars w s) : Value env ('"' :: (w ++ ['"'])) (.string s)
  | emptyArray (ws : List Char) (h : AllWs ws) : Value env ('[' :: (ws ++ [']'])) .nil
  | array (ps : List Padded) (hne : ps ≠ []) (hws : ∀ p ∈ ps, p.WsOk) (h : ∀ p ∈ ps, Value env p.word p.value) :
    Value env ('[' :: (commas (ps.map Padded.text) ++ [']'])) (Datum.ofList (ps.map Padded.value))
  | emptyObject (ws : List Char) (h : AllWs ws) :
    Value env ('\x7b' :: (ws ++ ['\x7d'])) (env.customInflate (.object []))
  | object (ms : List Member) (hne : ms ≠ []) (hok : ∀ m ∈ ms, m.Ok)
    (h : ∀ m ∈ ms, Value env m.val.word m.val.value) :
    Value env ('\x7b' :: (commas (ms.map Member.text) ++ ['\x7d'])) (env.customInflate (.object (bindings env ms)))

/-- A whole text; none is the eof object. -/
inductive Text (env : ReadEnv) : List Char → Option Datum → Prop where
  | empty (ws : List Char) (h : AllWs ws) : Text env ws none
  | value (p : Padded) (hws : p.WsOk) (h : Value env p.word p.value) : Text env p.text (some p.value)

/-- The exact number that a number datum stands for, before it is made inexact. -/
def Datum.exact : Datum → Option ℚ
  | .int n => some n
  | .flonum negative mantissa exponent => some ((if negative then -1 else 1) * (mantissa * 10 ^ exponent))
  | _ => none

theorem decimal_append (ds fs : List Char) : decimal (ds ++ fs) = decimal ds * 10 ^ fs.length + decimal fs := by
  have hfold : ∀ a : Nat, fs.foldl (fun a c => a * 10 + digitValue c) a = a * 10 ^ fs.length + decimal fs := by
    unfold decimal
    induction fs with
    | nil => simp
    | cons c fs ih =>
      intro a
      rw [List.foldl_cons, List.foldl_cons, ih, ih (0 * 10 + digitValue c), List.length_cons]
      ring
  rw [decimal, List.foldl_append, hfold]
  rfl

/-- The mantissa and the exponent stand for the number itself. -/
theorem Numeral.exact_datum (n : Numeral) : n.datum.exact = some n.exact := by
  obtain ⟨minus, int, frac, exp⟩ := n
  unfold Numeral.datum
  by_cases hint : (frac.isNone && exp.isNone) = true
  · rw [if_pos hint]
    obtain ⟨hfrac, hexp⟩ := Bool.and_eq_true_iff.mp hint
    rw [Option.isNone_iff_eq_none] at hfrac hexp
    subst hfrac
    subst hexp
    cases minus <;> simp [Datum.exact, Numeral.exact, Numeral.places, Numeral.expValue, decimal]
  · rw [if_neg hint]
    unfold Datum.exact Numeral.exact
    dsimp only
    generalize (⟨minus, int, frac, exp⟩ : Numeral).places = fs
    generalize (⟨minus, int, frac, exp⟩ : Numeral).expValue = x
    have hscale : ((decimal (int ++ fs) : ℕ) : ℚ) * 10 ^ (x - (fs.length : ℤ)) =
        (decimal int + decimal fs / 10 ^ fs.length) * 10 ^ x := by
      rw [decimal_append, zpow_sub₀ (by norm_num), zpow_natCast]
      push_cast
      field_simp
    rw [hscale]

theorem Numeral.datum_int {n : Numeral} (hfrac : n.frac = none) (hexp : n.exp = none) : ∃ i, n.datum = .int i := by
  unfold Numeral.datum
  rw [hfrac, hexp]
  exact ⟨_, rfl⟩

theorem hashtableRef_set (key k : Key) (val : Datum) (cells : List (Key × Datum)) :
    hashtableRef key (hashtableSet k val cells) = if k = key then some val else hashtableRef key cells := by
  induction cells with
  | nil => rfl
  | cons cell cells ih =>
    unfold hashtableSet
    by_cases hk : cell.1 = k
    · rw [if_pos hk, hashtableRef, hashtableRef, hk]
      by_cases h : k = key
      · rw [if_pos h, if_pos h]
      · rw [if_neg h, if_neg h, if_neg h]
    · rw [if_neg hk, hashtableRef, hashtableRef, ih]
      by_cases h : k = key
      · rw [if_pos h, if_pos h, if_neg fun h' => hk (h'.trans h.symm)]
      · rw [if_neg h, if_neg h]

/-- The value of the last member with this key. -/
def lastValue (env : ReadEnv) (key : Key) : List Member → Option Datum
  | [] => none
  | m :: ms => (lastValue env key ms).or (if stringToKey env m.name = key then some m.val.value else none)

/-- Later members win. -/
theorem ref_bindings (env : ReadEnv) (key : Key) (ms : List Member) :
    hashtableRef key (bindings env ms) = lastValue env key ms := by
  have hfold : ∀ cells, hashtableRef key (ms.foldl (addMember env) cells) =
      (lastValue env key ms).or (hashtableRef key cells) := by
    induction ms with
    | nil => exact fun cells => rfl
    | cons m ms ih =>
      intro cells
      rw [List.foldl_cons, ih, lastValue, Option.or_assoc, addMember, hashtableRef_set]
      by_cases h : stringToKey env m.name = key
      · rw [if_pos h, if_pos h]
        rfl
      · rw [if_neg h, if_neg h]
        rfl
  rw [bindings, hfold]
  exact Option.or_none

theorem stringToKey_symbol (env : ReadEnv) {name : List Char} (h : ¬ (name[0]? = some '#' ∧ name[1]? = some '\x7b')) :
    stringToKey env name = .symbol name := if_neg fun h' => h ⟨h'.2.1, h'.2.2.1⟩

end Swish.Json
