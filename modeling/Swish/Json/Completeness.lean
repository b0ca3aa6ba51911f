import Swish.Json.Soundness

/-!
The reader takes every word of the grammar whole. A number ends where a character
comes that cannot go on with it.
-/

set_option autoImplicit false

namespace Swish.Json

variable {env : ReadEnv}

/-- No number goes on with this. -/
def Stops (rest : List Char) : Prop :=
  ∀ c, rest.head? = some c → isDigit c = false ∧ c ≠ '.' ∧ c ≠ 'e' ∧ c ≠ 'E'

theorem stops_nil : Stops [] := fun c h => by cases h

theorem stops_cons {c : Char} (h : isDigit c = false ∧ c ≠ '.' ∧ c ≠ 'e' ∧ c ≠ 'E') (rest : List Char) :
    Stops (c :: rest) := by
  intro d hd
  cases hd
  exact h

theorem stops_ws {ws rest : List Char} (hws : AllWs ws) (h : Stops rest) : Stops (ws ++ rest) := by
  cases ws with
  | nil => exact h
  | cons c ws =>
    refine stops_cons ?_ (ws ++ rest)
    have hc := hws c (by simp)
    simp only [isWs, Bool.or_eq_true, decide_eq_true_eq] at hc
    obtain ((rfl | rfl) | rfl) | rfl := hc <;> decide

theorem readDigits_runs {ds rest : List Char} (hd : ∀ c ∈ ds, isDigit c = true)
    (hr : ∀ c, rest.head? = some c → isDigit c = false) (mantissa : Nat) (b : List Char) :
    Runs (readDigits mantissa 0) (ds ++ rest) b rest.tail b
      (ds.foldl (fun a c => a * 10 + digitValue c) mantissa, ds.length, rest.head?) := by
  intro s hs hb
  obtain ⟨pos, hp⟩ := takeDigits_append hd hr mantissa 0 s.pos
  unfold readDigits
  rw [hs, hp, Nat.zero_add]
  exact ⟨_, rfl, rfl, hb⟩

theorem Digits.length_ne_zero {ds : List Char} (h : Digits ds) : ds.length ≠ 0 := by
  simpa using h.1

theorem readInt_runs {ds rest : List Char} (hd : Digits ds) (hr : Stops rest) (b : List Char) :
    Runs readInt (ds ++ rest) b rest b (decimal ds) :=
  (readDigits_runs hd.2 (fun c hc => (hr c hc).1) 0 b).bind
    (Runs.ite_false hd.length_ne_zero ((unreadChar_runs rest).bind (Runs.pure _ _ _)))

theorem digit_ne {c d : Char} (hc : isDigit c = true) (hd : isDigit d = false) : c ≠ d := by
  intro h
  rw [h, hd] at hc
  cases hc

theorem readExp_runs {e : Exponent} (he : e.Ok) {rest : List Char} (hr : Stops rest) (mantissa m : Nat) (b : List Char) :
    Runs (readExp mantissa m) (e.sign.toList ++ e.digits ++ rest) b rest b (scale mantissa (e.value - m)) := by
  obtain ⟨marker, sign, digits⟩ := e
  have hint := readInt_runs he.digits hr b
  obtain h | h | h : sign = none ∨ sign = some '+' ∨ sign = some '-' := he.sign
  · subst h
    obtain ⟨c, cs, rfl⟩ := List.exists_cons_of_ne_nil he.digits.1
    have hc : isDigit c = true := he.digits.2 c (by simp)
    refine (nextChar_runs c (cs ++ rest) b).bind ?_
    refine Runs.ite_false (digit_ne hc (by decide)) (Runs.ite_false (digit_ne hc (by decide)) ?_)
    exact (unreadChar_runs (c :: (cs ++ rest))).bind (hint.bind (Runs.pure _ _ _))
  · subst h
    exact (nextChar_runs '+' (digits ++ rest) b).bind (Runs.ite_true rfl (hint.bind (Runs.pure _ _ _)))
  · subst h
    exact (nextChar_runs '-' (digits ++ rest) b).bind
      (Runs.ite_false (by decide) (Runs.ite_true rfl (hint.bind (Runs.pure _ _ _))))

/-- The marker of an exponent comes before anything else that a number may go on with. -/
theorem readUnsigned_runs {n : Numeral} (hn : n.Ok) (hminus : n.minus = false) {rest : List Char} (hr : Stops rest)
    (b : List Char) : Runs readUnsigned (n.text ++ rest) b rest b n.datum := by
  obtain ⟨minus, int, frac, exp⟩ := n
  subst hminus
  have hstop := fun c hc => (hr c hc).1
  have hdot : rest.head? ≠ some '.' := fun h => (hr _ h).2.1 rfl
  have hno : ¬ (rest.head? = some 'e' ∨ rest.head? = some 'E') :=
    fun h => h.elim (fun h => (hr _ h).2.2.1 rfl) fun h => (hr _ h).2.2.2 rfl
  have hint : Digits int := hn.int
  have hlen := hint.length_ne_zero
  have hmarker : ∀ {c : Char}, c = 'e' ∨ c = 'E' → isDigit c = false ∧ c ≠ '.' ∧ (some c = some 'e' ∨ some c = some 'E') := by
    intro c hc
    obtain rfl | rfl := hc <;> decide
  cases frac with
  | none =>
    cases exp with
    | none =>
      have htext : (⟨false, int, none, none⟩ : Numeral).text ++ rest = int ++ rest := by
        simp [Numeral.text, Numeral.unsigned, Numeral.fracText, Numeral.expText]
      rw [htext]
      refine (readDigits_runs hint.2 hstop 0 b).bind ?_
      exact Runs.ite_false hlen (Runs.ite_false hdot (Runs.ite_false hno
        ((unreadChar_runs rest).bind (Runs.pure _ _ _))))
    | some e =>
      have he : e.Ok := hn.exp e rfl
      obtain ⟨h1, h2, h3⟩ := hmarker he.marker
      have htext : (⟨false, int, none, some e⟩ : Numeral).text ++ rest =
          int ++ (e.marker :: (e.sign.toList ++ e.digits ++ rest)) := by
        simp [Numeral.text, Numeral.unsigned, Numeral.fracText, Numeral.expText, Exponent.text]
      have hdatum : (⟨false, int, none, some e⟩ : Numeral).datum = scale (decimal int) (e.value - (0 : Nat)) := by
        simp [Numeral.datum, Numeral.places, Numeral.expValue, scale]
      rw [htext, hdatum]
      refine (readDigits_runs hint.2 (fun c hc => (by cases hc; exact h1)) 0 b).bind ?_
      exact Runs.ite_false hlen (Runs.ite_false (fun h => h2 (Option.some.inj h)) (Runs.ite_true h3
        (readExp_runs he hr _ 0 b)))
  | some fs =>
    have hfs : Digits fs := hn.frac fs rfl
    have hval : fs.foldl (fun a c => a * 10 + digitValue c) (decimal int) = decimal (int ++ fs) := by
      rw [decimal, decimal, List.foldl_append]
    cases exp with
    | none =>
      have htext : (⟨false, int, some fs, none⟩ : Numeral).text ++ rest = int ++ ('.' :: (fs ++ rest)) := by
        simp [Numeral.text, Numeral.unsigned, Numeral.fracText, Numeral.expText]
      have hdatum : (⟨false, int, some fs, none⟩ : Numeral).datum = scale (decimal (int ++ fs)) (-(fs.length : Int)) := by
        simp [Numeral.datum, Numeral.places, Numeral.expValue, scale]
      rw [htext, hdatum, ← hval]
      refine (readDigits_runs hint.2 (fun c hc => (by cases hc; decide)) 0 b).bind ?_
      refine Runs.ite_false hlen (Runs.ite_true rfl ?_)
      refine (readDigits_runs hfs.2 hstop _ b).bind ?_
      exact Runs.ite_false hfs.length_ne_zero (Runs.ite_false hno ((unreadChar_runs rest).bind (Runs.pure _ _ _)))
    | some e =>
      have he : e.Ok := hn.exp e rfl
      obtain ⟨h1, -, h3⟩ := hmarker he.marker
      have htext : (⟨false, int, some fs, some e⟩ : Numeral).text ++ rest =
          int ++ ('.' :: (fs ++ (e.marker :: (e.sign.toList ++ e.digits ++ rest)))) := by
        simp [Numeral.text, Numeral.unsigned, Numeral.fracText, Numeral.expText, Exponent.text]
      have hdatum : (⟨false, int, some fs, some e⟩ : Numeral).datum =
          scale (decimal (int ++ fs)) (e.value - (fs.length : Int)) := rfl
      rw [htext, hdatum, ← hval]
      refine (readDigits_runs hint.2 (fun c hc => (by cases hc; decide)) 0 b).bind ?_
      refine Runs.ite_false hlen (Runs.ite_true rfl ?_)
      refine (readDigits_runs hfs.2 (fun c hc => (by cases hc; exact h1)) _ b).bind ?_
      exact Runs.ite_false hfs.length_ne_zero (Runs.ite_true h3 (readExp_runs he hr _ _ b))

theorem hex_runs {c : Char} {x : Nat} (h : Hex c x) (rest b : List Char) : Runs hexDigit (c :: rest) b rest b x := by
  unfold hexDigit
  refine (nextChar_runs c rest b).bind ?_
  cases h with
  | digit hc => exact Runs.ite_true (by simpa [isDigit] using hc) (Runs.pure _ _ _)
  | upper hc =>
    have hle : 'A'.toNat ≤ c.toNat := hc.1
    have hA : 'A'.toNat = 65 := rfl
    have hval : c.toNat - ('A'.toNat - 10) = c.toNat - 'A'.toNat + 10 := by omega
    refine Runs.ite_false (fun h => ?_) (Runs.ite_true hc ?_)
    · have hle' : c.toNat ≤ '9'.toNat := h.2
      have h9 : '9'.toNat = 57 := rfl
      omega
    · rw [hval]
      exact Runs.pure _ _ _
  | lower hc =>
    have hle : 'a'.toNat ≤ c.toNat := hc.1
    have ha : 'a'.toNat = 97 := rfl
    have hval : c.toNat - ('a'.toNat - 10) = c.toNat - 'a'.toNat + 10 := by omega
    refine Runs.ite_false (fun h => ?_) (Runs.ite_false (fun h => ?_) (Runs.ite_true hc ?_))
    · have hle' : c.toNat ≤ '9'.toNat := h.2
      have h9 : '9'.toNat = 57 := rfl
      omega
    · have hle' : c.toNat ≤ 'F'.toNat := h.2
      have hF : 'F'.toNat = 70 := rfl
      omega
    · rw [hval]
      exact Runs.pure _ _ _

theorem hex4_runs {ds : List Char} {x : Nat} (h : Hex4 ds x) (rest b : List Char) :
    Runs read4hexdig (ds ++ rest) b rest b x := by
  obtain ⟨a₁, a₂, a₃, a₄, w, x, y, z, h₁, h₂, h₃, h₄⟩ := h
  have hval : w * 4096 + x * 256 + y * 16 + z = 16 * (16 * (16 * w + x) + y) + z := by omega
  rw [hval]
  exact (hex_runs h₁ _ b).bind ((hex_runs h₂ _ b).bind ((hex_runs h₃ _ b).bind ((hex_runs h₄ _ b).bind (Runs.pure _ _ _))))

theorem escape_runs {w : List Char} {c : Char} (h : Escape w c) (rest b : List Char) :
    Runs readEscape (w ++ rest) b rest (b ++ [c]) () := by
  -- the cases of the reader before that of the letter u
  have hu : ∀ {m : Read Unit} {x y b' : List Char}, Runs m x b y b' () → Runs (
      if 'u' = '"' ∨ 'u' = '\\' ∨ 'u' = '/' then writeBuf 'u'
      else if 'u' = 'b' then writeBuf (Char.ofNat 0x08)
      else if 'u' = 'f' then writeBuf (Char.ofNat 0x0C)
      else if 'u' = 'n' then writeBuf (Char.ofNat 0x0A)
      else if 'u' = 'r' then writeBuf (Char.ofNat 0x0D)
      else if 'u' = 't' then writeBuf (Char.ofNat 0x09)
      else if 'u' = 'u' then m else unexpectedInput (some 'u')) x b y b' () := by
    intro m x y b' hm
    exact hm
  cases h with
  | short d c hc =>
    refine (nextChar_runs d rest b).bind ?_
    have hw : ∀ c, Runs (writeBuf c) rest b rest (b ++ [c]) () := fun c => writeBuf_runs c rest b
    simp only [shortEscapes, List.mem_cons, Prod.mk.injEq, List.not_mem_nil, or_false] at hc
    obtain ⟨rfl, rfl⟩ | ⟨rfl, rfl⟩ | ⟨rfl, rfl⟩ | ⟨rfl, rfl⟩ | ⟨rfl, rfl⟩ | ⟨rfl, rfl⟩ | ⟨rfl, rfl⟩ | ⟨rfl, rfl⟩ := hc <;>
      exact hw _
  | unicode ds x hx hrange =>
    refine (nextChar_runs 'u' (ds ++ rest) b).bind (hu ?_)
    refine (hex4_runs hx rest b).bind (Runs.ite_false (by omega) (Runs.ite_false (by omega) ?_))
    exact writeBuf_runs _ rest b
  | pair ds es x y hx hy hhigh hlow =>
    refine (nextChar_runs 'u' (ds ++ '\\' :: 'u' :: es ++ rest) b).bind (hu ?_)
    rw [List.append_assoc]
    refine (hex4_runs hx _ b).bind (Runs.ite_true hhigh ?_)
    have hval : 0x10000 + (x - 0xD800) * 0x400 + (y - 0xDC00) = x % 0x400 * 1024 + y % 0x400 + 0x10000 := by omega
    rw [hval]
    have hexpect : ∀ (c : Char) (r : List Char), Runs (expectChar c) (c :: r) b r b () :=
      fun c r => (nextChar_runs c r b).bind (Runs.ite_true rfl (Runs.pure _ _ _))
    refine (hexpect '\\' ('u' :: (es ++ rest))).bind ((hexpect 'u' (es ++ rest)).bind ?_)
    exact (hex4_runs hy rest b).bind (Runs.ite_true hlow (writeBuf_runs _ rest b))

theorem chars_runs {w s : List Char} (h : Chars w s) (rest : List Char) (n : Nat) (hn : w.length < n) (b : List Char) :
    Runs (readStringFuel n) (w ++ '"' :: rest) b rest [] (b ++ s) := by
  induction h generalizing n b with
  | nil =>
    obtain ⟨n, rfl⟩ := Nat.exists_eq_succ_of_ne_zero (Nat.ne_zero_of_lt hn)
    refine (nextChar_runs '"' rest b).bind (Runs.ite_true rfl ?_)
    intro s hs hb
    exact ⟨{ s with jsonBuf := [], taken := s.taken + 1 }, by rw [getJsonBufferString, hb, List.append_nil], hs, rfl⟩
  | raw c w s hq hb h ih =>
    obtain ⟨n, rfl⟩ := Nat.exists_eq_succ_of_ne_zero (Nat.ne_zero_of_lt hn)
    have hrec := ih n (by simpa using hn) (b ++ [c])
    rw [List.append_assoc] at hrec
    exact (nextChar_runs c _ b).bind (Runs.ite_false hq (Runs.ite_false hb ((writeBuf_runs c _ b).bind hrec)))
  | escape e w c s he h ih =>
    obtain ⟨n, rfl⟩ := Nat.exists_eq_succ_of_ne_zero (Nat.ne_zero_of_lt hn)
    have hrec := ih n (by simp at hn; omega) (b ++ [c])
    rw [List.append_assoc] at hrec
    refine (nextChar_runs '\\' _ b).bind (Runs.ite_false (by decide) (Runs.ite_true rfl ?_))
    have hassoc : (e ++ w).append ('"' :: rest) = e ++ (w ++ '"' :: rest) := List.append_assoc e w ('"' :: rest)
    rw [hassoc]
    exact (escape_runs he _ b).bind hrec

theorem literal_runs {w s : List Char} (h : Chars w s) (rest : List Char) :
    Reads readString (w ++ '"' :: rest) rest s := by
  intro t ht hb
  have hlen : w.length < t.rest.length + 1 := by
    rw [ht, List.length_append]
    omega
  exact chars_runs h rest (t.rest.length + 1) hlen [] t ht hb

theorem digit_not_ws {c : Char} (hc : isDigit c = true) : isWs c = false := by
  cases h : isWs c with
  | false => rfl
  | true =>
    simp only [isWs, Bool.or_eq_true, decide_eq_true_eq] at h
    obtain ((rfl | rfl) | rfl) | rfl := h <;> cases hc

theorem unsigned_starts {n : Numeral} (hn : n.Ok) : ∃ c cs, n.unsigned = c :: cs ∧ isDigit c = true := by
  obtain ⟨c, cs, hc⟩ := List.exists_cons_of_ne_nil hn.int.1
  refine ⟨c, cs ++ n.fracText ++ n.expText, by rw [Numeral.unsigned, hc]; rfl, hn.int.2 c ?_⟩
  rw [hc]
  exact List.mem_cons_self

theorem value_starts {w : List Char} {x : Datum} (h : Value env w x) :
    ∃ c cs, w = c :: cs ∧ isWs c = false ∧ c ≠ ']' := by
  cases h with
  | litTrue => exact ⟨_, _, rfl, by decide, by decide⟩
  | litFalse => exact ⟨_, _, rfl, by decide, by decide⟩
  | litNull => exact ⟨_, _, rfl, by decide, by decide⟩
  | number n hn =>
    unfold Numeral.text
    by_cases hm : n.minus = true
    · rw [if_pos hm]
      exact ⟨_, _, rfl, by decide, by decide⟩
    · rw [if_neg hm]
      obtain ⟨c, cs, hc, hd⟩ := unsigned_starts hn
      exact ⟨c, cs, hc, digit_not_ws hd, digit_ne hd (by decide)⟩
  | string w s h => exact ⟨_, _, rfl, by decide, by decide⟩
  | emptyArray ws h => exact ⟨_, _, rfl, by decide, by decide⟩
  | array ps hne hws h => exact ⟨_, _, rfl, by decide, by decide⟩
  | emptyObject ws h => exact ⟨_, _, rfl, by decide, by decide⟩
  | object ms hne hok h => exact ⟨_, _, rfl, by decide, by decide⟩

/-- With this much fuel rd takes the word whole, behind white space and before
anything that no number goes on with. -/
def Taken (env : ReadEnv) (w : List Char) (x : Datum) : Prop :=
  ∀ n ws rest, AllWs ws → Stops rest → 2 * w.length ≤ n → Reads (rd env n) (ws ++ (w ++ rest)) rest x

theorem separator_stops {c : Char} (hc : c = ',' ∨ c = ']' ∨ c = '\x7d') (rest : List Char) : Stops (c :: rest) := by
  refine stops_cons ?_ rest
  obtain rfl | rfl | rfl := hc <;> decide

theorem separator_not_ws {c : Char} (hc : c = ',' ∨ c = ']' ∨ c = '\x7d') : isWs c = false := by
  obtain rfl | rfl | rfl := hc <;> decide

/-- A value with the white space around it and the character behind that. -/
theorem Taken.padded {p : Padded} (h : Taken env p.word p.value) (hws : p.WsOk) {c : Char}
    (hc : c = ',' ∨ c = ']' ∨ c = '\x7d') {n : Nat} (hn : 2 * p.word.length ≤ n) {β : Type}
    {f : Datum → Option Char → Read β} {rest y : List Char} {b : β} (hf : Reads (f p.value (some c)) rest y b) :
    Reads (do
      let x ← rd env n
      let c ← nextNonWs
      f x c) (p.text ++ c :: rest) y b := by
  have hrest : p.text ++ c :: rest = p.before ++ (p.word ++ (p.after ++ c :: rest)) := by
    simp [Padded.text]
  rw [hrest]
  refine (h n p.before (p.after ++ c :: rest) hws.before (stops_ws hws.after (separator_stops hc rest)) hn).bind ?_
  exact (nextNonWs_runs hws.after (separator_not_ws hc) rest).bind hf

theorem Padded.word_le (p : Padded) : p.word.length ≤ p.text.length := by
  simp only [Padded.text, List.length_append]
  omega

theorem Member.word_le (m : Member) : m.val.word.length ≤ m.text.length := by
  have h := m.val.word_le
  simp only [Member.text, List.length_append, List.length_cons]
  omega

theorem commas_length (w v : List Char) (ws : List (List Char)) :
    (commas (w :: v :: ws)).length = w.length + (commas (v :: ws)).length + 1 := by
  rw [commas_cons w (List.cons_ne_nil v ws), List.length_append, List.length_cons]
  omega

/-- One element of a list and the character behind it. -/
theorem rdList_step {p : Padded} (hws : p.WsOk) (hv : Value env p.word p.value) (h : Taken env p.word p.value)
    {c : Char} (hc : c = ',' ∨ c = ']' ∨ c = '\x7d') {n : Nat} (hn : 2 * p.word.length ≤ n) (acc : List Datum)
    {rest y : List Char} {x : Datum}
    (hf : Reads (if some c = some ',' then rdList env n (p.value :: acc)
      else if some c = some ']' then pure (Datum.ofList (p.value :: acc).reverse) else unexpectedInput (some c)) rest y x) :
    Reads (rdList env (n + 1) acc) (p.text ++ c :: rest) y x := by
  obtain ⟨d, ds, hd, hdws, hbracket⟩ := value_starts hv
  have htext : p.text ++ c :: rest = p.before ++ d :: (ds ++ (p.after ++ c :: rest)) := by
    simp [Padded.text, hd]
  rw [htext, rdList]
  refine (nextNonWs_runs hws.before hdws _).bind (Runs.ite_false (fun h => hbracket (Option.some.inj h.1)) ?_)
  refine (unreadChar_runs (d :: (ds ++ (p.after ++ c :: rest)))).bind ?_
  have hback : d :: (ds ++ (p.after ++ c :: rest)) = ({ p with before := [] } : Padded).text ++ c :: rest := by
    simp [Padded.text, hd]
  rw [hback]
  exact @Taken.padded env { p with before := [] } h ⟨allWs_nil, hws.after⟩ c hc n hn _ _ rest y x hf

/-- The elements of a list go on being read until the bracket. -/
theorem rdList_takes {p : Padded} {ps : List Padded} (hws : ∀ q ∈ p :: ps, q.WsOk)
    (hv : ∀ q ∈ p :: ps, Value env q.word q.value) (h : ∀ q ∈ p :: ps, Taken env q.word q.value)
    (acc : List Datum) (n : Nat) (rest : List Char) (hn : 2 * (commas ((p :: ps).map Padded.text)).length + 1 ≤ n) :
    Reads (rdList env n acc) (commas ((p :: ps).map Padded.text) ++ ']' :: rest) rest
      (Datum.ofList (acc.reverse ++ (p :: ps).map Padded.value)) := by
  have hword := p.word_le
  induction ps generalizing p acc n with
  | nil =>
    obtain ⟨n, rfl⟩ := Nat.exists_eq_succ_of_ne_zero (Nat.ne_zero_of_lt hn)
    have hlen : (commas ([p].map Padded.text)).length = p.text.length := rfl
    refine rdList_step (hws p (by simp)) (hv p (by simp)) (h p (by simp)) (.inr (.inl rfl)) (by omega) acc ?_
    have hrev : acc.reverse ++ [p].map Padded.value = (p.value :: acc).reverse := by simp
    rw [hrev]
    exact Runs.ite_false (by decide) (Runs.ite_true rfl (Runs.pure _ _ _))
  | cons q ps ih =>
    obtain ⟨n, rfl⟩ := Nat.exists_eq_succ_of_ne_zero (Nat.ne_zero_of_lt hn)
    have hlen := commas_length p.text q.text (ps.map Padded.text)
    rw [List.map_cons, List.map_cons] at hn ⊢
    rw [commas_cons _ (List.cons_ne_nil _ _), List.append_assoc]
    refine rdList_step (hws p (by simp)) (hv p (by simp)) (h p (by simp)) (.inl rfl) (by omega) acc
      (Runs.ite_true rfl ?_)
    have hrec := ih (fun r hr => hws r (by simp [hr])) (fun r hr => hv r (by simp [hr]))
      (fun r hr => h r (by simp [hr])) (p.value :: acc) n (by rw [List.map_cons]; omega) q.word_le
    rw [List.reverse_cons, List.append_assoc] at hrec
    exact hrec

/-- One member of an object and the character behind it. -/
theorem rdObject_step {m : Member} (hok : m.Ok) (h : Taken env m.val.word m.val.value) {c : Char}
    (hc : c = ',' ∨ c = ']' ∨ c = '\x7d') {n : Nat} (hn : 2 * m.val.word.length ≤ n) (cells : List (Key × Datum))
    {rest y : List Char} {xs : List (Key × Datum)}
    (hf : Reads (if some c = some ',' then rdObject env n (addMember env cells m)
      else if some c = some '\x7d' then pure (addMember env cells m) else unexpectedInput (some c)) rest y xs) :
    Reads (rdObject env (n + 1) cells) (m.text ++ c :: rest) y xs := by
  have htext : m.text ++ c :: rest =
      m.before ++ '"' :: (m.literal ++ '"' :: (m.after ++ ':' :: (m.val.text ++ c :: rest))) := by
    simp [Member.text]
  rw [htext, rdObject]
  refine (nextNonWs_runs hok.before (by decide) _).bind (Runs.ite_true rfl ?_)
  refine (literal_runs hok.literal _).bind ?_
  refine (nextNonWs_runs hok.after (by decide) _).bind (Runs.ite_true rfl ?_)
  exact @Taken.padded env m.val h hok.val c hc n hn _ _ rest y xs hf

/-- The members of an object go on being read until the brace. -/
theorem rdObject_takes {m : Member} {ms : List Member} (hok : ∀ q ∈ m :: ms, q.Ok)
    (h : ∀ q ∈ m :: ms, Taken env q.val.word q.val.value) (cells : List (Key × Datum)) (n : Nat) (rest : List Char)
    (hn : 2 * (commas ((m :: ms).map Member.text)).length + 1 ≤ n) :
    Reads (rdObject env n cells) (commas ((m :: ms).map Member.text) ++ '\x7d' :: rest) rest
      ((m :: ms).foldl (addMember env) cells) := by
  have hword := m.word_le
  induction ms generalizing m cells n with
  | nil =>
    obtain ⟨n, rfl⟩ := Nat.exists_eq_succ_of_ne_zero (Nat.ne_zero_of_lt hn)
    have hlen : (commas ([m].map Member.text)).length = m.text.length := rfl
    refine rdObject_step (hok m (by simp)) (h m (by simp)) (.inr (.inr rfl)) (by omega) cells ?_
    exact Runs.ite_false (by decide) (Runs.ite_true rfl (Runs.pure _ _ _))
  | cons q ms ih =>
    obtain ⟨n, rfl⟩ := Nat.exists_eq_succ_of_ne_zero (Nat.ne_zero_of_lt hn)
    have hlen := commas_length m.text q.text (ms.map Member.text)
    rw [List.map_cons, List.map_cons] at hn ⊢
    rw [commas_cons _ (List.cons_ne_nil _ _), List.append_assoc]
    refine rdObject_step (hok m (by simp)) (h m (by simp)) (.inl rfl) (by omega) cells (Runs.ite_true rfl ?_)
    exact ih (fun r hr => hok r (by simp [hr])) (fun r hr => h r (by simp [hr])) (addMember env cells m) n
      (by rw [List.map_cons]; omega) q.word_le

/-- A word has a character, so there is fuel for a call of rd. -/
theorem taken_of {w : List Char} {x : Datum} (hw : w ≠ [])
    (h : ∀ n ws rest, AllWs ws → Stops rest → 2 * w.length ≤ n + 1 → Reads (rd env (n + 1)) (ws ++ (w ++ rest)) rest x) :
    Taken env w x := by
  intro n ws rest hws hstop hn
  have hpos := List.length_pos_iff.mpr hw
  obtain ⟨n, rfl⟩ := Nat.exists_eq_succ_of_ne_zero (by omega : n ≠ 0)
  exact h n ws rest hws hstop hn

theorem number_taken {n : Numeral} (hn : n.Ok) : Taken env n.text n.datum := by
  obtain ⟨c, cs, hc, hd⟩ := unsigned_starts hn
  have hne : n.text ≠ [] := by
    unfold Numeral.text
    split
    · simp
    · simp [hc]
  refine taken_of hne fun fuel ws rest hws hstop _ => ?_
  rw [rd]
  by_cases hm : n.minus = true
  · obtain ⟨htext, hdatum⟩ := Numeral.negated hm
    rw [htext, hdatum]
    refine (nextNonWs_runs hws (by decide) _).bind ?_
    iterate 6 refine Runs.ite_false (by decide) ?_
    exact Runs.ite_true rfl ((@readUnsigned_runs { n with minus := false } ⟨hn.int, hn.frac, hn.exp⟩ rfl rest hstop
      []).bind (Runs.pure _ _ _))
  · have htext : n.text ++ rest = c :: (cs ++ rest) := by
      rw [Numeral.text, if_neg hm, hc]
      rfl
    have hread := readUnsigned_runs hn (by simpa using hm) hstop []
    rw [htext] at hread ⊢
    refine (nextNonWs_runs hws (digit_not_ws hd) _).bind ?_
    have hne : ∀ d, isDigit d = false → some c ≠ some d := fun d h h' => digit_ne hd h (Option.some.inj h')
    iterate 7 refine Runs.ite_false (hne _ (by decide)) ?_
    exact (unreadChar_runs (c :: (cs ++ rest))).bind hread

/-- The characters of a literal name after its first. -/
theorem expectChar_then {c : Char} {rest y b b' : List Char} {β : Type} {m : Read β} {x : β} (h : Runs m rest b y b' x) :
    Runs (do expectChar c; m) (c :: rest) b y b' x :=
  ((nextChar_runs c rest b).bind (Runs.ite_true rfl (Runs.pure () _ _))).bind h

/-- The opening bracket, and what rdList makes of the rest. -/
theorem list_taken {v : List Char} {x : Datum}
    (h : ∀ n rest, 2 * v.length + 1 ≤ n → Reads (rdList env n []) (v ++ ']' :: rest) rest x) :
    Taken env ('[' :: (v ++ [']'])) x := by
  refine taken_of (by simp) fun n ws rest hws _ hn => ?_
  have htext : ws ++ ('[' :: (v ++ [']']) ++ rest) = ws ++ '[' :: (v ++ ']' :: rest) := by simp
  rw [htext, rd]
  refine (nextNonWs_runs hws (by decide) _).bind ?_
  iterate 4 refine Runs.ite_false (by decide) ?_
  refine Runs.ite_true rfl (h n rest ?_)
  simp at hn
  omega

theorem object_taken {v : List Char} {cells : List (Key × Datum)}
    (h : ∀ n rest, 2 * v.length + 1 ≤ n → Reads (rdObject env n []) (v ++ '\x7d' :: rest) rest cells) :
    Taken env ('\x7b' :: (v ++ ['\x7d'])) (env.customInflate (.object cells)) := by
  refine taken_of (by simp) fun n ws rest hws _ hn => ?_
  have htext : ws ++ ('\x7b' :: (v ++ ['\x7d']) ++ rest) = ws ++ '\x7b' :: (v ++ '\x7d' :: rest) := by simp
  rw [htext, rd]
  refine (nextNonWs_runs hws (by decide) _).bind ?_
  iterate 5 refine Runs.ite_false (by decide) ?_
  refine Runs.ite_true rfl ((h n rest ?_).bind (Runs.pure _ _ _))
  simp at hn
  omega

theorem value_taken {w : List Char} {x : Datum} (h : Value env w x) : Taken env w x := by
  induction h with
  | number k hk => exact number_taken hk
  | litTrue =>
    refine taken_of (by simp) fun n ws rest hws _ _ => ?_
    rw [rd]
    refine (nextNonWs_runs hws (by decide) _).bind (Runs.ite_true rfl ?_)
    exact expectChar_then (expectChar_then (expectChar_then (Runs.pure _ _ _)))
  | litFalse =>
    refine taken_of (by simp) fun n ws rest hws _ _ => ?_
    rw [rd]
    refine (nextNonWs_runs hws (by decide) _).bind (Runs.ite_false (by decide) (Runs.ite_true rfl ?_))
    exact expectChar_then (expectChar_then (expectChar_then (expectChar_then (Runs.pure _ _ _))))
  | litNull =>
    refine taken_of (by simp) fun n ws rest hws _ _ => ?_
    rw [rd]
    refine (nextNonWs_runs hws (by decide) _).bind ?_
    iterate 2 refine Runs.ite_false (by decide) ?_
    exact Runs.ite_true rfl (expectChar_then (expectChar_then (expectChar_then (Runs.pure _ _ _))))
  | string v str h =>
    refine taken_of (by simp) fun n ws rest hws _ _ => ?_
    have htext : ws ++ ('"' :: (v ++ ['"']) ++ rest) = ws ++ '"' :: (v ++ '"' :: rest) := by simp
    rw [htext, rd]
    refine (nextNonWs_runs hws (by decide) _).bind ?_
    iterate 3 refine Runs.ite_false (by decide) ?_
    exact Runs.ite_true rfl ((literal_runs h rest).bind (Runs.pure _ _ _))
  | emptyArray v h =>
    refine list_taken fun n rest hn => ?_
    obtain ⟨n, rfl⟩ := Nat.exists_eq_succ_of_ne_zero (Nat.ne_zero_of_lt hn)
    rw [rdList]
    exact (nextNonWs_runs h (by decide) rest).bind (Runs.ite_true ⟨rfl, rfl⟩ (Runs.pure _ _ _))
  | array ps hne hws h ih =>
    obtain ⟨p, ps, rfl⟩ := List.exists_cons_of_ne_nil hne
    exact list_taken fun n rest hn => rdList_takes hws h ih [] n rest hn
  | emptyObject v h =>
    refine object_taken fun n rest hn => ?_
    obtain ⟨n, rfl⟩ := Nat.exists_eq_succ_of_ne_zero (Nat.ne_zero_of_lt hn)
    rw [rdObject]
    exact (nextNonWs_runs h (by decide) rest).bind (Runs.ite_false (by decide) (Runs.ite_true ⟨rfl, rfl⟩ (Runs.pure _ _ _)))
  | object ms hne hok h ih =>
    obtain ⟨m, ms, rfl⟩ := List.exists_cons_of_ne_nil hne
    exact object_taken fun n rest hn => rdObject_takes hok ih [] n rest hn

/-- With an empty buffer, json:string->object returns what a text of the grammar denotes. -/
theorem stringToObject_complete {text : List Char} {x : Option Datum} (h : Text env text x) :
    ∃ t, stringToObject env [] text = .ok x t := by
  have hruns : Reads (toObject env) text [] x := by
    cases h with
    | empty ws h =>
      have hread : Reads (read env) text [] none := (nextNonWs_end h).bind (Runs.pure _ _ _)
      exact hread.bind ((nextNonWs_end allWs_nil).bind (Runs.pure _ _ _))
    | value p hws h =>
      obtain ⟨c, cs, hc, hnot, -⟩ := value_starts h
      have hread : Reads (read env) p.text p.after (some p.value) := by
        have htext : p.text = p.before ++ c :: (cs ++ p.after) := by
          simp [Padded.text, hc]
        rw [htext]
        refine (nextNonWs_runs hws.before hnot (cs ++ p.after)).bind ?_
        refine (unreadChar_runs (c :: (cs ++ p.after))).bind ?_
        have hrd : Reads (fun s => rd env (2 * s.rest.length + 2) s) (c :: (cs ++ p.after)) p.after p.value := by
          intro s hs hb
          have hword : c :: (cs ++ p.after) = [] ++ (p.word ++ p.after) := by
            simp [hc]
          have hstop : Stops p.after := by
            have hstop := stops_ws hws.after stops_nil
            rwa [List.append_nil] at hstop
          rw [hword] at hs
          refine value_taken h (2 * s.rest.length + 2) [] p.after allWs_nil hstop ?_ s hs hb
          rw [hs]
          simp
          omega
        exact hrd.bind (Runs.pure _ _ _)
      exact hread.bind ((nextNonWs_end hws.after).bind (Runs.pure _ _ _))
  obtain ⟨t, ht, -, -⟩ := hruns (openStringInputPort text []) rfl rfl
  exact ⟨t, ht⟩

/-- What json:string->object does is what the grammar says, with json-buf as it is. -/
structure Conforms (env : ReadEnv) (jsonBuf text : List Char) : Prop where
  returns : ∀ x, (∃ t, stringToObject env jsonBuf text = .ok x t) ↔ Text env text x
  throws : (∀ x, ¬ Text env text x) → ∃ e t, stringToObject env jsonBuf text = .error e t ∧ e ≠ .outOfFuel

theorem toObject_alike {b : List Char} {φ : Prop} : Alike b φ (toObject env) (toObject env) := by
  refine (read_alike env).bind fun x x' => nextNonWs_steady.bindAlike fun c => ?_
  cases c with
  | none => exact .pure fun h => h.2
  | some c => exact (unexpectedInput_steady _).alike

/-- Which texts are taken does not depend on the buffer. -/
theorem stringToObject_returns (env : ReadEnv) (jsonBuf text : List Char) :
    (∃ x t, stringToObject env jsonBuf text = .ok x t) ↔ ∃ x t, stringToObject env [] text = .ok x t := by
  have hshift : openStringInputPort text jsonBuf = shift jsonBuf (openStringInputPort text []) := by
    simp [shift, openStringInputPort]
  have hagree := @toObject_alike env jsonBuf True _ _ ⟨hshift, fun _ => trivial⟩
  unfold stringToObject
  cases h : toObject env (openStringInputPort text []) with
  | ok x t =>
    cases h' : toObject env (openStringInputPort text jsonBuf) with
    | ok x' t' => exact ⟨fun _ => ⟨x, t, rfl⟩, fun _ => ⟨x', t', rfl⟩⟩
    | error e t' =>
      rw [h, h'] at hagree
      exact hagree.elim
  | error e t =>
    cases h' : toObject env (openStringInputPort text jsonBuf) with
    | ok x' t' =>
      rw [h, h'] at hagree
      exact hagree.elim
    | error e' t' =>
      refine ⟨fun hx => ?_, fun hx => ?_⟩ <;>
      · obtain ⟨x, u, hx⟩ := hx
        cases hx

theorem stringToObject_throws (env : ReadEnv) {jsonBuf text : List Char}
    (h : ∀ x t, stringToObject env jsonBuf text ≠ .ok x t) :
    ∃ e t, stringToObject env jsonBuf text = .error e t ∧ e ≠ .outOfFuel := by
  have hends : Lib.Ends (toObject env) (openStringInputPort text jsonBuf) (fun _ _ => True) fun e _ => e ≠ .outOfFuel := by
    refine Lib.Ends.bind ((read_ends env _).imp (fun x t _ => ?_) fun _ _ he => he)
    refine Lib.Ends.bind ((nextNonWs_ends t).imp (fun c u _ => ?_) fun _ _ he => he)
    cases c with
    | none => exact Lib.Ends.pure trivial
    | some c => exact unexpectedInput_ends _ u
  unfold stringToObject at h ⊢
  unfold Lib.Ends at hends
  cases hr : toObject env (openStringInputPort text jsonBuf) with
  | ok x t => exact absurd hr (h x t)
  | error e t =>
    rw [hr] at hends
    exact ⟨e, t, rfl, hends⟩

/-- In a text without a quotation mark, the buffer does not matter. -/
theorem conforms_of (env : ReadEnv) {jsonBuf text : List Char} (h : jsonBuf = [] ∨ '"' ∉ text) :
    Conforms env jsonBuf text := by
  refine ⟨fun x => ⟨fun hx => ?_, fun hx => ?_⟩, fun hno => ?_⟩
  · obtain ⟨t, ht⟩ := hx
    exact stringToObject_sound env h ht
  · obtain ⟨t, ht⟩ := stringToObject_complete hx
    obtain ⟨y, u, hu⟩ := (stringToObject_returns env jsonBuf text).mpr ⟨x, t, ht⟩
    obtain ⟨v, hv⟩ := stringToObject_complete (stringToObject_sound env h hu)
    rw [ht] at hv
    cases hv
    exact ⟨u, hu⟩
  · exact stringToObject_throws env fun x t ht => hno x (stringToObject_sound env h ht)

/-- The empty string, read with something in the buffer. -/
theorem emptyLiteral_reads (env : ReadEnv) (jsonBuf : List Char) :
    ∃ t, stringToObject env jsonBuf ['"', '"'] = .ok (some (.string jsonBuf)) t := by
  have hruns : Runs (toObject env) ['"', '"'] jsonBuf [] [] (some (.string jsonBuf)) := by
    have hread : Runs (read env) ['"', '"'] jsonBuf [] [] (some (.string jsonBuf)) := by
      refine (nextNonWs_runs allWs_nil (by decide) ['"']).bind ?_
      refine (unreadChar_runs ['"', '"']).bind ?_
      have hrd : Runs (fun s => rd env (2 * s.rest.length + 2) s) ['"', '"'] jsonBuf [] [] (.string jsonBuf) := by
        intro s hs hb
        show ∃ t, rd env (2 * s.rest.length + 1 + 1) s = _ ∧ _
        rw [rd]
        refine (nextNonWs_runs allWs_nil (by decide) ['"']).bind ?_ s hs hb
        iterate 3 refine Runs.ite_false (by decide) ?_
        have hstring := readString_runs [] [] jsonBuf
        rw [List.append_nil] at hstring
        exact Runs.ite_true rfl (hstring.bind (Runs.pure _ _ _))
      exact hrd.bind (Runs.pure _ _ _)
    exact hread.bind ((nextNonWs_end allWs_nil).bind (Runs.pure _ _ _))
  obtain ⟨t, ht, -, -⟩ := hruns (openStringInputPort ['"', '"'] jsonBuf) rfl rfl
  exact ⟨t, ht⟩

theorem not_conforms {env : ReadEnv} {jsonBuf : List Char} (h : jsonBuf ≠ []) : ¬ Conforms env jsonBuf ['"', '"'] := by
  intro hc
  obtain ⟨t, ht⟩ := emptyLiteral_reads env jsonBuf
  have hempty : Text env ['"', '"'] (some (.string [])) :=
    .value ⟨[], ['"', '"'], [], .string []⟩ ⟨allWs_nil, allWs_nil⟩ (.string [] [] .nil)
  obtain ⟨u, hu⟩ := (hc.returns _).mpr hempty
  rw [ht] at hu
  cases hu
  exact h rfl

/-- In a process with any reads behind it, json:string->object takes the texts of the grammar and no others. It
returns what they denote, whatever the text, exactly when no read was cut off in a string literal with the buffer not
cleared since; and for texts without a quotation mark in any case. -/
theorem reader_conforms_iff (env : ReadEnv) (history : List Event) :
    ((∀ text, Conforms env (bufferAfter history) text) ↔ ¬ Leftover history) ∧
    (∀ text, '"' ∉ text → Conforms env (bufferAfter history) text) ∧
    (∀ text, (∃ x t, stringToObject env (bufferAfter history) text = .ok x t) ↔ ∃ x, Text env text x) ∧
    (∀ name : List Char, ¬ (name[0]? = some '#' ∧ name[1]? = some '\x7b') → stringToKey env name = .symbol name) ∧
    (∀ ms key, hashtableRef key (bindings env ms) = lastValue env key ms) ∧
    ∀ n : Numeral, n.datum.exact = some n.exact ∧ (n.frac = none → n.exp = none → ∃ i, n.datum = .int i) := by
  refine ⟨?_, fun text h => conforms_of env (.inr h), fun text => ?_, fun name h => stringToKey_symbol env h,
    fun ms key => ref_bindings env key ms, fun n => ⟨n.exact_datum, fun h h' => Numeral.datum_int h h'⟩⟩
  · rw [← bufferAfter_ne_nil, not_not]
    refine ⟨fun h => ?_, fun h text => conforms_of env (.inl h)⟩
    by_contra hne
    exact not_conforms hne (h ['"', '"'])
  · rw [stringToObject_returns]
    constructor
    · intro h
      obtain ⟨x, t, ht⟩ := h
      exact ⟨x, stringToObject_sound env (.inl rfl) ht⟩
    · intro h
      obtain ⟨x, hx⟩ := h
      exact ⟨x, stringToObject_complete hx⟩

/-- The text "abc without its closing quote is read first. The empty string is then read as abc. -/
theorem empty_literal_after_cut_off :
    ¬ Conforms ⟨fun _ => none, id⟩
      (bufferAfter [.read ⟨fun _ => none, id⟩ (stringPort ['"', 'a', 'b', 'c'])]) ['"', '"'] := by
  rw [bufferAfter_cut_off]
  exact not_conforms (by simp)

end Swish.Json
