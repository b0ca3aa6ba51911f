import Swish.Json.Buffer
import Swish.Json.Grammar

/-!
What the reader has read when it returns is a word of the grammar, and what it
returns is what the word denotes.
-/

set_option autoImplicit false

namespace Swish.Json
open Lib

variable {α β : Type} {m : Read α} {f : α → Read β} {env : ReadEnv} {s t : RState}

/-- When m returns, it has read a word that L relates to its value, and json-buf is
what it was. -/
def Took (m : Read α) (L : List Char → α → Prop) : Prop :=
  ∀ s, Ends m s (fun a t => ∃ w, s.rest = w ++ t.rest ∧ t.jsonBuf = s.jsonBuf ∧ L w a) fun _ _ => True

namespace Took

variable {L L' : List Char → α → Prop} {M : α → List Char → β → Prop}

theorem bind (h : Took m L) (hf : ∀ a, Took (f a) (M a)) :
    Took (m >>= f) fun w b => ∃ u v a, w = u ++ v ∧ L u a ∧ M a v b := by
  intro s
  refine Ends.bind ((h s).imp (fun a t ht => ?_) fun _ _ _ => trivial)
  obtain ⟨u, hu, hbuf, hL⟩ := ht
  refine (hf a t).imp (fun b r hr => ?_) fun _ _ _ => trivial
  obtain ⟨v, hv, hbuf', hM⟩ := hr
  exact ⟨u ++ v, by rw [hu, hv, List.append_assoc], hbuf'.trans hbuf, u, v, a, rfl, hL, hM⟩

theorem imp (h : Took m L) (hL : ∀ w a, L w a → L' w a) : Took m L' := by
  intro s
  refine (h s).imp (fun a t ht => ?_) fun _ _ _ => trivial
  obtain ⟨w, hw, hbuf, hLw⟩ := ht
  exact ⟨w, hw, hbuf, hL w a hLw⟩

theorem pure (a : α) : Took (pure a) fun w b => w = [] ∧ b = a :=
  fun _ => Ends.pure ⟨[], rfl, rfl, rfl, rfl⟩

/-- The part after m. -/
theorem andThen (h : Took m L) {R : β → RState → Prop}
    (hf : ∀ a w t, s.rest = w ++ t.rest → t.jsonBuf = s.jsonBuf → L w a → Ends (f a) t R fun _ _ => True) :
    Ends (m >>= f) s R fun _ _ => True := by
  refine Ends.bind ((h s).imp (fun a t ht => ?_) fun _ _ _ => trivial)
  obtain ⟨w, hw, hbuf, hL⟩ := ht
  exact hf a w t hw hbuf hL

end Took

theorem unexpectedInput_throws {Q : α → RState → Prop} (c : Option Char) (s : RState) :
    Ends (unexpectedInput c) s Q fun _ _ => True :=
  (unexpectedInput_ends c s).imp (fun _ _ h => h) fun _ _ _ => trivial

theorem nextChar_took : Took nextChar fun w c => w = [c] := by
  intro s
  obtain ⟨rest, pos, hp, buf, taken⟩ := s
  cases rest with
  | nil => exact trivial
  | cons c rest => exact ⟨[c], rfl, rfl, rfl⟩

theorem expectChar_took (c : Char) : Took (expectChar c) fun w _ => w = [c] := by
  intro s
  refine nextChar_took.andThen fun d w t hw hbuf hd => ?_
  refine Ends.ite (fun hc => Ends.pure ⟨w, hw, hbuf, ?_⟩) fun _ => unexpectedInput_throws _ t
  rw [hd, hc]

theorem skipWs_split (rest : List Char) (pos : Int) :
    ∃ ws, AllWs ws ∧ rest = ws ++ ((skipWs rest pos).1.toList ++ (skipWs rest pos).2.1) ∧
      ((skipWs rest pos).1 = none → (skipWs rest pos).2.1 = []) := by
  induction rest generalizing pos with
  | nil => exact ⟨[], allWs_nil, rfl, fun _ => rfl⟩
  | cons c rest ih =>
    rw [skipWs]
    by_cases hc : isWs c = true
    · rw [if_pos hc]
      obtain ⟨ws, hws, h, hend⟩ := ih (pos + 1)
      refine ⟨c :: ws, fun x hx => ?_, by rw [List.cons_append, ← h], hend⟩
      rcases List.mem_cons.mp hx with rfl | hx
      · exact hc
      · exact hws x hx
    · rw [if_neg hc]
      exact ⟨[], allWs_nil, rfl, fun h => by cases h⟩

theorem nextNonWs_took :
    Took nextNonWs fun w c => ∃ ws : List Char, AllWs ws ∧ w = ws ++ c.toList := by
  intro s
  obtain ⟨ws, hws, h, -⟩ := skipWs_split s.rest s.pos
  refine ⟨ws ++ (skipWs s.rest s.pos).1.toList, ?_, rfl, ws, hws, rfl⟩
  rw [List.append_assoc]
  exact h

/-- The eof object comes at the end. -/
theorem seekNonWs_sound (s : RState) : Ends seekNonWs s
    (fun c t => ∃ ws, AllWs ws ∧ s.rest = ws ++ (c.toList ++ t.rest) ∧ t.jsonBuf = s.jsonBuf ∧ (c = none → t.rest = []))
    fun _ _ => True := by
  obtain ⟨ws, hws, h, hend⟩ := skipWs_split s.rest s.pos
  exact ⟨ws, hws, h, rfl, hend⟩

/-- What is put back is read again. -/
theorem unreadChar_then {R : β → RState → Prop} {c : Option Char} {f : Unit → Read β}
    (hf : ∀ u : RState, u.rest = c.toList ++ s.rest → u.jsonBuf = s.jsonBuf → Ends (f ()) u R fun _ _ => True) :
    Ends (unreadChar c >>= f) s R fun _ _ => True := by
  cases c with
  | none => exact Ends.bind (hf s rfl rfl)
  | some c => exact Ends.bind (hf { s with rest := c :: s.rest, pos := s.pos - 1 } rfl rfl)

theorem takeDigits_split (rest : List Char) (mantissa n : Nat) (pos : Int) :
    ∃ ds, (∀ c ∈ ds, isDigit c = true) ∧
      rest = ds ++ ((takeDigits rest mantissa n pos).2.2.1.toList ++ (takeDigits rest mantissa n pos).2.2.2.1) ∧
      (takeDigits rest mantissa n pos).1 = ds.foldl (fun a c => a * 10 + digitValue c) mantissa ∧
      (takeDigits rest mantissa n pos).2.1 = n + ds.length := by
  induction rest generalizing mantissa n pos with
  | nil => exact ⟨[], by simp, rfl, rfl, rfl⟩
  | cons c rest ih =>
    rw [takeDigits]
    by_cases hc : isDigit c = true
    · rw [if_pos hc]
      obtain ⟨ds, hds, h1, h2, h3⟩ := ih (mantissa * 10 + digitValue c) (n + 1) (pos + 1)
      refine ⟨c :: ds, fun x hx => ?_, by rw [List.cons_append, ← h1], h2, ?_⟩
      · rcases List.mem_cons.mp hx with rfl | hx
        · exact hc
        · exact hds x hx
      · rw [h3, List.length_cons]
        omega
    · rw [if_neg hc]
      exact ⟨[], by simp, rfl, rfl, rfl⟩

/-- The digits, and the character behind them. -/
def DigitRun (mantissa : Nat) (w : List Char) (p : Nat × Nat × Option Char) : Prop :=
  ∃ ds, w = ds ++ p.2.2.toList ∧ (∀ c ∈ ds, isDigit c = true) ∧
    p.1 = ds.foldl (fun a c => a * 10 + digitValue c) mantissa ∧ p.2.1 = ds.length

theorem readDigits_took (mantissa : Nat) : Took (readDigits mantissa 0) (DigitRun mantissa) := by
  intro s
  obtain ⟨ds, hds, h1, h2, h3⟩ := takeDigits_split s.rest mantissa 0 s.pos
  refine ⟨ds ++ (takeDigits s.rest mantissa 0 s.pos).2.2.1.toList, ?_, rfl, ds, rfl, hds, h2, ?_⟩
  · rw [List.append_assoc]
    exact h1
  · rw [Nat.zero_add] at h3
    exact h3

theorem readInt_took : Took readInt fun w n => Digits w ∧ n = decimal w := by
  intro s
  refine (readDigits_took 0).andThen fun p w t hw hbuf hp => ?_
  obtain ⟨int, n, c⟩ := p
  obtain ⟨ds, rfl, hds, hint, hn⟩ := hp
  refine Ends.ite (fun _ => unexpectedInput_throws _ t) fun h0 => unreadChar_then fun u hu hbuf' => ?_
  refine Ends.pure ⟨ds, ?_, hbuf'.trans hbuf, ⟨fun h => ?_, hds⟩, hint⟩
  · rw [hw, hu, List.append_assoc]
  · rw [h] at hn
    exact h0 hn

/-- What comes after the marker of an exponent. -/
def ExponentTail (w : List Char) (x : Int) : Prop :=
  ∃ e : Exponent, (e.sign = none ∨ e.sign = some '+' ∨ e.sign = some '-') ∧ Digits e.digits ∧
    w = e.sign.toList ++ e.digits ∧ x = e.value

theorem readExp_took (mantissa m : Nat) :
    Took (readExp mantissa m) fun w d => ∃ x, ExponentTail w x ∧ d = scale mantissa (x - m) := by
  intro s
  refine nextChar_took.andThen fun c w t hw hbuf hc => ?_
  refine Ends.ite (fun h => ?_) fun h => Ends.ite (fun h' => ?_) fun h' => ?_
  · refine readInt_took.andThen fun n v u hv hbuf' hn => Ends.pure ⟨w ++ v, ?_, hbuf'.trans hbuf, n, ?_, rfl⟩
    · rw [hw, hv, List.append_assoc]
    · exact ⟨⟨'e', some '+', v⟩, .inr (.inl rfl), hn.1, by rw [hc, h]; rfl, by rw [hn.2]; rfl⟩
  · refine readInt_took.andThen fun n v u hv hbuf' hn => Ends.pure ⟨w ++ v, ?_, hbuf'.trans hbuf, -n, ?_, rfl⟩
    · rw [hw, hv, List.append_assoc]
    · exact ⟨⟨'e', some '-', v⟩, .inr (.inr rfl), hn.1, by rw [hc, h']; rfl, by rw [hn.2]; rfl⟩
  · refine unreadChar_then fun u hu hbuf' => ?_
    refine readInt_took.andThen fun n v r hv hbuf'' hn =>
      Ends.pure ⟨v, ?_, hbuf''.trans (hbuf'.trans hbuf), n, ?_, rfl⟩
    · rw [hw, hc, ← hv, hu]
      rfl
    · exact ⟨⟨'e', none, v⟩, .inl rfl, hn.1, rfl, by rw [hn.2]; rfl⟩

/-- A numeral without its sign. -/
def Unsigned (w : List Char) (d : Datum) : Prop := ∃ n : Numeral, n.Ok ∧ n.minus = false ∧ n.text = w ∧ n.datum = d

theorem ExponentTail.exponent {w : List Char} {x : Int} {c : Char} (h : ExponentTail w x) (hc : c = 'e' ∨ c = 'E') :
    ∃ e : Exponent, e.Ok ∧ e.text = c :: w ∧ e.value = x := by
  obtain ⟨e, hsign, hdigits, rfl, rfl⟩ := h
  exact ⟨{ e with marker := c }, ⟨hc, hsign, hdigits⟩, rfl, rfl⟩

theorem readUnsigned_took : Took readUnsigned Unsigned := by
  intro s
  refine (readDigits_took 0).andThen fun p w t hw hbuf hp => ?_
  obtain ⟨mantissa, n, c⟩ := p
  obtain ⟨ds, rfl, hds, hmantissa, hn⟩ := hp
  dsimp only at hw hmantissa hn ⊢
  refine Ends.ite (fun _ => unexpectedInput_throws _ t) fun h0 => ?_
  have hint : Digits ds := ⟨fun h => h0 (by rw [hn, h]; rfl), hds⟩
  refine Ends.ite (fun hdot => ?_) fun _ => Ends.ite (fun he => ?_) fun _ => ?_
  · subst hdot
    refine (readDigits_took mantissa).andThen fun p v u hv hbuf' hp => ?_
    obtain ⟨mantissa', k, c⟩ := p
    obtain ⟨fs, rfl, hfs, hmantissa', hk⟩ := hp
    dsimp only at hv hmantissa' hk ⊢
    refine Ends.ite (fun _ => unexpectedInput_throws _ u) fun h0' => ?_
    have hfrac : Digits fs := ⟨fun h => h0' (by rw [hk, h]; rfl), hfs⟩
    have hboth : mantissa' = decimal (ds ++ fs) := by
      rw [hmantissa', hmantissa, decimal, List.foldl_append]
    refine Ends.ite (fun he => ?_) fun _ => unreadChar_then fun r hr hbuf'' => ?_
    · obtain ⟨c, rfl, hc⟩ : ∃ d, c = some d ∧ (d = 'e' ∨ d = 'E') :=
        he.elim (fun h => ⟨'e', h, .inl rfl⟩) fun h => ⟨'E', h, .inr rfl⟩
      refine (readExp_took mantissa' k u).imp (fun d r hr => ?_) fun _ _ _ => trivial
      obtain ⟨x', hx', hbuf'', x, hx, rfl⟩ := hr
      obtain ⟨e, he, htext, hval⟩ := hx.exponent hc
      refine ⟨ds ++ '.' :: fs ++ e.text, ?_, hbuf''.trans (hbuf'.trans hbuf), ⟨false, ds, some fs, some e⟩, ?_, rfl, rfl, ?_⟩
      · rw [hw, hv, hx', htext]
        simp
      · exact ⟨hint, fun fs' h => (by cases h; exact hfrac), fun e' h => (by cases h; exact he)⟩
      · rw [hboth, hk, ← hval]
        rfl
    · refine Ends.pure ⟨ds ++ '.' :: fs, ?_, hbuf''.trans (hbuf'.trans hbuf), ⟨false, ds, some fs, none⟩, ?_, rfl, ?_, ?_⟩
      · rw [hw, hv, hr]
        simp
      · exact ⟨hint, fun fs' h => (by cases h; exact hfrac), fun e' h => (by cases h)⟩
      · simp [Numeral.text, Numeral.unsigned, Numeral.fracText, Numeral.expText]
      · rw [hboth, hk]
        simp [Numeral.datum, Numeral.places, Numeral.expValue, scale]
  · obtain ⟨c, rfl, hc⟩ : ∃ d, c = some d ∧ (d = 'e' ∨ d = 'E') :=
      he.elim (fun h => ⟨'e', h, .inl rfl⟩) fun h => ⟨'E', h, .inr rfl⟩
    refine (readExp_took mantissa 0 t).imp (fun d r hr => ?_) fun _ _ _ => trivial
    obtain ⟨x', hx', hbuf', x, hx, rfl⟩ := hr
    obtain ⟨e, he, htext, hval⟩ := hx.exponent hc
    refine ⟨ds ++ e.text, ?_, hbuf'.trans hbuf, ⟨false, ds, none, some e⟩, ?_, rfl, ?_, ?_⟩
    · rw [hw, hx', htext]
      simp
    · exact ⟨hint, fun fs' h => (by cases h), fun e' h => (by cases h; exact he)⟩
    · simp [Numeral.text, Numeral.unsigned, Numeral.fracText, Numeral.expText]
    · rw [hmantissa, ← hval]
      simp [Numeral.datum, Numeral.places, Numeral.expValue, scale, decimal]
  · refine unreadChar_then fun r hr hbuf' => ?_
    refine Ends.pure ⟨ds, ?_, hbuf'.trans hbuf, ⟨false, ds, none, none⟩, ?_, rfl, ?_, ?_⟩
    · rw [hw, hr, List.append_assoc]
    · exact ⟨hint, fun fs' h => (by cases h), fun e' h => (by cases h)⟩
    · simp [Numeral.text, Numeral.unsigned, Numeral.fracText, Numeral.expText]
    · rw [hmantissa]
      rfl

theorem Unsigned.number {w : List Char} {d : Datum} (h : Unsigned w d) : Value env w d := by
  obtain ⟨n, hn, -, rfl, rfl⟩ := h
  exact .number n hn

/-- The sign comes before the rest of a numeral, and negates what the rest denotes. -/
theorem Numeral.negated {n : Numeral} (h : n.minus = true) :
    n.text = '-' :: ({ n with minus := false } : Numeral).text ∧
      n.datum = negate ({ n with minus := false } : Numeral).datum := by
  obtain ⟨minus, int, frac, exp⟩ := n
  subst h
  refine ⟨rfl, ?_⟩
  unfold Numeral.datum
  dsimp only
  by_cases hint : (frac.isNone && exp.isNone) = true
  · rw [if_pos hint, if_pos hint]
    rfl
  · rw [if_neg hint, if_neg hint]
    rfl

theorem Unsigned.negated {w : List Char} {d : Datum} (h : Unsigned w d) : Value env ('-' :: w) (negate d) := by
  obtain ⟨n, hn, hminus, rfl, rfl⟩ := h
  have hback : ({ { n with minus := true } with minus := false } : Numeral) = n := by
    rw [← hminus]
  obtain ⟨htext, hdatum⟩ := @Numeral.negated { n with minus := true } rfl
  rw [hback] at htext hdatum
  rw [← htext, ← hdatum]
  exact .number _ ⟨hn.int, hn.frac, hn.exp⟩

theorem hexDigit_took : Took hexDigit fun w x => ∃ c, w = [c] ∧ Hex c x := by
  intro s
  refine nextChar_took.andThen fun c w t hw hbuf hc => ?_
  have hupper : 'A' ≤ c → c.toNat - ('A'.toNat - 10) = c.toNat - 'A'.toNat + 10 := by
    intro h
    have hle : 'A'.toNat ≤ c.toNat := h
    have hA : 'A'.toNat = 65 := rfl
    omega
  have hlower : 'a' ≤ c → c.toNat - ('a'.toNat - 10) = c.toNat - 'a'.toNat + 10 := by
    intro h
    have hle : 'a'.toNat ≤ c.toNat := h
    have ha : 'a'.toNat = 97 := rfl
    omega
  refine Ends.ite (fun h => Ends.pure ⟨w, hw, hbuf, c, hc, .digit c (by simpa [isDigit] using h)⟩) fun _ =>
    Ends.ite (fun h => Ends.pure ⟨w, hw, hbuf, c, hc, ?_⟩) fun _ =>
    Ends.ite (fun h => Ends.pure ⟨w, hw, hbuf, c, hc, ?_⟩) fun _ => unexpectedInput_throws _ t
  · rw [hupper h.1]
    exact .upper c h
  · rw [hlower h.1]
    exact .lower c h

theorem read4hexdig_took : Took read4hexdig Hex4 := by
  refine (hexDigit_took.bind fun w => hexDigit_took.bind fun x => hexDigit_took.bind fun y =>
    hexDigit_took.bind fun z => Took.pure _).imp fun u n h => ?_
  obtain ⟨_, _, w, rfl, ⟨a, rfl, ha⟩, _, _, x, rfl, ⟨b, rfl, hb⟩, _, _, y, rfl, ⟨c, rfl, hc⟩, _, _, z, rfl, ⟨d, rfl, hd⟩,
    rfl, rfl⟩ := h
  have hval : 16 * (16 * (16 * w + x) + y) + z = w * 4096 + x * 256 + y * 16 + z := by omega
  rw [hval]
  exact .mk a b c d w x y z ha hb hc hd

theorem readEscape_sound (s : RState) :
    Ends readEscape s (fun _ t => ∃ w c, s.rest = w ++ t.rest ∧ t.jsonBuf = s.jsonBuf ++ [c] ∧ Escape w c)
      fun _ _ => True := by
  refine nextChar_took.andThen fun c w t hw hbuf hc => ?_
  subst hc
  have hwrite : ∀ d, Escape [c] d → Ends (writeBuf d) t
      (fun _ u => ∃ w c, s.rest = w ++ u.rest ∧ u.jsonBuf = s.jsonBuf ++ [c] ∧ Escape w c) fun _ _ => True :=
    fun d hd => ⟨[c], d, hw, by rw [← hbuf], hd⟩
  have hshort : ∀ d, (c, d) ∈ shortEscapes → Escape [c] d := fun d hd => .short c d hd
  refine Ends.ite (fun h => hwrite c (hshort c ?_)) fun _ => Ends.ite (fun h => hwrite _ (hshort _ ?_)) fun _ =>
    Ends.ite (fun h => hwrite _ (hshort _ ?_)) fun _ => Ends.ite (fun h => hwrite _ (hshort _ ?_)) fun _ =>
    Ends.ite (fun h => hwrite _ (hshort _ ?_)) fun _ => Ends.ite (fun h => hwrite _ (hshort _ ?_)) fun _ =>
    Ends.ite (fun h => ?_) fun _ => unexpectedInput_throws _ t
  · obtain rfl | rfl | rfl := h <;> decide
  iterate 5
    subst h
    decide
  subst h
  refine read4hexdig_took.andThen fun x ds u hds hbuf' hx => ?_
  refine Ends.ite (fun hhigh => ?_) fun hhigh => Ends.ite (fun _ => Ends.throw trivial) fun hlow => ?_
  · refine (expectChar_took '\\').andThen fun _ w₁ v₁ hw₁ hbuf₁ hc₁ => ?_
    refine (expectChar_took 'u').andThen fun _ w₂ v₂ hw₂ hbuf₂ hc₂ => ?_
    refine read4hexdig_took.andThen fun y es v hes hbuf₃ hy => Ends.ite (fun hlow => ?_) fun _ => Ends.throw trivial
    refine ⟨'u' :: (ds ++ '\\' :: 'u' :: es), Char.ofNat (x % 0x400 * 1024 + y % 0x400 + 0x10000), ?_, ?_, ?_⟩
    · rw [hw, hds, hw₁, hw₂, hes, hc₁, hc₂]
      simp
    · show v.jsonBuf ++ _ = _
      rw [hbuf₃, hbuf₂, hbuf₁, hbuf', hbuf]
    · have hval : x % 0x400 * 1024 + y % 0x400 + 0x10000 = 0x10000 + (x - 0xD800) * 0x400 + (y - 0xDC00) := by
        omega
      rw [hval]
      exact .pair ds es x y hx hy hhigh hlow
  · refine ⟨'u' :: ds, Char.ofNat x, ?_, ?_, .unicode ds x hx (by omega)⟩
    · rw [hw, hds]
      simp
    · show u.jsonBuf ++ _ = _
      rw [hbuf', hbuf]

/-- The closing quotation mark takes the characters out of json-buf, with whatever was there before. -/
theorem readStringFuel_sound (n : Nat) (s : RState) : Ends (readStringFuel n) s
    (fun a t => ∃ w str, s.rest = w ++ '"' :: t.rest ∧ Chars w str ∧ a = s.jsonBuf ++ str ∧ t.jsonBuf = [])
    fun _ _ => True := by
  induction n generalizing s with
  | zero => exact Ends.throw trivial
  | succ n ih =>
    refine nextChar_took.andThen fun c w t hw hbuf hc => ?_
    subst hc
    refine Ends.ite (fun hq => ?_) fun hq => Ends.ite (fun hb => Ends.bind ?_) fun hb => Ends.bind ?_
    · subst hq
      exact ⟨[], [], hw, .nil, by rw [List.append_nil, hbuf], rfl⟩
    · subst hb
      refine (readEscape_sound t).imp (fun _ u hu => ?_) fun _ _ _ => trivial
      obtain ⟨e, c, hrest, hbuf', he⟩ := hu
      refine (ih u).imp (fun a v hv => ?_) fun _ _ _ => trivial
      obtain ⟨v', str, hrest', hstr, ha, hempty⟩ := hv
      refine ⟨'\\' :: (e ++ v'), c :: str, ?_, .escape e v' c str he hstr, ?_, hempty⟩
      · rw [hw, hrest, hrest']
        simp
      · rw [ha, hbuf', hbuf]
        simp
    · refine (ih { t with jsonBuf := t.jsonBuf ++ [c] }).imp (fun a v hv => ?_) fun _ _ _ => trivial
      obtain ⟨v', str, hrest', hstr, ha, hempty⟩ := hv
      refine ⟨c :: v', c :: str, ?_, .raw c v' str hq hb hstr, ?_, hempty⟩
      · rw [hw, show t.rest = _ from hrest']
        simp
      · rw [ha]
        simp [hbuf]

theorem readString_sound (s : RState) : Ends readString s
    (fun a t => ∃ w str, s.rest = w ++ '"' :: t.rest ∧ Chars w str ∧ a = s.jsonBuf ++ str ∧ t.jsonBuf = [])
    fun _ _ => True := readStringFuel_sound (s.rest.length + 1) s

/-- Whatever is in json-buf gets into no string. -/
def Clean (s : RState) : Prop := s.jsonBuf = [] ∨ '"' ∉ s.rest

theorem Clean.after {w : List Char} (h : Clean s) (hw : s.rest = w ++ t.rest) (hbuf : t.jsonBuf = s.jsonBuf) :
    Clean t := by
  rcases h with h | h
  · exact .inl (hbuf.trans h)
  · refine .inr fun hq => h ?_
    rw [hw]
    exact List.mem_append_right w hq

theorem Clean.quoted {w : List Char} (h : Clean s) (hw : s.rest = w ++ '"' :: t.rest) : s.jsonBuf = [] := by
  refine h.resolve_right fun hq => hq ?_
  rw [hw]
  simp

/-- A value with white space before it has been read. -/
def ReadValue (env : ReadEnv) (s : RState) (x : Datum) (t : RState) : Prop :=
  Clean t ∧ ∃ ws w, AllWs ws ∧ s.rest = ws ++ (w ++ t.rest) ∧ Value env w x

/-- The elements of a list that are still missing have been read. -/
def ReadElements (env : ReadEnv) (acc : List Datum) (s : RState) (x : Datum) (t : RState) : Prop :=
  Clean t ∧ ((acc = [] ∧ x = .nil ∧ ∃ ws, AllWs ws ∧ s.rest = ws ++ ']' :: t.rest) ∨
    ∃ ps : List Padded, ps ≠ [] ∧ (∀ p ∈ ps, p.WsOk ∧ Value env p.word p.value) ∧
      s.rest = commas (ps.map Padded.text) ++ ']' :: t.rest ∧ x = Datum.ofList (acc.reverse ++ ps.map Padded.value))

/-- The members of an object that are still missing have been read. -/
def ReadMembers (env : ReadEnv) (cells : List (Key × Datum)) (s : RState) (xs : List (Key × Datum)) (t : RState) : Prop :=
  Clean t ∧ ((cells = [] ∧ xs = [] ∧ ∃ ws, AllWs ws ∧ s.rest = ws ++ '\x7d' :: t.rest) ∨
    ∃ ms : List Member, ms ≠ [] ∧ (∀ m ∈ ms, m.Ok ∧ Value env m.val.word m.val.value) ∧
      s.rest = commas (ms.map Member.text) ++ '\x7d' :: t.rest ∧ xs = ms.foldl (addMember env) cells)

/-- The white space behind a value, and the character behind that. -/
theorem ReadValue.padded {x : Datum} {u : RState} {ws : List Char} {c : Option Char} (h : ReadValue env s x t)
    (hws : AllWs ws) (hrest : t.rest = ws ++ c.toList ++ u.rest) :
    ∃ p : Padded, p.WsOk ∧ Value env p.word p.value ∧ p.value = x ∧ s.rest = p.text ++ (c.toList ++ u.rest) := by
  obtain ⟨-, before, w, hbefore, hs, hv⟩ := h
  refine ⟨⟨before, w, ws, x⟩, ⟨hbefore, hws⟩, hv, rfl, ?_⟩
  rw [hs, hrest]
  simp [Padded.text]

theorem Padded.WsOk.prepend {p : Padded} (h : p.WsOk) {ws : List Char} (hws : AllWs ws) :
    ({ p with before := ws ++ p.before } : Padded).WsOk := by
  refine ⟨fun c hc => ?_, h.after⟩
  rcases List.mem_append.mp hc with hc | hc
  · exact hws c hc
  · exact h.before c hc

theorem commas_cons (w : List Char) {ws : List (List Char)} (h : ws ≠ []) : commas (w :: ws) = w ++ ',' :: commas ws := by
  cases ws with
  | nil => exact absurd rfl h
  | cons v vs => rfl

theorem rd_sound (env : ReadEnv) (n : Nat) :
    (∀ s, Clean s → Ends (rd env n) s (ReadValue env s) fun _ _ => True) ∧
    (∀ s acc, Clean s → Ends (rdList env n acc) s (ReadElements env acc s) fun _ _ => True) ∧
    (∀ s cells, Clean s → Ends (rdObject env n cells) s (ReadMembers env cells s) fun _ _ => True) := by
  induction n with
  | zero => exact ⟨fun _ _ => Ends.throw trivial, fun _ _ _ => Ends.throw trivial, fun _ _ _ => Ends.throw trivial⟩
  | succ n ih =>
    obtain ⟨ih₁, ih₂, ih₃⟩ := ih
    refine ⟨fun s hs => ?_, fun s acc hs => ?_, fun s cells hs => ?_⟩
    · rw [rd]
      refine nextNonWs_took.andThen fun c w t hw hbuf hc => ?_
      obtain ⟨ws, hws, rfl⟩ := hc
      have ht := hs.after hw hbuf
      have hdone : ∀ (m : Read Datum) (L : List Char → Datum → Prop), Took m L →
          (∀ v x, L v x → Value env (c.toList ++ v) x) → Ends m t (ReadValue env s) fun _ _ => True := by
        intro m L hm hL
        refine (hm t).imp (fun x u hu => ?_) fun _ _ _ => trivial
        obtain ⟨v, hv, hbuf', hx⟩ := hu
        refine ⟨ht.after hv hbuf', ws, c.toList ++ v, hws, ?_, hL v x hx⟩
        rw [hw, hv]
        simp
      refine Ends.ite (fun h => hdone _ _ ((expectChar_took 'r').bind fun _ => (expectChar_took 'u').bind fun _ =>
        (expectChar_took 'e').bind fun _ => Took.pure _) ?_) fun _ => ?_
      · intro v x hv
        obtain ⟨_, _, -, rfl, rfl, _, _, -, rfl, rfl, _, _, -, rfl, rfl, rfl, rfl⟩ := hv
        rw [h]
        exact .litTrue
      refine Ends.ite (fun h => hdone _ _ ((expectChar_took 'a').bind fun _ => (expectChar_took 'l').bind fun _ =>
        (expectChar_took 's').bind fun _ => (expectChar_took 'e').bind fun _ => Took.pure _) ?_) fun _ => ?_
      · intro v x hv
        obtain ⟨_, _, -, rfl, rfl, _, _, -, rfl, rfl, _, _, -, rfl, rfl, _, _, -, rfl, rfl, rfl, rfl⟩ := hv
        rw [h]
        exact .litFalse
      refine Ends.ite (fun h => hdone _ _ ((expectChar_took 'u').bind fun _ => (expectChar_took 'l').bind fun _ =>
        (expectChar_took 'l').bind fun _ => Took.pure _) ?_) fun _ => ?_
      · intro v x hv
        obtain ⟨_, _, -, rfl, rfl, _, _, -, rfl, rfl, _, _, -, rfl, rfl, rfl, rfl⟩ := hv
        rw [h]
        exact .litNull
      refine Ends.ite (fun h => ?_) fun _ => Ends.ite (fun h => ?_) fun _ => Ends.ite (fun h => ?_) fun _ => ?_
      · -- a string
        subst h
        refine Ends.bind ((readString_sound t).imp (fun a u hu => ?_) fun _ _ _ => trivial)
        obtain ⟨v, str, hv, hstr, ha, hempty⟩ := hu
        have hnil : s.jsonBuf = [] := hs.quoted (t := t) (w := ws) (by rw [hw]; simp)
        refine Ends.pure ⟨.inl hempty, ws, '"' :: (v ++ ['"']), hws, ?_, ?_⟩
        · rw [hw, hv]
          simp
        · rw [ha, hbuf, hnil]
          exact .string v str hstr
      · subst h
        refine (ih₂ t [] ht).imp (fun x u hu => ?_) fun _ _ _ => trivial
        obtain ⟨hclean, h | h⟩ := hu
        · obtain ⟨-, rfl, ws', hws', hrest⟩ := h
          refine ⟨hclean, ws, '[' :: (ws' ++ [']']), hws, ?_, .emptyArray ws' hws'⟩
          rw [hw, hrest]
          simp
        · obtain ⟨ps, hne, hps, hrest, rfl⟩ := h
          refine ⟨hclean, ws, '[' :: (commas (ps.map Padded.text) ++ [']']), hws, ?_,
            .array ps hne (fun p hp => (hps p hp).1) fun p hp => (hps p hp).2⟩
          rw [hw, hrest]
          simp
      · subst h
        refine Ends.bind ((ih₃ t [] ht).imp (fun x u hu => Ends.pure ?_) fun _ _ _ => trivial)
        obtain ⟨hclean, h | h⟩ := hu
        · obtain ⟨-, rfl, ws', hws', hrest⟩ := h
          refine ⟨hclean, ws, '\x7b' :: (ws' ++ ['\x7d']), hws, ?_, .emptyObject ws' hws'⟩
          rw [hw, hrest]
          simp
        · obtain ⟨ms, hne, hms, hrest, rfl⟩ := h
          refine ⟨hclean, ws, '\x7b' :: (commas (ms.map Member.text) ++ ['\x7d']), hws, ?_,
            .object ms hne (fun m hm => (hms m hm).1) fun m hm => (hms m hm).2⟩
          rw [hw, hrest]
          simp
      refine Ends.ite (fun h => hdone _ _ (readUnsigned_took.bind fun _ => Took.pure _) ?_) fun _ => ?_
      · intro v x hv
        obtain ⟨u, _, d, rfl, hd, rfl, rfl⟩ := hv
        rw [h, List.append_nil]
        exact hd.negated
      · refine unreadChar_then fun u hu hbuf' => (readUnsigned_took u).imp (fun x v hv => ?_) fun _ _ _ => trivial
        obtain ⟨w, hrest, hbuf'', hx⟩ := hv
        have hsu : s.rest = ws ++ u.rest := by
          rw [hw, hu, List.append_assoc]
        refine ⟨hs.after (w := ws ++ w) ?_ (hbuf''.trans (hbuf'.trans hbuf)), ws, w, hws, ?_, hx.number⟩
        · rw [hsu, hrest, List.append_assoc]
        · rw [hsu, hrest]
    · rw [rdList]
      refine nextNonWs_took.andThen fun c w t hw hbuf hc => ?_
      obtain ⟨ws, hws, rfl⟩ := hc
      refine Ends.ite (fun h => ?_) fun _ => unreadChar_then fun u hu hbuf' => ?_
      · obtain ⟨rfl, hacc⟩ := h
        refine Ends.pure ⟨hs.after hw hbuf, .inl ⟨List.isEmpty_iff.mp hacc, rfl, ws, hws, ?_⟩⟩
        rw [hw]
        simp
      · have hsu : s.rest = ws ++ u.rest := by
          rw [hw, hu, List.append_assoc]
        refine Ends.bind ((ih₁ u (hs.after hsu (hbuf'.trans hbuf))).imp (fun x v hv => ?_) fun _ _ _ => trivial)
        refine nextNonWs_took.andThen fun c' w' r hr hbuf'' hc' => ?_
        obtain ⟨ws', hws', rfl⟩ := hc'
        obtain ⟨p, hp, hval, rfl, hrest⟩ := hv.padded hws' hr
        have hclean := hv.1.after hr hbuf''
        have htext : s.rest = ({ p with before := ws ++ p.before } : Padded).text ++ (c'.toList ++ r.rest) := by
          rw [hsu, hrest]
          simp [Padded.text]
        refine Ends.ite (fun h => ?_) fun _ => Ends.ite (fun h => ?_) fun _ => unexpectedInput_throws _ r
        · subst h
          refine (ih₂ r (p.value :: acc) hclean).imp (fun y z hz => ?_) fun _ _ _ => trivial
          obtain ⟨hclean', h | h⟩ := hz
          · exact absurd h.1 (by simp)
          · obtain ⟨ps, hne, hps, hrest', rfl⟩ := h
            refine ⟨hclean', .inr ⟨{ p with before := ws ++ p.before } :: ps, by simp, ?_, ?_, ?_⟩⟩
            · intro q hq
              rcases List.mem_cons.mp hq with rfl | hq
              · exact ⟨hp.prepend hws, hval⟩
              · exact hps q hq
            · rw [htext, hrest', List.map_cons, commas_cons _ (by simpa using hne)]
              simp
            · simp
        · subst h
          refine Ends.pure ⟨hclean, .inr ⟨[{ p with before := ws ++ p.before }], by simp, ?_, htext, by simp⟩⟩
          intro q hq
          rw [List.mem_singleton.mp hq]
          exact ⟨hp.prepend hws, hval⟩
    · rw [rdObject]
      refine nextNonWs_took.andThen fun c w t hw hbuf hc => ?_
      obtain ⟨ws, hws, rfl⟩ := hc
      refine Ends.ite (fun h => ?_) fun _ => Ends.ite (fun h => ?_) fun _ => unexpectedInput_throws _ t
      · subst h
        have hnil : s.jsonBuf = [] := hs.quoted (t := t) (w := ws) (by rw [hw]; simp)
        refine Ends.bind ((readString_sound t).imp (fun name u hu => ?_) fun _ _ _ => trivial)
        obtain ⟨lit, str, hlit, hstr, hname, hempty⟩ := hu
        rw [hbuf, hnil, List.nil_append] at hname
        subst hname
        refine nextNonWs_took.andThen fun c w v hv hbuf' hc => ?_
        obtain ⟨ws₁, hws₁, rfl⟩ := hc
        refine Ends.ite (fun h => ?_) fun _ => unexpectedInput_throws _ v
        subst h
        refine Ends.bind ((ih₁ v (.inl (hbuf'.trans hempty))).imp (fun x y hy => ?_) fun _ _ _ => trivial)
        refine nextNonWs_took.andThen fun c' w' r hr hbuf'' hc' => ?_
        obtain ⟨ws', hws', rfl⟩ := hc'
        obtain ⟨p, hp, hval, rfl, hrest⟩ := hy.padded hws' hr
        have hclean := hy.1.after hr hbuf''
        have hok : Member.Ok ⟨ws, lit, name, ws₁, p⟩ := ⟨hws, hstr, hws₁, hp⟩
        have htext : s.rest = (⟨ws, lit, name, ws₁, p⟩ : Member).text ++ (c'.toList ++ r.rest) := by
          rw [hw, hlit, hv, hrest]
          simp [Member.text]
        refine Ends.ite (fun h => ?_) fun _ => Ends.ite (fun h => ?_) fun _ => unexpectedInput_throws _ r
        · subst h
          refine (ih₃ r _ hclean).imp (fun xs z hz => ?_) fun _ _ _ => trivial
          obtain ⟨hclean', h | h⟩ := hz
          · have hne := hashtableSet_isEmpty (stringToKey env name) p.value cells
            rw [h.1] at hne
            cases hne
          · obtain ⟨ms, hne, hms, hrest', rfl⟩ := h
            refine ⟨hclean', .inr ⟨⟨ws, lit, name, ws₁, p⟩ :: ms, by simp, ?_, ?_, rfl⟩⟩
            · intro m hm
              rcases List.mem_cons.mp hm with rfl | hm
              · exact ⟨hok, hval⟩
              · exact hms m hm
            · rw [htext, hrest', List.map_cons, commas_cons _ (by simpa using hne)]
              simp
        · subst h
          refine Ends.pure ⟨hclean, .inr ⟨[⟨ws, lit, name, ws₁, p⟩], by simp, ?_, htext, rfl⟩⟩
          intro m hm
          rw [List.mem_singleton.mp hm]
          exact ⟨hok, hval⟩
      · obtain ⟨rfl, hempty⟩ := h
        have hcells := List.isEmpty_iff.mp hempty
        refine Ends.pure ⟨hs.after hw hbuf, .inl ⟨hcells, hcells, ws, hws, ?_⟩⟩
        rw [hw]
        simp

/-- json:read leaves the white space behind the value. -/
theorem read_sound (env : ReadEnv) (hs : Clean s) : Ends (read env) s
    (fun x t => (x = none ∧ AllWs s.rest ∧ t.rest = []) ∨ ∃ y, x = some y ∧ ReadValue env s y t) fun _ _ => True := by
  refine Ends.bind ((seekNonWs_sound s).imp (fun c t ht => ?_) fun _ _ _ => trivial)
  obtain ⟨ws, hws, hrest, hbuf, hend⟩ := ht
  cases c with
  | none =>
    refine Ends.pure (.inl ⟨rfl, ?_, hend rfl⟩)
    rw [hrest, hend rfl]
    simpa using hws
  | some c =>
    refine unreadChar_then fun u hu hbuf' => ?_
    have hsu : s.rest = ws ++ u.rest := by rw [hrest, hu]
    have hrd : Ends (fun s => rd env (2 * s.rest.length + 2) s) u (ReadValue env u) fun _ _ => True :=
      Ends.of_eq rfl ((rd_sound env (2 * u.rest.length + 2)).1 u (hs.after hsu (hbuf'.trans hbuf)))
    refine Ends.bind (hrd.imp (fun y v hv => Ends.pure (.inr ⟨y, rfl, hv.1, ?_⟩)) fun _ _ _ => trivial)
    obtain ⟨-, ws', w, hws', hw, hval⟩ := hv
    refine ⟨ws ++ ws', w, fun c hc => ?_, by rw [hsu, hw, List.append_assoc], hval⟩
    rcases List.mem_append.mp hc with hc | hc
    · exact hws c hc
    · exact hws' c hc

/-- json:string->object returns only on the texts of the grammar, and only what they denote. -/
theorem stringToObject_sound (env : ReadEnv) {jsonBuf text : List Char} (h : jsonBuf = [] ∨ '"' ∉ text) {x : Option Datum}
    (hx : stringToObject env jsonBuf text = .ok x t) : Text env text x := by
  have hends : Ends (toObject env) (openStringInputPort text jsonBuf) (fun x _ => Text env text x) fun _ _ => True := by
    refine Ends.bind ((read_sound env (s := openStringInputPort text jsonBuf) h).imp (fun x t ht => ?_) fun _ _ _ => trivial)
    refine Ends.bind ((seekNonWs_sound t).imp (fun c u hu => ?_) fun _ _ _ => trivial)
    obtain ⟨ws, hws, hrest, -, hend⟩ := hu
    cases c with
    | some c => exact unexpectedInput_throws _ u
    | none =>
      rcases ht with ⟨rfl, hall, -⟩ | ⟨y, rfl, -, before, w, hbefore, hw, hval⟩
      · exact Ends.pure (.empty text hall)
      · have htext : text = (⟨before, w, ws, y⟩ : Padded).text := by
          rw [hrest, hend rfl] at hw
          rw [show text = _ from hw]
          simp [Padded.text]
        rw [htext]
        exact Ends.pure (.value ⟨before, w, ws, y⟩ ⟨hbefore, hws⟩ hval)
  unfold stringToObject at hx
  unfold Ends at hends
  rw [hx] at hends
  exact hends

end Swish.Json
