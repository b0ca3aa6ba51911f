import Mathlib.Data.Nat.Digits.Lemmas
import Swish.Json.Writer

/-!
The text of numbers and strings, and how the reader takes it back. A part of the
reader is described by the text and the contents of json-buf before and after it.
-/

set_option autoImplicit false

namespace Swish.Json

variable {α β : Type} {env : WriteEnv} {renv : ReadEnv}

theorem Read.bind_ok {m : Read α} {f : α → Read β} {s t : RState} {a : α} (h : m s = .ok a t) :
    (m >>= f) s = f a t := by
  show EStateM.bind m f s = f a t
  unfold EStateM.bind
  rw [h]

theorem Read.bind_error {m : Read α} {f : α → Read β} {s t : RState} {e : ReadError}
    (h : m s = .error e t) : (m >>= f) s = .error e t := by
  show EStateM.bind m f s = .error e t
  unfold EStateM.bind
  rw [h]

/-- A part of the reader goes from one rest of the text and contents of the
buffer to another and returns a. -/
def Runs (m : Read α) (x b y b' : List Char) (a : α) : Prop :=
  ∀ s : RState, s.rest = x → s.jsonBuf = b → ∃ t, m s = .ok a t ∧ t.rest = y ∧ t.jsonBuf = b'

/-- The buffer is empty at both ends. -/
abbrev Reads (m : Read α) (x y : List Char) (a : α) : Prop := Runs m x [] y [] a

namespace Runs

variable {m m' : Read α} {f : α → Read β} {x y z b₁ b₂ b₃ : List Char} {a : α} {b : β}

theorem bind (h : Runs m x b₁ y b₂ a) (h' : Runs (f a) y b₂ z b₃ b) : Runs (m >>= f) x b₁ z b₃ b := by
  intro s hs hb
  obtain ⟨t, h1, h2, h3⟩ := h s hs hb
  rw [Read.bind_ok h1]
  exact h' t h2 h3

theorem pure (a : α) (x b : List Char) : Runs (pure a) x b x b a := fun s hs hb => ⟨s, rfl, hs, hb⟩

theorem ite_true {c : Prop} [Decidable c] (hc : c) (h : Runs m x b₁ y b₂ a) :
    Runs (if c then m else m') x b₁ y b₂ a := by
  rw [if_pos hc]
  exact h

theorem ite_false {c : Prop} [Decidable c] (hc : ¬ c) (h : Runs m' x b₁ y b₂ a) :
    Runs (if c then m else m') x b₁ y b₂ a := by
  rw [if_neg hc]
  exact h

end Runs

def AllWs (ws : List Char) : Prop := ∀ c ∈ ws, isWs c = true

theorem allWs_nil : AllWs [] := by
  simp [AllWs]

theorem skipWs_append {ws : List Char} (h : AllWs ws) (rest : List Char) (pos : Int) :
    skipWs (ws ++ rest) pos = skipWs rest (pos + ws.length) := by
  induction ws generalizing pos with
  | nil => simp
  | cons c ws ih =>
    rw [List.cons_append, skipWs, if_pos (h c (by simp)), ih fun x hx => h x (by simp [hx])]
    congr 1
    push_cast [List.length_cons]
    omega

theorem nextNonWs_runs {ws : List Char} (h : AllWs ws) {c : Char} (hc : isWs c = false)
    (rest : List Char) {b : List Char} : Runs nextNonWs (ws ++ c :: rest) b rest b (some c) := by
  intro s hs hb
  unfold nextNonWs
  rw [hs, skipWs_append h, skipWs, if_neg (by simp [hc])]
  exact ⟨_, rfl, rfl, hb⟩

theorem nextNonWs_end {ws : List Char} (h : AllWs ws) : Reads nextNonWs ws [] none := by
  intro s hs hb
  unfold nextNonWs
  rw [hs, ← List.append_nil ws, skipWs_append h, skipWs]
  exact ⟨_, rfl, rfl, hb⟩

theorem unreadChar_runs (rest : List Char) {b : List Char} :
    Runs (unreadChar rest.head?) rest.tail b rest b () := by
  intro s hs hb
  cases rest with
  | nil => exact ⟨s, rfl, hs, hb⟩
  | cons c cs => exact ⟨_, rfl, by rw [hs]; rfl, hb⟩

theorem nextChar_runs (c : Char) (rest b : List Char) : Runs nextChar (c :: rest) b rest b c := by
  intro s hs hb
  have h : readChar s = .ok (some c) { s with rest := rest, pos := s.pos + 1 } := by
    unfold readChar
    rw [hs]
  refine ⟨{ s with rest := rest, pos := s.pos + 1 }, ?_, rfl, hb⟩
  unfold nextChar
  rw [Read.bind_ok h]
  rfl

theorem expectChar_reads (c : Char) (rest : List Char) : Reads (expectChar c) (c :: rest) rest () :=
  (nextChar_runs c rest []).bind (Runs.ite_true rfl (Runs.pure _ _ _))

/-- Something that is no part of a number comes after it. -/
def Follows (rest : List Char) : Prop :=
  ∀ c, rest.head? = some c → c = ',' ∨ c = ']' ∨ c = '\x7d' ∨ c = '\n'

theorem Follows.notDigit {rest : List Char} (h : Follows rest) {c : Char} (hc : rest.head? = some c) :
    isDigit c = false ∧ c ≠ '.' ∧ c ≠ 'e' ∧ c ≠ 'E' := by
  rcases h c hc with rfl | rfl | rfl | rfl <;> decide

theorem takeDigits_append {ds rest : List Char} (hd : ∀ c ∈ ds, isDigit c = true)
    (hr : ∀ c, rest.head? = some c → isDigit c = false) (m n : Nat) (pos : Int) :
    ∃ pos', takeDigits (ds ++ rest) m n pos =
      (ds.foldl (fun a c => a * 10 + digitValue c) m, n + ds.length, rest.head?, rest.tail, pos') := by
  induction ds generalizing m n pos with
  | nil =>
    cases rest with
    | nil => exact ⟨pos, rfl⟩
    | cons c cs =>
      refine ⟨pos + 1, ?_⟩
      rw [List.nil_append, takeDigits, if_neg (by simp [hr c rfl])]
      rfl
  | cons d ds ih =>
    obtain ⟨pos', h⟩ := ih (fun c hc => hd c (by simp [hc])) (m * 10 + digitValue d) (n + 1) (pos + 1)
    refine ⟨pos', ?_⟩
    rw [List.cons_append, takeDigits, if_pos (hd d (by simp)), h, List.length_cons]
    simp only [List.foldl_cons]
    congr 2
    omega

theorem digitToChar_digit : ∀ d < 10, isDigit (digitToChar d) = true ∧ digitValue (digitToChar d) = d := by
  decide

theorem natToString_digits (n : Nat) : ∀ c ∈ natToString n, isDigit c = true := by
  intro c hc
  unfold natToString at hc
  split at hc
  · rw [List.mem_singleton.mp hc]
    decide
  · obtain ⟨d, hd, rfl⟩ := List.mem_map.mp (List.mem_reverse.mp hc)
    exact (digitToChar_digit d (Nat.digits_lt_base (by omega) hd)).1

theorem natToString_ne_nil (n : Nat) : natToString n ≠ [] := by
  unfold natToString
  split
  · simp
  · rename_i hn
    simpa using Nat.digits_ne_nil_iff_ne_zero.mpr hn

theorem natToString_value (n : Nat) : (natToString n).foldl (fun a c => a * 10 + digitValue c) 0 = n := by
  have hfold : ∀ l : List Nat, (∀ d ∈ l, d < 10) →
      ((l.map digitToChar).reverse).foldl (fun a c => a * 10 + digitValue c) 0 = Nat.ofDigits 10 l := by
    intro l hl
    rw [List.foldl_reverse, List.foldr_map]
    induction l with
    | nil => rfl
    | cons d l ih =>
      rw [List.foldr_cons, ih fun x hx => hl x (by simp [hx]), (digitToChar_digit d (hl d (by simp))).2,
        Nat.ofDigits_cons]
      omega
  unfold natToString
  split
  · rename_i hn
    rw [hn]
    decide
  · rw [hfold _ fun d hd => Nat.digits_lt_base (by omega) hd, Nat.ofDigits_digits]

theorem readUnsigned_reads (n : Nat) {rest : List Char} (hr : Follows rest) :
    Reads readUnsigned (natToString n ++ rest) rest (.int n) := by
  have hdig : Reads (readDigits 0 0) (natToString n ++ rest) rest.tail
      (n, (natToString n).length, rest.head?) := by
    intro s hs hb
    obtain ⟨pos, hp⟩ := takeDigits_append (natToString_digits n) (fun c hc => (hr.notDigit hc).1) 0 0 s.pos
    unfold readDigits
    rw [hs, hp, natToString_value, Nat.zero_add]
    exact ⟨_, rfl, rfl, hb⟩
  have hlen : (natToString n).length ≠ 0 := by
    simpa using natToString_ne_nil n
  have hdot : rest.head? ≠ some '.' := fun h => (hr.notDigit h).2.1 rfl
  have hexp : ¬ (rest.head? = some 'e' ∨ rest.head? = some 'E') := by
    rintro (h | h)
    · exact (hr.notDigit h).2.2.1 rfl
    · exact (hr.notDigit h).2.2.2 rfl
  unfold readUnsigned
  refine hdig.bind ?_
  exact Runs.ite_false hlen (Runs.ite_false hdot (Runs.ite_false hexp
    ((unreadChar_runs rest).bind (Runs.pure _ _ _))))

theorem natToString_small {n : Nat} (h : n < 10) : natToString n = [digitToChar n] := by
  unfold natToString
  split
  · rename_i hn
    rw [hn]
    decide
  · rename_i hn
    rw [Nat.digits_of_lt 10 n hn h]
    rfl

theorem natToString_big {n : Nat} (h : 10 ≤ n) :
    natToString n = natToString (n / 10) ++ [digitToChar (n % 10)] := by
  have hn : n ≠ 0 := by omega
  have hq : n / 10 ≠ 0 := by omega
  unfold natToString
  rw [if_neg hn, if_neg hq, Nat.digits_def' (by omega) (by omega)]
  simp

theorem natToString_length {n : Nat} (h : n ≠ 0) : (natToString n).length = (Nat.digits 10 n).length := by
  unfold natToString
  rw [if_neg h]
  simp

theorem drop_set_self {buf : List Char} {i : Nat} (h : i < buf.length) (c : Char) :
    (buf.set i c).drop i = c :: buf.drop (i + 1) := by
  rw [List.drop_eq_getElem_cons (by simpa using h), List.drop_set_of_lt (Nat.lt_succ_self i)]
  simp

/-- The buffer from the place where the loop stops is the text of n, with what
was behind it still in place. -/
theorem fillDigits_ok (k n i : Nat) (buf : List Char) (hk : (natToString n).length ≤ k)
    (hi : (natToString n).length ≤ i + 1) (hb : i < buf.length) :
    ∃ (buf' : List Char) (j : Nat), fillDigits buf k n i = .ok (buf', j) ∧
      buf'.drop j = natToString n ++ buf.drop (i + 1) := by
  induction k generalizing n i buf with
  | zero =>
    have := natToString_ne_nil n
    exact absurd (List.eq_nil_of_length_eq_zero (by omega)) this
  | succ k ih =>
    unfold fillDigits
    rw [if_neg (by omega : ¬ (i : Int) < 0), Int.toNat_natCast]
    dsimp only
    by_cases hn : n / 10 = 0
    · have hlt : n < 10 := by omega
      rw [if_pos hn]
      refine ⟨_, i, rfl, ?_⟩
      rw [natToString_small hlt, Nat.mod_eq_of_lt hlt, drop_set_self hb]
      rfl
    · have hge : 10 ≤ n := by omega
      rw [natToString_big hge, List.length_append, List.length_singleton] at hk hi
      have hpos : 1 ≤ (natToString (n / 10)).length :=
        Nat.one_le_iff_ne_zero.mpr (by simpa using natToString_ne_nil (n / 10))
      rw [if_neg hn, show (i : Int) - 1 = ((i - 1 : Nat) : Int) from by omega]
      obtain ⟨buf', j, h1, h2⟩ := ih (n / 10) (i - 1) (buf.set i (digitToChar (n % 10))) (by omega)
        (by omega) (by simp; omega)
      refine ⟨buf', j, h1, ?_⟩
      rw [h2, natToString_big hge, show i - 1 + 1 = i from by omega, drop_set_self hb]
      simp

theorem displayFixnum_ok {x : Int} (h : env.isFixnum x = true) :
    displayFixnum env x = .ok (numberToString x) := by
  simp only [WriteEnv.isFixnum, Bool.and_eq_true, decide_eq_true_eq] at h
  have hneg : env.mostNegativeFixnum = -((2 ^ (env.fixnumWidth - 1) : Nat) : Int) := by
    simp [WriteEnv.mostNegativeFixnum]
  have hpos : env.mostPositiveFixnum = ((2 ^ (env.fixnumWidth - 1) : Nat) : Int) - 1 := by
    simp [WriteEnv.mostPositiveFixnum]
  have hp : 0 < 2 ^ (env.fixnumWidth - 1) := Nat.two_pow_pos _
  rw [hpos, hneg] at h
  unfold displayFixnum
  split
  · rename_i hx
    unfold numberToString
    rw [if_neg (by omega), natToString_small (by omega)]
  · rename_i hx
    split
    · rfl
    · rename_i hmin
      rw [hneg] at hmin
      have hlen : (numberToString env.mostNegativeFixnum).length =
          (natToString (2 ^ (env.fixnumWidth - 1))).length + 1 := by
        rw [hneg]
        generalize 2 ^ (env.fixnumWidth - 1) = N at hp
        unfold numberToString
        rw [if_pos (by omega)]
        simp
      have hfit : (natToString x.natAbs).length ≤ (natToString (2 ^ (env.fixnumWidth - 1))).length := by
        rw [natToString_length (by omega), natToString_length (by omega)]
        exact Nat.le_length_digits_le 10 _ _ (by omega)
      rw [hlen]
      generalize (natToString (2 ^ (env.fixnumWidth - 1))).length = L at hfit
      obtain ⟨buf, j, h1, h2⟩ := fillDigits_ok (L + 1 + 1) x.natAbs L (List.replicate (L + 1) nul)
        (by omega) (by omega) (by simp)
      dsimp only
      rw [show ((L + 1 : Nat) : Int) - 1 = (L : Int) from by omega, h1]
      show Except.ok _ = Except.ok _
      rw [Int.toNat_natCast, h2]
      unfold numberToString
      split <;> simp

theorem wr_int (n : Int) (indent : Option Int) : wr env (.int n) indent = .ok (numberToString n) := by
  unfold wr
  split
  · rename_i h
    exact displayFixnum_ok h
  · rfl

theorem writeBuf_runs (c : Char) (rest b : List Char) :
    Runs (writeBuf c) rest b rest (b ++ [c]) () := fun s hs hb => ⟨_, rfl, hs, by rw [← hb]⟩

/-- Digits of base 16 as format writes them. -/
theorem hexDigit_runs {d : Nat} (hd : d < 16) (rest b : List Char) :
    Runs hexDigit (hexDigitToChar d :: rest) b rest b d := by
  have hcases : ∀ d < 16, ('0' ≤ hexDigitToChar d ∧ hexDigitToChar d ≤ '9' ∧
      digitValue (hexDigitToChar d) = d) ∨ (¬ ('0' ≤ hexDigitToChar d ∧ hexDigitToChar d ≤ '9') ∧
      ('A' ≤ hexDigitToChar d ∧ hexDigitToChar d ≤ 'F') ∧
      (hexDigitToChar d).toNat - ('A'.toNat - 10) = d) := by decide
  unfold hexDigit
  refine (nextChar_runs _ rest b).bind ?_
  rcases hcases d hd with ⟨h1, h2, h3⟩ | ⟨h1, h2, h3⟩
  · refine Runs.ite_true ⟨h1, h2⟩ ?_
    rw [h3]
    exact Runs.pure _ _ _
  · refine Runs.ite_false h1 (Runs.ite_true h2 ?_)
    rw [h3]
    exact Runs.pure _ _ _

theorem padHex4_eq : ∀ n < 32, padHex4 n =
    [hexDigitToChar 0, hexDigitToChar 0, hexDigitToChar (n / 16), hexDigitToChar (n % 16)] := by
  decide +kernel

theorem read4hexdig_runs {n : Nat} (hn : n < 32) (rest b : List Char) :
    Runs read4hexdig (padHex4 n ++ rest) b rest b n := by
  rw [padHex4_eq n hn]
  unfold read4hexdig
  refine (hexDigit_runs (by omega) _ b).bind ((hexDigit_runs (by omega) _ b).bind
    ((hexDigit_runs (by omega) _ b).bind ((hexDigit_runs (by omega) _ b).bind ?_)))
  have hv : 16 * (16 * (16 * 0 + 0) + n / 16) + n % 16 = n := by omega
  rw [hv]
  exact Runs.pure _ _ _

/-- One character of a string and its escape sequence. -/
theorem readStringFuel_cons (c : Char) {rest b y b' a : List Char} {n : Nat}
    (h : Runs (readStringFuel n) rest (b ++ [c]) y b' a) :
    Runs (readStringFuel (n + 1)) (escapeChar c ++ rest) b y b' a := by
  unfold readStringFuel escapeChar
  by_cases hq : c = '"' ∨ c = '\\'
  · rw [if_pos hq]
    refine (nextChar_runs '\\' _ b).bind (Runs.ite_false (by decide) (Runs.ite_true rfl ?_))
    have hesc : Runs readEscape (c :: rest) b rest (b ++ [c]) () := by
      unfold readEscape
      refine (nextChar_runs c rest b).bind (Runs.ite_true ?_ (writeBuf_runs c rest b))
      rcases hq with rfl | rfl
      · exact .inl rfl
      · exact .inr (.inl rfl)
    exact hesc.bind h
  · rw [if_neg hq]
    by_cases hc : c.toNat ≤ 0x1F
    · -- a control character
      rw [if_pos hc]
      refine (nextChar_runs '\\' _ b).bind (Runs.ite_false (by decide) (Runs.ite_true rfl ?_))
      have hesc : Runs readEscape ('u' :: padHex4 c.toNat ++ rest) b rest (b ++ [c]) () := by
        unfold readEscape
        refine (nextChar_runs 'u' _ b).bind (Runs.ite_false (by decide) (Runs.ite_false (by decide)
          (Runs.ite_false (by decide) (Runs.ite_false (by decide) (Runs.ite_false (by decide)
          (Runs.ite_false (by decide) (Runs.ite_true rfl ?_)))))))
        refine (read4hexdig_runs (by omega) rest b).bind (Runs.ite_false (by omega)
          (Runs.ite_false (by omega) ?_))
        rw [Char.ofNat_toNat]
        exact writeBuf_runs c rest b
      exact hesc.bind h
    · rw [if_neg hc]
      refine (nextChar_runs c rest b).bind (Runs.ite_false (fun h1 => hq (.inl h1))
        (Runs.ite_false (fun h1 => hq (.inr h1)) ((writeBuf_runs c rest b).bind h)))

theorem readStringFuel_runs (str rest b : List Char) {n : Nat} (hn : str.length < n) :
    Runs (readStringFuel n) (str.flatMap escapeChar ++ '"' :: rest) b rest [] (b ++ str) := by
  induction str generalizing n b with
  | nil =>
    obtain ⟨n, rfl⟩ : ∃ k, n = k + 1 := ⟨n - 1, by simp at hn; omega⟩
    unfold readStringFuel
    refine (nextChar_runs '"' rest b).bind (Runs.ite_true rfl ?_)
    intro s hs hb
    exact ⟨{ s with jsonBuf := [], taken := s.taken + 1 }, by rw [getJsonBufferString, hb, List.append_nil],
      hs, rfl⟩
  | cons c str ih =>
    obtain ⟨n, rfl⟩ : ∃ k, n = k + 1 := ⟨n - 1, by simp at hn; omega⟩
    have h := ih (b ++ [c]) (n := n) (by simp at hn; omega)
    rw [List.append_assoc] at h
    rw [List.flatMap_cons, List.append_assoc]
    exact readStringFuel_cons c h

theorem escapeChar_length (c : Char) : 1 ≤ (escapeChar c).length := by
  unfold escapeChar
  split
  · simp
  · split <;> simp

theorem length_le_flatMap (str : List Char) : str.length ≤ (str.flatMap escapeChar).length := by
  induction str with
  | nil => simp
  | cons c str ih =>
    have := escapeChar_length c
    rw [List.flatMap_cons, List.length_append, List.length_cons]
    omega

theorem readString_runs (str rest b : List Char) :
    Runs readString (str.flatMap escapeChar ++ '"' :: rest) b rest [] (b ++ str) := by
  intro s hs hb
  have hn : str.length < s.rest.length + 1 := by
    have := length_le_flatMap str
    rw [hs, List.length_append]
    omega
  exact readStringFuel_runs str rest b hn s hs hb

end Swish.Json
