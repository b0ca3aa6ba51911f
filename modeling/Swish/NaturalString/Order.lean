import Mathlib.Data.List.Lex
import Mathlib.Order.RelClasses
import Swish.NaturalString.Compare

/-!
The natural-string comparisons are strict weak orders. They compare the tokens of the strings, and
a string has its tokens whatever it is compared with.
-/

set_option autoImplicit false

namespace Swish.NaturalString

variable {C : Chars} {s t : List Char} {i j : Nat}

/-- What a tokenizer finds at the index i. -/
inductive Found (s : List Char) (i : Nat) : Token × Nat × Nat → Prop where
  | eos (j : Nat) : Found s i (.eos, j, 0)
  | int {j : Nat} (n : Int) (len : Nat) (hlt : i < j) (hle : j ≤ s.length) : Found s i (.int n, j, len)
  | char {j : Nat} (c : Char) (hle : i ≤ j) (hlt : j < s.length) : Found s i (.char c, j, 1)

theorem getNI_bounds (rest : List Char) (n i : Nat) :
    i ≤ (getNI rest n i).2 ∧ (getNI rest n i).2 ≤ i + rest.length := by
  induction rest generalizing n i with
  | nil => exact ⟨Nat.le_refl i, Nat.le_refl i⟩
  | cons d rest ih =>
    rw [getNI]
    split
    · obtain ⟨h1, h2⟩ := ih (toDigit d + n * 10) (i + 1)
      rw [List.length_cons]
      exact ⟨by omega, by omega⟩
    · exact ⟨Nat.le_refl i, Nat.le_add_right i _⟩

/-- get-integer-token finds an integer or nothing. -/
theorem getIntegerToken_cases (C : Chars) (c : Char) (h : i < s.length) :
    getIntegerToken C c s i = ⟨none, i, 0⟩ ∨
    ∃ n j len, getIntegerToken C c s i = ⟨some (.int n), j, len⟩ ∧ i < j ∧ j ≤ s.length := by
  have hbounds : ∀ n, i < (getNI (s.drop (i + 1)) n (i + 1)).2 ∧
      (getNI (s.drop (i + 1)) n (i + 1)).2 ≤ s.length := by
    intro n
    obtain ⟨h1, h2⟩ := getNI_bounds (s.drop (i + 1)) n (i + 1)
    rw [List.length_drop] at h2
    exact ⟨by omega, by omega⟩
  have hsigned : ∀ k maybeDash, getSigned C s i k maybeDash = ⟨none, i, 0⟩ ∨
      ∃ n j len, getSigned C s i k maybeDash = ⟨some (.int n), j, len⟩ ∧ i < j ∧ j ≤ s.length := by
    intro k maybeDash
    unfold getSigned
    split
    · exact .inl rfl
    · dsimp only
      split
      · exact .inr ⟨_, _, _, rfl, hbounds 0⟩
      · exact .inl rfl
  unfold getIntegerToken
  split
  · exact .inr ⟨_, _, _, rfl, hbounds _⟩
  · split
    · exact hsigned _ _
    · split
      · exact hsigned _ _
      · exact .inl rfl

/-- The loop skip ends at the end of the string, before a character that it leaves, or with a space. -/
theorem skip_cases (C : Chars) (i : Nat) (c : Char) (rest : List Char) (j : Nat) (found : Bool) (hij : i ≤ j)
    (hfound : found = true → i < j) :
    (∃ j', skip C i c rest j found = ⟨some .eos, j', 0⟩) ∨
    (∃ j', skip C i c rest j found = ⟨none, j', 0⟩ ∧ i ≤ j' ∧ j' ≤ j + rest.length) ∨
    ∃ j', skip C i c rest j found = ⟨some (.char ' '), j', 1⟩ ∧ i ≤ j' ∧ j' ≤ j + rest.length := by
  induction rest generalizing c j found with
  | nil =>
    unfold skip
    split
    · exact .inl ⟨j, rfl⟩
    · split
      · exact .inr (.inl ⟨j, rfl, hij, Nat.le_refl j⟩)
      · split
        · rename_i hf
          have hlt := hfound hf
          exact .inr (.inr ⟨j - 1, rfl, by omega, by simp⟩)
        · exact .inr (.inl ⟨j, rfl, hij, Nat.le_refl j⟩)
  | cons d rest ih =>
    unfold skip
    rw [List.length_cons]
    split
    · have hrest := ih d (j + 1) true (by omega) (fun _ => by omega)
      rw [show j + 1 + rest.length = j + (rest.length + 1) from by omega] at hrest
      exact hrest
    · split
      · exact .inr (.inl ⟨j, rfl, hij, by omega⟩)
      · split
        · rename_i hf
          have hlt := hfound hf
          exact .inr (.inr ⟨j - 1, rfl, by omega, by omega⟩)
        · exact .inr (.inl ⟨j, rfl, hij, by omega⟩)

/-- The rest of the composition: an integer or the character itself. -/
theorem compose_integer_found (C : Chars) (c : Char) (hij : i ≤ j) (hj : j < s.length) :
    Found s i (compose (getIntegerToken C) [] c s j) := by
  unfold compose
  cases getIntegerToken_cases C c hj with
  | inl h =>
    rw [h]
    exact .char c hij hj
  | inr h =>
    obtain ⟨n, j', len, h, hlt, hle⟩ := h
    have hi : i < j' := Nat.lt_of_le_of_lt hij hlt
    rw [h]
    exact .int n len hi hle

theorem callGetToken_found (C : Chars) (s : List Char) (i : Nat) : Found s i (callGetToken C s i) := by
  unfold callGetToken
  cases hc : s[i]? with
  | none => exact .eos i
  | some c =>
    have hi : i < s.length := (List.getElem?_eq_some_iff.mp hc).1
    have hlen : i + (s.drop (i + 1)).length < s.length := by
      rw [List.length_drop]
      omega
    dsimp only
    unfold getToken compose elideWhitespace
    cases skip_cases C i c (s.drop (i + 1)) i false (Nat.le_refl i) (fun h => (by cases h)) with
    | inl h =>
      obtain ⟨j, h⟩ := h
      rw [h]
      exact .eos j
    | inr h =>
      cases h with
      | inr h =>
        obtain ⟨j, h, hij, hj⟩ := h
        have hjs : j < s.length := Nat.lt_of_le_of_lt hj hlen
        rw [h]
        exact .char ' ' hij hjs
      | inl h =>
        obtain ⟨j, h, hij, hj⟩ := h
        have hjs : j < s.length := by omega
        rw [h]
        dsimp only
        split
        · exact compose_integer_found C c hij hjs
        · rw [List.getElem?_eq_getElem hjs]
          exact compose_integer_found C _ hij hjs

/-- The tokens of s from the index i on, each with its length, up to the end of the string. -/
inductive Scan (C : Chars) (s : List Char) : Nat → List (Token × Nat) → Prop where
  | eos {i j : Nat} (h : callGetToken C s i = (.eos, j, 0)) : Scan C s i []
  | int {i j len : Nat} {n : Int} {ts : List (Token × Nat)} (h : callGetToken C s i = (.int n, j, len))
      (hs : Scan C s j ts) : Scan C s i ((.int n, len) :: ts)
  | char {i j : Nat} {c : Char} {ts : List (Token × Nat)} (h : callGetToken C s i = (.char c, j, 1))
      (hj : j < s.length) (hs : Scan C s (j + 1) ts) : Scan C s i ((.char c, 1) :: ts)

theorem scan_exists (C : Chars) (s : List Char) (i : Nat) :
    ∃ ts, Scan C s i ts ∧ ts.length ≤ s.length - i := by
  have hfound := callGetToken_found C s i
  generalize hr : callGetToken C s i = r at hfound
  cases hfound with
  | eos j => exact ⟨[], .eos hr, Nat.zero_le _⟩
  | @int j n len hlt hle =>
    obtain ⟨ts, hs, hlen⟩ := scan_exists C s j
    exact ⟨_, .int hr hs, by rw [List.length_cons]; omega⟩
  | @char j c hle hlt =>
    obtain ⟨ts, hs, hlen⟩ := scan_exists C s (j + 1)
    exact ⟨_, .char hr hlt hs, by rw [List.length_cons]; omega⟩
termination_by s.length - i

theorem Scan.unique {as bs : List (Token × Nat)} (ha : Scan C s i as) (hb : Scan C s i bs) : as = bs := by
  induction ha generalizing bs with
  | eos h =>
    cases hb with
    | eos _ => rfl
    | int h' _ => rw [h] at h'; cases h'
    | char h' _ _ => rw [h] at h'; cases h'
  | int h _ ih =>
    cases hb with
    | eos h' => rw [h] at h'; cases h'
    | int h' hs' =>
      rw [h] at h'
      cases h'
      rw [ih hs']
    | char h' _ _ => rw [h] at h'; cases h'
  | char h _ _ ih =>
    cases hb with
    | eos h' => rw [h] at h'; cases h'
    | int h' _ => rw [h] at h'; cases h'
    | char h' _ hs' =>
      rw [h] at h'
      cases h'
      rw [ih hs']

/-- A token is ranked by its kind first: integers, the end of the string, characters. -/
def ranks (code : Char → Nat) : List (Token × Nat) → List Int
  | [] => [1]
  | (.int n, len) :: ts => 0 :: n :: len :: ranks code ts
  | (.eos, _) :: ts => 1 :: ranks code ts
  | (.char c, _) :: ts => 2 :: code c :: ranks code ts

/-- The loop compares the ranks of the tokens that are left. -/
theorem loop_eq (code : Char → Nat) {as bs : List (Token × Nat)} {fuel : Nat} (ha : Scan C s i as)
    (hb : Scan C t j bs) (hfuel : min as.length bs.length < fuel) :
    loop (tokenLtBy code) C s t fuel i j = some (decide (ranks code as < ranks code bs)) := by
  induction fuel generalizing i j as bs with
  | zero => omega
  | succ fuel ih =>
    rw [loop]
    cases ha with
    | eos ha =>
      cases hb with
      | eos hb => simp [ha, hb, tokenLtBy, intTokenLt, ranks]
      | int hb _ => simp [ha, hb, tokenLtBy, intTokenLt, ranks, List.cons_lt_cons_iff]
      | char hb hj _ => simp [ha, hb, tokenLtBy, intTokenLt, ranks, List.cons_lt_cons_iff, Nat.ne_of_lt hj]
    | @int _ i' alen n as ha hs =>
      cases hb with
      | eos hb => simp [ha, hb, tokenLtBy, intTokenLt, ranks, List.cons_lt_cons_iff]
      | @int _ j' blen m bs hb hs' =>
        have hrest := ih hs hs' (by simp only [List.length_cons] at hfuel; omega)
        simp only [ha, hb, tokenLtBy, intTokenLt, ranks, List.cons_lt_cons_iff]
        by_cases hlt : n < m
        · simp [hlt]
        · by_cases he : n = m
          · subst he
            by_cases hlen : alen < blen
            · simp [hlen]
            · by_cases hle : alen = blen
              · simp [hle, hrest]
              · have hne : (alen : Int) ≠ blen := by omega
                simp [hlen, hle, hne]
          · have hgt : m < n := by omega
            simp [hlt, he, hgt]
      | char hb hj _ => simp [ha, hb, tokenLtBy, intTokenLt, ranks, List.cons_lt_cons_iff]
    | @char _ i' c as ha hi hs =>
      cases hb with
      | eos hb => simp [ha, hb, tokenLtBy, intTokenLt, ranks, List.cons_lt_cons_iff, Nat.ne_of_lt hi]
      | int hb _ => simp [ha, hb, tokenLtBy, intTokenLt, ranks, List.cons_lt_cons_iff]
      | @char _ j' d bs hb hj hs' =>
        have hrest := ih hs hs' (by simp only [List.length_cons] at hfuel; omega)
        simp only [ha, hb, tokenLtBy, ranks, List.cons_lt_cons_iff]
        by_cases hlt : code c < code d
        · simp [hlt]
        · by_cases hgt : code d < code c
          · have hne : (code c : Int) ≠ code d := by omega
            simp [hlt, hgt, hne]
          · have he : code c = code d := by omega
            simp [he, hrest, Nat.ne_of_lt hi, Nat.ne_of_lt hj]

/-- The answer of a comparison that is given rounds enough. -/
def Less (compare : Nat → Bool → List Char → List Char → Option Bool) (s t : List Char) : Prop :=
  compare (min s.length t.length + 1) false s t = some true

/-- A comparison that always has an answer, and that is a strict weak order. -/
structure Ordered (compare : Nat → Bool → List Char → List Char → Option Bool) : Prop where
  terminates : ∀ s t, ∃ b, (∀ fuel, min s.length t.length < fuel → compare fuel false s t = some b) ∧
    (s = t → ∀ fuel, compare fuel true s t = some b)
  asymm : ∀ s t, Less compare s t → ¬Less compare t s
  weak : IsStrictWeakOrder (List Char) (Less compare)

theorem doCompare_eq (code : Char → Nat) {as bs : List (Token × Nat)} {fuel : Nat} (ha : Scan C s 0 as)
    (hb : Scan C t 0 bs) (hfuel : min s.length t.length < fuel) :
    doCompare (tokenLtBy code) C fuel false s t = some (decide (ranks code as < ranks code bs)) := by
  obtain ⟨as', ha', hla⟩ := scan_exists C s 0
  obtain ⟨bs', hb', hlb⟩ := scan_exists C t 0
  rw [ha'.unique ha] at hla
  rw [hb'.unique hb] at hlb
  exact loop_eq code ha hb (by omega)

theorem less_iff (code : Char → Nat) {as bs : List (Token × Nat)} (ha : Scan C s 0 as) (hb : Scan C t 0 bs) :
    Less (doCompare (tokenLtBy code) C) s t ↔ ranks code as < ranks code bs := by
  rw [Less, doCompare_eq code ha hb (Nat.lt_succ_self _), Option.some.injEq, decide_eq_true_iff]

theorem doCompare_ordered (code : Char → Nat) (C : Chars) : Ordered (doCompare (tokenLtBy code) C) := by
  -- a string has its own ranks, and the order of strings is that of the ranks
  have hchoose : ∃ tokens : List Char → List (Token × Nat), ∀ s, Scan C s 0 (tokens s) :=
    ⟨fun s => (scan_exists C s 0).choose, fun s => (scan_exists C s 0).choose_spec.1⟩
  obtain ⟨tokens, hscan⟩ := hchoose
  have hless : Less (doCompare (tokenLtBy code) C) = Order.Preimage (fun s => ranks code (tokens s)) (· < ·) := by
    funext s t
    exact propext (less_iff code (hscan s) (hscan t))
  refine ⟨?_, ?_, ?_⟩
  · intro s t
    refine ⟨_, fun fuel hfuel => doCompare_eq code (hscan s) (hscan t) hfuel, ?_⟩
    intro hst fuel
    subst hst
    have hirr := List.lt_irrefl (ranks code (tokens s))
    rw [decide_eq_false hirr]
    rfl
  · intro s t
    rw [less_iff code (hscan s) (hscan t), less_iff code (hscan t) (hscan s)]
    exact List.lt_asymm
  · rw [hless]
    refine { irrefl := ?_, trans := ?_, incomp_trans := ?_ }
    · intro s
      exact List.lt_irrefl (ranks code (tokens s))
    · intro s t u hst htu
      exact List.lt_trans hst htu
    · intro s t u hst htu
      -- strings that are not ordered have the same ranks
      have hs : ranks code (tokens s) = ranks code (tokens t) :=
        List.le_antisymm (List.not_lt.mp hst.2) (List.not_lt.mp hst.1)
      rw [Order.Preimage, Order.Preimage, hs]
      exact htu

/-- What comes after the same tokens decides, and the end of the string is its own token. -/
theorem ranks_prefix (code : Char → Nat) (ss ts : List (Token × Nat)) :
    (ranks code ss < ranks code (ss ++ ts) ↔ [1] < ranks code ts) ∧
    (ranks code (ss ++ ts) < ranks code ss ↔ ranks code ts < [1]) := by
  induction ss with
  | nil => exact ⟨Iff.rfl, Iff.rfl⟩
  | cons x ss ih =>
    obtain ⟨tok, len⟩ := x
    cases tok with
    | eos => simpa [ranks, List.cons_lt_cons_iff] using ih
    | int n => simpa [ranks, List.cons_lt_cons_iff] using ih
    | char c => simpa [ranks, List.cons_lt_cons_iff] using ih

theorem natural_strict_weak_order (C : Chars) : Ordered (naturalStringLt C) ∧ Ordered (naturalStringCiLt C) :=
  ⟨doCompare_ordered charCode C, doCompare_ordered (foldedCode C) C⟩

/-- A string whose tokens are a proper prefix of those of another comes first, unless the next token
of the other one is an integer. -/
theorem prefix_first_iff {ss rest : List (Token × Nat)} {x : Token × Nat} {fuel : Nat} (hs : Scan C s 0 ss)
    (ht : Scan C t 0 (ss ++ x :: rest)) (hfuel : min s.length t.length < fuel) :
    (naturalStringLt C fuel false s t = some true ∧ naturalStringLt C fuel false t s = some false) ↔
      ¬∃ n, x.1 = .int n := by
  obtain ⟨hst, hts⟩ := ranks_prefix charCode ss (x :: rest)
  have hx : x.1 ≠ .eos := by
    intro he
    have hnone : ∀ {i : Nat} {ts : List (Token × Nat)}, Scan C t i ts → ∀ y, y ∈ ts → y.1 ≠ .eos := by
      intro i ts h
      induction h with
      | eos _ => exact fun y hy => (by cases hy)
      | int _ _ ih => exact List.forall_mem_cons.mpr ⟨fun h => (by cases h), ih⟩
      | char _ _ _ ih => exact List.forall_mem_cons.mpr ⟨fun h => (by cases h), ih⟩
    exact hnone ht x (List.mem_append_right ss List.mem_cons_self) he
  rw [naturalStringLt, naturalStringLt, tokenLt, doCompare_eq charCode hs ht hfuel,
    doCompare_eq charCode ht hs (Nat.min_comm _ _ ▸ hfuel)]
  rw [Option.some.injEq, Option.some.injEq, decide_eq_true_iff, decide_eq_false_iff_not, hst, hts]
  obtain ⟨tok, len⟩ := x
  cases tok with
  | eos => exact absurd rfl hx
  | int n => simp [ranks, List.cons_lt_cons_iff]
  | char c => simp [ranks, List.cons_lt_cons_iff]

/-- The classes of the characters of ASCII. -/
def ascii : Chars := ⟨Char.isAlpha, Char.isDigit, Char.isWhitespace, Char.toLower⟩

theorem prefix_first_letters :
    naturalStringLt ascii 2 false ['a'] ['a', 'b'] = some true ∧
    naturalStringLt ascii 2 false ['a', 'b'] ['a'] = some false :=
  (@prefix_first_iff ascii ['a'] ['a', 'b'] [(.char 'a', 1)] [] (.char 'b', 1) 2 (.char rfl (by decide) (.eos rfl))
    (.char rfl (by decide) (.char rfl (by decide) (.eos rfl))) (by decide)).mpr (by simp)

/-- The tokens of a are a proper prefix of those of a1, and a1 comes first. -/
theorem integer_before_end :
    ¬∀ (s t : List Char) (ss ts : List (Token × Nat)), s ≠ [] → (∀ c, s.head? = some c → ascii.whitespace c = false) →
      (∀ c, s.getLast? = some c → ascii.whitespace c = false) → Scan ascii s 0 ss → Scan ascii t 0 ts →
      ss <+: ts → ss ≠ ts →
      naturalStringLt ascii (min s.length t.length + 1) false s t = some true ∧
      naturalStringLt ascii (min s.length t.length + 1) false t s = some false := by
  intro h
  have hscan : Scan ascii ['a'] 0 [(.char 'a', 1)] := .char rfl (by decide) (.eos rfl)
  have hscan' : Scan ascii ['a', '1'] 0 [(.char 'a', 1), (.int 1, 1)] :=
    .char rfl (by decide) (.int rfl (.eos rfl))
  have hfirst : ∀ c, ['a'].head? = some c → ascii.whitespace c = false := fun c hc => Option.some.inj hc ▸ rfl
  have hlast : ∀ c, ['a'].getLast? = some c → ascii.whitespace c = false := fun c hc => Option.some.inj hc ▸ rfl
  have hlt := h ['a'] ['a', '1'] _ _ (by decide) hfirst hlast hscan hscan' ⟨[(.int 1, 1)], rfl⟩ (by decide)
  revert hlt
  decide

end Swish.NaturalString
