import Mathlib.Data.List.TakeWhile
import Swish.NaturalString.Order

/-!
The natural-string comparisons do not depend on the layout of white space: a string and its plain
form have the same tokens.
-/

set_option autoImplicit false

namespace Swish.NaturalString

/-- What holds of the Unicode predicates. -/
structure Chars.Lawful (C : Chars) : Prop where
  space : C.whitespace ' ' = true
  digit : ∀ c, charDigit c = true → C.numeric c = true
  blank : ∀ c, C.whitespace c = true → C.alphabetic c = false ∧ C.numeric c = false

/-- Each run of white space is replaced by one space, except that one at the end is left out. -/
def squeeze (C : Chars) : List Char → List Char
  | [] => []
  | c :: rest =>
    if C.whitespace c then
      match squeeze C rest with
      | [] => []
      | d :: r => if C.whitespace d then d :: r else ' ' :: d :: r
    else c :: squeeze C rest

/-- The string without white space at its ends, and with one space for each run of it inside. -/
def plain (C : Chars) (s : List Char) : List Char := squeeze C (s.dropWhile C.whitespace)

variable {C : Chars} {s s' : List Char} {i i' : Nat}

theorem Chars.Lawful.digit_not_blank (h : C.Lawful) {c : Char} (hd : charDigit c = true) :
    C.whitespace c = false := by
  cases hw : C.whitespace c with
  | false => rfl
  | true =>
    have hn := h.digit c hd
    rw [(h.blank c hw).2] at hn
    cases hn

theorem squeeze_other {c : Char} (rest : List Char) (hc : C.whitespace c = false) :
    squeeze C (c :: rest) = c :: squeeze C rest := by
  rw [squeeze, if_neg (Bool.eq_false_iff.mp hc)]

theorem dropWhile_head {p : Char → Bool} {rest r : List Char} {d : Char} (h : rest.dropWhile p = d :: r) :
    p d = false := by
  have hne : rest.dropWhile p ≠ [] := by
    rw [h]
    exact List.cons_ne_nil d r
  have hhead := List.head_dropWhile_not p hne
  simpa only [h, List.head_cons] using hhead

theorem squeeze_blank (h : C.Lawful) {c : Char} (rest : List Char) (hc : C.whitespace c = true) :
    squeeze C (c :: rest) =
      if rest.dropWhile C.whitespace = [] then [] else ' ' :: squeeze C (rest.dropWhile C.whitespace) := by
  induction rest generalizing c with
  | nil =>
    rw [squeeze, if_pos hc]
    rfl
  | cons d rest ih =>
    rw [squeeze, if_pos hc]
    by_cases hd : C.whitespace d = true
    · rw [ih hd, List.dropWhile_cons_of_pos hd]
      split
      · rename_i he
        split at he
        · rw [if_pos (by assumption)]
        · cases he
      · rename_i d' r he
        split at he
        · cases he
        · rename_i hne
          cases he
          rw [if_pos h.space, if_neg hne]
    · have hd' : C.whitespace d = false := Bool.eq_false_iff.mpr hd
      rw [squeeze_other rest hd', List.dropWhile_cons_of_neg hd, if_neg (List.cons_ne_nil d rest),
        squeeze_other rest hd']
      dsimp only
      rw [if_neg hd]

/-- The digits at the beginning are the same. -/
theorem squeeze_digits (h : C.Lawful) (rest : List Char) :
    squeeze C rest = rest.takeWhile charDigit ++ squeeze C (rest.dropWhile charDigit) := by
  induction rest with
  | nil => rfl
  | cons c rest ih =>
    by_cases hd : charDigit c = true
    · rw [squeeze_other rest (h.digit_not_blank hd), List.takeWhile_cons_of_pos hd, List.dropWhile_cons_of_pos hd,
        List.cons_append, ← ih]
    · rw [List.takeWhile_cons_of_neg hd, List.dropWhile_cons_of_neg hd]
      rfl

/-- No digit is left at the beginning. -/
theorem squeeze_no_digit (h : C.Lawful) (rest : List Char) :
    (squeeze C (rest.dropWhile charDigit)).takeWhile charDigit = [] := by
  cases hr : rest.dropWhile charDigit with
  | nil => rfl
  | cons c r =>
    have hc := dropWhile_head hr
    by_cases hw : C.whitespace c = true
    · rw [squeeze_blank h r hw]
      split
      · rfl
      · rfl
    · rw [squeeze_other r (Bool.eq_false_iff.mpr hw), List.takeWhile_cons_of_neg (Bool.eq_false_iff.mp hc)]

theorem takeWhile_squeeze (h : C.Lawful) (rest : List Char) :
    (squeeze C rest).takeWhile charDigit = rest.takeWhile charDigit := by
  have hall : ∀ c, c ∈ rest.takeWhile charDigit → charDigit c = true := fun c hc => List.mem_takeWhile_imp hc
  rw [squeeze_digits h rest, List.takeWhile_append_of_pos hall, squeeze_no_digit h, List.append_nil]

theorem getNI_snd (rest : List Char) (n i : Nat) : (getNI rest n i).2 = i + (rest.takeWhile charDigit).length := by
  induction rest generalizing n i with
  | nil => rfl
  | cons c rest ih =>
    rw [getNI]
    by_cases hd : charDigit c = true
    · rw [if_pos hd, List.takeWhile_cons_of_pos hd, ih, List.length_cons]
      omega
    · rw [if_neg hd, List.takeWhile_cons_of_neg hd]
      rfl

/-- The value depends on the digits only. -/
theorem getNI_fst (rest : List Char) (n i : Nat) :
    (getNI rest n i).1 = (rest.takeWhile charDigit).foldl (fun n c => toDigit c + n * 10) n := by
  induction rest generalizing n i with
  | nil => rfl
  | cons c rest ih =>
    rw [getNI]
    by_cases hd : charDigit c = true
    · rw [if_pos hd, List.takeWhile_cons_of_pos hd, ih, List.foldl_cons]
    · rw [if_neg hd, List.takeWhile_cons_of_neg hd]
      rfl

/-- The loop skip over white space. -/
theorem skip_blank (C : Chars) (i : Nat) {c : Char} (rest : List Char) (j : Nat) (found : Bool)
    (hc : C.whitespace c = true) :
    skip C i c rest j found =
      if rest.dropWhile C.whitespace = [] then ⟨some .eos, j + rest.length, 0⟩
      else if i = 0 then ⟨none, j + (rest.takeWhile C.whitespace).length + 1, 0⟩
      else ⟨some (.char ' '), j + (rest.takeWhile C.whitespace).length, 1⟩ := by
  induction rest generalizing c j found with
  | nil =>
    rw [skip, if_pos hc]
    rfl
  | cons d rest ih =>
    rw [skip, if_pos hc]
    by_cases hd : C.whitespace d = true
    · rw [ih (j + 1) true hd, List.dropWhile_cons_of_pos hd, List.takeWhile_cons_of_pos hd, List.length_cons,
        List.length_cons]
      rw [show j + 1 + rest.length = j + (rest.length + 1) from by omega]
      rw [show j + 1 + (rest.takeWhile C.whitespace).length = j + ((rest.takeWhile C.whitespace).length + 1) from by
        omega]
    · rw [List.dropWhile_cons_of_neg hd, List.takeWhile_cons_of_neg hd, if_neg (List.cons_ne_nil d rest)]
      unfold skip
      rw [if_neg hd]
      rfl

theorem skip_other (C : Chars) (i : Nat) {c : Char} (rest : List Char) (j : Nat) (hc : C.whitespace c = false) :
    skip C i c rest j false = ⟨none, j, 0⟩ := by
  unfold skip
  rw [if_neg (Bool.eq_false_iff.mp hc)]
  split
  · rfl
  · rfl

/-- Places in a string and in its plain form, after some characters of each. What is left is the same
but for its layout, and a minus sign would be a dash in both or in neither. -/
structure Aligned (C : Chars) (s s' : List Char) (i i' : Nat) : Prop where
  pos : 0 < i
  pos' : 0 < i'
  rest : s'.drop i' = squeeze C (s.drop i)
  dash : dash C s' i' = dash C s i

/-- The next tokens are the same, and the places after them are aligned. -/
inductive SameNext (C : Chars) (s s' : List Char) : Token × Nat × Nat → Token × Nat × Nat → Prop where
  | eos (j j' : Nat) : SameNext C s s' (.eos, j, 0) (.eos, j', 0)
  | int {j j' : Nat} (n : Int) (len : Nat) (h : Aligned C s s' j j') : SameNext C s s' (.int n, j, len) (.int n, j', len)
  | char {j j' : Nat} (c : Char) (h : Aligned C s s' (j + 1) (j' + 1)) (hj : j' < s'.length) :
      SameNext C s s' (.char c, j, 1) (.char c, j', 1)

theorem getElem?_of_drop {w r : List Char} {k : Nat} (h : s.drop i = w ++ r) (hk : k < w.length) :
    s[i + k]? = w[k]? := by
  rw [← List.getElem?_drop, h, List.getElem?_append_left hk]

/-- After the same characters, the last of which is the same too. -/
theorem aligned_after {w r : List Char} (hw : w ≠ []) (h : s.drop i = w ++ r) (h' : s'.drop i' = w ++ squeeze C r) :
    Aligned C s s' (i + w.length) (i' + w.length) := by
  have hpos : 0 < w.length := List.length_pos_iff.mpr hw
  have hlt : w.length - 1 < w.length := by omega
  refine ⟨by omega, by omega, ?_, ?_⟩
  · rw [← List.drop_drop, ← List.drop_drop, h, h', List.drop_left, List.drop_left]
  · rw [dash, dash, if_pos (by omega), if_pos (by omega)]
    rw [show i + w.length - 1 = i + (w.length - 1) from by omega, getElem?_of_drop h hlt]
    rw [show i' + w.length - 1 = i' + (w.length - 1) from by omega, getElem?_of_drop h' hlt]

theorem drop_succ {c : Char} {r : List Char} (h : s.drop i = c :: r) : s.drop (i + 1) = r := by
  rw [← List.drop_drop, h]
  rfl

theorem lt_of_drop {c : Char} {r : List Char} (h : s.drop i = c :: r) : i < s.length := by
  have hlen := congrArg List.length h
  rw [List.length_drop, List.length_cons] at hlen
  omega

/-- The digits of an integer are read alike, and the places after them are aligned. -/
theorem digits_aligned (hC : C.Lawful) {c : Char} {r : List Char} (h : s.drop i = c :: r)
    (h' : s'.drop i' = c :: squeeze C r) (n : Nat) :
    (getNI (squeeze C r) n (i' + 1)).1 = (getNI r n (i + 1)).1 ∧
    (getNI (squeeze C r) n (i' + 1)).2 - i' = (getNI r n (i + 1)).2 - i ∧
    Aligned C s s' (getNI r n (i + 1)).2 (getNI (squeeze C r) n (i' + 1)).2 := by
  have hsplit : s.drop i = (c :: r.takeWhile charDigit) ++ r.dropWhile charDigit := by
    rw [h, List.cons_append, List.takeWhile_append_dropWhile]
  have hsplit' : s'.drop i' = (c :: r.takeWhile charDigit) ++ squeeze C (r.dropWhile charDigit) := by
    rw [h', List.cons_append, ← squeeze_digits hC]
  have hal := aligned_after (List.cons_ne_nil c _) hsplit hsplit'
  rw [getNI_fst, getNI_fst, getNI_snd, getNI_snd, takeWhile_squeeze hC]
  refine ⟨rfl, by omega, ?_⟩
  rw [List.length_cons, Nat.add_comm _ 1, ← Nat.add_assoc, ← Nat.add_assoc] at hal
  exact hal

/-- Both calls of get-integer-token find nothing, or the same integer. -/
inductive SameInteger (C : Chars) (s s' : List Char) (i i' : Nat) : Got → Got → Prop where
  | none : SameInteger C s s' i i' ⟨none, i, 0⟩ ⟨none, i', 0⟩
  | int {j j' : Nat} (n : Int) (len : Nat) (h : Aligned C s s' j j') :
      SameInteger C s s' i i' ⟨some (.int n), j, len⟩ ⟨some (.int n), j', len⟩

theorem getSigned_same (hC : C.Lawful) {c : Char} {r : List Char} (h : s.drop i = c :: r)
    (h' : s'.drop i' = c :: squeeze C r) (hd : dash C s' i' = dash C s i) (k : Nat → Int) (maybeDash : Bool) :
    SameInteger C s s' i i' (getSigned C s i k maybeDash) (getSigned C s' i' k maybeDash) := by
  obtain ⟨hvalue, hlen, hal⟩ := digits_aligned hC h h' 0
  unfold getSigned
  rw [hd, drop_succ h, drop_succ h']
  split
  · exact .none
  · dsimp only
    rw [hlen, hvalue]
    split
    · exact .int _ _ hal
    · exact .none

theorem getIntegerToken_same (hC : C.Lawful) {c : Char} {r : List Char} (h : s.drop i = c :: r)
    (h' : s'.drop i' = c :: squeeze C r) (hd : dash C s' i' = dash C s i) :
    SameInteger C s s' i i' (getIntegerToken C c s i) (getIntegerToken C c s' i') := by
  obtain ⟨hvalue, hlen, hal⟩ := digits_aligned hC h h' (toDigit c)
  unfold getIntegerToken
  split
  · dsimp only
    rw [drop_succ h, drop_succ h', hlen, hvalue]
    exact .int _ _ hal
  · split
    · exact getSigned_same hC h h' hd _ _
    · split
      · exact getSigned_same hC h h' hd _ _
      · exact .none

/-- Both calls of the tokenizers after elide-whitespace see the same character. -/
theorem sameNext_integer (hC : C.Lawful) {c : Char} {r : List Char} (h : s.drop i = c :: r)
    (h' : s'.drop i' = c :: squeeze C r) (hd : dash C s' i' = dash C s i) :
    SameNext C s s' (compose (getIntegerToken C) [] c s i) (compose (getIntegerToken C) [] c s' i') := by
  have hsame := getIntegerToken_same hC h h' hd
  unfold compose
  generalize getIntegerToken C c s i = got at hsame
  generalize getIntegerToken C c s' i' = got' at hsame
  cases hsame with
  | none => exact .char c (aligned_after (List.cons_ne_nil c []) h h') (lt_of_drop h')
  | int n len hal => exact .int n len hal

theorem callGetToken_nil (C : Chars) (h : s.drop i = []) : callGetToken C s i = (.eos, i, 0) := by
  rw [callGetToken, List.getElem?_eq_none (List.drop_eq_nil_iff.mp h)]

theorem callGetToken_cons (C : Chars) {c : Char} {r : List Char} (h : s.drop i = c :: r) :
    callGetToken C s i = getToken C c s i := by
  have hc : s[i]? = some c := by
    have hget := @getElem?_of_drop s i [c] r 0 h (Nat.succ_pos 0)
    exact hget
  rw [callGetToken, hc]

/-- A character that is not white space goes to the other tokenizers. -/
theorem getToken_other (C : Chars) {c : Char} {r : List Char} (h : s.drop i = c :: r)
    (hc : C.whitespace c = false) : callGetToken C s i = compose (getIntegerToken C) [] c s i := by
  have helide : elideWhitespace C c s i = ⟨none, i, 0⟩ := skip_other C i _ i hc
  rw [callGetToken_cons C h, getToken]
  conv_lhs => rw [compose, helide]
  exact if_pos rfl

/-- White space inside the string is one space, and at the end of the string it is nothing. -/
theorem getToken_blank (C : Chars) {c : Char} {r : List Char} (hi : 0 < i) (h : s.drop i = c :: r)
    (hc : C.whitespace c = true) :
    callGetToken C s i =
      if r.dropWhile C.whitespace = [] then (.eos, i + r.length, 0)
      else (.char ' ', i + (r.takeWhile C.whitespace).length, 1) := by
  have helide : elideWhitespace C c s i = skip C i c r i false := by
    rw [elideWhitespace, drop_succ h]
  rw [callGetToken_cons C h, getToken, compose, helide, skip_blank C i r i false hc, if_neg (Nat.ne_of_gt hi)]
  by_cases hr : r.dropWhile C.whitespace = []
  · rw [if_pos hr, if_pos hr]
  · rw [if_neg hr, if_neg hr]

theorem dash_after_blank (hC : C.Lawful) {c : Char} (h : s[i]? = some c) (hc : C.whitespace c = true) :
    dash C s (i + 1) = false := by
  obtain ⟨ha, hn⟩ := hC.blank c hc
  rw [dash, if_pos (Nat.succ_pos i), Nat.add_sub_cancel, h, Option.any_some, ha, hn]
  rfl

/-- What is after a run of white space, and the last character of it. -/
theorem after_blank {c : Char} {r : List Char} (h : s.drop i = c :: r) (hc : C.whitespace c = true) :
    s.drop (i + (r.takeWhile C.whitespace).length + 1) = r.dropWhile C.whitespace ∧
    ∃ d, s[i + (r.takeWhile C.whitespace).length]? = some d ∧ C.whitespace d = true := by
  have hsplit : s.drop i = (c :: r.takeWhile C.whitespace) ++ r.dropWhile C.whitespace := by
    rw [h, List.cons_append, List.takeWhile_append_dropWhile]
  have hlt : (r.takeWhile C.whitespace).length < (c :: r.takeWhile C.whitespace).length := Nat.lt_succ_self _
  have hall : ∀ d, d ∈ c :: r.takeWhile C.whitespace → C.whitespace d = true :=
    List.forall_mem_cons.mpr ⟨hc, fun d hd => List.mem_takeWhile_imp hd⟩
  refine ⟨?_, (c :: r.takeWhile C.whitespace)[(r.takeWhile C.whitespace).length], ?_,
    hall _ (List.getElem_mem hlt)⟩
  · have hdrop := congrArg (List.drop (c :: r.takeWhile C.whitespace).length) hsplit
    rw [List.drop_drop, List.drop_left, List.length_cons] at hdrop
    exact hdrop
  · rw [getElem?_of_drop hsplit hlt, List.getElem?_eq_getElem hlt]

theorem aligned_next (hC : C.Lawful) (h : Aligned C s s' i i') :
    SameNext C s s' (callGetToken C s i) (callGetToken C s' i') := by
  obtain ⟨hpos, hpos', hrest, hdash⟩ := h
  cases hr : s.drop i with
  | nil =>
    rw [hr] at hrest
    rw [callGetToken_nil C hr, callGetToken_nil C hrest]
    exact .eos i i'
  | cons c r =>
    rw [hr] at hrest
    by_cases hc : C.whitespace c = true
    · rw [squeeze_blank hC r hc] at hrest
      rw [getToken_blank C hpos hr hc]
      cases hd : r.dropWhile C.whitespace with
      | nil =>
        rw [hd, if_pos rfl] at hrest
        rw [if_pos rfl, callGetToken_nil C hrest]
        exact .eos _ i'
      | cons d r' =>
        have hother := dropWhile_head hd
        rw [hd, if_neg (List.cons_ne_nil d r'), squeeze_other r' hother] at hrest
        rw [if_neg (List.cons_ne_nil d r'), getToken_blank C hpos' hrest hC.space]
        have hnot : ¬C.whitespace d = true := Bool.eq_false_iff.mp hother
        rw [List.dropWhile_cons_of_neg hnot, List.takeWhile_cons_of_neg hnot, if_neg (List.cons_ne_nil d _)]
        obtain ⟨hafter, e, he, hblank⟩ := after_blank hr hc
        obtain ⟨_, e', he', hblank'⟩ := after_blank hrest hC.space
        rw [List.takeWhile_cons_of_neg hnot] at he'
        refine .char ' ' ⟨Nat.succ_pos _, Nat.succ_pos _, ?_, ?_⟩ (lt_of_drop hrest)
        · rw [hafter, hd, squeeze_other r' hother]
          exact drop_succ hrest
        · rw [dash_after_blank hC he hblank]
          exact dash_after_blank hC he' hblank'
    · have hother : C.whitespace c = false := Bool.eq_false_iff.mpr hc
      rw [squeeze_other r hother] at hrest
      rw [getToken_other C hr hother, getToken_other C hrest hother]
      exact sameNext_integer hC hr hrest hdash

/-- White space at the beginning of a string is passed over. -/
theorem first_next (hC : C.Lawful) (s : List Char) :
    SameNext C s (plain C s) (callGetToken C s 0) (callGetToken C (plain C s) 0) := by
  cases s with
  | nil => exact .eos 0 0
  | cons c r =>
    have h0 : (c :: r).drop 0 = c :: r := rfl
    have hnone : ∀ (s : List Char), dash C s 0 = false := fun _ => if_neg (Nat.lt_irrefl 0)
    by_cases hc : C.whitespace c = true
    · have hplain : plain C (c :: r) = squeeze C (r.dropWhile C.whitespace) := by
        rw [plain, List.dropWhile_cons_of_pos hc]
      have helide : elideWhitespace C c (c :: r) 0 = skip C 0 c r 0 false := rfl
      rw [callGetToken_cons C h0, getToken, compose, helide, skip_blank C 0 r 0 false hc, if_pos rfl]
      obtain ⟨hafter, e, he, hblank⟩ := after_blank h0 hc
      cases hd : r.dropWhile C.whitespace with
      | nil =>
        rw [hd] at hplain
        rw [if_pos rfl, hplain]
        exact .eos _ 0
      | cons d r' =>
        have hother := dropWhile_head hd
        rw [hd, squeeze_other r' hother] at hplain
        rw [hd] at hafter
        have hdrop : (plain C (c :: r)).drop 0 = d :: squeeze C r' := hplain
        have hdash : dash C (plain C (c :: r)) 0 = dash C (c :: r) (0 + (r.takeWhile C.whitespace).length + 1) := by
          rw [dash_after_blank hC he hblank, hnone]
        rw [if_neg (List.cons_ne_nil d r'), getToken_other C hdrop hother]
        have hget : (c :: r)[0 + (r.takeWhile C.whitespace).length + 1]? = some d :=
          @getElem?_of_drop (c :: r) _ [d] r' 0 hafter (Nat.succ_pos 0)
        dsimp only
        rw [if_neg (Nat.succ_ne_zero _), hget]
        exact sameNext_integer hC hafter hdrop hdash
    · have hother : C.whitespace c = false := Bool.eq_false_iff.mpr hc
      have hplain : plain C (c :: r) = c :: squeeze C r := by
        rw [plain, List.dropWhile_cons_of_neg hc, squeeze_other r hother]
      have hdrop : (plain C (c :: r)).drop 0 = c :: squeeze C r := hplain
      rw [getToken_other C h0 hother, getToken_other C hdrop hother]
      exact sameNext_integer hC h0 hdrop ((hnone _).trans (hnone _).symm)

theorem scan_aligned (hC : C.Lawful) {ts : List (Token × Nat)} (h : Scan C s i ts)
    (hnext : SameNext C s s' (callGetToken C s i) (callGetToken C s' i')) : Scan C s' i' ts := by
  induction h generalizing i' with
  | eos h =>
    rw [h] at hnext
    generalize hr : callGetToken C s' i' = r at hnext
    cases hnext with
    | eos _ j' => exact .eos hr
  | int h _ ih =>
    rw [h] at hnext
    generalize hr : callGetToken C s' i' = r at hnext
    cases hnext with
    | int n len hal => exact .int hr (ih (aligned_next hC hal))
  | char h _ _ ih =>
    rw [h] at hnext
    generalize hr : callGetToken C s' i' = r at hnext
    cases hnext with
    | char c hal hj => exact .char hr hj (ih (aligned_next hC hal))

theorem scan_plain (hC : C.Lawful) {ts : List (Token × Nat)} (h : Scan C s 0 ts) : Scan C (plain C s) 0 ts :=
  scan_aligned hC h (first_next hC s)

/-- That strings are the same for eq? makes no difference. -/
theorem doCompare_same (code : Char → Nat) {t : List Char} {fuel : Nat} {same : Bool}
    (hfuel : min s.length t.length < fuel) (hsame : same = true → s = t) :
    doCompare (tokenLtBy code) C fuel same s t = doCompare (tokenLtBy code) C fuel false s t := by
  cases same with
  | false => rfl
  | true =>
    obtain ⟨b, hb, heq⟩ := (doCompare_ordered code C).terminates s t
    rw [heq (hsame rfl) fuel, hb fuel hfuel]

theorem doCompare_plain (hC : C.Lawful) (code : Char → Nat) {t : List Char} {fuel fuel' : Nat} {same same' : Bool}
    (hfuel : min s.length t.length < fuel) (hfuel' : min (plain C s).length (plain C t).length < fuel')
    (hsame : same = true → s = t) (hsame' : same' = true → plain C s = plain C t) :
    doCompare (tokenLtBy code) C fuel same s t =
      doCompare (tokenLtBy code) C fuel' same' (plain C s) (plain C t) := by
  obtain ⟨as, ha, _⟩ := scan_exists C s 0
  obtain ⟨bs, hb, _⟩ := scan_exists C t 0
  rw [doCompare_same code hfuel hsame, doCompare_same code hfuel' hsame', doCompare_eq code ha hb hfuel,
    doCompare_eq code (scan_plain hC ha) (scan_plain hC hb) hfuel']

/-- Both comparisons give the same answer for strings and for their plain forms. -/
theorem natural_order_ignores_layout (hC : C.Lawful) (s t : List Char) (fuel fuel' : Nat) (same same' : Bool)
    (hfuel : min s.length t.length < fuel) (hfuel' : min (plain C s).length (plain C t).length < fuel')
    (hsame : same = true → s = t) (hsame' : same' = true → plain C s = plain C t) :
    naturalStringLt C fuel same s t = naturalStringLt C fuel' same' (plain C s) (plain C t) ∧
    naturalStringCiLt C fuel same s t = naturalStringCiLt C fuel' same' (plain C s) (plain C t) :=
  ⟨doCompare_plain hC charCode hfuel hfuel' hsame hsame', doCompare_plain hC (foldedCode C) hfuel hfuel' hsame hsame'⟩

theorem ascii_lawful : ascii.Lawful := by
  refine ⟨rfl, ?_, ?_⟩
  · intro c hc
    simpa [charDigit, ascii, Char.isDigit, UInt32.le_iff_toNat_le] using hc
  · intro c hc
    have hcases : ((c = ' ' ∨ c = '\t') ∨ c = '\r') ∨ c = '\n' := by
      simpa [ascii, Char.isWhitespace] using hc
    rcases hcases with ((he | he) | he) | he <;> (subst he; exact ⟨rfl, rfl⟩)

theorem natural_order_ignores_layout_tab :
    naturalStringLt ascii 5 false [' ', 'a', '\t', ' ', '-', '1'] ['a', ' ', '2', ' '] =
      naturalStringLt ascii 5 false ['a', ' ', '-', '1'] ['a', ' ', '2'] :=
  (natural_order_ignores_layout ascii_lawful [' ', 'a', '\t', ' ', '-', '1'] ['a', ' ', '2', ' '] 5 5 false false
    (by decide) (by decide) (fun h => (by cases h)) (fun h => (by cases h))).1

end Swish.NaturalString
