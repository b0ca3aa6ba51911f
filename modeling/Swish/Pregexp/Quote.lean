import Mathlib.Data.List.Basic
import Swish.Pregexp.Groups

/-!
pregexp-quote: the reader makes of a quoted string a sequence of its characters, and the pattern
matches where the string occurs.
-/

set_option autoImplicit false

namespace Swish.Pregexp

open Lib

/-- The characters that pregexp-quote puts a backslash before. -/
def quoted (c : Char) : Bool := "\\.?*+|^$[]{}()".toList.contains c

def pregexpQuote (s : List Char) : List Char := s.foldr (fun c r => if quoted c then '\\' :: c :: r else c :: r) []

/-- A character that starts no quantifier. -/
def unquantified (c : Option Char) : Bool := ['*', '+', '?', '{'].all fun d => c != some d

theorem unquantified_of_quoted {c : Char} (h : quoted c = false) : unquantified (some c) = true := by
  simp [quoted, unquantified] at h ⊢
  grind

theorem unquantified_head (t : List Char) : unquantified (pregexpQuote t)[0]? = true := by
  cases t with
  | nil => rfl
  | cons c t =>
    simp only [pregexpQuote, List.foldr_cons]
    split
    · rfl
    · rename_i h
      exact unquantified_of_quoted (Bool.eq_false_iff.mpr h)

variable {C : Chars} {s pre q t : List Char} {vv : Re × Nat}

theorem wrapQuantifierIfAny_none (h : unquantified s[vv.2]? = true) : wrapQuantifierIfAny C s vv true = .ok (vv, true) := by
  have hskip : skipWhitespace C s true vv.2 = vv.2 := rfl
  unfold wrapQuantifierIfAny
  rw [hskip]
  dsimp only
  split <;> simp_all [unquantified]

theorem getElem?_after (pre q : List Char) (k : Nat) : (pre ++ q)[pre.length + k]? = q[k]? := by
  rw [List.getElem?_append_right (Nat.le_add_right ..), Nat.add_sub_cancel_left]

/-- A piece of a quoted string. -/
theorem readPiece_quoted {c : Char} {fuel : Nat} (hnum : C.numeric c = false) (h : quoted c = true) (hq : unquantified q[0]? = true)
    (hs : s = pre ++ '\\' :: c :: q) : readPiece C s (fuel + 1) '\\' pre.length true = .ok ((.char c, pre.length + 2), true) := by
  have hchar : s[pre.length + 1]? = some c := by
    rw [hs, getElem?_after]
    rfl
  have hafter : unquantified s[pre.length + 2]? = true := by
    rw [hs, getElem?_after]
    exact hq
  have hnumber : readEscapedNumber C s pre.length = none := by
    simp [readEscapedNumber, hs, hnum]
  have hescaped : readEscapedChar s pre.length = some (.char c, pre.length + 2) := by
    unfold readEscapedChar
    rw [hchar]
    simp only [Option.map_some]
    split <;> simp_all [quoted]
  simp only [readPiece, hnumber, hescaped]
  exact wrapQuantifierIfAny_none hafter

theorem readPiece_unquoted {c : Char} {fuel : Nat} (h : quoted c = false) (hq : unquantified q[0]? = true) (hs : s = pre ++ c :: q) :
    readPiece C s (fuel + 1) c pre.length true = .ok ((.char c, pre.length + 1), true) := by
  have hafter : unquantified s[pre.length + 1]? = true := by
    rw [hs, getElem?_after]
    exact hq
  unfold readPiece
  split
  iterate 6 · exact absurd h (by decide)
  exact @wrapQuantifierIfAny_none C s (.char c, pre.length + 1) hafter

/-- One turn of the loop that reads a branch. -/
theorem readBranch_piece {c : Char} {fuel i j : Nat} {pieces : List Re} {re : Re} (hc : s[i]? = some c) (hne : c ≠ '|' ∧ c ≠ ')')
    (hpiece : readPiece C s fuel c i true = .ok ((re, j), true)) :
    readBranch C s (fuel + 1) pieces i true = readBranch C s fuel (re :: pieces) j true := by
  have hbind : (readPiece C s fuel c i >>= fun r => readBranch C s fuel (r.1 :: pieces) r.2) true =
      readBranch C s fuel (re :: pieces) j true := by
    change (readPiece C s fuel c i true >>= fun r => readBranch C s fuel (r.1.1 :: pieces) r.1.2 r.2) = _
    rw [hpiece]
    rfl
  rw [← hbind]
  refine congrFun ?_ true
  conv_lhs => unfold readBranch
  split
  · rename_i hnone
    rw [hc] at hnone
    cases hnone
  · rename_i hbar
    rw [hc] at hbar
    exact absurd (Option.some.inj hbar) hne.1
  · rename_i hparen
    rw [hc] at hparen
    exact absurd (Option.some.inj hparen) hne.2
  · rename_i d _ _ hd
    rw [hc] at hd
    obtain rfl := Option.some.inj hd
    rfl

theorem readBranch_quote (t : List Char) (hnum : ∀ c ∈ t, quoted c = true → C.numeric c = false) :
    ∀ (pre : List Char) (pieces : List Re) (fuel : Nat), s = pre ++ pregexpQuote t → t.length + 2 ≤ fuel →
      readBranch C s fuel pieces pre.length true = .ok ((.seq (pieces.reverse ++ t.map .char), s.length), true) := by
  induction t with
  | nil =>
    intro pre pieces fuel hs hfuel
    obtain ⟨fuel, rfl⟩ : ∃ f, fuel = f + 1 := ⟨fuel - 1, by simp at hfuel; omega⟩
    obtain rfl : s = pre := by simpa [pregexpQuote] using hs
    simp [readBranch]
    rfl
  | cons c t ih =>
    intro pre pieces fuel hs hfuel
    obtain ⟨fuel, rfl⟩ : ∃ f, fuel = f + 2 := ⟨fuel - 2, by simp at hfuel; omega⟩
    have hlength : t.length + 2 ≤ fuel + 1 := by simp at hfuel; omega
    have hhead := unquantified_head t
    have hnum' : ∀ d ∈ t, quoted d = true → C.numeric d = false := fun d hd => hnum d (List.mem_cons_of_mem c hd)
    have hfirst : ∀ q : List Char, s = pre ++ q → s[pre.length]? = q[0]? := by
      intro q hq
      rw [hq, ← Nat.add_zero pre.length, getElem?_after]
    by_cases hc : quoted c = true
    · have hs' : s = pre ++ '\\' :: c :: pregexpQuote t := by simpa [pregexpQuote, hc] using hs
      have hpiece := @readPiece_quoted C _ _ _ c fuel (hnum c List.mem_cons_self hc) hc hhead hs'
      rw [readBranch_piece (hfirst _ hs') (by decide) hpiece]
      have hrest := ih hnum' (pre ++ ['\\', c]) (.char c :: pieces) (fuel + 1) (by simpa using hs') hlength
      simpa using hrest
    · have hc' : quoted c = false := Bool.eq_false_iff.mpr hc
      have hs' : s = pre ++ c :: pregexpQuote t := by simpa [pregexpQuote, hc'] using hs
      have hpiece := @readPiece_unquoted C _ _ _ c fuel hc' hhead hs'
      have hne : c ≠ '|' ∧ c ≠ ')' := by constructor <;> (rintro rfl; exact absurd hc' (by decide))
      rw [readBranch_piece (hfirst _ hs') hne hpiece]
      have hrest := ih hnum' (pre ++ [c]) (.char c :: pieces) (fuel + 1) (by simpa using hs') hlength
      simpa using hrest

/-- The pattern of a quoted string. -/
def literal (t : List Char) : Re := .sub 0 (.or [.seq (t.map .char)])

/-- The one branch of a pattern that starts with neither a bar nor a parenthesis. -/
theorem readPattern_branch {c : Char} {fuel : Nat} {re : Re} (hc : s[0]? = some c) (hne : c ≠ '|' ∧ c ≠ ')')
    (hbranch : readBranch C s (fuel + 1) [] 0 true = .ok ((re, s.length), true)) :
    readPattern C s (fuel + 3) 0 true = .ok ((.or [re], s.length), true) := by
  have hbranches : readBranches C s (fuel + 2) [] 0 true =
      (readBranch C s (fuel + 1) [] 0 >>= fun r => readBranches C s (fuel + 1) [r.1] r.2) true := by
    refine congrFun ?_ true
    conv_lhs => unfold readBranches
    split
    · rename_i hnone
      rw [hc] at hnone
      cases hnone
    · rename_i hparen
      rw [hc] at hparen
      exact absurd (Option.some.inj hparen) hne.2
    · rename_i d _ hd
      rw [hc] at hd
      obtain rfl := Option.some.inj hd
      simp [hne.1]
  have hend : readBranches C s (fuel + 1) [re] s.length true = .ok ((.or [re], s.length), true) := by
    simp [readBranches]
    rfl
  have hlength : ¬ s.length ≤ 0 := by
    rintro h
    simp [List.eq_nil_of_length_eq_zero (Nat.le_zero.mp h)] at hc
  rw [readPattern, if_neg hlength, hbranches]
  change (readBranch C s (fuel + 1) [] 0 true >>= fun r => readBranches C s (fuel + 1) [r.1.1] r.1.2 r.2) = _
  rw [hbranch]
  exact hend

theorem length_le_quote (t : List Char) : t.length ≤ (pregexpQuote t).length := by
  induction t with
  | nil => exact Nat.le_refl 0
  | cons c t ih =>
    simp only [pregexpQuote, List.foldr_cons] at ih ⊢
    split
    · simp only [List.length_cons]
      omega
    · simp only [List.length_cons]
      omega

theorem quote_first (c : Char) (t : List Char) : ∃ d, (pregexpQuote (c :: t))[0]? = some d ∧ d ≠ '|' ∧ d ≠ ')' := by
  simp only [pregexpQuote, List.foldr_cons]
  split
  · exact ⟨'\\', rfl, by decide⟩
  · rename_i hc
    exact ⟨c, rfl, by rintro rfl; exact hc (by decide), by rintro rfl; exact hc (by decide)⟩

theorem pregexp_quote (t : List Char) (hnum : ∀ c ∈ t, quoted c = true → C.numeric c = false) :
    pregexp C (pregexpQuote t) = .ok (literal t) := by
  have hle := length_le_quote t
  have hread : readPattern C (pregexpQuote t) (5 * ((pregexpQuote t).length + 1)) 0 true =
      .ok ((.or [.seq (t.map .char)], (pregexpQuote t).length), true) := by
    cases t with
    | nil =>
      simp only [readPattern, pregexpQuote, List.foldr_nil, List.length_nil]
      rfl
    | cons c t =>
      have hbranch := readBranch_quote (C := C) (c :: t) hnum [] [] (5 * (pregexpQuote (c :: t)).length + 3) rfl (by omega)
      obtain ⟨d, hd, hne⟩ := quote_first c t
      exact readPattern_branch hd hne hbranch
  unfold pregexp
  change (readPattern C (pregexpQuote t) (5 * ((pregexpQuote t).length + 1)) 0 true >>= fun r => pure (Re.sub 0 r.1.1)) = _
  rw [hread]
  rfl

/-- The string t stands in s at i, before n. -/
def OccursAt (s t : List Char) (n i : Nat) : Prop := i + t.length ≤ n ∧ (s.drop i).take t.length = t

theorem occursAt_cons {c : Char} {n i : Nat} : OccursAt s (c :: t) n i ↔ (i < n ∧ s[i]? = some c) ∧ OccursAt s t n (i + 1) := by
  have hdrop : (s.drop i).take (t.length + 1) = c :: t ↔ s[i]? = some c ∧ (s.drop (i + 1)).take t.length = t := by
    cases hs : s.drop i with
    | nil =>
      have hnone : s[i]? = none := by
        rw [← Nat.add_zero i, ← List.getElem?_drop, hs]
        rfl
      simp [hnone]
    | cons d rest =>
      have hsome : s[i]? = some d := by
        rw [← Nat.add_zero i, ← List.getElem?_drop, hs]
        rfl
      have hrest : s.drop (i + 1) = rest := by
        rw [← List.drop_drop, hs]
        rfl
      simp [hsome, hrest]
  unfold OccursAt
  rw [List.length_cons, hdrop]
  constructor
  · rintro ⟨hle, hc, ht⟩
    exact ⟨⟨by omega, hc⟩, by omega, ht⟩
  · rintro ⟨⟨-, hc⟩, hle, ht⟩
    exact ⟨by omega, hc, ht⟩

theorem matchesSeq_chars {start n : Nat} (t : List Char) {i j : Nat} (hi : i ≤ n) :
    MatchesSeq C s start n (t.map .char) i j ↔ j = i + t.length ∧ OccursAt s t n i := by
  induction t generalizing i with
  | nil => simp [MatchesSeq, OccursAt, hi]
  | cons c t ih =>
    rw [occursAt_cons]
    simp only [List.map_cons, MatchesSeq, Matches, InSet, accepts, beq_iff_eq, List.length_cons]
    constructor
    · rintro ⟨k, ⟨⟨hlt, d, hd, rfl⟩, rfl⟩, hrest⟩
      obtain ⟨hj, hoccurs⟩ := (ih hlt).mp hrest
      exact ⟨by omega, ⟨hlt, hd⟩, hoccurs⟩
    · rintro ⟨hj, ⟨hlt, hc⟩, hoccurs⟩
      exact ⟨i + 1, ⟨⟨hlt, c, hc, rfl⟩, rfl⟩, (ih hlt).mpr ⟨by omega, hoccurs⟩⟩

theorem literal_plain (t : List Char) : plainAll (t.map .char) = true ∧ guardedAll (t.map .char) = true ∧
    numberedAll (t.map .char) = true ∧ makeBackrefLists (t.map .char) = [] := by
  induction t with
  | nil => exact ⟨rfl, rfl, rfl, rfl⟩
  | cons c t ih => simpa [plainAll, guardedAll, numberedAll, makeBackrefLists, makeBackrefList, Re.plain, Re.guarded, Re.numbered] using ih

/-- The quoted string matches where the string occurs first, and nowhere else. -/
theorem matchPositions_quote {start n fuel : Nat} (t : List Char) (hnum : ∀ c ∈ t, quoted c = true → C.numeric c = false)
    (hs : n ≤ s.length) (hfuel : n < fuel) :
    ∃ re, pregexp C (pregexpQuote t) = .ok re ∧
      ((matchPositions C s fuel re start n = .ok none ∧ ∀ i, start ≤ i → ¬ OccursAt s t n i) ∨
        ∃ i, matchPositions C s fuel re start n = .ok (some [some (i, i + t.length)]) ∧ start ≤ i ∧ OccursAt s t n i ∧
          ∀ k, start ≤ k → k < i → ¬ OccursAt s t n k) := by
  refine ⟨literal t, pregexp_quote t hnum, ?_⟩
  obtain ⟨hplain, hguarded, hnumbered, hgroups⟩ := literal_plain t
  have hmatch : ∀ i j, i ≤ n → (Matches C s start n (.or [.seq (t.map .char)]) i j ↔ j = i + t.length ∧ OccursAt s t n i) := by
    intro i j hi
    simpa [Matches, MatchesOr] using matchesSeq_chars t hi
  have hlefts := @matchPositions_leftmost C s start n fuel 0 hs (.or [.seq (t.map .char)])
    (by simp [Re.plain, plainAll, hplain]) (by simp [makeBackrefList, makeBackrefLists, hgroups])
  obtain ⟨hgives, hsome, hnone⟩ := hlefts
  have hwithin := @matchPositions_answers C s start fuel n (literal t) hs
    (by simp [literal, Re.numbered, numberedAll, hnumbered]) (by simp [literal, makeBackrefList])
  obtain ⟨out, hout⟩ := hgives (by simp [Re.guarded, guardedAll, hguarded]) hfuel
  change matchPositions C s fuel (literal t) start n = _ at hout
  cases out with
  | none =>
    refine .inl ⟨hout, fun i hi hoccurs => ?_⟩
    have hle : i ≤ n := by
      have hle := hoccurs.1
      omega
    exact hnone hout i hi hle (i + t.length) ((hmatch i _ hle).mpr ⟨rfl, hoccurs⟩)
  | some spans =>
    obtain ⟨i, j, rest, rfl, hi, hij, hleast⟩ := hsome spans hout
    rw [hout] at hwithin
    have hgroup : rest = [] := by
      simpa [literal, makeBackrefList, makeBackrefLists, hgroups] using hwithin.groups
    have hle : i ≤ n := by
      have hspan := hwithin.within i j (by simp)
      omega
    obtain ⟨rfl, hoccurs⟩ := (hmatch i j hle).mp hij
    subst hgroup
    refine .inr ⟨i, hout, hi, hoccurs, fun k hk hki hk' => ?_⟩
    exact hleast k hk hki (k + t.length) ((hmatch k _ (by omega)).mpr ⟨rfl, hk'⟩)

/-- Nothing that is quoted is a digit. -/
theorem quoted_ascii (c : Char) (h : quoted c = true) : ascii.numeric c = false := by
  simp [quoted] at h
  rcases h with rfl | rfl | rfl | rfl | rfl | rfl | rfl | rfl | rfl | rfl | rfl | rfl | rfl | rfl <;> rfl

theorem matchPositions_quote_dot : OccursAt ['a', '.', '.'] ['.'] 3 1 ∧
    ∃ re, pregexp ascii ['\\', '.'] = .ok re ∧ matchPositions ascii ['a', '.', '.'] 4 re 0 3 = .ok (some [some (1, 2)]) := by
  obtain ⟨re, hre, h⟩ := @matchPositions_quote ascii ['a', '.', '.'] 0 3 4 ['.'] (fun c _ => quoted_ascii c) (by decide) (by decide)
  have hone : OccursAt ['a', '.', '.'] ['.'] 3 1 := ⟨by decide, by decide⟩
  refine ⟨hone, re, hre, ?_⟩
  rcases h with ⟨-, hno⟩ | ⟨i, hi, -, hat, hfirst⟩
  · exact absurd hone (hno 1 (by decide))
  · have hzero : ¬ OccursAt ['a', '.', '.'] ['.'] 3 0 := fun h => absurd h.2 (by decide)
    obtain rfl : i = 1 := by
      by_contra hne
      rcases Nat.lt_or_gt_of_ne hne with hlt | hlt
      · obtain rfl : i = 0 := by omega
        exact hzero hat
      · exact hfirst 1 (by decide) hlt hone
    exact hi

end Swish.Pregexp
