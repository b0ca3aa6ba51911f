import Swish.Pregexp.Quote
import Swish.Pregexp.Split

/-!
pregexp-split and pregexp-replace* with a quoted string: they split at the string, and put another
one in its place.
-/

set_option autoImplicit false

namespace Swish.Pregexp

open Lib

variable {C : Chars} {s t : List Char} {fuel n i j : Nat}

theorem part_eq_drop (i : Nat) : part s i s.length = s.drop i := by simp [part]

theorem drop_eq_part_append (hij : i ≤ j) : s.drop i = part s i j ++ s.drop j := by
  have happ := List.take_append_drop (j - i) (s.drop i)
  rw [List.drop_drop, Nat.add_sub_cancel' hij, List.take_drop, Nat.add_sub_cancel' hij] at happ
  exact happ.symm

theorem occursAt_iff : OccursAt s t n i ↔ i + t.length ≤ n ∧ part s i (i + t.length) = t := by
  unfold OccursAt part
  rw [List.take_drop]

/-- A string that stands in a part of another stands in that one. -/
theorem occursAt_of_infix (hj : j ≤ s.length) (hij : i ≤ j) (h : t <:+: part s i j) :
    ∃ k, i ≤ k ∧ k + t.length ≤ j ∧ OccursAt s t s.length k := by
  obtain ⟨before, after, h⟩ := h
  have hlength : before.length + t.length + after.length = j - i := by
    have hlen := congrArg List.length h
    simp only [part, List.length_append, List.length_drop, List.length_take, Nat.min_eq_left hj] at hlen
    exact hlen
  refine ⟨i + before.length, by omega, by omega, by omega, ?_⟩
  have hdrop : s.drop i = before ++ (t ++ (after ++ s.drop j)) := by
    rw [drop_eq_part_append hij, ← h]
    simp
  rw [← List.drop_drop, hdrop, List.drop_left, List.take_left]

/-- What pregexp-match-positions reports of a quoted string. -/
theorem search_literal (t : List Char) (hnum : ∀ c ∈ t, quoted c = true → C.numeric c = false) (hfuel : s.length < fuel) (i : Nat) :
    (matchPositions C s fuel (literal t) i s.length = .ok none ∧ ∀ k, i ≤ k → ¬ OccursAt s t s.length k) ∨
      ∃ j, matchPositions C s fuel (literal t) i s.length = .ok (some [some (j, j + t.length)]) ∧ i ≤ j ∧ OccursAt s t s.length j ∧
        ∀ k, i ≤ k → k < j → ¬ OccursAt s t s.length k := by
  obtain ⟨re, hre, hfound⟩ := @matchPositions_quote C s i s.length fuel t hnum (Nat.le_refl s.length) hfuel
  obtain rfl : literal t = re := by
    rw [pregexp_quote t hnum] at hre
    exact Except.ok.inj hre
  exact hfound

/-- What stands between the occurrences of t, from i on. -/
structure Gaps (s t : List Char) (i : Nat) (gaps : List (List Char)) : Prop where
  some : gaps ≠ []
  cover : t.intercalate gaps = s.drop i
  free : ∀ gap ∈ gaps, ¬ t <:+: gap

theorem gaps_none (hi : i ≤ s.length) (h : ∀ k, i ≤ k → ¬ OccursAt s t s.length k) : Gaps s t i [s.drop i] where
  some := by simp
  cover := by simp
  free := by
    intro gap hgap hinfix
    rw [List.mem_singleton.mp hgap, ← part_eq_drop] at hinfix
    obtain ⟨k, hik, -, hk⟩ := occursAt_of_infix (Nat.le_refl _) hi hinfix
    exact h k hik hk

theorem gaps_end (ht : t ≠ []) (hi : s.length ≤ i) : Gaps s t i [[]] where
  some := by simp
  cover := by simp [List.drop_of_length_le hi]
  free := by simpa using ht

theorem intercalate_cons (sep gap : List Char) {gaps : List (List Char)} (h : gaps ≠ []) :
    sep.intercalate (gap :: gaps) = gap ++ sep ++ sep.intercalate gaps := by
  obtain ⟨g, gs, rfl⟩ := List.exists_cons_of_ne_nil h
  exact List.intercalate_cons_cons

theorem Gaps.cons {gaps : List (List Char)} (h : Gaps s t (j + t.length) gaps) (ht : t ≠ []) (hij : i ≤ j)
    (hj : OccursAt s t s.length j) (hfirst : ∀ k, i ≤ k → k < j → ¬ OccursAt s t s.length k) :
    Gaps s t i (part s i j :: gaps) where
  some := by simp
  cover := by
    have hhere : t = part s j (j + t.length) := (occursAt_iff.mp hj).2.symm
    rw [intercalate_cons _ _ h.some, h.cover, drop_eq_part_append hij, drop_eq_part_append (Nat.le_add_right j t.length), ← hhere,
      List.append_assoc]
  free := by
    intro gap hgap
    rcases List.mem_cons.mp hgap with rfl | hgap
    · intro hinfix
      have hlength : 0 < t.length := List.length_pos_iff.mpr ht
      have hle := hj.1
      obtain ⟨k, hik, hkj, hk⟩ := occursAt_of_infix (by omega) hij hinfix
      exact hfirst k hik (by omega) hk
    · exact h.free gap hgap

/-- An insertion without backslashes is put on the port as it is. -/
theorem replaceAux_plain (ins : List Char) (backrefs : List (Option (Nat × Nat))) (turns i : Nat) (h : '\\' ∉ ins)
    (hturns : ins.length - i < turns) : replaceAux C s ins backrefs turns i = .ok (ins.drop i) := by
  induction turns generalizing i with
  | zero => omega
  | succ turns ih =>
    unfold replaceAux
    cases hc : ins[i]? with
    | none =>
      have hlength : ins.length ≤ i := by simpa using hc
      simp [List.drop_of_length_le hlength]
    | some c =>
      obtain ⟨hlt, hget⟩ := List.getElem?_eq_some_iff.mp hc
      have hne : c ≠ '\\' := fun heq => h (heq ▸ hget ▸ List.getElem_mem hlt)
      rw [List.drop_eq_getElem_cons hlt, hget]
      simp only [hne, if_false, ih (i + 1) (by omega)]
      rfl

variable {ins : List Char}

theorem replaceLoop_literal (ht : t ≠ []) (hnum : ∀ c ∈ t, quoted c = true → C.numeric c = false) (hfuel : s.length < fuel)
    (hins : '\\' ∉ ins) (turns : Nat) :
    ∀ (i : Nat) (p : List Char), s.length - i < turns → (i = 0 → p = []) →
      ∃ gaps, Gaps s t i gaps ∧ replaceLoop C s fuel (literal t) ins turns i p = .ok (p ++ ins.intercalate gaps) := by
  induction turns with
  | zero => exact fun _ _ h => by omega
  | succ turns ih =>
    intro i p hturns hp
    unfold replaceLoop
    by_cases hi : s.length ≤ i
    · exact ⟨[[]], gaps_end ht hi, by simp [hi]⟩
    · rw [if_neg hi]
      rcases search_literal t hnum hfuel i with ⟨hnone, hno⟩ | ⟨j, hfound, hij, hj, hfirst⟩
      · refine ⟨[s.drop i], gaps_none (by omega) hno, ?_⟩
        rw [hnone]
        by_cases hzero : i = 0
        · subst hzero
          simp only [hp rfl, List.intercalate_singleton, List.nil_append, List.drop_zero, bind, Except.bind, if_true]
          rfl
        · simp only [hzero, if_false, substring_part (by omega : i ≤ s.length) (Nat.le_refl _), part_eq_drop,
            List.intercalate_singleton, bind, Except.bind]
          rfl
      · have hlength : 0 < t.length := List.length_pos_iff.mpr ht
        have hle := hj.1
        obtain ⟨gaps, hgaps, hrest⟩ := ih (j + t.length) (p ++ part s i j ++ ins) (by omega) (by omega)
        refine ⟨part s i j :: gaps, hgaps.cons ht hij hj hfirst, ?_⟩
        rw [hfound, intercalate_cons _ _ hgaps.some]
        simp only [wholeMatch, substring_part hij (by omega : j ≤ s.length), replaceAux_plain ins _ (ins.length + 1) 0 hins (by omega),
          List.drop_zero, bind, Except.bind, hrest]
        simp

/-- pregexp-replace* of a quoted string: the string comes apart at the occurrences of t, and ins stands in their place. -/
theorem pregexpReplaceAll_literal (ht : t ≠ []) (hnum : ∀ c ∈ t, quoted c = true → C.numeric c = false) (hfuel : s.length < fuel)
    (hins : '\\' ∉ ins) :
    ∃ re gaps, pregexp C (pregexpQuote t) = .ok re ∧ (∀ gap ∈ gaps, ¬ t <:+: gap) ∧ t.intercalate gaps = s ∧
      pregexpReplaceAll C s fuel re ins = .ok (ins.intercalate gaps) := by
  obtain ⟨gaps, hgaps, hout⟩ := replaceLoop_literal ht hnum hfuel hins (s.length + 1) 0 [] (by omega) (fun _ => rfl)
  exact ⟨literal t, gaps, pregexp_quote t hnum, hgaps.free, by simpa using hgaps.cover, hout⟩

/-- The pieces of the gaps: an empty one at the end is left out. -/
def piecesOf (gaps : List (List Char)) : List (List Char) := if gaps.getLast? = some [] then gaps.dropLast else gaps

theorem piecesOf_cons {gap : List Char} {gaps : List (List Char)} (h : gaps ≠ []) : piecesOf (gap :: gaps) = gap :: piecesOf gaps := by
  obtain ⟨g, gs, rfl⟩ := List.exists_cons_of_ne_nil h
  simp only [piecesOf, List.getLast?_cons_cons, List.dropLast_cons_cons]
  split <;> rfl

theorem splitLoop_literal (ht : t ≠ []) (hnum : ∀ c ∈ t, quoted c = true → C.numeric c = false) (hfuel : s.length < fuel)
    (turns : Nat) :
    ∀ (i : Nat) (r : List (List Char)), s.length - i < turns →
      ∃ gaps, Gaps s t i gaps ∧ splitLoop C s fuel (literal t) turns i r false = .ok (r.reverse ++ piecesOf gaps) := by
  induction turns with
  | zero => exact fun _ _ h => by omega
  | succ turns ih =>
    intro i r hturns
    unfold splitLoop
    by_cases hi : s.length ≤ i
    · exact ⟨[[]], gaps_end ht hi, by simp [hi, piecesOf]⟩
    · rw [if_neg hi]
      rcases search_literal t hnum hfuel i with ⟨hnone, hno⟩ | ⟨j, hfound, hij, hj, hfirst⟩
      · refine ⟨[s.drop i], gaps_none (by omega) hno, ?_⟩
        have hne : s.drop i ≠ [] := by simpa using hi
        obtain ⟨turns, rfl⟩ : ∃ u, turns = u + 1 := ⟨turns - 1, by omega⟩
        rw [hnone]
        simp only [substring_part (by omega : i ≤ s.length) (Nat.le_refl _), part_eq_drop, bind, Except.bind, splitLoop,
          Nat.le_refl, if_true]
        simp [piecesOf, hne]
      · have hlength : 0 < t.length := List.length_pos_iff.mpr ht
        have hle := hj.1
        obtain ⟨gaps, hgaps, hrest⟩ := ih (j + t.length) (part s i j :: r) (by omega)
        refine ⟨part s i j :: gaps, hgaps.cons ht hij hj hfirst, ?_⟩
        have hne : j ≠ j + t.length := by omega
        rw [hfound, piecesOf_cons hgaps.some]
        simp only [wholeMatch, hne, if_false, Bool.and_false, Bool.false_eq_true, substring_part hij (by omega : j ≤ s.length), bind,
          Except.bind, hrest]
        simp

/-- pregexp-split at a quoted string: the pieces stand between the occurrences of t. -/
theorem pregexpSplit_literal (ht : t ≠ []) (hnum : ∀ c ∈ t, quoted c = true → C.numeric c = false) (hfuel : s.length < fuel) :
    ∃ re gaps, pregexp C (pregexpQuote t) = .ok re ∧ (∀ gap ∈ gaps, ¬ t <:+: gap) ∧ t.intercalate gaps = s ∧
      pregexpSplit C s fuel re = .ok (piecesOf gaps) := by
  obtain ⟨gaps, hgaps, hout⟩ := splitLoop_literal ht hnum hfuel (s.length + 2) 0 [] (by omega)
  exact ⟨literal t, gaps, pregexp_quote t hnum, hgaps.free, by simpa using hgaps.cover, hout⟩

theorem pregexpSplit_literal_dots : ∃ re, pregexp ascii ['\\', '.'] = .ok re ∧
    ∃ pieces, pregexpSplit ascii ['a', '.', 'b', '.'] 5 re = .ok pieces := by
  obtain ⟨re, gaps, hre, -, -, h⟩ := @pregexpSplit_literal ascii ['a', '.', 'b', '.'] ['.'] 5 (by simp) (fun c _ => quoted_ascii c)
    (by simp)
  exact ⟨re, hre, piecesOf gaps, h⟩

theorem pregexpReplaceAll_literal_dots : ∃ re, pregexp ascii ['\\', '.'] = .ok re ∧
    ∃ gaps, ['.'].intercalate gaps = ['a', '.', 'b', '.'] ∧
      pregexpReplaceAll ascii ['a', '.', 'b', '.'] 5 re ['-', '-'] = .ok (['-', '-'].intercalate gaps) := by
  obtain ⟨re, gaps, hre, -, hcover, h⟩ := @pregexpReplaceAll_literal ascii ['a', '.', 'b', '.'] ['.'] 5 ['-', '-'] (by simp)
    (fun c _ => quoted_ascii c) (by simp) (by simp)
  exact ⟨re, hre, gaps, hcover, h⟩

end Swish.Pregexp
