import Swish.Lib.Except
import Swish.Pregexp.Groups

/-!
pregexp-split and pregexp-replace*: the string comes apart into what a pattern matches and what
stands between the matches.
-/

set_option autoImplicit false

namespace Swish.Pregexp

section

variable (C : Chars) (s : List Char) (fuel : Nat) (re : Re)

/-- (car y), for the positions y that a search returns: the whole match. -/
def wholeMatch : List (Option (Nat × Nat)) → Except Failure (Nat × Nat)
  | some p :: _ => .ok p
  | _ => .error .notValid

/-- The loop of pregexp-split; picked tells that the last piece is one character with no delimiter after it. -/
def splitLoop : Nat → Nat → List (List Char) → Bool → Except Failure (List (List Char))
  | 0, _, _, _ => .error .outOfFuel
  | turns + 1, i, r, picked =>
    if s.length ≤ i then .ok r.reverse
    else do
      match ← matchPositions C s fuel re i s.length with
      | some y =>
        let (j, k) ← wholeMatch y
        if j = k then
          let piece ← substring s i (j + 1)
          splitLoop turns (k + 1) (piece :: r) true
        else if j = i && picked then splitLoop turns k r false
        else
          let piece ← substring s i j
          splitLoop turns k (piece :: r) false
      | none =>
        let piece ← substring s i s.length
        splitLoop turns s.length (piece :: r) false

def pregexpSplit : Except Failure (List (List Char)) := splitLoop C s fuel re (s.length + 2) 0 [] false

/-- What pregexp-replace-aux puts on the port for the insertion ins from i on. -/
def replaceAux (ins : List Char) (backrefs : List (Option (Nat × Nat))) : Nat → Nat → Except Failure (List Char)
  | 0, _ => .error .outOfFuel
  | turns + 1, i =>
    match ins[i]? with
    | none => .ok []
    | some c =>
      if c = '\\' then do
        let (br, i) ← match readEscapedNumber C ins i with
          | some brI => pure brI
          | none => do
            let d ← stringRef ins (i + 1)
            if d = '&' then pure (some 0, i + 2) else pure (none, i + 1)
        match br with
        | none => do
          let c2 ← stringRef ins i
          let rest ← replaceAux ins backrefs turns (i + 1)
          pure (if c2 = '$' then rest else c2 :: rest)
        | some br => do
          let matched ← substringIfAny s (backrefs[br]?.join)
          let rest ← replaceAux ins backrefs turns i
          pure (matched.getD [] ++ rest)
      else do
        let rest ← replaceAux ins backrefs turns (i + 1)
        pure (c :: rest)

def pregexpReplace (ins : List Char) : Except Failure (List Char) := do
  match ← matchPositions C s fuel re 0 s.length with
  | none => pure s
  | some pp => do
    let (i, n) ← wholeMatch pp
    let before ← substring s 0 i
    let inserted ← replaceAux C s ins pp (ins.length + 1) 0
    let after ← substring s n s.length
    pure (before ++ inserted ++ after)

/-- The loop of pregexp-replace*, with what is on the port. -/
def replaceLoop (ins : List Char) : Nat → Nat → List Char → Except Failure (List Char)
  | 0, _, _ => .error .outOfFuel
  | turns + 1, i, p =>
    if s.length ≤ i then .ok p
    else do
      match ← matchPositions C s fuel re i s.length with
      | some pp =>
        let (j, k) ← wholeMatch pp
        let before ← substring s i j
        let inserted ← replaceAux C s ins pp (ins.length + 1) 0
        replaceLoop ins turns k (p ++ before ++ inserted)
      | none =>
        if i = 0 then pure s
        else
          let rest ← substring s i s.length
          pure (p ++ rest)

def pregexpReplaceAll (ins : List Char) : Except Failure (List Char) := replaceLoop C s fuel re ins (s.length + 1) 0 []

end

open Lib

variable {C : Chars} {s : List Char} {fuel : Nat} {re : Re}

/-- The part of the string from i to j. -/
def part (s : List Char) (i j : Nat) : List Char := (s.take j).drop i

theorem take_append_part {i j : Nat} (h : i ≤ j) : s.take i ++ part s i j = s.take j := by
  have happ := List.take_append_drop i (s.take j)
  rwa [List.take_take, Nat.min_eq_left h] at happ

theorem substring_part {i j : Nat} (hij : i ≤ j) (hj : j ≤ s.length) : substring s i j = .ok (part s i j) := if_pos ⟨hij, hj⟩

/-- What pregexp-match-positions reports for the search from i. -/
def Reported (C : Chars) (s : List Char) (fuel : Nat) (re : Re) (i j k : Nat) (groups : List (Option (Nat × Nat))) : Prop :=
  matchPositions C s fuel re i s.length = .ok (some (some (j, k) :: groups))

/-- Nothing, or what the pattern matches. -/
def Delimiter (C : Chars) (s : List Char) (fuel : Nat) (re : Re) (d : List Char) : Prop :=
  d = [] ∨ ∃ i j k groups, Reported C s fuel re i j k groups ∧ j < k ∧ d = part s j k

/-- The string up to i, in pieces with what follows each. -/
structure Parts (C : Chars) (s : List Char) (fuel : Nat) (re : Re) (i : Nat) (pieces : List (List Char)) (picked : Bool)
    (parts : List (List Char × List Char)) : Prop where
  pieces : parts.map (·.1) = pieces
  cover : parts.flatMap (fun p => p.1 ++ p.2) = s.take i
  delimiters : ∀ p ∈ parts, Delimiter C s fuel re p.2
  last : picked = true → ∃ init piece, parts = init ++ [(piece, [])]

/-- Another piece, with what follows it. -/
theorem Parts.add {i j k : Nat} {pieces : List (List Char)} {picked picked' : Bool} {parts : List (List Char × List Char)}
    (h : Parts C s fuel re i pieces picked parts) (hij : i ≤ j) (hjk : j ≤ k) (hd : Delimiter C s fuel re (part s j k))
    (hlast : picked' = true → part s j k = []) :
    Parts C s fuel re k (pieces ++ [part s i j]) picked' (parts ++ [(part s i j, part s j k)]) where
  pieces := by simp [h.pieces]
  cover := by
    simp only [List.flatMap_append, List.flatMap_cons, List.flatMap_nil, List.append_nil, h.cover]
    rw [← List.append_assoc, take_append_part hij, take_append_part hjk]
  delimiters := by
    intro p hp
    rcases List.mem_append.mp hp with hp | hp
    · exact h.delimiters p hp
    · rw [List.mem_singleton.mp hp]
      exact hd
  last := fun hp => ⟨parts, part s i j, by rw [hlast hp]⟩

/-- A delimiter right after a piece of one character. -/
theorem Parts.extend {i k : Nat} {pieces : List (List Char)} {parts : List (List Char × List Char)}
    (h : Parts C s fuel re i pieces true parts) (hik : i ≤ k) (hd : Delimiter C s fuel re (part s i k)) :
    ∃ parts', Parts C s fuel re k pieces false parts' := by
  obtain ⟨init, piece, rfl⟩ := h.last rfl
  refine ⟨init ++ [(piece, part s i k)], ?_, ?_, ?_, fun hp => by cases hp⟩
  · simpa using h.pieces
  · have hcover := h.cover
    simp only [List.flatMap_append, List.flatMap_cons, List.flatMap_nil, List.append_nil] at hcover ⊢
    rw [← List.append_assoc, hcover, take_append_part hik]
  · intro p hp
    rcases List.mem_append.mp hp with hp | hp
    · exact h.delimiters p (List.mem_append_left _ hp)
    · rw [List.mem_singleton.mp hp]
      exact hd

/-- Every search has an answer, and no match is empty. -/
structure Regular (C : Chars) (s : List Char) (fuel : Nat) (re : Re) : Prop where
  numbered : re.numbered = true
  group : makeBackrefList re ≠ []
  answers : ∀ i, ∃ out, matchPositions C s fuel re i s.length = .ok out
  consumes : ∀ i j k groups, Reported C s fuel re i j k groups → j < k

theorem Regular.search (h : Regular C s fuel re) (i : Nat) :
    matchPositions C s fuel re i s.length = .ok none ∨
      ∃ j k groups, Reported C s fuel re i j k groups ∧ i ≤ j ∧ j < k ∧ k ≤ s.length := by
  obtain ⟨out, hout⟩ := h.answers i
  have hanswers := @matchPositions_answers C s i fuel s.length re (Nat.le_refl s.length) h.numbered h.group
  cases out with
  | none => exact .inl hout
  | some y =>
    right
    rw [hout] at hanswers
    obtain ⟨⟨j, k⟩, groups, rfl⟩ := hanswers.whole
    have hspan := hanswers.within j k List.mem_cons_self
    exact ⟨j, k, groups, hout, hspan.1, h.consumes i j k groups hout, hspan.2.2⟩

/-- A plain pattern that has no empty match, with the fuel that suffices. -/
theorem regular_of_plain {key : Nat} (hp : re.plain = true) (hg : re.guarded = true) (hn : re.nullable = false)
    (hid : (some key, none) ∉ makeBackrefList re) (hv : re.numbered = true) (hfuel : s.length < fuel) :
    Regular C s fuel (.sub key re) where
  numbered := hv
  group := by simp [makeBackrefList]
  answers := fun i => (matchPositions_leftmost (Nat.le_refl s.length) hp hid).1 hg hfuel
  consumes := by
    intro i j k groups h
    obtain ⟨j', k', rest, heq, -, hmatch, -⟩ := (matchPositions_leftmost (Nat.le_refl s.length) hp hid).2.1 _ h
    obtain ⟨⟨rfl, rfl⟩, -⟩ : (j = j' ∧ k = k') ∧ groups = rest := by simpa using heq
    exact hmatch.consumes re hn

theorem splitLoop_returns (h : Regular C s fuel re) (turns : Nat) :
    ∀ (i : Nat) (r : List (List Char)) (picked : Bool), s.length - i < turns →
      ∃ pieces, splitLoop C s fuel re turns i r picked = .ok pieces := by
  induction turns with
  | zero => exact fun _ _ _ h => by omega
  | succ turns ih =>
    intro i r picked hturns
    unfold splitLoop
    split
    · exact ⟨_, rfl⟩
    · rename_i hi
      rcases h.search i with hout | ⟨j, k, groups, hout, hij, hjk, hk⟩
      · rw [hout]
        simp only [substring_part (Nat.le_of_lt (Nat.not_le.mp hi)) (Nat.le_refl _), bind, Except.bind]
        exact ih _ _ _ (by omega)
      · unfold Reported at hout
        rw [hout]
        simp only [wholeMatch, substring_part hij (by omega : j ≤ s.length), bind, Except.bind, Nat.ne_of_lt hjk, if_false]
        split
        · exact ih _ _ _ (by omega)
        · exact ih _ _ _ (by omega)

theorem pregexpSplit_returns (h : Regular C s fuel re) : ∃ pieces, pregexpSplit C s fuel re = .ok pieces :=
  splitLoop_returns h _ 0 [] false (by omega)

/-- What stands before a match, the match, and what is put in its place. -/
structure Edit where
  before : List Char
  matched : List Char
  inserted : List Char

/-- The string up to i with its edits, and what is on the port. -/
structure Edits (C : Chars) (s : List Char) (fuel : Nat) (re : Re) (ins : List Char) (i : Nat) (p : List Char) (edits : List Edit) :
    Prop where
  cover : edits.flatMap (fun e => e.before ++ e.matched) = s.take i
  port : edits.flatMap (fun e => e.before ++ e.inserted) = p
  reported : ∀ e ∈ edits, ∃ i j k groups, Reported C s fuel re i j k groups ∧ e.before = part s i j ∧ e.matched = part s j k ∧
    replaceAux C s ins (some (j, k) :: groups) (ins.length + 1) 0 = .ok e.inserted
  first : i = 0 → edits ≠ [] → matchPositions C s fuel re 0 s.length ≠ .ok none

end Swish.Pregexp
