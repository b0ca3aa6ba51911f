import Mathlib.Data.List.Basic

/-!
Paths with / between their components, and their lexical normal form: empty components
and . are left out, and .. takes away the component before it.
-/

set_option autoImplicit false

namespace LexicalPath

/-- The pieces between the separators. -/
def split (sep : Char) : List Char → List (List Char)
  | [] => [[]]
  | c :: s => if c = sep then [] :: split sep s else (split sep s).modifyHead (c :: ·)

def isAbsolute (s : List Char) : Bool := s.head? == some '/'

/-- Go on to the component c. At the top of an absolute path .. stays there. -/
def enter (absolute : Bool) (stack : List (List Char)) (c : List Char) : List (List Char) :=
  if c = [] ∨ c = ['.'] then stack
  else if c = ['.', '.'] then
    if stack = [] ∨ stack.getLast? = some ['.', '.'] then if absolute then stack else stack ++ [c]
    else stack.dropLast
  else stack ++ [c]

def normalise (s : List Char) : List (List Char) := (split '/' s).foldl (enter (isAbsolute s)) []

/-- The path is strictly below the root when both are in normal form. -/
def Below (root s : List Char) : Prop :=
  isAbsolute s = isAbsolute root ∧ normalise root <+: normalise s ∧ (normalise root).length < (normalise s).length

theorem split_ne_nil (sep : Char) (s : List Char) : split sep s ≠ [] := by
  induction s with
  | nil => simp [split]
  | cons c s ih =>
    rw [split]
    split
    · simp
    · simpa [List.modifyHead_eq_nil_iff] using ih

theorem modifyHead_append {α : Type} (f : α → α) {l : List α} (h : l ≠ []) (l' : List α) :
    (l ++ l').modifyHead f = l.modifyHead f ++ l' := by
  cases l with
  | nil => exact absurd rfl h
  | cons x l => rfl

theorem split_append_sep (sep : Char) (s s' : List Char) : split sep (s ++ sep :: s') = split sep s ++ split sep s' := by
  induction s with
  | nil => simp [split]
  | cons c s ih =>
    rw [List.cons_append, split, split, ih]
    by_cases hc : c = sep
    · rw [if_pos hc, if_pos hc, List.cons_append]
    · rw [if_neg hc, if_neg hc, modifyHead_append _ (split_ne_nil sep s)]

theorem split_of_not_mem {sep : Char} {s : List Char} (h : sep ∉ s) : split sep s = [s] := by
  induction s with
  | nil => rfl
  | cons c s ih =>
    have hc : c ≠ sep := fun heq => h (by simp [heq])
    rw [split, if_neg hc, ih fun hmem => h (by simp [hmem])]
    rfl

/-- Characters other than the separator go to the last piece. -/
theorem split_append (sep : Char) (s : List Char) :
    ∃ ws w, split sep s = ws ++ [w] ∧ ∀ s', sep ∉ s' → split sep (s ++ s') = ws ++ [w ++ s'] := by
  induction s with
  | nil =>
    exact ⟨[], [], rfl, fun s' h => split_of_not_mem h⟩
  | cons c s ih =>
    obtain ⟨ws, w, hs, happend⟩ := ih
    by_cases hc : c = sep
    · refine ⟨[] :: ws, w, ?_, fun s' h => ?_⟩
      · rw [split, if_pos hc, hs, List.cons_append]
      · rw [List.cons_append, split, if_pos hc, happend s' h, List.cons_append]
    · cases ws with
      | nil =>
        refine ⟨[], c :: w, ?_, fun s' h => ?_⟩
        · rw [split, if_neg hc, hs]
          rfl
        · rw [List.cons_append, split, if_neg hc, happend s' h]
          rfl
      | cons v ws =>
        refine ⟨(c :: v) :: ws, w, ?_, fun s' h => ?_⟩
        · rw [split, if_neg hc, hs]
          rfl
        · rw [List.cons_append, split, if_neg hc, happend s' h]
          rfl

/-- Without .. the components are added to the stack. -/
theorem foldl_enter (absolute : Bool) {ws : List (List Char)} (h : ['.', '.'] ∉ ws) (stack : List (List Char)) :
    ws.foldl (enter absolute) stack = stack ++ ws.filter (fun w => w ≠ [] ∧ w ≠ ['.']) := by
  induction ws generalizing stack with
  | nil => simp
  | cons w ws ih =>
    have hw : ¬ w = ['.', '.'] := fun heq => h (by simp [heq])
    rw [List.foldl_cons, ih fun hmem => h (by simp [hmem])]
    by_cases hskip : w = [] ∨ w = ['.']
    · have hfilter : ¬ (w ≠ [] ∧ w ≠ ['.']) := by
        intro hboth
        obtain h1 | h1 := hskip
        · exact hboth.1 h1
        · exact hboth.2 h1
      rw [List.filter_cons_of_neg (by simpa using hfilter)]
      unfold enter
      rw [if_pos hskip]
    · have hfilter : w ≠ [] ∧ w ≠ ['.'] := ⟨fun h1 => hskip (Or.inl h1), fun h1 => hskip (Or.inr h1)⟩
      rw [List.filter_cons_of_pos (by simpa using hfilter)]
      unfold enter
      rw [if_neg hskip, if_neg hw, List.append_assoc, List.singleton_append]

/-- A path below the root: no component is .., and the last one is a name. -/
theorem below_append {root s : List Char} (hroot : root ≠ []) {ws : List (List Char)} {w : List Char}
    (hs : split '/' s = ws ++ [w]) (hws : ['.', '.'] ∉ ws) (hne : w ≠ []) (hdot : w ≠ ['.']) (hparent : w ≠ ['.', '.']) :
    Below root (root ++ '/' :: s) := by
  have habs : isAbsolute (root ++ '/' :: s) = isAbsolute root := by
    cases root with
    | nil => exact absurd rfl hroot
    | cons c root => rfl
  have hnormal : normalise (root ++ '/' :: s) =
      normalise root ++ (ws ++ [w]).filter (fun w => w ≠ [] ∧ w ≠ ['.']) := by
    unfold normalise
    rw [habs, split_append_sep, List.foldl_append, hs, foldl_enter]
    intro hmem
    obtain hmem | hmem := List.mem_append.mp hmem
    · exact hws hmem
    · exact hparent (List.mem_singleton.mp hmem).symm
  refine ⟨habs, ?_, ?_⟩
  · rw [hnormal]
    exact List.prefix_append _ _
  · have hw : w ∈ (ws ++ [w]).filter (fun w => w ≠ [] ∧ w ≠ ['.']) :=
      List.mem_filter.mpr ⟨List.mem_append_right _ (List.mem_singleton_self w), by simp [hne, hdot]⟩
    have hpos := List.length_pos_of_mem hw
    rw [hnormal, List.length_append]
    omega

end LexicalPath
