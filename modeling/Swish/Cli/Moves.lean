import Swish.Cli.Parse

/-!
What a call of take-opt does, and that the calls come to an end.
-/

set_option autoImplicit false

namespace Swish.Cli

variable {C : Chars} {args : List Arg} {table : List (Opt × Spec)} {conf conf' : Conf}

/-- The token is an option of the spec, by its table. -/
def Finds (table : List (Opt × Spec)) (arg : Arg) (s : Spec) : Prop :=
  (∃ c, arg = ['-', c] ∧ Assoc.find table (.short c) = some s) ∨
  ∃ l, arg = '-' :: '-' :: l ∧ Assoc.find table (.long l) = some s

/-- A token that take-opt takes for several short options. -/
def Grouped (C : Chars) (arg : Arg) : Prop :=
  shortish C arg = true ∧ startsWithDashes arg = false ∧ 2 < arg.length

/-- The calls of take-opt that are followed by another one. -/
inductive Move (C : Chars) (table : List (Opt × Spec)) : Conf → Conf → Prop where
  | failed {taken rest : List Arg} {dropped posSpecs : List Spec} {out : Out} (ht : List (Name × Value)) (f : Failure)
      (hless : taken ≠ [] ∨ dropped ≠ []) :
      Move C table ⟨taken ++ rest, dropped ++ posSpecs, out⟩ ⟨rest, posSpecs, ⟨ht, out.fails ++ [f]⟩⟩
  | ungrouped {arg : Arg} {rest : List Arg} {posSpecs : List Spec} {out : Out} (h : Grouped C arg) :
      Move C table ⟨arg :: rest, posSpecs, out⟩ ⟨ungroup arg ++ rest, posSpecs, out⟩
  | posString {arg : Arg} {rest : List Arg} {s : Spec} {posSpecs : List Spec} {out : Out} (p : String)
      (ht : s.type = .string p) :
      Move C table ⟨arg :: rest, s :: posSpecs, out⟩ ⟨rest, posSpecs, out.set s.name (.string arg)⟩
  | posList {taken rest : List Arg} {s : Spec} {posSpecs : List Spec} {out : Out} (p : Patterns)
      (ht : s.type = .list p) :
      Move C table ⟨taken ++ rest, s :: posSpecs, out⟩ ⟨rest, posSpecs, out.updateList s.name taken⟩
  | bool {input : Arg} {rest : List Arg} {s : Spec} {posSpecs : List Spec} {out : Out} (hf : Finds table input s)
      (ht : s.type = .bool) (hnew : out.ref s.name = none) :
      Move C table ⟨input :: rest, posSpecs, out⟩ ⟨rest, posSpecs, out.set s.name .true⟩
  | first {input : Arg} {rest : List Arg} {s : Spec} {posSpecs : List Spec} {out : Out} (hf : Finds table input s)
      (ht : s.type = .count) (hnew : ∀ n, out.ref s.name ≠ some (.count n)) :
      Move C table ⟨input :: rest, posSpecs, out⟩ ⟨rest, posSpecs, out.set s.name (.count 1)⟩
  | count {input : Arg} {rest : List Arg} {s : Spec} {posSpecs : List Spec} {out : Out} (n : Nat)
      (hf : Finds table input s) (ht : s.type = .count) (hold : out.ref s.name = some (.count n)) :
      Move C table ⟨input :: rest, posSpecs, out⟩ ⟨rest, posSpecs, out.set s.name (.count (n + 1))⟩
  | string {input arg : Arg} {rest : List Arg} {s : Spec} {posSpecs : List Spec} {out : Out} (p : String)
      (hf : Finds table input s) (ht : s.type = .string p) (hnew : out.ref s.name = none) :
      Move C table ⟨input :: arg :: rest, posSpecs, out⟩ ⟨rest, posSpecs, out.set s.name (.string arg)⟩
  | list {input : Arg} {taken rest : List Arg} {s : Spec} {posSpecs : List Spec} {out : Out} (p : Patterns)
      (hf : Finds table input s) (ht : s.type = .list p) :
      Move C table ⟨input :: (taken ++ rest), posSpecs, out⟩ ⟨rest, posSpecs, out.updateList s.name taken⟩

theorem takeMany_cases (C : Chars) (ls acc : List Arg) :
    ∃ taken rest, ls = taken ++ rest ∧ takeMany C ls acc = .value (acc.reverse ++ taken) rest := by
  induction ls generalizing acc with
  | nil => exact ⟨[], [], rfl, by rw [takeMany, List.append_nil]⟩
  | cons arg ls ih =>
    rw [takeMany]
    split
    · exact ⟨[], arg :: ls, rfl, by rw [List.append_nil]⟩
    · obtain ⟨taken, rest, hls, ht⟩ := ih (arg :: acc)
      refine ⟨arg :: taken, rest, congrArg (arg :: ·) hls, ?_⟩
      rw [ht, List.reverse_cons, List.append_assoc]
      rfl

/-- The loop over patterns takes arguments from the beginning. -/
theorem takePatterns_cases (C : Chars) (p : Patterns) (ls acc : List Arg) :
    ∃ taken rest, ls = taken ++ rest ∧
      (takePatterns C p ls acc = .value (acc.reverse ++ taken) rest ∨ takePatterns C p ls acc = .lacks rest) := by
  induction p generalizing ls acc with
  | none => exact ⟨[], ls, rfl, .inl (by rw [takePatterns, List.append_nil])⟩
  | rest p => exact ⟨ls, [], (List.append_nil ls).symm, .inl rfl⟩
  | many p =>
    obtain ⟨taken, rest, hls, ht⟩ := takeMany_cases C ls acc
    exact ⟨taken, rest, hls, .inl ht⟩
  | one p patterns ih =>
    cases ls with
    | nil => exact ⟨[], [], rfl, .inr rfl⟩
    | cons arg ls =>
      rw [takePatterns]
      split
      · exact ⟨[], arg :: ls, rfl, .inr rfl⟩
      · obtain ⟨taken, rest, hls, ht⟩ := ih ls (arg :: acc)
        refine ⟨arg :: taken, rest, congrArg (arg :: ·) hls, ?_⟩
        rw [List.reverse_cons, List.append_assoc] at ht
        exact ht

theorem takeList_cases (C : Chars) (input : Option Arg) (s : Spec) (p : Patterns) (ls : List Arg)
    (posSpecs : List Spec) (out : Out) :
    ∃ taken rest, ls = taken ++ rest ∧
      (takeList C input s p ls posSpecs out = .next ⟨rest, posSpecs, out.updateList s.name taken⟩ ∨
        takeList C input s p ls posSpecs out = .next ⟨rest, posSpecs, out.fail (.expectsValue input s)⟩) := by
  obtain ⟨taken, rest, hls, ht⟩ := takePatterns_cases C p ls []
  refine ⟨taken, rest, hls, ?_⟩
  unfold takeList
  cases ht with
  | inl ht =>
    rw [ht]
    exact .inl rfl
  | inr ht =>
    rw [ht]
    exact .inr rfl

theorem takePos_move {arg : Arg} {rest : List Arg} {posSpecs : List Spec} {out : Out}
    (h : takePos C args arg rest posSpecs out = .next conf') : Move C table ⟨arg :: rest, posSpecs, out⟩ conf' := by
  cases posSpecs with
  | nil =>
    cases h
    exact @Move.failed C table [arg] rest [] [] out _ _ (.inl (List.cons_ne_nil arg []))
  | cons s posSpecs =>
    unfold takePos at h
    dsimp only at h
    split at h
    · rename_i p ht
      cases h
      exact .posString p ht
    · rename_i p ht
      obtain ⟨taken, rest', hls, hcase⟩ := takeList_cases C none s p (arg :: rest) posSpecs out
      rw [hls]
      cases hcase with
      | inl hcase =>
        rw [hcase] at h
        cases h
        exact .posList p ht
      | inr hcase =>
        rw [hcase] at h
        cases h
        exact @Move.failed C table taken rest' [s] posSpecs out _ _ (.inr (List.cons_ne_nil s []))
    · cases h

theorem takeNamed_move {input : Arg} {rest : List Arg} {s : Spec} {posSpecs : List Spec} {out : Out}
    (hf : Finds table input s) (h : takeNamed C input rest s posSpecs out = .next conf') :
    Move C table ⟨input :: rest, posSpecs, out⟩ conf' := by
  have hfail : ∀ ht f, Move C table ⟨input :: rest, posSpecs, out⟩ ⟨rest, posSpecs, ⟨ht, out.fails ++ [f]⟩⟩ :=
    fun ht f => @Move.failed C table [input] rest [] posSpecs out ht f (.inl (List.cons_ne_nil input []))
  unfold takeNamed at h
  split at h
  · rename_i ht
    split at h
    · cases h
      exact hfail _ _
    · rename_i hnew
      cases h
      exact .bool hf ht (Option.not_isSome_iff_eq_none.mp hnew)
  · rename_i ht
    split at h
    · rename_i n hold
      cases h
      exact .count n hf ht hold
    · rename_i hno
      cases h
      exact .first hf ht hno
  · rename_i p ht
    cases rest with
    | nil =>
      cases h
      exact hfail _ _
    | cons arg rest =>
      dsimp only at h
      split at h
      · cases h
        exact hfail _ _
      · split at h
        · cases h
          exact @Move.failed C table [input, arg] rest [] posSpecs out _ _ (.inl (List.cons_ne_nil input _))
        · rename_i hnew
          cases h
          exact .string p hf ht (Option.not_isSome_iff_eq_none.mp hnew)
  · rename_i p ht
    obtain ⟨taken, rest', hls, hcase⟩ := takeList_cases C (some input) s p rest posSpecs out
    cases hcase with
    | inl hcase =>
      rw [hcase] at h
      cases h
      rw [hls]
      exact .list p hf ht
    | inr hcase =>
      rw [hcase] at h
      cases h
      rw [hls]
      exact @Move.failed C table (input :: taken) rest' [] posSpecs out _ _ (.inl (List.cons_ne_nil input taken))

theorem dashes_eq {arg : Arg} (h : startsWithDashes arg = true) : arg = '-' :: '-' :: arg.drop 2 := by
  obtain ⟨l, hl⟩ := List.isPrefixOf_iff_prefix.mp h
  rw [← hl]
  rfl

theorem shortish_eq {arg : Arg} (h : shortish C arg = true) (hlen : ¬2 < arg.length) : ∃ c, arg = ['-', c] := by
  cases arg with
  | nil => cases h
  | cons d arg =>
    cases arg with
    | nil =>
      simp [shortish] at h
    | cons c arg =>
      have hnil : arg = [] := by
        rw [List.length_cons, List.length_cons] at hlen
        exact List.eq_nil_of_length_eq_zero (by omega)
      subst hnil
      have hd : d = '-' := by
        simp [shortish] at h
        exact h.1
      exact ⟨c, by rw [hd]⟩

/-- What take-opt does before it calls itself. -/
theorem takeOptStep_move (h : takeOptStep C args table conf = .next conf') : Move C table conf conf' := by
  obtain ⟨ls, posSpecs, out⟩ := conf
  cases ls with
  | nil => cases h
  | cons arg rest =>
    have hfail : ∀ f, Move C table ⟨arg :: rest, posSpecs, out⟩ ⟨rest, posSpecs, out.fail f⟩ :=
      fun f => @Move.failed C table [arg] rest [] posSpecs out _ f (.inl (List.cons_ne_nil arg []))
    unfold takeOptStep at h
    dsimp only at h
    split at h
    · exact takePos_move h
    · split at h
      · rename_i hdash
        split at h
        · rename_i s hs
          exact takeNamed_move (.inr ⟨arg.drop 2, dashes_eq hdash, hs⟩) h
        · cases h
          exact hfail _
      · rename_i hdash
        split at h
        · rename_i hshort
          split at h
          · rename_i hlen
            cases h
            exact .ungrouped ⟨hshort, Bool.eq_false_iff.mpr hdash, hlen⟩
          · rename_i hlen
            obtain ⟨c, hc⟩ := shortish_eq hshort hlen
            subst hc
            split at h
            · rename_i s hs
              exact takeNamed_move (.inl ⟨c, rfl, hs⟩) h
            · cases h
              exact hfail _
        · exact takePos_move h

/-- A group of options has more weight than the options by themselves. -/
def weight : List Arg → Nat
  | [] => 0
  | arg :: ls => (if 2 < arg.length then arg.length else 1) + weight ls

def Conf.weight (conf : Conf) : Nat := Cli.weight conf.ls + conf.posSpecs.length

theorem weight_append (xs ys : List Arg) : weight (xs ++ ys) = weight xs + weight ys := by
  induction xs with
  | nil => exact (Nat.zero_add _).symm
  | cons x xs ih => rw [List.cons_append, weight, weight, ih, Nat.add_assoc]

theorem weight_cons_pos (arg : Arg) (ls : List Arg) : weight ls < weight (arg :: ls) := by
  rw [weight]
  split
  · omega
  · omega

theorem weight_ungroup {arg : Arg} (h : 2 < arg.length) (rest : List Arg) :
    weight (ungroup arg ++ rest) < weight (arg :: rest) := by
  have hmap : ∀ cs : List Char, weight (cs.map fun c => ['-', c]) = cs.length := by
    intro cs
    induction cs with
    | nil => rfl
    | cons c cs ih =>
      rw [List.map_cons, weight, ih, List.length_cons]
      exact Nat.add_comm 1 cs.length
  rw [weight_append, ungroup, hmap, weight, if_pos h, List.length_drop]
  omega

theorem Move.weight_lt (h : Move C table conf conf') : conf'.weight < conf.weight := by
  unfold Conf.weight
  cases h with
  | @failed taken rest dropped posSpecs out ht f hless =>
    dsimp only
    rw [weight_append, List.length_append]
    cases hless with
    | inl hless =>
      obtain ⟨arg, taken, he⟩ := List.exists_cons_of_ne_nil hless
      have hpos := weight_cons_pos arg taken
      rw [he]
      omega
    | inr hless =>
      have hpos := List.length_pos_iff.mpr hless
      omega
  | @ungrouped arg rest posSpecs out h => exact Nat.add_lt_add_right (weight_ungroup h.2.2 rest) _
  | @posString arg rest s posSpecs out p ht =>
    have hpos := weight_cons_pos arg rest
    dsimp only
    rw [List.length_cons]
    omega
  | @posList taken rest s posSpecs out p ht =>
    dsimp only
    rw [weight_append, List.length_cons]
    omega
  | @bool input rest s posSpecs out hf ht hnew => exact Nat.add_lt_add_right (weight_cons_pos input rest) _
  | @first input rest s posSpecs out hf ht hnew => exact Nat.add_lt_add_right (weight_cons_pos input rest) _
  | @count input rest s posSpecs out n hf ht hold => exact Nat.add_lt_add_right (weight_cons_pos input rest) _
  | @string input arg rest s posSpecs out p hf ht hnew =>
    have hinput := weight_cons_pos input (arg :: rest)
    have hpos := weight_cons_pos arg rest
    dsimp only
    omega
  | @list input taken rest s posSpecs out p hf ht =>
    have hpos := weight_cons_pos input (taken ++ rest)
    rw [weight_append] at hpos
    dsimp only
    omega

/-- Positional specs, which take-pos has clauses for. -/
def Takeable (posSpecs : List Spec) : Prop := ∀ s, s ∈ posSpecs → s.type ≠ .bool ∧ s.type ≠ .count

theorem Move.posSpecs (h : Move C table conf conf') : conf'.posSpecs <:+ conf.posSpecs := by
  cases h with
  | @failed taken rest dropped posSpecs out ht f hless => exact List.suffix_append dropped posSpecs
  | @posString arg rest s posSpecs out p ht => exact List.suffix_cons s posSpecs
  | @posList taken rest s posSpecs out p ht => exact List.suffix_cons s posSpecs
  | _ => exact List.suffix_rfl

/-- The step is not the last one, and has a clause. -/
def Step.Continues (step : Step) : Prop := ∃ conf, step = .next conf

theorem takeList_continues (C : Chars) (input : Option Arg) (s : Spec) (p : Patterns) (ls : List Arg)
    (posSpecs : List Spec) (out : Out) : (takeList C input s p ls posSpecs out).Continues := by
  obtain ⟨taken, rest, hls, hcase⟩ := takeList_cases C input s p ls posSpecs out
  cases hcase with
  | inl hcase => exact ⟨_, hcase⟩
  | inr hcase => exact ⟨_, hcase⟩

theorem takePos_continues {arg : Arg} {rest : List Arg} {posSpecs : List Spec} {out : Out} (h : Takeable posSpecs) :
    (takePos C args arg rest posSpecs out).Continues := by
  unfold takePos
  cases posSpecs with
  | nil => exact ⟨_, rfl⟩
  | cons s posSpecs =>
    obtain ⟨hbool, hcount⟩ := h s List.mem_cons_self
    dsimp only
    cases ht : s.type with
    | bool => exact absurd ht hbool
    | count => exact absurd ht hcount
    | string p => exact ⟨_, rfl⟩
    | list p => exact takeList_continues C none s p (arg :: rest) posSpecs out

theorem takeNamed_continues {input : Arg} {rest : List Arg} {s : Spec} {posSpecs : List Spec} {out : Out} :
    (takeNamed C input rest s posSpecs out).Continues := by
  unfold takeNamed
  repeat' split
  all_goals first | exact takeList_continues C _ s _ rest posSpecs out | exact ⟨_, rfl⟩

/-- take-opt goes on while there are arguments. -/
theorem takeOptStep_continues {arg : Arg} {rest : List Arg} {posSpecs : List Spec} {out : Out}
    (h : Takeable posSpecs) : (takeOptStep C args table ⟨arg :: rest, posSpecs, out⟩).Continues := by
  unfold takeOptStep
  dsimp only
  repeat' split
  all_goals first | exact takePos_continues h | exact takeNamed_continues | exact ⟨_, rfl⟩

/-- The calls of take-opt up to the one that returns. -/
inductive Calls (C : Chars) (table : List (Opt × Spec)) : Conf → Out → Prop where
  | done {posSpecs : List Spec} {out : Out} : Calls C table ⟨[], posSpecs, out⟩ out
  | next {conf conf' : Conf} {out : Out} (hm : Move C table conf conf') (h : Calls C table conf' out) :
      Calls C table conf out

/-- take-opt returns. -/
theorem takeOpt_returns (C : Chars) (args : List Arg) (table : List (Opt × Spec)) {conf : Conf}
    (htake : Takeable conf.posSpecs) :
    ∃ out, Calls C table conf out ∧ ∀ fuel, conf.weight < fuel → takeOpt C args table fuel conf = .ok out := by
  generalize hw : conf.weight = w
  induction w using Nat.strongRecOn generalizing conf with
  | ind w ih =>
    obtain ⟨ls, posSpecs, out⟩ := conf
    cases ls with
    | nil =>
      refine ⟨out, .done, fun fuel hlt => ?_⟩
      cases fuel with
      | zero => exact absurd hlt (Nat.not_lt_zero w)
      | succ fuel => rfl
    | cons arg rest =>
      obtain ⟨conf', hs⟩ := @takeOptStep_continues C args table arg rest posSpecs out htake
      have hm : Move C table ⟨arg :: rest, posSpecs, out⟩ conf' := takeOptStep_move hs
      have hlt : conf'.weight < w := hw ▸ hm.weight_lt
      obtain ⟨out', hcalls, hout⟩ := ih conf'.weight hlt (fun s hmem => htake s (hm.posSpecs.subset hmem)) rfl
      refine ⟨out', .next hm hcalls, fun fuel hfuel => ?_⟩
      cases fuel with
      | zero => exact absurd hfuel (Nat.not_lt_zero w)
      | succ fuel =>
        rw [takeOpt, hs]
        exact hout fuel (by omega)

end Swish.Cli
