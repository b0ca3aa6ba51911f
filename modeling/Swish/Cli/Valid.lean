import Mathlib.Data.List.Nodup
import Swish.Cli.Parse
import Swish.Lib.Except

/-!
What check-specs and the table of options make sure of.
-/

set_option autoImplicit false

namespace Swish.Cli

variable {C : Chars} {specs : List Spec} {table : List (Opt × Spec)}

/-- The specs that parse-arguments does not refuse. -/
def Valid (C : Chars) (specs : List Spec) : Prop :=
  checkSpecs C specs = .ok () ∧ ∃ table, optionTable specs [] = .ok table

theorem checkNames_ok {names names' : List Name} (h : checkNames C specs names = .ok names') :
    (specs.map Spec.name).Nodup ∧ ∀ s, s ∈ specs → s.name ∉ names ∧ validType s = true := by
  induction specs generalizing names with
  | nil => exact ⟨List.nodup_nil, fun s hs => (by cases hs)⟩
  | cons s specs ih =>
    unfold checkNames at h
    split at h
    · cases h
    · split at h
      · rename_i htype
        split at h
        · cases h
        · rename_i hnew
          obtain ⟨hnodup, hrest⟩ := ih h
          constructor
          · rw [List.map_cons, List.nodup_cons]
            refine ⟨fun hmem => ?_, hnodup⟩
            obtain ⟨s', hs', hname⟩ := List.mem_map.mp hmem
            exact (hrest s' hs').1 (hname ▸ List.mem_cons_self)
          · intro s' hs'
            cases List.mem_cons.mp hs' with
            | inl he => exact he ▸ ⟨hnew, htype⟩
            | inr hs' =>
              obtain ⟨hname, htype'⟩ := hrest s' hs'
              exact ⟨fun hmem => hname (List.mem_cons_of_mem s.name hmem), htype'⟩
      · cases h

theorem checkSpecs_ok (h : checkSpecs C specs = .ok ()) :
    (specs.map Spec.name).Nodup ∧ ∀ s, s ∈ specs → validType s = true := by
  unfold checkSpecs at h
  obtain ⟨names, hn, h⟩ := Lib.bind_ok h
  obtain ⟨hnodup, htype⟩ := checkNames_ok hn
  exact ⟨hnodup, fun s hs => (htype s hs).2⟩

theorem eq_of_name_eq (hnodup : (specs.map Spec.name).Nodup) {s s' : Spec} (hs : s ∈ specs) (hs' : s' ∈ specs)
    (h : s.name = s'.name) : s = s' :=
  List.inj_on_of_nodup_map hnodup hs hs' h

/-- A spec without options takes values. -/
theorem positional_type {s : Spec} (hs : validType s = true) (hpos : positional s = true) :
    s.type ≠ .bool ∧ s.type ≠ .count := by
  obtain ⟨hshort, hlong⟩ := Bool.and_eq_true_iff.mp hpos
  rw [Option.isNone_iff_eq_none] at hshort hlong
  unfold validType at hs
  rw [hshort, hlong] at hs
  constructor
  · intro ht
    rw [ht] at hs
    cases hs
  · intro ht
    rw [ht] at hs
    cases hs

/-- The token is an option of the spec. -/
def Names (s : Spec) (arg : Arg) : Prop :=
  (∃ c, arg = ['-', c] ∧ s.short = some c) ∨ ∃ l, arg = '-' :: '-' :: l ∧ s.long = some l

theorem Names.not_positional {s : Spec} {arg : Arg} (h : Names s arg) : positional s = false := by
  unfold positional
  obtain ⟨c, harg, hc⟩ | ⟨l, harg, hl⟩ := h
  · rw [hc]
    rfl
  · rw [hl]
    exact Bool.and_false _

/-- An option of the table belongs to its spec, which is one of the specs. -/
def Listed (specs : List Spec) (table : List (Opt × Spec)) : Prop :=
  ∀ o s, Assoc.find table o = some s → s ∈ specs ∧ (s.short.map Opt.short = some o ∨ s.long.map Opt.long = some o)

theorem addOption_listed {o : Option Opt} {s : Spec} {table table' : List (Opt × Spec)}
    (h : addOption o s table = .ok table') (hlisted : Listed specs table) (hs : s ∈ specs)
    (ho : s.short.map Opt.short = o ∨ s.long.map Opt.long = o) : Listed specs table' := by
  cases o with
  | none =>
    cases h
    exact hlisted
  | some o =>
    unfold addOption at h
    dsimp only at h
    split at h
    · cases h
    · cases h
      intro o' s' hfind
      rw [Assoc.find_append] at hfind
      cases Option.or_eq_some_iff.mp hfind with
      | inl hold => exact hlisted o' s' hold
      | inr hnew =>
        have hlast := hnew.2
        rw [Assoc.find_cons] at hlast
        split at hlast
        · rename_i heq
          cases hlast
          exact heq ▸ ⟨hs, ho⟩
        · cases hlast

theorem optionTable_listed {rest : List Spec} {table table' : List (Opt × Spec)}
    (h : optionTable rest table = .ok table') (hlisted : Listed specs table) (hrest : ∀ s, s ∈ rest → s ∈ specs) :
    Listed specs table' := by
  induction rest generalizing table with
  | nil =>
    cases h
    exact hlisted
  | cons s rest ih =>
    unfold optionTable at h
    have hs := hrest s List.mem_cons_self
    obtain ⟨table1, hshort, h⟩ := Lib.bind_ok h
    obtain ⟨table2, hlong, h⟩ := Lib.bind_ok h
    have h1 := addOption_listed hshort hlisted hs (.inl rfl)
    have h2 := addOption_listed hlong h1 hs (.inr rfl)
    exact ih h h2 fun s' hs' => hrest s' (List.mem_cons_of_mem s hs')

end Swish.Cli
