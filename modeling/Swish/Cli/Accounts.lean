import Swish.Cli.Moves
import Swish.Cli.Valid

/-!
Every token of the command line is accounted for.
-/

set_option autoImplicit false

namespace Swish.Cli

variable {C : Chars} {specs : List Spec} {table : List (Opt × Spec)} {conf conf' : Conf}

/-- How a token is used: as an option of the spec with the name, or in its value. -/
inductive Use where
  | option (name : Name) (arg : Arg)
  | value (name : Name) (arg : Arg)
  deriving DecidableEq

def Use.token : Use → Arg
  | .option _ arg => arg
  | .value _ arg => arg

def Use.optionOf (name : Name) : Use → Option Arg
  | .option n arg => if n = name then some arg else none
  | .value _ _ => none

def Use.valueOf (name : Name) : Use → Option Arg
  | .option _ _ => none
  | .value n arg => if n = name then some arg else none

def optionsOf (name : Name) (uses : List Use) : List Arg := uses.filterMap (Use.optionOf name)

def valuesOf (name : Name) (uses : List Use) : List Arg := uses.filterMap (Use.valueOf name)

/-- A spec with a value that tokens go into. -/
def Valued (s : Spec) : Prop :=
  match s.type with
  | .bool | .count => False
  | .string _ | .list _ => True

def Use.For (s : Spec) : Use → Prop
  | .option name arg => name = s.name ∧ Names s arg
  | .value name _ => name = s.name ∧ Valued s

/-- The entry for a spec, from the tokens that are its options and its values. -/
def Entry (s : Spec) (opts vals : List Arg) (entry : Option Value) : Prop :=
  match s.type with
  | .bool => vals = [] ∧ (opts = [] ∧ entry = none ∨ opts.length = 1 ∧ entry = some .true)
  | .count => vals = [] ∧ (opts = [] ∧ entry = none ∨ opts ≠ [] ∧ entry = some (.count opts.length))
  | .string _ =>
    opts = [] ∧ vals = [] ∧ entry = none ∨ opts.length ≤ 1 ∧ ∃ arg, vals = [arg] ∧ entry = some (.string arg)
  | .list _ => opts = [] ∧ vals = [] ∧ entry = none ∨ entry = some (.list vals)

/-- The tokens are those of the command line, some groups of options taken apart. -/
inductive Expanded (C : Chars) : List Arg → List Arg → Prop where
  | nil : Expanded C [] []
  | keep (arg : Arg) {ls tokens : List Arg} (h : Expanded C ls tokens) : Expanded C (arg :: ls) (arg :: tokens)
  | group {arg : Arg} {ls tokens : List Arg} (hg : Grouped C arg) (h : Expanded C ls tokens) :
      Expanded C (arg :: ls) (ungroup arg ++ tokens)

/-- Each use is for one spec, and the table has the values that follow from the uses, and no others. -/
structure Accounted (specs : List Spec) (uses : List Use) (ht : List (Name × Value)) : Prop where
  named : ∀ u, u ∈ uses → ∃ s, s ∈ specs ∧ u.For s
  entries : ∀ s, s ∈ specs → Entry s (optionsOf s.name uses) (valuesOf s.name uses) (Assoc.find ht s.name)
  keys : ∀ x, x ∈ ht → ∃ s, s ∈ specs ∧ s.name = x.1

theorem Expanded.refl (C : Chars) (ls : List Arg) : Expanded C ls ls := by
  induction ls with
  | nil => exact .nil
  | cons arg ls ih => exact .keep arg ih

theorem not_grouped_of_mem {arg a : Arg} (h : a ∈ ungroup arg) : ¬Grouped C a := by
  intro hg
  obtain ⟨c, -, he⟩ := List.mem_map.mp h
  have hlen := hg.2.2
  rw [← he] at hlen
  exact Nat.lt_irrefl 2 hlen

/-- A group that has not been taken apart can be. -/
theorem Expanded.ungroup {ls xs ys : List Arg} {arg : Arg} (h : Expanded C ls (xs ++ arg :: ys))
    (hg : Grouped C arg) : Expanded C ls (xs ++ (Cli.ungroup arg ++ ys)) := by
  generalize ht : xs ++ arg :: ys = tokens at h
  induction h generalizing xs with
  | nil => exact absurd ht (List.append_ne_nil_of_right_ne_nil xs (List.cons_ne_nil arg ys))
  | @keep a ls tokens h ih =>
    cases xs with
    | nil =>
      cases ht
      exact .group hg h
    | cons x xs =>
      cases ht
      exact .keep a (ih rfl)
  | @group a ls tokens hg' h ih =>
    cases List.append_eq_append_iff.mp ht with
    | inl hcase =>
      obtain ⟨zs, hxs, hys⟩ := hcase
      cases zs with
      | nil =>
        rw [List.append_nil] at hxs
        rw [← hxs]
        exact .group hg' (@ih [] hys)
      | cons z zs =>
        cases hys
        exact absurd hg (@not_grouped_of_mem C a arg (hxs ▸ List.mem_append_right xs List.mem_cons_self))
    | inr hcase =>
      obtain ⟨zs, hxs, htokens⟩ := hcase
      rw [hxs, List.append_assoc]
      exact .group hg' (ih htokens.symm)

/-- The uses of a move: the options of one spec, and its values. -/
def usesFor (name : Name) (opts vals : List Arg) : List Use := opts.map (Use.option name) ++ vals.map (Use.value name)

theorem token_usesFor (name : Name) (opts vals : List Arg) : (usesFor name opts vals).map Use.token = opts ++ vals := by
  simp [usesFor, Function.comp_def, Use.token]

theorem optionsOf_append (name : Name) (xs ys : List Use) :
    optionsOf name (xs ++ ys) = optionsOf name xs ++ optionsOf name ys := List.filterMap_append

theorem valuesOf_append (name : Name) (xs ys : List Use) :
    valuesOf name (xs ++ ys) = valuesOf name xs ++ valuesOf name ys := List.filterMap_append

theorem optionsOf_usesFor (name n : Name) (opts vals : List Arg) :
    optionsOf n (usesFor name opts vals) = if name = n then opts else [] := by
  split
  · rename_i h
    simp [optionsOf, usesFor, List.filterMap_map, Function.comp_def, Use.optionOf, h]
  · rename_i h
    simp [optionsOf, usesFor, List.filterMap_map, Function.comp_def, Use.optionOf, h]

theorem valuesOf_usesFor (name n : Name) (opts vals : List Arg) :
    valuesOf n (usesFor name opts vals) = if name = n then vals else [] := by
  split
  · rename_i h
    simp [valuesOf, usesFor, List.filterMap_map, Function.comp_def, Use.valueOf, h]
  · rename_i h
    simp [valuesOf, usesFor, List.filterMap_map, Function.comp_def, Use.valueOf, h]

theorem usesFor_for {s : Spec} {opts vals : List Arg} (hopts : ∀ arg, arg ∈ opts → Names s arg)
    (hvals : vals ≠ [] → Valued s) : ∀ u, u ∈ usesFor s.name opts vals → u.For s := by
  intro u hu
  cases List.mem_append.mp hu with
  | inl hu =>
    obtain ⟨arg, harg, he⟩ := List.mem_map.mp hu
    exact he ▸ ⟨rfl, hopts arg harg⟩
  | inr hu =>
    obtain ⟨arg, harg, he⟩ := List.mem_map.mp hu
    exact he ▸ ⟨rfl, hvals (List.ne_nil_of_mem harg)⟩

/-- A move sets the entry of one spec, and uses tokens for it. -/
theorem Accounted.set {uses : List Use} {ht : List (Name × Value)} {s : Spec} {opts vals : List Arg} {value : Value}
    (hnodup : (specs.map Spec.name).Nodup) (h : Accounted specs uses ht) (hs : s ∈ specs)
    (hopts : ∀ arg, arg ∈ opts → Names s arg) (hvals : vals ≠ [] → Valued s)
    (hentry : Entry s (optionsOf s.name uses ++ opts) (valuesOf s.name uses ++ vals) (some value)) :
    Accounted specs (uses ++ usesFor s.name opts vals) (Assoc.set ht s.name value) := by
  constructor
  · intro u hu
    cases List.mem_append.mp hu with
    | inl hu => exact h.named u hu
    | inr hu => exact ⟨s, hs, usesFor_for hopts hvals u hu⟩
  · intro s' hs'
    rw [optionsOf_append, valuesOf_append, optionsOf_usesFor, valuesOf_usesFor, Assoc.find_set]
    by_cases hname : s.name = s'.name
    · rw [if_pos hname, if_pos hname, if_pos hname, ← eq_of_name_eq hnodup hs hs' hname]
      exact hentry
    · rw [if_neg hname, if_neg hname, if_neg hname, List.append_nil, List.append_nil]
      exact h.entries s' hs'
  · intro x hx
    cases Assoc.mem_set.mp hx with
    | inl hold => exact h.keys x hold.1
    | inr hnew => exact ⟨s, hs, by rw [hnew]⟩

/-- The specs that are left for take-pos have not been used. -/
structure Pending (specs posSpecs : List Spec) (uses : List Use) : Prop where
  mem : ∀ s, s ∈ posSpecs → s ∈ specs ∧ positional s = true
  nodup : (posSpecs.map Spec.name).Nodup
  unused : ∀ s, s ∈ posSpecs → optionsOf s.name uses = [] ∧ valuesOf s.name uses = []

theorem Pending.use {posSpecs : List Spec} {uses : List Use} (h : Pending specs posSpecs uses) {name : Name}
    (opts vals : List Arg) (hne : ∀ s, s ∈ posSpecs → name ≠ s.name) :
    Pending specs posSpecs (uses ++ usesFor name opts vals) := by
  refine ⟨h.mem, h.nodup, fun s hs => ?_⟩
  rw [optionsOf_append, valuesOf_append, optionsOf_usesFor, valuesOf_usesFor, if_neg (hne s hs), if_neg (hne s hs),
    List.append_nil, List.append_nil]
  exact h.unused s hs

theorem Pending.tail {s : Spec} {posSpecs : List Spec} {uses : List Use} (h : Pending specs (s :: posSpecs) uses)
    (opts vals : List Arg) : Pending specs posSpecs (uses ++ usesFor s.name opts vals) := by
  obtain ⟨hnew, hnodup⟩ := List.nodup_cons.mp h.nodup
  have hrest : Pending specs posSpecs uses :=
    ⟨fun s' hs' => h.mem s' (List.mem_cons_of_mem s hs'), hnodup, fun s' hs' => h.unused s' (List.mem_cons_of_mem s hs')⟩
  exact hrest.use opts vals fun s' hs' heq => hnew (heq ▸ List.mem_map_of_mem hs')

/-- An option is never of a spec that is left for take-pos. -/
theorem Pending.named {posSpecs : List Spec} {uses : List Use} (h : Pending specs posSpecs uses)
    (hnodup : (specs.map Spec.name).Nodup) {s : Spec} {input : Arg} (hs : s ∈ specs) (hinput : Names s input)
    (opts vals : List Arg) : Pending specs posSpecs (uses ++ usesFor s.name opts vals) := by
  refine h.use opts vals fun s' hs' heq => ?_
  obtain ⟨hmem, hpos⟩ := h.mem s' hs'
  rw [← eq_of_name_eq hnodup hs hmem heq, hinput.not_positional] at hpos
  cases hpos

/-- The tokens that have been taken are accounted for, and the other ones are left. -/
structure Account (C : Chars) (specs : List Spec) (ls : List Arg) (uses : List Use) (conf : Conf) : Prop where
  expanded : Expanded C ls (uses.map Use.token ++ conf.ls)
  accounted : Accounted specs uses conf.out.ht
  pending : Pending specs conf.posSpecs uses

theorem Finds.names {arg : Arg} {s : Spec} (h : Finds table arg s) (hlisted : Listed specs table) :
    s ∈ specs ∧ Names s arg := by
  obtain ⟨c, harg, hfind⟩ | ⟨l, harg, hfind⟩ := h
  · obtain ⟨hs, hopt⟩ := hlisted (.short c) s hfind
    exact ⟨hs, .inl ⟨c, harg, by simpa using hopt⟩⟩
  · obtain ⟨hs, hopt⟩ := hlisted (.long l) s hfind
    exact ⟨hs, .inr ⟨l, harg, by simpa using hopt⟩⟩

theorem Account.use {ls rest opts vals : List Arg} {uses : List Use} {posSpecs : List Spec} {s : Spec} {value : Value}
    (hnodup : (specs.map Spec.name).Nodup) (h : Account C specs ls uses conf) (hls : conf.ls = opts ++ vals ++ rest)
    (hs : s ∈ specs) (hopts : ∀ arg, arg ∈ opts → Names s arg) (hvals : vals ≠ [] → Valued s)
    (hentry : Entry s (optionsOf s.name uses ++ opts) (valuesOf s.name uses ++ vals) (some value))
    (hpending : Pending specs posSpecs (uses ++ usesFor s.name opts vals)) :
    Account C specs ls (uses ++ usesFor s.name opts vals) ⟨rest, posSpecs, conf.out.set s.name value⟩ := by
  refine ⟨?_, h.accounted.set hnodup hs hopts hvals hentry, hpending⟩
  have hexp := h.expanded
  rw [hls] at hexp
  rw [List.map_append, token_usesFor, List.append_assoc]
  exact hexp

theorem Account.posUse {ls rest vals : List Arg} {uses : List Use} {posSpecs : List Spec} {s : Spec} {out : Out}
    {value : Value} (hnodup : (specs.map Spec.name).Nodup)
    (h : Account C specs ls uses ⟨vals ++ rest, s :: posSpecs, out⟩) (hvals : Valued s)
    (hentry : Entry s [] vals (some value)) :
    Account C specs ls (uses ++ usesFor s.name [] vals) ⟨rest, posSpecs, out.set s.name value⟩ := by
  obtain ⟨hs, -⟩ := h.pending.mem s List.mem_cons_self
  obtain ⟨hopts, hold⟩ := h.pending.unused s List.mem_cons_self
  refine h.use hnodup rfl hs (fun arg harg => (by cases harg)) (fun _ => hvals) ?_ (h.pending.tail [] vals)
  rw [hopts, hold]
  exact hentry

theorem Account.namedUse {ls rest vals : List Arg} {uses : List Use} {posSpecs : List Spec} {s : Spec} {out : Out}
    {value : Value} {input : Arg} (hnodup : (specs.map Spec.name).Nodup) (hlisted : Listed specs table)
    (hf : Finds table input s) (h : Account C specs ls uses ⟨input :: (vals ++ rest), posSpecs, out⟩)
    (hvals : vals ≠ [] → Valued s)
    (hentry : Entry s (optionsOf s.name uses) (valuesOf s.name uses) (out.ref s.name) →
      Entry s (optionsOf s.name uses ++ [input]) (valuesOf s.name uses ++ vals) (some value)) :
    Account C specs ls (uses ++ usesFor s.name [input] vals) ⟨rest, posSpecs, out.set s.name value⟩ := by
  obtain ⟨hs, hinput⟩ := hf.names hlisted
  refine h.use hnodup rfl hs (fun arg harg => ?_) hvals (hentry (h.accounted.entries s hs))
    (h.pending.named hnodup hs hinput [input] vals)
  rw [List.mem_singleton.mp harg]
  exact hinput

theorem updateList_eq {s : Spec} {p : Patterns} {out : Out} {opts vals : List Arg} (ht : s.type = .list p)
    (h : Entry s opts vals (out.ref s.name)) (taken : List Arg) :
    out.updateList s.name taken = out.set s.name (.list (vals ++ taken)) := by
  unfold Entry at h
  rw [ht] at h
  unfold Out.updateList
  obtain ⟨-, hvals, hnone⟩ | hsome := h
  · rw [hnone, hvals]
    rfl
  · rw [hsome]

/-- A move that does not fail accounts for the tokens that it takes. -/
theorem Account.move {ls : List Arg} {uses : List Use} (hnodup : (specs.map Spec.name).Nodup)
    (hlisted : Listed specs table) (h : Account C specs ls uses conf) (hm : Move C table conf conf')
    (hfails : conf'.out.fails = []) : ∃ uses', Account C specs ls uses' conf' := by
  cases hm with
  | @failed taken rest dropped posSpecs out ht f hless =>
    exact absurd hfails (List.append_ne_nil_of_right_ne_nil _ (List.cons_ne_nil f []))
  | @ungrouped arg rest posSpecs out hg => exact ⟨uses, h.expanded.ungroup hg, h.accounted, h.pending⟩
  | @posString arg rest s posSpecs out p ht =>
    refine ⟨_, @Account.posUse C specs ls rest [arg] uses posSpecs s out _ hnodup h ?_ ?_⟩
    · simp [Valued, ht]
    · simp [Entry, ht]
  | @posList taken rest s posSpecs out p ht =>
    obtain ⟨hs, -⟩ := h.pending.mem s List.mem_cons_self
    obtain ⟨-, hold⟩ := h.pending.unused s List.mem_cons_self
    rw [updateList_eq ht (h.accounted.entries s hs) taken, hold]
    refine ⟨_, h.posUse hnodup ?_ ?_⟩
    · simp [Valued, ht]
    · simp [Entry, ht]
  | @bool input rest s posSpecs out hf ht hnew =>
    refine ⟨_, @Account.namedUse C specs table ls rest [] uses posSpecs s out _ input hnodup hlisted hf h
      (fun hne => absurd rfl hne) fun hold => ?_⟩
    rw [hnew] at hold
    simp only [Entry, ht] at hold ⊢
    obtain ⟨hvals, ⟨hopts, -⟩ | ⟨-, hsome⟩⟩ := hold
    · simp [hvals, hopts]
    · cases hsome
  | @first input rest s posSpecs out hf ht hnew =>
    refine ⟨_, @Account.namedUse C specs table ls rest [] uses posSpecs s out _ input hnodup hlisted hf h
      (fun hne => absurd rfl hne) fun hold => ?_⟩
    simp only [Entry, ht] at hold ⊢
    obtain ⟨hvals, ⟨hopts, -⟩ | ⟨-, hsome⟩⟩ := hold
    · simp [hvals, hopts]
    · exact absurd hsome (hnew _)
  | @count input rest s posSpecs out n hf ht hold =>
    refine ⟨_, @Account.namedUse C specs table ls rest [] uses posSpecs s out _ input hnodup hlisted hf h
      (fun hne => absurd rfl hne) fun hentry => ?_⟩
    rw [hold] at hentry
    simp only [Entry, ht] at hentry ⊢
    obtain ⟨hvals, ⟨-, hnone⟩ | ⟨-, hsome⟩⟩ := hentry
    · cases hnone
    · cases hsome
      simp [hvals]
  | @string input arg rest s posSpecs out p hf ht hnew =>
    refine ⟨_, @Account.namedUse C specs table ls rest [arg] uses posSpecs s out _ input hnodup hlisted hf h
      (fun _ => ?_) fun hold => ?_⟩
    · simp [Valued, ht]
    · rw [hnew] at hold
      simp only [Entry, ht] at hold ⊢
      obtain ⟨hopts, hvals, -⟩ | ⟨-, old, -, hsome⟩ := hold
      · simp [hvals, hopts]
      · cases hsome
  | @list input taken rest s posSpecs out p hf ht =>
    obtain ⟨hs, -⟩ := hf.names hlisted
    rw [updateList_eq ht (h.accounted.entries s hs) taken]
    refine ⟨_, h.namedUse hnodup hlisted hf (fun _ => ?_) fun _ => ?_⟩
    · simp [Valued, ht]
    · simp [Entry, ht]

/-- A call of fail is not forgotten. -/
theorem Move.fails (h : Move C table conf conf') : conf.out.fails <+: conf'.out.fails := by
  cases h with
  | @failed taken rest dropped posSpecs out ht f hless => exact List.prefix_append out.fails [f]
  | @posList taken rest s posSpecs out p ht =>
    unfold Out.updateList
    dsimp only
    split
    · exact List.prefix_rfl
    · exact List.prefix_rfl
  | @list input taken rest s posSpecs out p hf ht =>
    unfold Out.updateList
    dsimp only
    split
    · exact List.prefix_rfl
    · exact List.prefix_rfl
  | _ => exact List.prefix_rfl

theorem Calls.fails {out : Out} (h : Calls C table conf out) : conf.out.fails <+: out.fails := by
  induction h with
  | done => exact List.prefix_rfl
  | next hm h ih => exact hm.fails.trans ih

/-- When the calls of take-opt come to their end without a call of fail, all tokens are accounted for. -/
theorem Account.run {ls : List Arg} {uses : List Use} {out : Out} (hnodup : (specs.map Spec.name).Nodup)
    (hlisted : Listed specs table) (h : Account C specs ls uses conf) (hcalls : Calls C table conf out)
    (hfails : out.fails = []) : ∃ uses', Expanded C ls (uses'.map Use.token) ∧ Accounted specs uses' out.ht := by
  induction hcalls generalizing uses with
  | done =>
    have hexp := h.expanded
    rw [List.append_nil] at hexp
    exact ⟨uses, hexp, h.accounted⟩
  | next hm hcalls ih =>
    have hnone := List.prefix_nil.mp (hfails ▸ hcalls.fails)
    obtain ⟨uses', h'⟩ := h.move hnodup hlisted hm hnone
    exact ih h' hfails

theorem foldl_fail (clash : Name × Value → List Name) (failure : Name × Value → List Name → Failure)
    (entries : List (Name × Value)) (out : Out) :
    (entries.foldl (fun o x => if clash x = [] then o else o.fail (failure x (clash x))) out).ht = out.ht ∧
      out.fails <+: (entries.foldl (fun o x => if clash x = [] then o else o.fail (failure x (clash x))) out).fails := by
  induction entries generalizing out with
  | nil => exact ⟨rfl, List.prefix_rfl⟩
  | cons x entries ih =>
    rw [List.foldl_cons]
    split
    · exact ih out
    · obtain ⟨hht, hfails⟩ := ih (out.fail (failure x (clash x)))
      exact ⟨hht, (List.prefix_append out.fails _).trans hfails⟩

/-- The checks at the end leave the table as it is. -/
theorem checks_keep (specs : List Spec) (out : Out) :
    (checkRequires specs (checkConflicts specs out)).ht = out.ht ∧
      out.fails <+: (checkRequires specs (checkConflicts specs out)).fails := by
  obtain ⟨hht, hfails⟩ := foldl_fail _ (fun x ls => .conflicts x.1 ls) out.ht out
  obtain ⟨hht', hfails'⟩ := foldl_fail _ (fun x ls => .requires x.1 ls) (checkConflicts specs out).ht
    (checkConflicts specs out)
  exact ⟨hht'.trans hht, hfails.trans hfails'⟩

theorem parseArguments_ok (hvalid : Valid C specs) (ls : List Arg) : ∃ out, (specs.map Spec.name).Nodup ∧
    (∀ fuel, weight ls + specs.length < fuel →
      parseArguments C fuel specs ls = .ok (checkRequires specs (checkConflicts specs out))) ∧
    (out.fails = [] → ∃ uses, Expanded C ls (uses.map Use.token) ∧ Accounted specs uses out.ht) := by
  obtain ⟨hcheck, table, htable⟩ := hvalid
  obtain ⟨hnodup, htypes⟩ := checkSpecs_ok hcheck
  have hpos : ∀ s, s ∈ specs.filter positional → s ∈ specs ∧ positional s = true :=
    fun s hs => List.mem_filter.mp hs
  have hlisted : Listed specs table :=
    optionTable_listed htable (fun o s h => (by cases h)) fun s hs => hs
  have htake : Takeable (specs.filter positional) :=
    fun s hs => positional_type (htypes s (hpos s hs).1) (hpos s hs).2
  obtain ⟨out, hcalls, hout⟩ := @takeOpt_returns C ls table ⟨ls, specs.filter positional, ⟨[], []⟩⟩ htake
  refine ⟨out, hnodup, fun fuel hfuel => ?_, fun hfails => ?_⟩
  · have hle : (specs.filter positional).length ≤ specs.length := List.length_filter_le positional specs
    have hlt : Conf.weight ⟨ls, specs.filter positional, ⟨[], []⟩⟩ < fuel := by
      unfold Conf.weight
      dsimp only
      omega
    unfold parseArguments
    rw [hcheck, htable]
    dsimp only
    rw [hout fuel hlt]
    rfl
  · have hstart : Account C specs ls [] ⟨ls, specs.filter positional, ⟨[], []⟩⟩ := by
      refine ⟨Expanded.refl C ls, ⟨fun u hu => (by cases hu), fun s hs => ?_, fun x hx => (by cases hx)⟩, hpos,
        hnodup.sublist (List.Sublist.map Spec.name List.filter_sublist), fun s hs => ⟨rfl, rfl⟩⟩
      unfold Entry
      cases s.type with
      | bool => exact ⟨rfl, .inl ⟨rfl, rfl⟩⟩
      | count => exact ⟨rfl, .inl ⟨rfl, rfl⟩⟩
      | string p => exact .inl ⟨rfl, rfl, rfl⟩
      | list p => exact .inl ⟨rfl, rfl, rfl⟩
    exact hstart.run hnodup hlisted hcalls hfails

/-- The arguments are parsed, and when fail is not called, the tokens, with groups of options taken
apart, are the options and the values of specs, in their order, and the table has what they say. -/
theorem parsing_loses_nothing (hvalid : Valid C specs) (ls : List Arg) : ∃ out,
    (∀ fuel, weight ls + specs.length < fuel → parseArguments C fuel specs ls = .ok out) ∧
      (out.fails = [] → (specs.map Spec.name).Nodup ∧
        ∃ uses, Expanded C ls (uses.map Use.token) ∧ Accounted specs uses out.ht) := by
  obtain ⟨out, hnodup, hparse, haccount⟩ := parseArguments_ok hvalid ls
  obtain ⟨hht, hfails⟩ := checks_keep specs out
  refine ⟨_, hparse, fun hnone => ⟨hnodup, ?_⟩⟩
  rw [hht]
  exact haccount (List.prefix_nil.mp (hnone ▸ hfails))

def ascii : Chars := ⟨Char.isDigit, Char.isWhitespace⟩

/-- The specs of a command with a flag, a count, an option with a value, and files. -/
def copySpecs : List Spec :=
  [⟨"force", .bool, some 'f', some "force".toList, [], []⟩, ⟨"verbose", .count, some 'v', none, [], []⟩,
    ⟨"target", .string "dir", some 't', none, [], []⟩,
    ⟨"files", .list (.one "file" (.many "file")), none, none, [], []⟩]

def copyLine : List Arg := ["-vf".toList, "-t".toList, "d".toList, "a".toList, "b".toList]

def copyTable : List (Name × Value) :=
  [("verbose", .count 1), ("force", .true), ("target", .string ['d']), ("files", .list [['a'], ['b']])]

theorem parsing_loses_nothing_copy :
    (∀ fuel, 11 < fuel → parseArguments ascii fuel copySpecs copyLine = .ok ⟨copyTable, []⟩) ∧
      ∃ uses, Expanded ascii copyLine (uses.map Use.token) ∧ Accounted copySpecs uses copyTable := by
  have hvalid : Valid ascii copySpecs := ⟨rfl, _, rfl⟩
  obtain ⟨out, hparse, haccount⟩ := parsing_loses_nothing hvalid copyLine
  have hweight : weight copyLine + copySpecs.length = 11 := by decide
  rw [hweight] at hparse
  have hrun : parseArguments ascii 12 copySpecs copyLine = .ok ⟨copyTable, []⟩ := rfl
  have hout := Except.ok.inj ((hparse 12 (by decide)).symm.trans hrun)
  subst hout
  exact ⟨hparse, (haccount rfl).2⟩

end Swish.Cli
