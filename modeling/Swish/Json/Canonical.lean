import Swish.Json.RoundTrip

/-!
The order of the members. With the default json:key<? what is written for an object
depends on its mapping only, not on how its hashtable came to hold it nor on the order
in which hashtable-cells gives the cells.
-/

set_option autoImplicit false

namespace Swish.Json

variable {α : Type} {env : WriteEnv}

/-- string<?, the order when json:key<? is #t. -/
def stringLt (a b : List Char) : Bool := a < b

/-- hashtable-ref, none when the key is not there. -/
def hashtableRef (key : Key) : List (Key × Datum) → Option Datum
  | [] => none
  | cell :: cells => if cell.1 = key then some cell.2 else hashtableRef key cells

def hashtableUpdate (key : Key) (f : Datum → Datum) (default : Datum) (cells : List (Key × Datum)) :
    List (Key × Datum) :=
  hashtableSet key (f ((hashtableRef key cells).getD default)) cells

def hashtableDelete (key : Key) (cells : List (Key × Datum)) : List (Key × Datum) :=
  cells.filter fun cell => cell.1 ≠ key

/-- What json:set!, json:update! and json:delete! do to the object at the end of
their path; json:make-object and json:extend-object do the first of them. -/
inductive Change where
  | set (key : Key) (val : Datum)
  | update (key : Key) (f : Datum → Datum) (default : Datum)
  | delete (key : Key)

def Change.apply (cells : List (Key × Datum)) : Change → List (Key × Datum)
  | .set key val => hashtableSet key val cells
  | .update key f default => hashtableUpdate key f default cells
  | .delete key => hashtableDelete key cells

/-- The cells of an object after some changes, in any order. -/
def Built (cells : List (Key × Datum)) : Prop :=
  ∃ changes : List Change, cells.Perm (changes.foldl Change.apply [])

def Key.Ordinary : Key → Prop
  | .symbol _ => True
  | .gensym _ _ => False

/-- Structurally equal json values. Objects have the same mapping. -/
inductive StructEq : Datum → Datum → Prop where
  | bool (b : Bool) : StructEq (.bool b) (.bool b)
  | null : StructEq (.char nul) (.char nul)
  | int (n : Int) : StructEq (.int n) (.int n)
  | flonum (s : Bool) (m : Nat) (e : Int) : StructEq (.flonum s m e) (.flonum s m e)
  | string (s : List Char) : StructEq (.string s) (.string s)
  | nil : StructEq .nil .nil
  | pair {a a' d d' : Datum} (ha : StructEq a a') (hd : StructEq d d') :
      StructEq (.pair a d) (.pair a' d')
  | object {cells cells' : List (Key × Datum)} (hb : Built cells) (hb' : Built cells')
      (hsym : ∀ cell ∈ cells, cell.1.Ordinary)
      (hkeys : ∀ key, key ∈ cells.map Prod.fst ↔ key ∈ cells'.map Prod.fst)
      (hvals : ∀ key x x', (key, x) ∈ cells → (key, x') ∈ cells' → StructEq x x') :
      StructEq (.object cells) (.object cells')

theorem keys_hashtableSet (key : Key) (val : Datum) (cells : List (Key × Datum)) :
    (hashtableSet key val cells).map Prod.fst =
      if key ∈ cells.map Prod.fst then cells.map Prod.fst else cells.map Prod.fst ++ [key] := by
  induction cells with
  | nil => rfl
  | cons cell cells ih =>
    unfold hashtableSet
    by_cases h : cell.1 = key
    · simp [h]
    · rw [if_neg h, List.map_cons, ih]
      have h' : key ≠ cell.1 := fun h1 => h h1.symm
      by_cases h2 : key ∈ cells.map Prod.fst
      · rw [if_pos h2, List.map_cons, if_pos (List.mem_cons_of_mem _ h2)]
      · rw [if_neg h2, List.map_cons, if_neg (by simp_all), List.cons_append]

theorem nodup_hashtableSet (key : Key) (val : Datum) {cells : List (Key × Datum)}
    (h : (cells.map Prod.fst).Nodup) : ((hashtableSet key val cells).map Prod.fst).Nodup := by
  rw [keys_hashtableSet]
  by_cases hk : key ∈ cells.map Prod.fst
  · rw [if_pos hk]
    exact h
  · rw [if_neg hk]
    exact h.append (List.nodup_singleton key) (by simpa using hk)

/-- Each change keeps the keys apart. -/
theorem Change.nodup_apply (c : Change) {cells : List (Key × Datum)} (h : (cells.map Prod.fst).Nodup) :
    ((c.apply cells).map Prod.fst).Nodup := by
  cases c with
  | set key val => exact nodup_hashtableSet key val h
  | update key f default => exact nodup_hashtableSet key _ h
  | delete key => exact (List.filter_sublist.map Prod.fst).nodup h

theorem Built.nodup {cells : List (Key × Datum)} (h : Built cells) : (cells.map Prod.fst).Nodup := by
  obtain ⟨changes, hp⟩ := h
  have hrun : ∀ (changes : List Change) (start : List (Key × Datum)), (start.map Prod.fst).Nodup →
      ((changes.foldl Change.apply start).map Prod.fst).Nodup := by
    intro changes
    induction changes with
    | nil => exact fun start hs => hs
    | cons c changes ih => exact fun start hs => ih _ (c.nodup_apply hs)
  exact (hp.map Prod.fst).nodup_iff.mpr (hrun changes [] List.nodup_nil)

theorem Key.eq_of_toSortKey {k k' : Key} (h : k.Ordinary) (h' : k'.Ordinary)
    (he : k.toSortKey = k'.toSortKey) : k = k' := by
  cases k with
  | gensym _ _ => exact h.elim
  | symbol name =>
    cases k' with
    | gensym _ _ => exact h'.elim
    | symbol name' => exact congrArg Key.symbol he

/-- The cells of one key are the same cell. -/
theorem eq_of_key {cells : List (Key × α)} (h : (cells.map Prod.fst).Nodup) {x y : Key × α}
    (hx : x ∈ cells) (hy : y ∈ cells) (he : x.1 = y.1) : x = y :=
  List.inj_on_of_nodup_map h hx hy he

/-- On ordinary symbols string<? is a total order, so there is one way to sort. -/
theorem sortCells_of_perm (hlt : env.keyLt = some stringLt) {cells cells' : List (Key × α)}
    (hp : cells.Perm cells') (hnd : (cells.map Prod.fst).Nodup)
    (hsym : ∀ cell ∈ cells, cell.1.Ordinary) : sortCells env cells = sortCells env cells' := by
  have hsorted : ∀ l : List (Key × α), (sortCells env l).Pairwise
      fun x y => (!stringLt y.1.toSortKey x.1.toSortKey) = true := by
    intro l
    unfold sortCells
    rw [hlt]
    refine List.pairwise_mergeSort ?_ ?_ l
    · intro a b c hab hbc
      simp only [stringLt, Bool.not_eq_true', decide_eq_false_iff_not, List.not_lt] at hab hbc ⊢
      exact List.le_trans hab hbc
    · intro a b
      simp only [stringLt, Bool.or_eq_true, Bool.not_eq_true', decide_eq_false_iff_not,
        List.not_lt]
      exact List.le_total _ _
  have hperm : (sortCells env cells).Perm (sortCells env cells') :=
    (sortCells_perm env cells).trans (hp.trans (sortCells_perm env cells').symm)
  refine List.Perm.eq_of_pairwise ?_ (hsorted cells) (hsorted cells') hperm
  intro x y hx hy hxy hyx
  simp only [stringLt, Bool.not_eq_true', decide_eq_false_iff_not, List.not_lt] at hxy hyx
  have hx' : x ∈ cells := (sortCells_perm env cells).mem_iff.mp hx
  have hy' : y ∈ cells := hp.mem_iff.mpr ((sortCells_perm env cells').mem_iff.mp hy)
  exact eq_of_key hnd hx' hy' (Key.eq_of_toSortKey (hsym x hx') (hsym y hy') (List.le_antisymm hxy hyx))

theorem wrCells_eq (cells : List (Key × Datum)) (indent : Option Int) :
    wrCells env cells indent = cells.map fun cell => (cell.1, wr env cell.2 indent) := by
  induction cells with
  | nil => rfl
  | cons cell cells ih =>
    obtain ⟨key, val⟩ := cell
    rw [wrCells, ih]
    rfl

theorem keys_wrCells (cells : List (Key × Datum)) (indent : Option Int) :
    (wrCells env cells indent).map Prod.fst = cells.map Prod.fst := by
  rw [wrCells_eq, List.map_map]
  rfl

/-- The texts of the members are the same up to their order. -/
theorem wrCells_perm {cells cells' : List (Key × Datum)} {indent : Option Int}
    (hnd : (cells.map Prod.fst).Nodup) (hnd' : (cells'.map Prod.fst).Nodup)
    (hkeys : ∀ key, key ∈ cells.map Prod.fst ↔ key ∈ cells'.map Prod.fst)
    (hvals : ∀ key x x', (key, x) ∈ cells → (key, x') ∈ cells' → wr env x indent = wr env x' indent) :
    (wrCells env cells indent).Perm (wrCells env cells' indent) := by
  have hn : (wrCells env cells indent).Nodup := List.Nodup.of_map Prod.fst (by rw [keys_wrCells]; exact hnd)
  have hn' : (wrCells env cells' indent).Nodup := List.Nodup.of_map Prod.fst (by rw [keys_wrCells]; exact hnd')
  refine (List.perm_ext_iff_of_nodup hn hn').mpr fun cell => ?_
  simp only [wrCells_eq, List.mem_map]
  constructor
  · intro h
    obtain ⟨⟨key, x⟩, hx, rfl⟩ := h
    obtain ⟨cell', hx', hk⟩ := List.mem_map.mp ((hkeys key).mp (List.mem_map_of_mem hx))
    obtain ⟨key', x'⟩ := cell'
    cases hk
    exact ⟨(key', x'), hx', by rw [hvals _ x x' hx hx']⟩
  · intro h
    obtain ⟨⟨key, x'⟩, hx', rfl⟩ := h
    obtain ⟨cell, hx, hk⟩ := List.mem_map.mp ((hkeys key).mpr (List.mem_map_of_mem hx'))
    obtain ⟨key', x⟩ := cell
    cases hk
    exact ⟨(key', x), hx, by rw [hvals _ x x' hx hx']⟩

theorem isEmpty_congr {cells cells' : List (Key × Datum)}
    (hkeys : ∀ key, key ∈ cells.map Prod.fst ↔ key ∈ cells'.map Prod.fst) :
    cells.isEmpty = cells'.isEmpty := by
  cases cells with
  | nil =>
    cases cells' with
    | nil => rfl
    | cons cell' _ => exact absurd ((hkeys cell'.1).mpr (by simp)) (by simp)
  | cons cell _ =>
    cases cells' with
    | nil => exact absurd ((hkeys cell.1).mp (by simp)) (by simp)
    | cons _ _ => rfl

theorem orCustom_congr {x y : Datum} {indent : Option Int} {r r' : Except WriteError (List Char)}
    (hf : ∀ f, env.customWrite = some f → f x indent = f y indent) (hr : r = r') :
    orCustom env x indent r = orCustom env y indent r' := by
  unfold orCustom
  cases h : env.customWrite with
  | none => exact hr
  | some f =>
    dsimp only
    rw [hr, hf f h]

/-- wr cannot tell structurally equal values apart, as elements or as the rest of a
list, when the custom writer cannot. -/
theorem wr_structEq (hlt : env.keyLt = some stringLt)
    (hcw : ∀ f x y indent, env.customWrite = some f → StructEq x y → f x indent = f y indent)
    {x y : Datum} (h : StructEq x y) :
    ∀ indent, wr env x indent = wr env y indent ∧ wrTail env x indent = wrTail env y indent := by
  induction h with
  | bool b => exact fun _ => ⟨rfl, rfl⟩
  | null => exact fun _ => ⟨rfl, rfl⟩
  | int n => exact fun _ => ⟨rfl, rfl⟩
  | flonum s m e => exact fun _ => ⟨rfl, rfl⟩
  | string s => exact fun _ => ⟨rfl, rfl⟩
  | nil => exact fun _ => ⟨rfl, rfl⟩
  | pair ha hd iha ihd =>
    intro indent
    have hrest : ∀ indent, wr env _ indent :: wrTail env _ indent = wr env _ indent :: wrTail env _ indent :=
      fun indent => congrArg₂ List.cons (iha indent).1 (ihd indent).2
    refine ⟨?_, ?_⟩
    · rw [wr, wr]
      refine orCustom_congr (fun f hf => hcw f _ _ _ hf (.pair ha hd)) ?_
      rw [funext hrest]
    · rw [wrTail, wrTail]
      exact hrest indent
  | @object cells cells' hb hb' hsym hkeys hvals ih =>
    intro indent
    refine ⟨?_, rfl⟩
    have hsort : ∀ indent, sortCells env (wrCells env cells indent) = sortCells env (wrCells env cells' indent) := by
      intro indent
      refine sortCells_of_perm hlt (wrCells_perm hb.nodup hb'.nodup hkeys
        fun key x x' hx hx' => (ih key x x' hx hx' indent).1) ?_ ?_
      · rw [keys_wrCells]
        exact hb.nodup
      · intro cell hcell
        rw [wrCells_eq] at hcell
        obtain ⟨c, hc, rfl⟩ := List.mem_map.mp hcell
        exact hsym c hc
    rw [wr, wr]
    refine orCustom_congr (fun f hf => hcw f _ _ _ hf (.object hb hb' hsym hkeys hvals)) ?_
    rw [isEmpty_congr hkeys]
    simp only [hsort]

/-- json:object->string. -/
def objectToString (env : WriteEnv) (x : Datum) (indent : Option Int) : Except WriteError (List Char) :=
  write env x indent

/-- With the default order, structurally equal values have the same text at every
indent, whatever was done to build their objects and in whatever order their cells
come. A custom writer, if there is one, must not look at that either. -/
theorem output_canonical (env : WriteEnv) (hlt : env.keyLt = some stringLt)
    (hcw : ∀ f x y indent, env.customWrite = some f → StructEq x y → f x indent = f y indent)
    (x y : Datum) (h : StructEq x y) (indent : Option Int) :
    objectToString env x indent = objectToString env y indent := by
  have hwr := fun indent => (wr_structEq hlt hcw h indent).1
  unfold objectToString write
  cases indent with
  | none => exact hwr none
  | some i => simp only [hwr]

/-- An object with a member a and a member b that holds an object in turn, built in
the order of the keys. -/
def inOrder : Datum :=
  .object [(.symbol ['a'], .int 1), (.symbol ['b'], .object [(.symbol ['x'], .nil), (.symbol ['y'], .bool true)])]

/-- The same object, built in another order with a member that is deleted and one
that is updated. -/
def outOfOrder : Datum :=
  .object [(.symbol ['b'], .object [(.symbol ['y'], .bool true), (.symbol ['x'], .nil)]), (.symbol ['a'], .int 1)]

theorem inOrder_structEq : StructEq inOrder outOfOrder := by
  have hinner : StructEq (.object [(.symbol ['x'], .nil), (.symbol ['y'], .bool true)])
      (.object [(.symbol ['y'], .bool true), (.symbol ['x'], .nil)]) := by
    refine .object ⟨[.set (.symbol ['x']) .nil, .set (.symbol ['y']) (.bool true)], .refl _⟩
      ⟨[.set (.symbol ['x']) .nil, .set (.symbol ['y']) (.bool true)], .swap _ _ _⟩ ?_ ?_ ?_
    · simp [Key.Ordinary]
    · simp [or_comm]
    · intro key x x' hx hx'
      simp only [List.mem_cons, Prod.mk.injEq, List.not_mem_nil, or_false] at hx hx'
      obtain ⟨rfl, rfl⟩ | ⟨rfl, rfl⟩ := hx
      · obtain ⟨h, -⟩ | ⟨-, rfl⟩ := hx'
        · simp at h
        · exact .nil
      · obtain ⟨-, rfl⟩ | ⟨h, -⟩ := hx'
        · exact .bool true
        · simp at h
  refine .object ⟨[.set (.symbol ['a']) (.int 1), .set (.symbol ['b']) _], .refl _⟩
    ⟨[.set (.symbol ['c']) .nil, .set (.symbol ['b']) _, .delete (.symbol ['c']),
      .update (.symbol ['a']) (fun _ => .int 1) .nil], .refl _⟩ ?_ ?_ ?_
  · simp [Key.Ordinary]
  · simp [or_comm]
  · intro key x x' hx hx'
    simp only [List.mem_cons, Prod.mk.injEq, List.not_mem_nil, or_false] at hx hx'
    obtain ⟨rfl, rfl⟩ | ⟨rfl, rfl⟩ := hx
    · obtain ⟨h, -⟩ | ⟨-, rfl⟩ := hx'
      · simp at h
      · exact .int 1
    · obtain ⟨-, rfl⟩ | ⟨h, -⟩ := hx'
      · exact hinner
      · simp at h

theorem output_canonical_nested :
    objectToString machine64 inOrder (some 0) = objectToString machine64 outOfOrder (some 0) :=
  output_canonical machine64 rfl (fun _ _ _ _ h => (by cases h)) inOrder outOfOrder inOrder_structEq (some 0)

end Swish.Json
