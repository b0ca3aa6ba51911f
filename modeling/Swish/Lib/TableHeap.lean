import Mathlib.Logic.Basic
import Mathlib.Data.List.Infix

/-!
A heap of tables, whose values are atoms or again tables of the heap, and the values at the end of
a path of keys.
-/

set_option autoImplicit false

namespace Swish.Lib

variable {α σ : Type}

/-- An atom, or the table at an address. -/
inductive Val (α : Type) where
  | atom (x : α)
  | object (a : Nat)
  deriving DecidableEq

/-- The addresses from next on are free. -/
structure Heap (α σ : Type) where
  next : Nat
  table : Nat → σ → Option (Val α)

namespace Heap

/-- The value at the end of a path from v. -/
def get (h : Heap α σ) : List σ → Val α → Option (Val α)
  | [], v => some v
  | k :: ks, v =>
    match v with
    | .object a => (h.table a k).bind (h.get ks)
    | .atom _ => none

def write [DecidableEq σ] (h : Heap α σ) (a : Nat) (k : σ) (o : Option (Val α)) : Heap α σ :=
  { h with table := fun b j => if b = a ∧ j = k then o else h.table b j }

/-- A new table without keys. -/
def make (h : Heap α σ) : Heap α σ :=
  { next := h.next + 1, table := fun b j => if b = h.next then none else h.table b j }

/-- No table is at the ends of two paths from a, and all of them have been made. -/
structure Nested (h : Heap α σ) (a : Nat) : Prop where
  below : ∀ ks b, h.get ks (.object a) = some (.object b) → b < h.next
  unshared : ∀ ks js b, h.get ks (.object a) = some (.object b) → h.get js (.object a) = some (.object b) → ks = js

/-- The key k of the table a has got the value o, and no other table of h has changed. -/
structure Edits (h h' : Heap α σ) (a : Nat) (k : σ) (o : Option (Val α)) : Prop where
  next_le : h.next ≤ h'.next
  here : h'.table a k = o
  key : ∀ j, j ≠ k → h'.table a j = h.table a j
  other : ∀ b, b < h.next → b ≠ a → h'.table b = h.table b

variable {h h' : Heap α σ} {a b c : Nat} {k : σ} {ks js : List σ} {v w : Val α} {o : Option (Val α)}

@[simp] theorem get_nil (h : Heap α σ) (v : Val α) : h.get [] v = some v := rfl

theorem get_cons (h : Heap α σ) (k : σ) (ks : List σ) (a : Nat) :
    h.get (k :: ks) (.object a) = (h.table a k).bind (h.get ks) := rfl

theorem get_cons_of_table (ht : h.table a k = some v) : h.get (k :: ks) (.object a) = h.get ks v := by
  rw [get_cons, ht, Option.bind_some]

theorem get_atom (h : Heap α σ) (x : α) (hks : ks ≠ []) : h.get ks (.atom x) = none := by
  cases ks with
  | nil => exact absurd rfl hks
  | cons k ks => rfl

/-- A path ends in the same value if the tables on the way are the same. -/
theorem get_frame (hsame : ∀ ks b, h.get ks v = some (.object b) → h'.table b = h.table b) (js : List σ) :
    h'.get js v = h.get js v := by
  induction js generalizing v with
  | nil => rfl
  | cons k js ih =>
    cases v with
    | atom x => rfl
    | object a =>
      rw [get_cons, get_cons, hsame [] a rfl]
      cases ht : h.table a k with
      | none => rfl
      | some w =>
        refine ih ?_
        intro ks b hb
        exact hsame (k :: ks) b ((get_cons_of_table ht).trans hb)

theorem Nested.lt (hn : h.Nested a) : a < h.next := hn.below [] a rfl

theorem Nested.child (hn : h.Nested a) (ht : h.table a k = some (.object c)) : h.Nested c := by
  have hget : ∀ ks, h.get (k :: ks) (.object a) = h.get ks (.object c) := fun ks => get_cons_of_table ht
  refine ⟨?_, ?_⟩
  · intro ks b hb
    exact hn.below (k :: ks) b ((hget ks).trans hb)
  · intro ks js b hks hjs
    exact List.tail_eq_of_cons_eq (hn.unshared (k :: ks) (k :: js) b ((hget ks).trans hks) ((hget js).trans hjs))

theorem Nested.not_below (hn : h.Nested a) (ht : h.table a k = some v) (ks : List σ) :
    h.get ks v ≠ some (.object a) := by
  intro hb
  cases hn.unshared (k :: ks) [] a ((get_cons_of_table ht).trans hb) rfl

/-- What is below one key is not below another. -/
theorem Nested.apart {j : σ} (hn : h.Nested a) (ht : h.table a k = some v) (ht' : h.table a j = some w) (hne : j ≠ k)
    (hb : h.get ks w = some (.object b)) (js : List σ) : h.get js v ≠ some (.object b) := by
  intro hb'
  have he := hn.unshared (j :: ks) (k :: js) b ((get_cons_of_table ht').trans hb) ((get_cons_of_table ht).trans hb')
  exact hne (List.head_eq_of_cons_eq he)

/-- A table without keys is nested. -/
theorem nested_of_empty (hlt : a < h.next) (hempty : ∀ k, h.table a k = none) : h.Nested a := by
  have hnil : ∀ ks b, h.get ks (.object a) = some (.object b) → ks = [] ∧ b = a := by
    intro ks b hb
    cases ks with
    | nil =>
      cases hb
      exact ⟨rfl, rfl⟩
    | cons k ks =>
      rw [get_cons, hempty k] at hb
      cases hb
  refine ⟨?_, ?_⟩
  · intro ks b hb
    rw [(hnil ks b hb).2]
    exact hlt
  · intro ks js b hks hjs
    rw [(hnil ks b hks).1, (hnil js b hjs).1]

theorem get_of_empty (hempty : ∀ k, h.table a k = none) (hks : ks ≠ []) : h.get ks (.object a) = none := by
  cases ks with
  | nil => exact absurd rfl hks
  | cons k ks => rw [get_cons, hempty k, Option.bind_none]

theorem write_edits [DecidableEq σ] (h : Heap α σ) (a : Nat) (k : σ) (o : Option (Val α)) :
    Edits h (h.write a k o) a k o := by
  refine ⟨Nat.le_refl _, if_pos ⟨rfl, rfl⟩, ?_, ?_⟩
  · intro j hj
    exact if_neg fun he => hj he.2
  · intro b _ hb
    funext j
    exact if_neg fun he => hb he.1

/-- New tables may have been made before the edit. -/
theorem Edits.after {h1 : Heap α σ} (hle : h.next ≤ h1.next) (hkeep : ∀ b, b < h.next → h1.table b = h.table b)
    (ha : a < h.next) (he : Edits h1 h' a k o) : Edits h h' a k o := by
  refine ⟨Nat.le_trans hle he.next_le, he.here, ?_, ?_⟩
  · intro j hj
    rw [he.key j hj, hkeep a ha]
  · intro b hb hba
    rw [he.other b (Nat.lt_of_lt_of_le hb hle) hba, hkeep b hb]

end Heap

end Swish.Lib
