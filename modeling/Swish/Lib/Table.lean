import Mathlib.Data.Nat.Basic

/-!
Tables indexed by natural numbers in which all but finitely many entries are
blank. The bound is part of the table, so that a measure over the entries is
always finite.
-/

set_option autoImplicit false

structure Table (β : Type) (blank : β) where
  get : Nat → β
  last : Nat
  beyond : ∀ i, last < i → get i = blank

namespace Table

variable {β : Type} {blank : β}

def empty : Table β blank := ⟨fun _ => blank, 0, fun _ _ => rfl⟩

/-- Writing past the end extends the table. -/
def set (t : Table β blank) (i : Nat) (x : β) : Table β blank where
  get j := if j = i then x else t.get j
  last := max t.last i
  beyond j hj := by
    have hji : j ≠ i := by omega
    simp only [hji, if_false]
    exact t.beyond j (by omega)

@[simp] theorem get_empty (i : Nat) : (empty : Table β blank).get i = blank := rfl

@[simp] theorem get_set (t : Table β blank) (i j : Nat) (x : β) :
    (t.set i x).get j = if j = i then x else t.get j := rfl

@[simp] theorem last_set (t : Table β blank) (i : Nat) (x : β) :
    (t.set i x).last = max t.last i := rfl

theorem le_last {t : Table β blank} {i : Nat} (h : t.get i ≠ blank) : i ≤ t.last := by
  by_contra hi
  exact h (t.beyond i (by omega))

end Table
