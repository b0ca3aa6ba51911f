import Mathlib.Data.List.Basic

/-!
Filling lines with items in order, as many on a line as fit.
-/

set_option autoImplicit false

namespace Swish.Lib

variable {α : Type}

/-- The lines, when the first has the items of a line begun already. -/
def fillFrom (fits : List α → α → Bool) : List α → List α → List (List α)
  | cur, [] => [cur]
  | cur, x :: xs => if fits cur x then fillFrom fits (cur ++ [x]) xs else cur :: fillFrom fits [x] xs

/-- There is a line also when there is no item. -/
def fill (fits : List α → α → Bool) : List α → List (List α)
  | [] => [[]]
  | x :: xs => fillFrom fits [x] xs

variable {fits : List α → α → Bool}

@[simp] theorem fillFrom_flatten (cur xs : List α) : (fillFrom fits cur xs).flatten = cur ++ xs := by
  induction xs generalizing cur with
  | nil => simp [fillFrom]
  | cons x xs ih =>
    rw [fillFrom]
    split
    · simp [ih]
    · simp [ih]

theorem fill_flatten (xs : List α) : (fill fits xs).flatten = xs := by
  cases xs with
  | nil => rfl
  | cons x xs => exact fillFrom_flatten [x] xs

/-- What holds of one item, and stays true as long as items fit, holds of every line. -/
theorem fillFrom_forall {P : List α → Prop} (single : ∀ x, P [x]) (step : ∀ cur x, P cur → fits cur x → P (cur ++ [x]))
    {cur : List α} (h : P cur) (xs : List α) : ∀ line, line ∈ fillFrom fits cur xs → P line := by
  induction xs generalizing cur with
  | nil =>
    intro line hline
    obtain rfl := List.mem_singleton.mp hline
    exact h
  | cons x xs ih =>
    rw [fillFrom]
    split
    · next hfits => exact ih (step cur x h hfits)
    · intro line hline
      rcases List.mem_cons.mp hline with rfl | hline
      · exact h
      · exact ih (single x) line hline

theorem fill_forall {P : List α → Prop} (nil : P []) (single : ∀ x, P [x])
    (step : ∀ cur x, P cur → fits cur x → P (cur ++ [x])) (xs : List α) : ∀ line, line ∈ fill fits xs → P line := by
  cases xs with
  | nil =>
    intro line hline
    obtain rfl := List.mem_singleton.mp hline
    exact nil
  | cons x xs => exact fillFrom_forall single step (single x) xs

theorem fillFrom_ne_nil (cur xs : List α) : fillFrom fits cur xs ≠ [] := by
  induction xs generalizing cur with
  | nil => exact List.cons_ne_nil cur []
  | cons x xs ih =>
    rw [fillFrom]
    split
    · exact ih (cur ++ [x])
    · exact List.cons_ne_nil cur _

theorem fill_ne_nil (xs : List α) : fill fits xs ≠ [] := by
  cases xs with
  | nil => exact List.cons_ne_nil [] []
  | cons x xs => exact fillFrom_ne_nil [x] xs

/-- Only when there is no item is a line empty. -/
theorem fill_line_ne_nil {xs : List α} (h : xs ≠ []) : [] ∉ fill fits xs := by
  cases xs with
  | nil => exact absurd rfl h
  | cons x xs =>
    intro hnil
    exact fillFrom_forall (P := fun line => line ≠ []) (fun x => List.cons_ne_nil x [])
      (fun cur x _ _ => List.append_ne_nil_of_right_ne_nil cur (List.cons_ne_nil x [])) (List.cons_ne_nil x [])
      xs [] hnil rfl

end Swish.Lib
