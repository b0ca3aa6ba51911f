import Mathlib.Data.List.Basic

/-!
Computations that may fail: what is known when one succeeds.
-/

set_option autoImplicit false

namespace Swish.Lib

variable {ε ι α β γ : Type}

theorem bind_ok {m : Except ε α} {f : α → Except ε β} {b : β} (h : m >>= f = .ok b) : ∃ a, m = .ok a ∧ f a = .ok b := by
  cases m with
  | error e => cases h
  | ok a => exact ⟨a, rfl, h⟩

theorem mapM_cons_ok {f : α → Except ε β} {x : α} {xs : List α} {out : List β} (h : (x :: xs).mapM f = .ok out) :
    ∃ y ys, f x = .ok y ∧ xs.mapM f = .ok ys ∧ out = y :: ys := by
  rw [List.mapM_cons] at h
  obtain ⟨y, hy, h⟩ := bind_ok h
  obtain ⟨ys, hys, h⟩ := bind_ok h
  cases h
  exact ⟨y, ys, hy, hys, rfl⟩

/-- What is known of each result holds of all. -/
theorem mapM_ok {f : α → Except ε β} {g : β → γ} {k : α → γ} {xs : List α} {out : List β} (h : xs.mapM f = .ok out)
    (hk : ∀ x, x ∈ xs → ∀ y, f x = .ok y → g y = k x) : out.map g = xs.map k := by
  induction xs generalizing out with
  | nil =>
    cases h
    rfl
  | cons x xs ih =>
    obtain ⟨y, ys, hy, hys, rfl⟩ := mapM_cons_ok h
    rw [List.map_cons, List.map_cons, hk x List.mem_cons_self y hy,
      ih hys fun z hz => hk z (List.mem_cons_of_mem x hz)]

/-- A function on the results can be applied at the end. -/
theorem mapM_map (k : α → β) (f : ι → Except ε α) (xs : List ι) :
    xs.mapM (fun x => (f x).map k) = (xs.mapM f).map (List.map k) := by
  induction xs with
  | nil => rfl
  | cons x xs ih =>
    rw [List.mapM_cons, List.mapM_cons, ih]
    cases f x with
    | error e => rfl
    | ok y =>
      cases xs.mapM f with
      | error e => rfl
      | ok ys => rfl

end Swish.Lib
