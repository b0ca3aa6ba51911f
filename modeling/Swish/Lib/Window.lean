import Mathlib.Data.List.Basic

/-!
The readings of a clock that fall in a period before the last one, kept as a list that is cut at
its first old reading each time a new one comes.
-/

set_option autoImplicit false

namespace Swish.Lib

variable {α : Type}

/-- In a list on which p fails for good once it has failed, takeWhile leaves out no element that
satisfies p. -/
theorem length_takeWhile (p : α → Bool) (xs : List α)
    (h : xs.Pairwise fun x y => p y = true → p x = true) : (xs.takeWhile p).length = xs.countP p := by
  induction xs with
  | nil => rfl
  | cons x xs ih =>
    obtain ⟨hx, hxs⟩ := List.pairwise_cons.mp h
    by_cases hp : p x = true
    · rw [List.takeWhile_cons_of_pos hp, List.countP_cons_of_pos hp, List.length_cons, ih hxs]
    · have hnone : xs.countP p = 0 := List.countP_eq_zero.mpr fun y hy hpy => hp (hx y hy hpy)
      rw [List.takeWhile_cons_of_neg hp, List.countP_cons_of_neg hp, hnone]
      rfl

theorem takeWhile_takeWhile_of_imp (p q : α → Bool) (h : ∀ x, p x = true → q x = true) (xs : List α) :
    (xs.takeWhile q).takeWhile p = xs.takeWhile p := by
  induction xs with
  | nil => rfl
  | cons x xs ih =>
    by_cases hp : p x = true
    · rw [List.takeWhile_cons_of_pos (h x hp), List.takeWhile_cons_of_pos hp, List.takeWhile_cons_of_pos hp, ih]
    · rw [List.takeWhile_cons_of_neg hp]
      by_cases hq : q x = true
      · rw [List.takeWhile_cons_of_pos hq, List.takeWhile_cons_of_neg hp]
      · rw [List.takeWhile_cons_of_neg hq]
        rfl

section Clock

variable (clock : Nat → Int) (period : Int)

/-- The first k readings, the last one first. -/
def history : Nat → List Int
  | 0 => []
  | k+1 => clock k :: history k

/-- The list that is kept after k readings. -/
def recent : Nat → List Int
  | 0 => []
  | k+1 => (clock k :: recent k).takeWhile fun r => clock k - r ≤ period

/-- How many of the readings up to k are at most a period older than it. -/
def countRecent (k : Nat) : Nat := (List.range (k + 1)).countP fun i => clock k - clock i ≤ period

variable {clock : Nat → Int} {period : Int}

theorem mem_history {r : Int} {k : Nat} (h : r ∈ history clock k) : ∃ i, i < k ∧ clock i = r := by
  induction k with
  | zero => cases h
  | succ k ih =>
    cases List.mem_cons.mp h with
    | inl he => exact ⟨k, Nat.lt_succ_self k, he.symm⟩
    | inr hm =>
      obtain ⟨i, hi, he⟩ := ih hm
      exact ⟨i, Nat.lt_succ_of_lt hi, he⟩

theorem history_sorted (hclock : ∀ i j, i ≤ j → clock i ≤ clock j) (k : Nat) :
    (history clock k).Pairwise fun x y => y ≤ x := by
  induction k with
  | zero => exact List.Pairwise.nil
  | succ k ih =>
    refine List.pairwise_cons.mpr ⟨?_, ih⟩
    intro r hr
    obtain ⟨i, hi, he⟩ := mem_history hr
    rw [← he]
    exact hclock i k (Nat.le_of_lt hi)

theorem countP_history (p : Int → Bool) (k : Nat) :
    (history clock k).countP p = (List.range k).countP fun i => p (clock i) := by
  induction k with
  | zero => rfl
  | succ k ih => rw [history, List.countP_cons, ih, List.range_succ, List.countP_append, List.countP_singleton]

/-- What has been cut off earlier would be cut off now. -/
theorem recent_succ (hclock : ∀ i j, i ≤ j → clock i ≤ clock j) (k : Nat) :
    recent clock period (k + 1) = (history clock (k + 1)).takeWhile fun r => clock k - r ≤ period := by
  induction k with
  | zero => rfl
  | succ k ih =>
    have hle : clock k ≤ clock (k + 1) := hclock k (k + 1) (Nat.le_succ k)
    have himp : ∀ r : Int, decide (clock (k + 1) - r ≤ period) = true → decide (clock k - r ≤ period) = true := by
      intro r hr
      rw [decide_eq_true_eq] at hr ⊢
      omega
    rw [recent, history, List.takeWhile_cons, List.takeWhile_cons, ih, takeWhile_takeWhile_of_imp _ _ himp]

/-- The list has just the readings of the last period. -/
theorem length_recent (hclock : ∀ i j, i ≤ j → clock i ≤ clock j) (k : Nat) :
    (recent clock period (k + 1)).length = countRecent clock period k := by
  have hsorted : (history clock (k + 1)).Pairwise fun x y =>
      decide (clock k - y ≤ period) = true → decide (clock k - x ≤ period) = true := by
    refine (history_sorted hclock (k + 1)).imp ?_
    intro x y hle hy
    rw [decide_eq_true_eq] at hy ⊢
    omega
  rw [recent_succ hclock, length_takeWhile _ _ hsorted, countP_history]
  rfl

theorem lt_countRecent (hclock : ∀ i j, i ≤ j → clock i ≤ clock j) (k n : Nat)
    (h : clock (k + n) - clock k ≤ period) : n < countRecent clock period (k + n) := by
  have hall : (List.range' k (n + 1)).countP (fun i => decide (clock (k + n) - clock i ≤ period)) =
      (List.range' k (n + 1)).length := by
    refine List.countP_eq_length.mpr ?_
    intro i hi
    have hki : k ≤ i := (List.mem_range'_1.mp hi).1
    have hle := hclock k i hki
    rw [decide_eq_true_eq]
    omega
  have hsplit : List.range (k + n + 1) = List.range' 0 k ++ List.range' k (n + 1) := by
    have happ := @List.range'_append_1 0 k (n + 1)
    rw [Nat.zero_add] at happ
    rw [happ, List.range_eq_range', Nat.add_assoc]
  rw [countRecent, hsplit, List.countP_append, hall, List.length_range']
  omega

end Clock

end Swish.Lib
