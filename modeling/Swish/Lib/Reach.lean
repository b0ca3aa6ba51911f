import Mathlib.Logic.Basic

/-!
States that a partial step function reaches, with steps that a side condition
allows.
-/

set_option autoImplicit false

namespace Swish.Lib

variable {σ α ε : Type}

inductive Reach (init : σ) (step : σ → α → Except ε σ) (allowed : σ → α → Prop) : σ → Prop where
  | start : Reach init step allowed init
  | step {s t : σ} {a : α} (h : Reach init step allowed s) (ha : allowed s a) (ht : step s a = .ok t) :
      Reach init step allowed t

namespace Reach

variable {init : σ} {step : σ → α → Except ε σ} {allowed allowed' : σ → α → Prop}

theorem invariant {I : σ → Prop} (h0 : I init)
    (hs : ∀ s a t, I s → allowed s a → step s a = .ok t → I t) {s : σ} (h : Reach init step allowed s) : I s := by
  induction h with
  | start => exact h0
  | step _ ha ht ih => exact hs _ _ _ ih ha ht

theorem trans {s t : σ} (h : Reach init step allowed s) (h' : Reach s step allowed t) :
    Reach init step allowed t := by
  induction h' with
  | start => exact h
  | step _ ha ht ih => exact .step ih ha ht

theorem mono (ha : ∀ s a, allowed s a → allowed' s a) {s : σ} (h : Reach init step allowed s) :
    Reach init step allowed' s := by
  induction h with
  | start => exact .start
  | step _ h1 ht ih => exact .step ih (ha _ _ h1) ht

/-- The state after a list of steps, all of them allowed. -/
def run (step : σ → α → Except ε σ) : σ → List α → Except ε σ
  | s, [] => .ok s
  | s, a :: as => (step s a).bind fun t => run step t as

/-- Every step of a run is allowed, as long as it goes on. -/
def Along (step : σ → α → Except ε σ) (allowed : σ → α → Prop) : σ → List α → Prop
  | _, [] => True
  | s, a :: as => allowed s a ∧ match step s a with
    | .ok t => Along step allowed t as
    | .error _ => True

instance Along.decidable [∀ s a, Decidable (allowed s a)] :
    (s : σ) → (as : List α) → Decidable (Along step allowed s as)
  | _, [] => .isTrue trivial
  | s, a :: as =>
    match h : step s a with
    | .ok t =>
      have := Along.decidable t as
      decidable_of_iff (allowed s a ∧ Along step allowed t as) (by simp [Along, h])
    | .error _ => decidable_of_iff (allowed s a) (by simp [Along, h])

theorem along_of_forall (h : ∀ s a, allowed s a) (as : List α) (s : σ) : Along step allowed s as := by
  induction as generalizing s with
  | nil => trivial
  | cons a as ih =>
    refine ⟨h s a, ?_⟩
    split
    · exact ih _
    · trivial

theorem of_run (as : List α) {s t : σ} (h : Reach init step allowed s) (hall : Along step allowed s as)
    (hr : run step s as = .ok t) : Reach init step allowed t := by
  induction as generalizing s with
  | nil =>
    cases hr
    exact h
  | cons a as ih =>
    rw [run] at hr
    rw [Along] at hall
    cases hs : step s a with
    | error e =>
      rw [hs] at hr
      cases hr
    | ok u =>
      rw [hs] at hr hall
      exact ih (.step h hall.1 hs) hall.2 hr

/-- Induction over a run together with the steps taken so far. -/
theorem run_history {I : List α → σ → Prop}
    (hs : ∀ past s a t, I past s → step s a = .ok t → I (past ++ [a]) t) (as : List α) :
    ∀ {past : List α} {s t : σ}, I past s → run step s as = .ok t → I (past ++ as) t := by
  induction as with
  | nil =>
    intro past s t h hr
    cases hr
    rw [List.append_nil]
    exact h
  | cons a as ih =>
    intro past s t h hr
    rw [run] at hr
    cases hstep : step s a with
    | error e =>
      rw [hstep] at hr
      cases hr
    | ok u =>
      rw [hstep] at hr
      have hnext := ih (hs past s a u h hstep) hr
      rwa [List.append_assoc] at hnext

theorem run_append (as bs : List α) {s t : σ} (h : run step s (as ++ bs) = .ok t) :
    ∃ u, run step s as = .ok u ∧ run step u bs = .ok t := by
  induction as generalizing s with
  | nil => exact ⟨s, rfl, h⟩
  | cons a as ih =>
    rw [List.cons_append, run] at h
    cases hstep : step s a with
    | error e =>
      rw [hstep] at h
      cases h
    | ok u =>
      rw [hstep] at h
      obtain ⟨v, h1, h2⟩ := ih h
      refine ⟨v, ?_, h2⟩
      rw [run, hstep]
      exact h1

theorem run_trans (as bs : List α) {s t u : σ} (h : run step s as = .ok t) (h' : run step t bs = .ok u) :
    run step s (as ++ bs) = .ok u := by
  induction as generalizing s with
  | nil =>
    cases h
    exact h'
  | cons a as ih =>
    rw [run] at h
    rw [List.cons_append, run]
    cases hstep : step s a with
    | error e =>
      rw [hstep] at h
      cases h
    | ok v =>
      rw [hstep] at h
      exact ih h

theorem along_at (as bs : List α) {b : α} {s u : σ} (h : Along step allowed s (as ++ b :: bs))
    (hr : run step s as = .ok u) : allowed u b := by
  induction as generalizing s with
  | nil =>
    cases hr
    exact h.1
  | cons a as ih =>
    rw [List.cons_append, Along] at h
    rw [run] at hr
    cases hstep : step s a with
    | error e =>
      rw [hstep] at hr
      cases hr
    | ok t =>
      rw [hstep] at h hr
      exact ih h.2 hr

end Reach

end Swish.Lib
