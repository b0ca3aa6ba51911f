import Mathlib.Algebra.BigOperators.Fin
import Swish.Lib.Reach

/-!
Steps of a certain kind come to an end: each of them makes a measure smaller, and
where none is possible something has been reached.
-/

set_option autoImplicit false

namespace Swish.Lib

variable {σ α ε : Type}

/-- In states with the invariant I the quiet steps go on until good holds. -/
structure Settles (step : σ → α → Except ε σ) (I : σ → Prop) (quiet : σ → α → Prop) (measure : σ → Nat)
    (good : σ → Prop) : Prop where
  keeps {s t : σ} {a : α} (h : I s) (ha : quiet s a) (ht : step s a = .ok t) : I t
  falls {s t : σ} {a : α} (h : I s) (ha : quiet s a) (ht : step s a = .ok t) : measure t < measure s
  goes {s : σ} (h : I s) (hs : ¬ good s) : ∃ a t, quiet s a ∧ step s a = .ok t

theorem along_of_mem {step : σ → α → Except ε σ} {quiet : σ → α → Prop} (as : List α)
    (h : ∀ a ∈ as, ∀ s, quiet s a) (s : σ) : Reach.Along step quiet s as := by
  induction as generalizing s with
  | nil => trivial
  | cons a as ih =>
    refine ⟨h a (List.mem_cons_self ..) s, ?_⟩
    split
    · exact ih (fun b hb => h b (List.mem_cons_of_mem _ hb)) _
    · trivial

namespace Settles

variable {step : σ → α → Except ε σ} {I : σ → Prop} {quiet : σ → α → Prop} {measure : σ → Nat} {good : σ → Prop}

/-- How long a run of quiet steps can be. -/
theorem run_length (hS : Settles step I quiet measure good) (as : List α) {s t : σ} (h : I s)
    (hall : Reach.Along step quiet s as) (hrun : Reach.run step s as = .ok t) :
    as.length + measure t ≤ measure s ∧ I t := by
  induction as generalizing s with
  | nil =>
    cases hrun
    simp [h]
  | cons a as ih =>
    rw [Reach.run] at hrun
    cases hstep : step s a with
    | error e => simp [hstep, Except.bind] at hrun
    | ok u =>
      rw [hstep] at hrun
      simp only [Reach.Along, hstep] at hall
      have hfalls := hS.falls h hall.1 hstep
      obtain ⟨hrest, ht⟩ := ih (hS.keeps h hall.1 hstep) hall.2 hrun
      refine ⟨?_, ht⟩
      simp only [List.length_cons]
      omega

/-- Where there is no quiet step the good state is reached. -/
theorem good_of_stuck (hS : Settles step I quiet measure good) {s : σ} (h : I s)
    (hstuck : ∀ a t, quiet s a → step s a ≠ .ok t) : good s := by
  by_contra hs
  obtain ⟨a, t, ha, ht⟩ := hS.goes h hs
  exact hstuck a t ha ht

end Settles

/-- A sum in which one number changes. -/
theorem sum_change {ι : Type} [Fintype ι] [DecidableEq ι] {f g : ι → Nat} (i : ι) (h : ∀ k, k ≠ i → f k = g k) :
    ∑ k, f k + g i = ∑ k, g k + f i := by
  have hrest : ∑ k ∈ Finset.univ.erase i, f k = ∑ k ∈ Finset.univ.erase i, g k :=
    Finset.sum_congr rfl fun k hk => h k (Finset.ne_of_mem_erase hk)
  rw [← Finset.add_sum_erase _ f (Finset.mem_univ i), ← Finset.add_sum_erase _ g (Finset.mem_univ i), hrest]
  omega

/-- Two numbers change. -/
theorem sum_change_two {ι : Type} [Fintype ι] [DecidableEq ι] {f g : ι → Nat} {i j : ι} (hij : i ≠ j)
    (h : ∀ k, k ≠ i → k ≠ j → f k = g k) :
    ∑ k, f k + g i + g j = ∑ k, g k + f i + f j := by
  have h1 := @sum_change ι _ _ f (Function.update f i (g i)) i fun k hk => by simp [hk]
  have h2 := @sum_change ι _ _ (Function.update f i (g i)) g j fun k hk => by
    by_cases hki : k = i
    · simp [hki]
    · simp [hki, h k hki hk]
  simp only [Function.update_self, Function.update_of_ne hij.symm] at h1 h2
  omega

end Swish.Lib
