import Mathlib.Logic.Basic

/-!
Two levels of one design: runs of partial steps that return something, and when the
runs of one level return what those of the other do.
-/

set_option autoImplicit false

namespace Swish.Lib

variable {σ τ α β : Type}

/-- What the calls return, one after the other; none as soon as a step has no meaning. -/
def calls (step : σ → α → Option (β × σ)) : σ → List α → Option (List β × σ)
  | s, [] => some ([], s)
  | s, a :: as => (step s a).bind fun r => (calls step r.2 as).map fun rs => (r.1 :: rs.1, rs.2)

/-- The same value, and related states. -/
def Same (R : σ → τ → Prop) (x : β × σ) (y : β × τ) : Prop := x.1 = y.1 ∧ R x.2 y.2

theorem exists_of_rel {R : σ → τ → Prop} {x : Option (β × σ)} {b : β} {t : τ} (h : Option.Rel (Same R) x (some (b, t))) :
    ∃ s, x = some (b, s) ∧ R s t := by
  cases h with
  | @some a _ hab =>
    obtain ⟨value, s⟩ := a
    obtain ⟨rfl, hR⟩ := hab
    exact ⟨s, rfl, hR⟩

/-- Each step of the one level does what the other level does there. -/
def Refines (R : σ → τ → Prop) (step : σ → α → Option (β × σ)) (spec : τ → α → Option (β × τ)) : Prop :=
  ∀ s t a, R s t → Option.Rel (Same R) (step s a) (spec t a)

theorem rel_bind {γ δ : Type} {r : α → β → Prop} {q : γ → δ → Prop} {x : Option α} {y : Option β} {f : α → Option γ}
    {g : β → Option δ} (h : Option.Rel r x y) (hf : ∀ a b, r a b → Option.Rel q (f a) (g b)) :
    Option.Rel q (x.bind f) (y.bind g) := by
  cases h with
  | none => exact .none
  | some hab => exact hf _ _ hab

theorem rel_map {γ δ : Type} {r : α → β → Prop} {q : γ → δ → Prop} {x : Option α} {y : Option β} {f : α → γ} {g : β → δ}
    (h : Option.Rel r x y) (hf : ∀ a b, r a b → q (f a) (g b)) : Option.Rel q (x.map f) (y.map g) := by
  cases h with
  | none => exact .none
  | some hab => exact .some (hf _ _ hab)

variable {R : σ → τ → Prop} {step : σ → α → Option (β × σ)} {spec : τ → α → Option (β × τ)}

theorem Refines.calls (h : Refines R step spec) (as : List α) {s : σ} {t : τ} (hR : R s t) :
    Option.Rel (Same R) (calls step s as) (calls spec t as) := by
  induction as generalizing s t with
  | nil => exact .some ⟨rfl, hR⟩
  | cons a as ih =>
    refine rel_bind (h s t a hR) fun x y hxy => ?_
    exact rel_map (ih hxy.2) fun p q hpq => ⟨congrArg₂ List.cons hxy.1 hpq.1, hpq.2⟩

/-- The calls of the code return what those of the other level return. -/
theorem Refines.outputs (h : Refines R step spec) (as : List α) {s : σ} {t : τ} (hR : R s t) :
    (Lib.calls step s as).map Prod.fst = (Lib.calls spec t as).map Prod.fst := by
  have hmap := rel_map (h.calls as hR) (f := Prod.fst) (g := Prod.fst) (q := Eq) fun p q hpq => hpq.1
  generalize (Lib.calls step s as).map Prod.fst = x at hmap ⊢
  generalize (Lib.calls spec t as).map Prod.fst = y at hmap ⊢
  cases hmap with
  | none => rfl
  | some heq => exact congrArg some heq

end Swish.Lib
