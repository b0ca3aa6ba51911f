import Mathlib.Logic.Basic

/-!
Programs with a state and exceptions: what a run ends with, and what two runs side
by side end with.
-/

set_option autoImplicit false

namespace Swish.Lib

variable {ε σ α β : Type} {m m' : EStateM ε σ α} {f f' : α → EStateM ε σ β}

/-- The run of m from s ends in Q when it returns and in E when it throws. -/
def Ends (m : EStateM ε σ α) (s : σ) (Q : α → σ → Prop) (E : ε → σ → Prop) : Prop :=
  match m s with
  | .ok a t => Q a t
  | .error e t => E e t

namespace Ends

variable {s : σ} {Q Q' : α → σ → Prop} {E E' : ε → σ → Prop} {R : β → σ → Prop}

theorem bind (h : Ends m s (fun a t => Ends (f a) t R E) E) : Ends (m >>= f) s R E := by
  unfold Ends at h ⊢
  show match EStateM.bind m f s with | .ok a t => R a t | .error e t => E e t
  unfold EStateM.bind
  cases hm : m s with
  | ok a t =>
    rw [hm] at h
    exact h
  | error e t =>
    rw [hm] at h
    exact h

theorem of_eq {s' : σ} (he : m s = m' s') (h : Ends m' s' Q E) : Ends m s Q E := by
  unfold Ends
  rw [he]
  exact h

theorem pure {a : α} (h : Q a s) : Ends (pure a : EStateM ε σ α) s Q E := h

theorem throw {e : ε} (h : E e s) : Ends (throw e : EStateM ε σ α) s Q E := h

theorem ite {c : Prop} [Decidable c] (h : c → Ends m s Q E) (h' : ¬ c → Ends m' s Q E) :
    Ends (if c then m else m') s Q E := by
  by_cases hc : c
  · rw [if_pos hc]
    exact h hc
  · rw [if_neg hc]
    exact h' hc

theorem imp (h : Ends m s Q E) (hQ : ∀ a t, Q a t → Q' a t) (hE : ∀ e t, E e t → E' e t) :
    Ends m s Q' E' := by
  unfold Ends at h ⊢
  cases hm : m s with
  | ok a t =>
    rw [hm] at h
    exact hQ a t h
  | error e t =>
    rw [hm] at h
    exact hE e t h

end Ends

/-- Both runs return, with values and states related by Q, or both throw the
same, with states related by E. -/
def Agree (Q : α → α → σ → σ → Prop) (E : σ → σ → Prop) :
    EStateM.Result ε σ α → EStateM.Result ε σ α → Prop
  | .ok a t, .ok a' t' => Q a a' t t'
  | .error e t, .error e' t' => e = e' ∧ E t t'
  | _, _ => False

/-- The runs of m and m' from states related by P. -/
def Coupled (P : σ → σ → Prop) (m m' : EStateM ε σ α) (Q : α → α → σ → σ → Prop)
    (E : σ → σ → Prop) : Prop :=
  ∀ s s', P s s' → Agree Q E (m s) (m' s')

theorem Agree.imp {Q Q' : α → α → σ → σ → Prop} {E : σ → σ → Prop} {r r' : EStateM.Result ε σ α}
    (h : Agree Q E r r') (hQ : ∀ a a' t t', Q a a' t t' → Q' a a' t t') : Agree Q' E r r' := by
  cases r with
  | ok a t =>
    cases r' with
    | ok a' t' => exact hQ a a' t t' h
    | error e' t' => exact h.elim
  | error e t =>
    cases r' with
    | ok a' t' => exact h.elim
    | error e' t' => exact h

namespace Coupled

variable {P P' : σ → σ → Prop} {Q Q' : α → α → σ → σ → Prop} {E : σ → σ → Prop}
  {R : β → β → σ → σ → Prop}

theorem bind (h : Coupled P m m' Q E) (hf : ∀ a a', Coupled (Q a a') (f a) (f' a') R E) :
    Coupled P (m >>= f) (m' >>= f') R E := by
  intro s s' hs
  have hr := h s s' hs
  show Agree R E (EStateM.bind m f s) (EStateM.bind m' f' s')
  unfold EStateM.bind
  cases hm : m s with
  | ok a t =>
    rw [hm] at hr
    cases hm' : m' s' with
    | ok a' t' =>
      rw [hm'] at hr
      exact hf a a' t t' hr
    | error e' t' =>
      rw [hm'] at hr
      exact hr.elim
  | error e t =>
    rw [hm] at hr
    cases hm' : m' s' with
    | ok a' t' =>
      rw [hm'] at hr
      exact hr.elim
    | error e' t' =>
      rw [hm'] at hr
      exact hr

theorem pure {a a' : α} (h : ∀ s s', P s s' → Q a a' s s') :
    Coupled P (pure a : EStateM ε σ α) (pure a') Q E := fun s s' hs => h s s' hs

theorem throw (e : ε) (h : ∀ s s', P s s' → E s s') :
    Coupled P (throw e : EStateM ε σ α) (throw e) Q E := fun s s' hs => ⟨rfl, h s s' hs⟩

theorem ite {c c' : Prop} [Decidable c] [Decidable c'] {n n' : EStateM ε σ α} (hc : c ↔ c')
    (h : Coupled P m m' Q E) (h' : Coupled P n n' Q E) :
    Coupled P (if c then m else n) (if c' then m' else n') Q E := by
  by_cases hp : c
  · rw [if_pos hp, if_pos (hc.mp hp)]
    exact h
  · rw [if_neg hp, if_neg fun h1 => hp (hc.mpr h1)]
    exact h'

theorem imp (h : Coupled P m m' Q E) (hP : ∀ s s', P' s s' → P s s')
    (hQ : ∀ a a' t t', Q a a' t t' → Q' a a' t t') : Coupled P' m m' Q' E :=
  fun s s' hs => (h s s' (hP s s' hs)).imp hQ

end Coupled

end Swish.Lib
