import Mathlib.Logic.Basic

/-!
Searches that backtrack. An attempt changes a state and answers, refuses or fails; a search
goes on in one of two attempts, and what it finds is said by a predicate on the places it
goes on from.
-/

set_option autoImplicit false

namespace Swish.Lib

variable {σ ε ρ π ν : Type}

/-- Answers, refuses with none, or fails. -/
abbrev Attempt (σ ε ρ : Type) := σ → Except ε (Option ρ × σ)

namespace Attempt

def answer (r : ρ) : Attempt σ ε ρ := fun s => .ok (some r, s)

def refuse : Attempt σ ε ρ := fun s => .ok (none, s)

def fail (e : ε) : Attempt σ ε ρ := fun _ => .error e

/-- The second, where the first refuses. -/
def orElse (a b : Attempt σ ε ρ) : Attempt σ ε ρ := fun s =>
  match a s with
  | .ok (none, t) => b t
  | .ok (some r, t) => .ok (some r, t)
  | .error e => .error e

/-- Goes on by whether an attempt answers. -/
def ifFound (a : Attempt σ ε ρ) (yes : ρ → Attempt σ ε ρ) (no : Attempt σ ε ρ) : Attempt σ ε ρ := fun s =>
  match a s with
  | .ok (none, t) => no t
  | .ok (some r, t) => yes r t
  | .error e => .error e

end Attempt

open Attempt

/-- A search is given what to do with a place it finds, and what to do without one. -/
abbrev Search (σ ε ρ π : Type) := (π → Attempt σ ε ρ) → Attempt σ ε ρ → Attempt σ ε ρ

variable {Inv : σ → Prop} {A B : ρ → σ → Prop} {E own : ε → Prop} {a b no : Attempt σ ε ρ} {yes : ρ → Attempt σ ε ρ}

/-- What is known of an outcome: the invariant where it is a refusal. -/
def EndsIn (Inv : σ → Prop) (A : ρ → σ → Prop) (E : ε → Prop) : Except ε (Option ρ × σ) → Prop
  | .ok (none, s) => Inv s
  | .ok (some r, s) => A r s
  | .error e => E e

/-- From a state of the invariant. -/
def Safe (Inv : σ → Prop) (A : ρ → σ → Prop) (E : ε → Prop) (a : Attempt σ ε ρ) : Prop := ∀ s, Inv s → EndsIn Inv A E (a s)

/-- A refusal keeps the invariant. -/
def Keeps (Inv : σ → Prop) (a : Attempt σ ε ρ) : Prop := ∀ s t, Inv s → a s = .ok (none, t) → Inv t

def Refuses (Inv : σ → Prop) (a : Attempt σ ε ρ) : Prop := ∃ s t, Inv s ∧ a s = .ok (none, t)

theorem Safe.mono {E' : ε → Prop} (h : Safe Inv A E a) (hE : ∀ e, E e → E' e) : Safe Inv A E' a := by
  intro s hs
  have hsafe := h s hs
  revert hsafe
  cases a s with
  | error e => exact hE e
  | ok out =>
    obtain ⟨_ | r, t⟩ := out <;> exact id

theorem Safe.keeps (h : Safe Inv A E a) : Keeps Inv a := by
  intro s t hs ht
  have hsafe := h s hs
  rwa [ht] at hsafe

theorem Keeps.safe (h : Keeps Inv a) : Safe Inv (fun _ _ => True) (fun _ => True) a := by
  intro s hs
  cases ho : a s with
  | error e => exact True.intro
  | ok out =>
    obtain ⟨_ | r, t⟩ := out
    · exact h s t hs ho
    · exact True.intro

theorem safe_answer {r : ρ} (h : ∀ s, Inv s → A r s) : Safe (ε := ε) Inv A E (answer r) := h

theorem safe_refuse : Safe Inv A E (refuse : Attempt σ ε ρ) := fun _ hs => hs

theorem safe_fail {e : ε} (h : E e) : Safe Inv A E (fail e : Attempt σ ε ρ) := fun _ _ => h

theorem Safe.ifFound (ha : Safe Inv B E a) (hyes : ∀ r s, B r s → EndsIn Inv A E (yes r s))
    (hno : Refuses Inv a → Safe Inv A E no) : Safe Inv A E (ifFound a yes no) := by
  intro s hs
  have hsafe := ha s hs
  unfold Attempt.ifFound
  cases ho : a s with
  | error e => rwa [ho] at hsafe
  | ok out =>
    rw [ho] at hsafe
    obtain ⟨_ | r, t⟩ := out
    · exact hno ⟨s, t, hs, ho⟩ t hsafe
    · exact hyes r t hsafe

theorem orElse_eq_ifFound : orElse a b = ifFound a answer b := rfl

theorem Safe.orElse (ha : Safe Inv A E a) (hb : Safe Inv A E b) : Safe Inv A E (orElse a b) :=
  ha.ifFound (fun _ _ hr => hr) fun _ => hb

theorem not_refuses_answer {r : ρ} : ¬ Refuses Inv (answer r : Attempt σ ε ρ) := by
  rintro ⟨s, t, hs, ht⟩
  simp [answer] at ht

theorem not_refuses_fail {e : ε} : ¬ Refuses Inv (fail e : Attempt σ ε ρ) := by
  rintro ⟨s, t, hs, ht⟩
  simp [fail] at ht

/-- Either the attempt answers and what follows refuses, or it refuses and so does the rest. -/
theorem Refuses.ifFound (ha : Keeps Inv a) (h : Refuses Inv (ifFound a yes no)) :
    (∃ s r t u, Inv s ∧ a s = .ok (some r, t) ∧ yes r t = .ok (none, u)) ∨ (Refuses Inv a ∧ Refuses Inv no) := by
  obtain ⟨s, u, hs, hu⟩ := h
  unfold Attempt.ifFound at hu
  cases ho : a s with
  | error e => simp [ho] at hu
  | ok out =>
    obtain ⟨_ | r, t⟩ := out
    · rw [ho] at hu
      exact .inr ⟨⟨s, t, hs, ho⟩, t, u, ha s t hs ho, hu⟩
    · rw [ho] at hu
      exact .inl ⟨s, r, t, u, hs, ho, hu⟩

theorem Refuses.orElse (ha : Keeps Inv a) (h : Refuses Inv (orElse a b)) : Refuses Inv a ∧ Refuses Inv b := by
  rcases Refuses.ifFound ha h with ⟨s, r, t, u, -, -, hu⟩ | h
  · cases hu
  · exact h

/-- The search goes on only from the places of R, and fails by itself only with errors of own. -/
def Sound (Inv : σ → Prop) (own : ε → Prop) (R : π → Prop) (m : Search σ ε ρ π) : Prop :=
  ∀ (A : ρ → σ → Prop) (E : ε → Prop), (∀ e, own e → E e) → ∀ sk fk, (∀ x, R x → Safe Inv A E (sk x)) → Safe Inv A E fk →
    Safe Inv A E (m sk fk)

/-- A search that refuses has tried every place of R, and has gone on without one if there are none. -/
def Complete (Inv : σ → Prop) (R : π → Prop) (m : Search σ ε ρ π) : Prop :=
  ∀ sk fk, (∀ x, R x → Keeps Inv (sk x)) → Keeps Inv fk → Refuses Inv (m sk fk) →
    (∀ x, R x → Refuses Inv (sk x)) ∧ ((∃ x, R x) ∨ Refuses Inv fk)

structure Finds (Inv : σ → Prop) (own : ε → Prop) (R : π → Prop) (m : Search σ ε ρ π) : Prop where
  sound : Sound Inv own R m
  complete : Complete Inv R m

variable {R R' : π → Prop} {Q : π → ν → Prop} {m m' : Search σ ε ρ π} {f : π → Search σ ε ρ ν} {x : π}

theorem Sound.mono (h : Sound Inv own R m) (hR : ∀ x, R x → R' x) : Sound Inv own R' m := fun A E hE sk fk hsk hfk =>
  h A E hE sk fk (fun x hx => hsk x (hR x hx)) hfk

/-- A search keeps the invariant when both its continuations do. -/
theorem Sound.keeps (h : Sound Inv own R m) {sk : π → Attempt σ ε ρ} {fk : Attempt σ ε ρ} (hsk : ∀ x, R x → Keeps Inv (sk x))
    (hfk : Keeps Inv fk) : Keeps Inv (m sk fk) :=
  (h _ _ (fun _ _ => True.intro) sk fk (fun x hx => (hsk x hx).safe) hfk.safe).keeps

theorem Finds.congr (h : Finds Inv own R m) (hR : ∀ x, R x ↔ R' x) : Finds Inv own R' m := by
  have heq : R = R' := funext fun x => propext (hR x)
  exact heq ▸ h

/-- A search that makes one choice. -/
theorem sound_of_choice (h : ∀ sk fk s, Inv s →
    (∃ x t, R x ∧ Inv t ∧ m sk fk s = sk x t) ∨ m sk fk s = fk s ∨ ∃ e, own e ∧ m sk fk s = .error e) :
    Sound Inv own R m := by
  intro A E hE sk fk hsk hfk s hs
  rcases h sk fk s hs with ⟨x, t, hx, ht, heq⟩ | heq | ⟨e, he, heq⟩
  · exact heq ▸ hsk x hx t ht
  · exact heq ▸ hfk s hs
  · exact heq ▸ hE e he

theorem finds_pass : Finds Inv own (· = x) (fun sk _ => sk x : Search σ ε ρ π) where
  sound := fun _ _ _ _ _ hsk _ => hsk x rfl
  complete := fun _ _ _ _ h => ⟨fun _ hy => hy ▸ h, .inl ⟨x, rfl⟩⟩

theorem finds_block : Finds Inv own (fun _ => False) (fun _ fk => fk : Search σ ε ρ π) where
  sound := fun _ _ _ _ _ _ hfk => hfk
  complete := fun _ _ _ _ h => ⟨fun _ => False.elim, .inr h⟩

theorem sound_ite {p : Prop} [Decidable p] (h : p → Sound Inv own R m) (h' : ¬ p → Sound Inv own R m') :
    Sound Inv own R (fun sk fk => if p then m sk fk else m' sk fk) := by
  by_cases hp : p
  · simpa [hp] using h hp
  · simpa [hp] using h' hp

/-- The state decides between two searches. -/
theorem sound_choose {p : σ → Prop} [DecidablePred p] (h : Sound Inv own R m) (h' : Sound Inv own R m') :
    Sound Inv own R (fun sk fk s => if p s then m sk fk s else m' sk fk s) := by
  intro A E hE sk fk hsk hfk s hs
  dsimp only
  split
  · exact h A E hE sk fk hsk hfk s hs
  · exact h' A E hE sk fk hsk hfk s hs

theorem finds_ite {p : Prop} [Decidable p] (h : p → Finds Inv own R m) (h' : ¬ p → Finds Inv own R m') :
    Finds Inv own R (fun sk fk => if p then m sk fk else m' sk fk) := by
  by_cases hp : p
  · simpa [hp] using h hp
  · simpa [hp] using h' hp

/-- A search that tests the place where it is. -/
theorem finds_of_test {p : Prop} (hp : p → ∀ sk fk s, Inv s → m sk fk s = sk x s) (hn : ¬ p → ∀ sk fk s, Inv s → m sk fk s = fk s) :
    Finds Inv own (fun y => p ∧ y = x) m := by
  by_cases h : p
  · refine ⟨sound_of_choice fun sk fk s hs => .inl ⟨x, s, ⟨h, rfl⟩, hs, hp h sk fk s hs⟩, ?_⟩
    rintro sk fk - - ⟨s, t, hs, ht⟩
    rw [hp h sk fk s hs] at ht
    exact ⟨fun y hy => hy.2 ▸ ⟨s, t, hs, ht⟩, .inl ⟨x, h, rfl⟩⟩
  · refine ⟨sound_of_choice fun sk fk s hs => .inr (.inl (hn h sk fk s hs)), ?_⟩
    rintro sk fk - - ⟨s, t, hs, ht⟩
    rw [hn h sk fk s hs] at ht
    exact ⟨fun y hy => absurd hy.1 h, .inr ⟨s, t, hs, ht⟩⟩

theorem sound_andThen (hm : Sound Inv own R m) (hf : ∀ x, R x → Sound Inv own (Q x) (f x)) :
    Sound Inv own (fun y => ∃ x, R x ∧ Q x y) (fun sk fk => m (fun x => f x sk fk) fk) := by
  intro A E hE sk fk hsk hfk
  exact hm A E hE _ fk (fun x hx => hf x hx A E hE sk fk (fun y hy => hsk y ⟨x, hx, hy⟩) hfk) hfk

/-- One search after the other. The first is given up where the second finds nothing. -/
theorem Finds.andThen (hm : Finds Inv own R m) (hf : ∀ x, R x → Finds Inv own (Q x) (f x)) :
    Finds Inv own (fun y => ∃ x, R x ∧ Q x y) (fun sk fk => m (fun x => f x sk fk) fk) where
  sound := sound_andThen hm.sound fun x hx => (hf x hx).sound
  complete := by
    intro sk fk hsk hfk h
    have hkeeps : ∀ x, R x → Keeps Inv (f x sk fk) :=
      fun x hx => (hf x hx).sound.keeps (fun y hy => hsk y ⟨x, hx, hy⟩) hfk
    obtain ⟨hfirst, hor⟩ := hm.complete _ fk hkeeps hfk h
    have hsecond : ∀ x, R x → (∀ y, Q x y → Refuses Inv (sk y)) ∧ ((∃ y, Q x y) ∨ Refuses Inv fk) :=
      fun x hx => (hf x hx).complete sk fk (fun y hy => hsk y ⟨x, hx, hy⟩) hfk (hfirst x hx)
    constructor
    · rintro y ⟨x, hx, hy⟩
      exact (hsecond x hx).1 y hy
    · rcases hor with ⟨x, hx⟩ | hfk'
      · rcases (hsecond x hx).2 with ⟨y, hy⟩ | hfk'
        · exact .inl ⟨y, x, hx, hy⟩
        · exact .inr hfk'
      · exact .inr hfk'

theorem sound_alt (hm : Sound Inv own R m) (hm' : Sound Inv own R' m') :
    Sound Inv own (fun x => R x ∨ R' x) (fun sk fk => m (fun x => orElse (sk x) (m' sk fk)) (m' sk fk)) := by
  intro A E hE sk fk hsk hfk
  have hrest := hm' A E hE sk fk (fun x hx => hsk x (.inr hx)) hfk
  exact hm A E hE _ _ (fun x hx => (hsk x (.inl hx)).orElse hrest) hrest

/-- The second search is tried after a refusal of any place the first goes on from. -/
theorem Finds.alt (hm : Finds Inv own R m) (hm' : Finds Inv own R' m') :
    Finds Inv own (fun x => R x ∨ R' x) (fun sk fk => m (fun x => orElse (sk x) (m' sk fk)) (m' sk fk)) where
  sound := sound_alt hm.sound hm'.sound
  complete := by
    intro sk fk hsk hfk h
    have hrest : Keeps Inv (m' sk fk) := hm'.sound.keeps (fun x hx => hsk x (.inr hx)) hfk
    have hkeeps : ∀ x, R x → Keeps Inv (orElse (sk x) (m' sk fk)) :=
      fun x hx => ((hsk x (.inl hx)).safe.orElse hrest.safe).keeps
    obtain ⟨hfirst, hor⟩ := hm.complete _ _ hkeeps hrest h
    have hsecond : Refuses Inv (m' sk fk) := by
      rcases hor with ⟨x, hx⟩ | h'
      · exact ((hfirst x hx).orElse (hsk x (.inl hx))).2
      · exact h'
    obtain ⟨hthen, hor'⟩ := hm'.complete sk fk (fun x hx => hsk x (.inr hx)) hfk hsecond
    constructor
    · rintro x (hx | hx)
      · exact ((hfirst x hx).orElse (hsk x (.inl hx))).1
      · exact hthen x hx
    · rcases hor' with ⟨x, hx⟩ | h'
      · exact .inl ⟨x, .inr hx⟩
      · exact .inr h'

theorem sound_record {g : π → σ → σ} (hm : Sound Inv own R m) (hg : ∀ x s, R x → Inv s → Inv (g x s)) :
    Sound Inv own R (fun sk fk => m (fun x s => sk x (g x s)) fk) :=
  fun A E hE _ fk hsk hfk => hm A E hE _ fk (fun x hx s hs => hsk x hx _ (hg x s hx hs)) hfk

/-- What a place found does to the state is kept. -/
theorem Finds.record {g : π → σ → σ} (hm : Finds Inv own R m) (hg : ∀ x s, R x → Inv s → Inv (g x s)) :
    Finds Inv own R (fun sk fk => m (fun x s => sk x (g x s)) fk) where
  sound := sound_record hm.sound hg
  complete := by
    intro sk fk hsk hfk h
    obtain ⟨hall, hor⟩ := hm.complete _ fk (fun x hx s t hs ht => hsk x hx _ t (hg x s hx hs) ht) hfk h
    refine ⟨fun x hx => ?_, hor⟩
    obtain ⟨s, t, hs, ht⟩ := hall x hx
    exact ⟨g x s, t, hg x s hx hs, ht⟩

variable {l : Search σ ε π π}

/-- Looking for a place from which nothing else is done. -/
theorem Sound.look (hl : Sound Inv own R l) (hE : ∀ e, own e → E e) :
    Safe Inv (fun x s => R x ∧ Inv s) E (l answer refuse) :=
  hl _ E hE answer refuse (fun _ hx => safe_answer fun _ hs => ⟨hx, hs⟩) safe_refuse

theorem Finds.look_refuses (hl : Finds Inv own R l) (h : Refuses Inv (l answer refuse)) : ¬ ∃ x, R x := by
  rintro ⟨x, hx⟩
  have hkeeps : ∀ y, R y → Keeps Inv (answer y : Attempt σ ε π) := fun _ _ => (safe_answer (E := fun _ => True)
    (A := fun _ _ => True) fun _ _ => True.intro).keeps
  exact not_refuses_answer ((hl.complete answer refuse hkeeps (safe_refuse (A := fun _ _ => True)
    (E := fun _ => True)).keeps h).1 x hx)

/-- Goes on from x where a place is found. -/
theorem Finds.ahead {x : ν} (hl : Finds Inv own R l) :
    Finds Inv own (fun y => (∃ z, R z) ∧ y = x)
      (fun sk fk => ifFound (l answer refuse) (fun _ => sk x) fk : Search σ ε π ν) where
  sound := fun _ _ hE _ _ hsk hfk =>
    (hl.sound.look hE).ifFound (fun z t hz => hsk x ⟨⟨z, hz.1⟩, rfl⟩ t hz.2) fun _ => hfk
  complete := by
    intro sk fk hsk hfk h
    have hlook := hl.sound.look (E := fun _ => True) fun _ _ => True.intro
    rcases Refuses.ifFound hlook.keeps h with ⟨s, z, t, u, hs, hz, hu⟩ | ⟨ha, hfk'⟩
    · have hfound := hlook s hs
      rw [hz] at hfound
      exact ⟨fun y hy => hy.2 ▸ ⟨t, u, hfound.2, hu⟩, .inl ⟨x, ⟨z, hfound.1⟩, rfl⟩⟩
    · exact ⟨fun y hy => absurd hy.1 (hl.look_refuses ha), .inr hfk'⟩

/-- Goes on from x where no place is found. -/
theorem Finds.notAhead {x : ν} (hl : Finds Inv own R l) :
    Finds Inv own (fun y => (¬ ∃ z, R z) ∧ y = x)
      (fun sk fk => ifFound (l answer refuse) (fun _ => fk) (sk x) : Search σ ε π ν) where
  sound := fun _ _ hE _ _ hsk hfk =>
    (hl.sound.look hE).ifFound (fun _ t hz => hfk t hz.2) fun ha => hsk x ⟨hl.look_refuses ha, rfl⟩
  complete := by
    intro sk fk hsk hfk h
    have hlook := hl.sound.look (E := fun _ => True) fun _ _ => True.intro
    rcases Refuses.ifFound hlook.keeps h with ⟨s, z, t, u, hs, hz, hu⟩ | ⟨ha, hsk'⟩
    · have hfound := hlook s hs
      rw [hz] at hfound
      exact ⟨fun y hy => absurd ⟨z, hfound.1⟩ hy.1, .inr ⟨t, u, hfound.2, hu⟩⟩
    · exact ⟨fun y hy => hy.2 ▸ hsk', .inl ⟨x, hl.look_refuses ha, rfl⟩⟩

/-- That many steps of a relation. -/
inductive Times (S : π → π → Prop) : Nat → π → π → Prop where
  | zero (x : π) : Times S 0 x x
  | succ {k : Nat} {x y z : π} (h : S x y) (hs : Times S k y z) : Times S (k + 1) x z

theorem Times.induct {S : π → π → Prop} {P : π → Prop} (hP : ∀ x y, P x → S x y → P y) {k : Nat} {x y : π}
    (h : Times S k x y) (hx : P x) : P y := by
  induction h with
  | zero x => exact hx
  | succ hstep _ ih => exact ih (hP _ _ hx hstep)

end Swish.Lib
