import Swish.Pregexp.Match

/-!
What the loops of a quantifier find, for any operand: as many steps of the operand as the
quantifier allows.
-/

set_option autoImplicit false

namespace Swish.Pregexp

open Lib Lib.Attempt

variable {Inv : St → Prop} {own : Failure → Prop} {m : Nat → Step} {R : Nat → Nat → Prop} {P : Nat → Prop}
  {maximal infinitely minimal : Bool} {p q : Option Nat} {n : Nat} {g : Nat → Step} {Q : Nat → Nat → Prop}

/-- The turns that loop-q may still make from i. -/
def turnsLeft (q : Option Nat) (n k i : Nat) : Nat :=
  match q with
  | some q => q - k
  | none => n - i

/-- The operand goes forward among the places of P, up to n. -/
def Forward (P : Nat → Prop) (R : Nat → Nat → Prop) (n : Nat) : Prop := ∀ i x, P i → R i x → P x ∧ i ≤ x ∧ x ≤ n

/-- What keeps loop-q from running out of fuel. -/
def Halts (own : Failure → Prop) (P : Nat → Prop) (R : Nat → Nat → Prop) (infinitely : Bool) (q : Option Nat) : Prop :=
  own .outOfFuel ∨ q.isSome ∨ infinitely = true ∨ ∀ i x, P i → R i x → i ≠ x

def Fuelled (own : Failure → Prop) (q : Option Nat) (n fuel k i : Nat) : Prop := own .outOfFuel ∨ turnsLeft q n k i < fuel

theorem Fuelled.next {fuel k i x : Nat} (h : Fuelled own q n (fuel + 1) k i) (hq : ¬ q.any (· ≤ k)) (hx : i < x) (hn : x ≤ n) :
    Fuelled own q n fuel (k + 1) x := by
  rcases h with h | h
  · exact .inl h
  · right
    cases q with
    | none =>
      simp only [turnsLeft] at h ⊢
      omega
    | some q =>
      simp only [turnsLeft, Option.any_some, decide_eq_true_eq] at h hq ⊢
      omega

theorem Fuelled.bounded {fuel k i x : Nat} (h : Fuelled own q n (fuel + 1) k i) (hq : ¬ q.any (· ≤ k)) (hsome : q.isSome) :
    Fuelled own q n fuel (k + 1) x := by
  obtain ⟨b, rfl⟩ := Option.isSome_iff_exists.mp hsome
  rcases h with h | h
  · exact .inl h
  · right
    simp only [turnsLeft, Option.any_some, decide_eq_true_eq] at h hq ⊢
    omega

/-- Another turn is made with enough fuel, unless the operand was empty where it must not be. -/
theorem Fuelled.turn {fuel k i x : Nat} (h : Fuelled own q n (fuel + 1) k i) (hq : ¬ q.any (· ≤ k))
    (hR : Forward P R n) (hH : Halts own P R infinitely q) (hi : P i) (hx : R i x) (hloop : ¬ (infinitely = true ∧ x = i)) :
    Fuelled own q n fuel (k + 1) x := by
  obtain ⟨-, hle, hn⟩ := hR i x hi hx
  rcases hH with hown | hsome | hinf | hne
  · exact .inl hown
  · exact h.bounded hq hsome
  · have hne : x ≠ i := fun hx => hloop ⟨hinf, hx⟩
    exact h.next hq (by omega) hn
  · have hne := hne i x hi hx
    exact h.next hq (by omega) hn

theorem safe_couldLoop {A : Nat → St → Prop} {E : Failure → Prop} {i x : Nat} {go : Go}
    (hE : infinitely = true → x = i → E .operandCouldBeEmpty) (h : ¬ (infinitely = true ∧ x = i) → Safe Inv A E go) :
    Safe Inv A E (couldLoop infinitely i x go) := by
  unfold couldLoop
  split
  · rename_i hc
    simp only [Bool.and_eq_true, beq_iff_eq] at hc
    exact safe_fail (hE hc.1 hc.2)
  · rename_i hc
    simp only [Bool.and_eq_true, beq_iff_eq] at hc
    exact h hc

theorem refuses_couldLoop {i x : Nat} {go : Go} (h : Refuses Inv (couldLoop infinitely i x go)) :
    ¬ (infinitely = true ∧ x = i) ∧ Refuses Inv go := by
  unfold couldLoop at h
  split at h
  · exact (not_refuses_fail h).elim
  · rename_i hc
    simp only [Bool.and_eq_true, beq_iff_eq] at hc
    exact ⟨hc, h⟩

/-- What loop-q finds after k turns. -/
def Between (R : Nat → Nat → Prop) (q : Option Nat) (k i x : Nat) : Prop := ∃ b, (∀ c, q = some c → b ≤ c - k) ∧ Times R b i x

theorem between_refl (q : Option Nat) (k i : Nat) : Between R q k i i := ⟨0, fun _ _ => Nat.zero_le _, .zero i⟩

theorem between_succ {k i x y : Nat} (hq : ¬ q.any (· ≤ k)) (h : R i x) (hb : Between R q (k + 1) x y) : Between R q k i y := by
  obtain ⟨b, hle, ht⟩ := hb
  refine ⟨b + 1, ?_, .succ h ht⟩
  rintro c rfl
  have hb := hle c rfl
  simp only [Option.any_some, decide_eq_true_eq] at hq
  omega

/-- No turn is made, or a first one. -/
theorem between_cases {k i y : Nat} (h : Between R q k i y) :
    y = i ∨ (¬ q.any (· ≤ k) ∧ ∃ x, R i x ∧ Between R q (k + 1) x y) := by
  obtain ⟨b, hle, ht⟩ := h
  cases ht with
  | zero => exact .inl rfl
  | succ hR ht =>
    right
    constructor
    · cases q with
      | none => simp
      | some c =>
        have hb := hle c rfl
        simp only [Option.any_some, decide_eq_true_eq]
        omega
    · exact ⟨_, hR, _, fun c hc => by have hb := hle c hc; omega, ht⟩

theorem loopQ_sound (hm : ∀ i, P i → Sound Inv own (R i) (m i)) (hR : Forward P R n) (hH : Halts own P R infinitely q)
    (hgreedy : infinitely = true → maximal = true)
    (hempty : infinitely = true → ∀ i, P i → R i i → own .operandCouldBeEmpty) (fuel k i : Nat) (hi : P i) (hF : Fuelled own q n fuel k i) :
    Sound Inv own (Between R q k i) (fun sk _ => loopQ m maximal infinitely q sk fuel k i) := by
  intro A E hE sk fk hsk _
  induction fuel generalizing k i with
  | zero =>
    have hfail : own .outOfFuel := hF.resolve_right (by omega)
    exact safe_fail (hE _ hfail)
  | succ fuel ih =>
    have hstay : Safe Inv A E (sk i) := hsk i (between_refl q k i)
    simp only [loopQ]
    by_cases hq : q.any (· ≤ k) = true
    · simpa [hq] using hstay
    · have hturn : ∀ x, R i x → ¬ (infinitely = true ∧ x = i) → Safe Inv A E (loopQ m maximal infinitely q sk fuel (k + 1) x) :=
        fun x hx hloop => ih (k + 1) x (hR i x hi hx).1 (hF.turn hq hR hH hi hx hloop)
          fun y hy => hsk y (between_succ hq hx hy)
      simp only [hq, Bool.false_eq_true, if_false]
      cases maximal with
      | true =>
        refine hm i hi A E hE _ _ (fun x hx => ?_) hstay
        exact safe_couldLoop (fun h heq => hE _ (hempty h i hi (heq ▸ hx))) fun hloop => (hturn x hx hloop).orElse hstay
      | false =>
        have hfinite : infinitely = false := by
          simpa using hgreedy
        refine hstay.orElse (hm i hi A E hE _ _ (fun x hx => hturn x hx ?_) hstay)
        simp [hfinite]

theorem loopQ_complete (hm : ∀ i, P i → Finds Inv own (R i) (m i)) (hR : Forward P R n) (hH : Halts own P R infinitely q)
    (hgreedy : infinitely = true → maximal = true)
    (hempty : infinitely = true → ∀ i, P i → R i i → own .operandCouldBeEmpty) (fuel k i : Nat) (hi : P i)
    (hF : Fuelled own q n fuel k i) :
    Complete Inv (Between R q k i) (fun sk _ => loopQ m maximal infinitely q sk fuel k i) := by
  intro sk fk hsk hfk h
  refine ⟨fun x hx => ?_, .inl ⟨i, between_refl q k i⟩⟩
  induction fuel generalizing k i x with
  | zero => exact (not_refuses_fail h).elim
  | succ fuel ih =>
    have hstay : Keeps Inv (sk i) := hsk i (between_refl q k i)
    simp only [loopQ] at h
    by_cases hq : q.any (· ≤ k) = true
    · rcases between_cases hx with rfl | ⟨hne, -⟩
      · simpa [hq] using h
      · exact absurd hq hne
    · have hthen : ∀ y, R i y → ∀ z, Between R q (k + 1) y z → Keeps Inv (sk z) :=
        fun y hy z hz => hsk z (between_succ hq hy hz)
      have hkeeps : ∀ y, R i y → ¬ (infinitely = true ∧ y = i) → Keeps Inv (loopQ m maximal infinitely q sk fuel (k + 1) y) :=
        fun y hy hloop => (loopQ_sound (fun i hi => (hm i hi).sound) hR hH hgreedy hempty fuel (k + 1) y (hR i y hi hy).1
          (hF.turn hq hR hH hi hy hloop)).keeps (hthen y hy) hfk
      -- whatever the operand found has refused, and so has making no turn
      have hrest : (∀ y, R i y → ¬ (infinitely = true ∧ y = i) ∧ Refuses Inv (loopQ m maximal infinitely q sk fuel (k + 1) y)) ∧
          Refuses Inv (sk i) := by
        simp only [hq, Bool.false_eq_true, if_false] at h
        cases maximal with
        | true =>
          obtain ⟨hall, hor⟩ := (hm i hi).complete _ _ (fun y hy => (safe_couldLoop (fun _ _ => True.intro)
            fun hloop => (hkeeps y hy hloop).safe.orElse hstay.safe).keeps) hstay h
          have hsplit : ∀ y, R i y → ¬ (infinitely = true ∧ y = i) ∧
              Refuses Inv (loopQ m true infinitely q sk fuel (k + 1) y) ∧ Refuses Inv (sk i) := by
            intro y hy
            obtain ⟨hloop, hy'⟩ := refuses_couldLoop (hall y hy)
            exact ⟨hloop, hy'.orElse (hkeeps y hy hloop)⟩
          refine ⟨fun y hy => ⟨(hsplit y hy).1, (hsplit y hy).2.1⟩, ?_⟩
          rcases hor with ⟨y, hy⟩ | h
          · exact (hsplit y hy).2.2
          · exact h
        | false =>
          have hfinite : infinitely = false := by
            simpa using hgreedy
          obtain ⟨hsk', h⟩ := Refuses.orElse hstay h
          obtain ⟨hall, -⟩ := (hm i hi).complete _ _ (fun y hy => hkeeps y hy (by simp [hfinite])) hstay h
          exact ⟨fun y hy => ⟨by simp [hfinite], hall y hy⟩, hsk'⟩
      rcases between_cases hx with rfl | ⟨-, y, hy, hxy⟩
      · exact hrest.2
      · obtain ⟨hloop, hy'⟩ := hrest.1 y hy
        exact ih (k + 1) y (hR i y hi hy).1 (hF.turn hq hR hH hi hy hloop) (hthen y hy) hy' x hxy

/-- loop-p makes its turns and goes on with loop-q. -/
theorem loopP_sound {qs : Nat → Step} (hm : ∀ i, P i → Sound Inv own (R i) (m i)) (hR : Forward P R n)
    (hempty : infinitely = true → ∀ i, P i → R i i → own .operandCouldBeEmpty) (hq : ∀ i, P i → Sound Inv own (Q i) (qs i)) (left i : Nat)
    (hi : P i) :
    Sound Inv own (fun y => ∃ x, Times R left i x ∧ Q x y)
      (fun sk fk => loopP m infinitely (fun x => qs x sk fk) fk left i) := by
  intro A E hE sk fk hsk hfk
  induction left generalizing i with
  | zero => exact hq i hi A E hE sk fk (fun y hy => hsk y ⟨i, .zero i, hy⟩) hfk
  | succ left ih =>
    refine hm i hi A E hE _ fk (fun x hx => ?_) hfk
    refine safe_couldLoop (fun h heq => hE _ (hempty h i hi (heq ▸ hx))) fun _ => ih x (hR i x hi hx).1 fun z hz => ?_
    obtain ⟨y, hy, hz⟩ := hz
    exact hsk z ⟨y, .succ hx hy, hz⟩

theorem loopP_complete {qs : Nat → Step} (hm : ∀ i, P i → Finds Inv own (R i) (m i)) (hR : Forward P R n)
    (hempty : infinitely = true → ∀ i, P i → R i i → own .operandCouldBeEmpty) (hq : ∀ i, P i → Finds Inv own (Q i) (qs i)) (left i : Nat)
    (hi : P i) :
    Complete Inv (fun y => ∃ x, Times R left i x ∧ Q x y)
      (fun sk fk => loopP m infinitely (fun x => qs x sk fk) fk left i) := by
  intro sk fk hsk hfk h
  induction left generalizing i with
  | zero =>
    obtain ⟨hall, hor⟩ := (hq i hi).complete sk fk (fun y hy => hsk y ⟨i, .zero i, hy⟩) hfk h
    constructor
    · rintro y ⟨x, ⟨⟩, hy⟩
      exact hall y hy
    · rcases hor with ⟨y, hy⟩ | hfk'
      · exact .inl ⟨y, i, .zero i, hy⟩
      · exact .inr hfk'
  | succ left ih =>
    have hthen : ∀ x, R i x → ∀ z, (∃ y, Times R left x y ∧ Q y z) → Keeps Inv (sk z) := by
      rintro x hx z ⟨y, hy, hz⟩
      exact hsk z ⟨y, .succ hx hy, hz⟩
    have hkeeps : ∀ x, R i x → Keeps Inv (loopP m infinitely (fun x => qs x sk fk) fk left x) := fun x hx =>
      (loopP_sound (fun i hi => (hm i hi).sound) hR hempty (fun i hi => (hq i hi).sound) left x (hR i x hi hx).1).keeps
        (hthen x hx) hfk
    obtain ⟨hall, hor⟩ := (hm i hi).complete _ fk
      (fun x hx => (safe_couldLoop (fun _ _ => True.intro) fun _ => (hkeeps x hx).safe).keeps) hfk h
    have hnext : ∀ x, R i x → (∀ z, (∃ y, Times R left x y ∧ Q y z) → Refuses Inv (sk z)) ∧
        ((∃ z, ∃ y, Times R left x y ∧ Q y z) ∨ Refuses Inv fk) :=
      fun x hx => ih x (hR i x hi hx).1 (hthen x hx) (refuses_couldLoop (hall x hx)).2
    constructor
    · rintro z ⟨y, hy, hz⟩
      cases hy with
      | succ hx hy => exact (hnext _ hx).1 z ⟨y, hy, hz⟩
    · rcases hor with ⟨x, hx⟩ | hfk'
      · rcases (hnext x hx).2 with ⟨z, y, hy, hz⟩ | hfk'
        · exact .inl ⟨z, y, .succ hx hy, hz⟩
        · exact .inr hfk'
      · exact .inr hfk'

/-- What a quantifier finds: p steps of its operand, and then at most q - p. -/
def Quantified (R : Nat → Nat → Prop) (p : Nat) (q : Option Nat) (i y : Nat) : Prop :=
  ∃ x, Times R p i x ∧ Between R (q.map (· - p)) 0 x y

/-- A greedy quantifier without a bound may find its operand empty, and a minimal one may go on for ever. -/
structure Allowed (own : Failure → Prop) (P : Nat → Prop) (R : Nat → Nat → Prop) (n fuel : Nat) (minimal : Bool)
    (q : Option Nat) : Prop where
  greedy : minimal = false → q = none → ∀ i, P i → R i i → own .operandCouldBeEmpty
  halts : own .outOfFuel ∨ (n < fuel ∧ (minimal = true → q = none → ∀ i, P i → ¬ R i i))

theorem loop_greedy (minimal : Bool) (q : Option Nat) (hc : (!minimal && q.isNone) = true) : (!minimal) = true :=
  (Bool.and_eq_true_iff.mp hc).1

theorem Allowed.loop_empty {fuel : Nat} (h : Allowed own P R n fuel minimal q) (hc : (!minimal && q.isNone) = true) (i : Nat)
    (hi : P i) (hR : R i i) : own .operandCouldBeEmpty := by
  simp only [Bool.and_eq_true, Bool.not_eq_true', Option.isNone_iff_eq_none] at hc
  exact h.greedy hc.1 hc.2 i hi hR

theorem Allowed.loop_halts {fuel : Nat} (h : Allowed own P R n fuel minimal q) (b : Nat) :
    Halts own P R (!minimal && q.isNone) (q.map (· - b)) := by
  rcases h.halts with hown | ⟨-, hne⟩
  · exact .inl hown
  · cases q with
    | some c => exact .inr (.inl rfl)
    | none =>
      cases minimal with
      | false => exact .inr (.inr (.inl rfl))
      | true => exact .inr (.inr (.inr fun i x hi hx heq => hne rfl rfl i hi (heq ▸ hx)))

theorem Allowed.fuelled {fuel b i : Nat} (h : Allowed own P R n fuel minimal q) :
    Fuelled own (q.map (· - b)) n (loopTurns fuel b q) 0 i := by
  cases q with
  | some c => exact .inr (Nat.lt_succ_self _)
  | none =>
    rcases h.halts with hown | ⟨hlt, -⟩
    · exact .inl hown
    · exact .inr (Nat.lt_of_le_of_lt (Nat.sub_le ..) hlt)

theorem between_sound {fuel b i : Nat} (hm : ∀ i, P i → Sound Inv own (R i) (m i)) (hR : Forward P R n)
    (hA : Allowed own P R n fuel minimal q) (hi : P i) :
    Sound Inv own (Quantified R b q i) (between fuel minimal (some b) q m i) := by
  exact loopP_sound hm hR hA.loop_empty
    (fun x hx => loopQ_sound hm hR (hA.loop_halts b) (loop_greedy minimal q) hA.loop_empty _ 0 x hx hA.fuelled) b i hi

theorem Finds.between {fuel b i : Nat} (hm : ∀ i, P i → Finds Inv own (R i) (m i)) (hR : Forward P R n)
    (hA : Allowed own P R n fuel minimal q) (hi : P i) :
    Finds Inv own (Quantified R b q i) (between fuel minimal (some b) q m i) where
  sound := between_sound (fun i hi => (hm i hi).sound) hR hA hi
  complete := by
    exact loopP_complete hm hR hA.loop_empty
      (fun x hx => ⟨loopQ_sound (fun i hi => (hm i hi).sound) hR (hA.loop_halts b) (loop_greedy minimal q) hA.loop_empty _ 0 x hx hA.fuelled,
        loopQ_complete hm hR (hA.loop_halts b) (loop_greedy minimal q) hA.loop_empty _ 0 x hx hA.fuelled⟩) b i hi

end Swish.Pregexp
