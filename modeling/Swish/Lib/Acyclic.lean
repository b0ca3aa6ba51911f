import Mathlib.Data.List.Chain
import Mathlib.Data.List.Perm.Subperm
import Mathlib.Logic.Relation

/-!
Relations without cycles.
-/

set_option autoImplicit false

namespace Swish.Lib

open Relation

variable {α : Type} {R R' : α → α → Prop} {p q : α}

def Acyclic (R : α → α → Prop) : Prop := ∀ a, ¬TransGen R a a

theorem Acyclic.mono (h : Acyclic R) (hR : ∀ a b, R' a b → R a b) : Acyclic R' :=
  fun a ha => h a (TransGen.mono hR _ _ ha)

/-- Edges to an element without successors close no cycle. -/
theorem Acyclic.redirect (h : Acyclic R) (hR : ∀ a b, R' a b → R a b ∨ b = q) (hq : ∀ b, ¬R' q b) :
    Acyclic R' := by
  -- every element of a path that goes on is not q
  have hpath : ∀ a c, TransGen R' a c → (∃ b, R' c b) → TransGen R a c := by
    intro a c hac
    induction hac with
    | single hab =>
      intro ⟨d, hd⟩
      rcases hR _ _ hab with hab | rfl
      · exact .single hab
      · exact absurd hd (hq d)
    | tail hab hbc ih =>
      intro ⟨d, hd⟩
      rcases hR _ _ hbc with hbc' | rfl
      · exact (ih ⟨_, hbc⟩).tail hbc'
      · exact absurd hd (hq d)
  intro a ha
  obtain ⟨b, hab, -⟩ := TransGen.head'_iff.mp ha
  exact h a (hpath a a ha ⟨b, hab⟩)

/-- A path that may use one more edge. -/
theorem transGen_add (hR : ∀ a b, R' a b → R a b ∨ a = p ∧ b = q) {a b : α} (h : TransGen R' a b) :
    TransGen R a b ∨ ReflTransGen R a p ∧ ReflTransGen R q b := by
  induction h with
  | single hab =>
    rcases hR _ _ hab with hab | ⟨rfl, rfl⟩
    · exact .inl (.single hab)
    · exact .inr ⟨.refl, .refl⟩
  | tail _ hbc ih =>
    rcases hR _ _ hbc with hbc | ⟨rfl, rfl⟩
    · rcases ih with ih | ⟨h1, h2⟩
      · exact .inl (ih.tail hbc)
      · exact .inr ⟨h1, h2.tail hbc⟩
    · rcases ih with ih | ⟨h1, -⟩
      · exact .inr ⟨ih.to_reflTransGen, .refl⟩
      · exact .inr ⟨h1, .refl⟩

theorem Acyclic.add_iff (h : Acyclic R) (hR : ∀ a b, R' a b ↔ R a b ∨ a = p ∧ b = q) :
    Acyclic R' ↔ ¬ReflTransGen R q p := by
  constructor
  · intro h' hqp
    have hpq : R' p q := (hR p q).mpr (.inr ⟨rfl, rfl⟩)
    have hqp' : ReflTransGen R' q p :=
      ReflTransGen.mono (fun a b hab => (hR a b).mpr (.inl hab)) _ _ hqp
    exact h' p (TransGen.head' hpq hqp')
  · intro hqp a ha
    rcases transGen_add (fun a b => (hR a b).mp) ha with ha | ⟨h1, h2⟩
    · exact h a ha
    · exact hqp (h2.trans h1)

/-- A path through more elements than there are passes one of them twice. -/
theorem exists_cycle_of_length_lt {l s : List α} (hc : l.IsChain R) (hs : ∀ x ∈ l, x ∈ s)
    (hl : s.length < l.length) : ∃ a ∈ l, TransGen R a a := by
  by_contra hno
  have hpair : l.Pairwise (TransGen R) := (hc.imp fun _ _ => TransGen.single).pairwise
  have hnodup : l.Nodup := by
    refine hpair.imp_of_mem fun ha _ hab he => ?_
    exact hno ⟨_, ha, he ▸ hab⟩
  have hle := (List.subperm_of_subset hnodup hs).length_le
  omega

end Swish.Lib
