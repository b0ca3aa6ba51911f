import Mathlib.Data.List.Basic

/-!
Borders of a pattern, for the search of Knuth, Morris and Pratt. The state of a
search is the longest beginning of the pattern that ends the text read so far.
-/

set_option autoImplicit false

namespace Swish.Lib

variable {α : Type} {P T : List α} {x : α}

/-- The first k elements of the pattern end the text. -/
def Fits (P T : List α) (k : Nat) : Prop := k ≤ P.length ∧ P.take k <:+ T

namespace Fits

theorem zero (P T : List α) : Fits P T 0 := ⟨Nat.zero_le _, List.nil_suffix⟩

theorem le_text {k : Nat} (h : Fits P T k) : k ≤ T.length := by
  have := h.2.length_le
  rw [List.length_take] at this
  have := h.1
  omega

theorem trans {j k : Nat} (hj : Fits P T j) (hk : Fits P (P.take j) k) : Fits P T k := ⟨hk.1, hk.2.trans hj.2⟩

theorem of_le {j k : Nat} (hk : Fits P T k) (hj : Fits P T j) (h : k ≤ j) : Fits P (P.take j) k := by
  refine ⟨hk.1, List.suffix_of_suffix_length_le hk.2 hj.2 ?_⟩
  rw [List.length_take, List.length_take]
  omega

theorem snoc {k : Nat} : Fits P (T ++ [x]) (k + 1) ↔ Fits P T k ∧ P[k]? = some x := by
  constructor
  · intro h
    have hlt : k < P.length := h.1
    have hsuf := h.2
    rw [List.take_add_one, List.getElem?_eq_getElem hlt] at hsuf
    have hlast := List.suffix_concat_iff.mp hsuf
    rcases hlast with hnil | ⟨t, ht, hsuf⟩
    · simp only [List.append_eq_nil_iff, Option.toList_some] at hnil
      cases hnil.2
    · obtain ⟨rfl, hx⟩ := List.append_inj' ht rfl
      refine ⟨⟨Nat.le_of_lt hlt, hsuf⟩, ?_⟩
      rw [List.getElem?_eq_getElem hlt]
      simpa using hx
  · intro h
    obtain ⟨hk, hx⟩ := h
    have hlt := (List.getElem?_eq_some_iff.mp hx).1
    refine ⟨hlt, ?_⟩
    rw [List.take_add_one, hx]
    exact List.suffix_concat_iff.mpr (.inr ⟨_, rfl, hk.2⟩)

end Fits

def Longest (P T : List α) (k : Nat) : Prop := Fits P T k ∧ ∀ j, Fits P T j → j ≤ k

/-- The text ends with the pattern. -/
theorem longest_full_iff {k : Nat} (h : Longest P T k) : k = P.length ↔ P <:+ T := by
  constructor
  · intro hk
    have := h.1.2
    rwa [hk, List.take_length] at this
  · intro hP
    have hfull : Fits P T P.length := ⟨Nat.le_refl _, by rwa [List.take_length]⟩
    exact Nat.le_antisymm h.1.1 (h.2 _ hfull)

theorem longest_nil (P : List α) : Longest P [] 0 :=
  ⟨.zero P [], fun _ hj => by simpa using hj.le_text⟩

/-- The state of the search for the longest k that x goes on from: minus one if there is none. -/
structure Candidate (P T : List α) (x : α) (p : Int) : Prop where
  lower : -1 ≤ p
  fits : ∀ k : Nat, p = k → Fits P T k
  best : ∀ j : Nat, Fits P T j → P[j]? = some x → (j : Int) ≤ p

theorem Longest.candidate {k : Nat} (h : Longest P T k) (x : α) : Candidate P T x k where
  lower := by omega
  fits := by
    intro j hj
    have hj : k = j := by omega
    exact hj ▸ h.1
  best := fun j hj _ => by
    have := h.2 j hj
    omega

theorem Candidate.longest {k : Nat} (h : Candidate P T x k) (hx : P[k]? = some x) : Longest P (T ++ [x]) (k + 1) := by
  refine ⟨Fits.snoc.mpr ⟨h.fits k rfl, hx⟩, fun j hj => ?_⟩
  cases j with
  | zero => omega
  | succ j =>
    obtain ⟨hj, hjx⟩ := Fits.snoc.mp hj
    have := h.best j hj hjx
    omega

theorem Candidate.longest_zero (h : Candidate P T x (-1)) : Longest P (T ++ [x]) 0 := by
  refine ⟨.zero _ _, fun j hj => ?_⟩
  cases j with
  | zero => exact Nat.le_refl _
  | succ j =>
    obtain ⟨hj, hjx⟩ := Fits.snoc.mp hj
    have := h.best j hj hjx
    omega

/-- An entry of the failure table: the longest border of the first q elements that another element follows. -/
structure Fails (P : List α) (q : Nat) (t : Int) : Prop where
  lower : -1 ≤ t
  upper : t < q
  fits : ∀ k : Nat, t = k → Fits P (P.take q) k ∧ P[k]? ≠ P[q]?
  best : ∀ k : Nat, k < q → Fits P (P.take q) k → P[k]? ≠ P[q]? → (k : Int) ≤ t

theorem fails_zero (P : List α) : Fails P 0 (-1) where
  lower := Int.le_refl _
  upper := by omega
  fits := by
    intro k hk
    omega
  best := by
    intro k hk
    omega

/-- After a mismatch the table leads to the next candidate. -/
theorem Candidate.fail {q : Nat} {t : Int} (h : Candidate P T x q) (hx : P[q]? ≠ some x) (ht : Fails P q t) :
    Candidate P T x t where
  lower := ht.lower
  fits := fun k hk => (h.fits q rfl).trans (ht.fits k hk).1
  best := by
    intro j hj hjx
    have hle := h.best j hj hjx
    have hne : j ≠ q := by
      intro he
      rw [he] at hjx
      exact hx hjx
    have hlt : j < q := by omega
    refine ht.best j hlt (hj.of_le (h.fits q rfl) (Nat.le_of_lt hlt)) ?_
    rw [hjx]
    exact fun he => hx he.symm

/-- The proper borders of the first q elements are what ends their tail. -/
theorem fits_tail {q k : Nat} (hpos : 0 < q) (hq : q ≤ P.length) :
    Fits P (P.take q).tail k ↔ Fits P (P.take q) k ∧ k < q := by
  have hlen : (P.take q).length = q := by rw [List.length_take]; omega
  constructor
  · intro h
    refine ⟨⟨h.1, h.2.trans (List.tail_suffix _)⟩, ?_⟩
    have hle := h.le_text
    rw [List.length_tail, hlen] at hle
    omega
  · intro h
    obtain ⟨⟨hk, hsuf⟩, hlt⟩ := h
    refine ⟨hk, List.suffix_of_suffix_length_le hsuf (List.tail_suffix _) ?_⟩
    rw [List.length_tail, hlen, List.length_take]
    omega

theorem tail_take_succ {q : Nat} (hpos : 0 < q) (hx : P[q]? = some x) :
    (P.take (q + 1)).tail = (P.take q).tail ++ [x] := by
  have hlt := (List.getElem?_eq_some_iff.mp hx).1
  have hne : P.take q ≠ [] := by
    intro he
    have hlen : (P.take q).length = q := by rw [List.length_take]; omega
    rw [he] at hlen
    simp at hlen
    omega
  rw [List.take_add_one, hx, List.tail_append_of_ne_nil hne]
  rfl

/-- The next entry, from the longest proper border c. -/
theorem Longest.fails_same {q c : Nat} {t : Int} (hpos : 0 < q) (hq : q < P.length)
    (h : Longest P (P.take q).tail c) (he : P[q]? = P[c]?) (ht : Fails P c t) : Fails P q t := by
  obtain ⟨hc, hlt⟩ := (fits_tail hpos (Nat.le_of_lt hq)).mp h.1
  refine ⟨ht.lower, ?_, fun k hk => ?_, fun k hk hf hne => ?_⟩
  · have := ht.upper
    omega
  · obtain ⟨hf, hne⟩ := ht.fits k hk
    exact ⟨hc.trans hf, he ▸ hne⟩
  · have hle := h.2 k ((fits_tail hpos (Nat.le_of_lt hq)).mpr ⟨hf, hk⟩)
    have hkc : k ≠ c := by
      intro hkc
      rw [hkc] at hne
      exact hne he.symm
    exact ht.best k (by omega) (hf.of_le hc hle) (he ▸ hne)

theorem Longest.fails_other {q c : Nat} (hpos : 0 < q) (hq : q < P.length) (h : Longest P (P.take q).tail c)
    (he : P[q]? ≠ P[c]?) : Fails P q c := by
  obtain ⟨hc, hlt⟩ := (fits_tail hpos (Nat.le_of_lt hq)).mp h.1
  refine ⟨by omega, by omega, fun k hk => ?_, fun k hk hf _ => ?_⟩
  · have hk : c = k := by omega
    exact hk ▸ ⟨hc, fun e => he e.symm⟩
  · have := h.2 k ((fits_tail hpos (Nat.le_of_lt hq)).mpr ⟨hf, hk⟩)
    omega

end Swish.Lib
