import Mathlib.Data.List.Basic
import Mathlib.Logic.Function.Basic

/-!
Doubly linked lists that begin and end with a null pointer. The nodes are given by
their next and prev pointers; the pointer to the first node is kept elsewhere.
-/

set_option autoImplicit false

namespace Swish.Lib

variable {α : Type}

/-- The node a is followed by b, where a node exists. -/
def Joined (next prev : α → Option α) (a b : Option α) : Prop :=
  (∀ x, a = some x → next x = b) ∧ ∀ y, b = some y → prev y = a

/-- A path from a through the list to b. -/
def Path (next prev : α → Option α) : Option α → List α → Option α → Prop
  | a, [], b => Joined next prev a b
  | a, x :: xs, b => Joined next prev a (some x) ∧ Path next prev (some x) xs b

structure IsChain (next prev : α → Option α) (head : Option α) (l : List α) : Prop where
  head : head = l.head?
  path : Path next prev none l none
  nodup : l.Nodup

variable {next prev next' prev' : α → Option α} {a b : Option α} {x y : α} {xs ys : List α}

theorem Path.append : Path next prev a (xs ++ y :: ys) b ↔ Path next prev a xs (some y) ∧ Path next prev (some y) ys b := by
  induction xs generalizing a with
  | nil => simp [Path]
  | cons x xs ih => simp [Path, ih, and_assoc]

/-- A path depends on the next pointers of its nodes but the last, and on the prev pointers of its nodes but the first. -/
theorem Path.congr (h : Path next prev a xs b) (hn : ∀ x, a = some x ∨ x ∈ xs → next' x = next x)
    (hp : ∀ y, y ∈ xs ∨ b = some y → prev' y = prev y) : Path next' prev' a xs b := by
  induction xs generalizing a with
  | nil =>
    refine ⟨fun x hx => ?_, fun y hy => ?_⟩
    · rw [hn x (.inl hx), h.1 x hx]
    · rw [hp y (.inr hy), h.2 y hy]
  | cons z zs ih =>
    refine ⟨⟨fun x hx => ?_, fun y hy => ?_⟩, ih h.2 (fun x hx => hn x ?_) fun y hy => hp y ?_⟩
    · rw [hn x (.inl hx), h.1.1 x hx]
    · rw [hp y (.inl (by simp_all)), h.1.2 y hy]
    · right
      rcases hx with hx | hx
      · simp_all
      · exact List.mem_cons_of_mem _ hx
    · exact hy.imp_left (List.mem_cons_of_mem _)

/-- What the node before b points to. -/
theorem Path.last (h : Path next prev a xs (some y)) : prev y = (xs.getLast?).or a := by
  induction xs generalizing a with
  | nil => simpa using h.2 y rfl
  | cons x xs ih =>
    rw [ih h.2]
    cases xs with
    | nil => simp
    | cons z zs => simp [List.getLast?_cons]

theorem Path.first (h : Path next prev (some x) xs b) : next x = (xs.head?).or b := by
  cases xs with
  | nil => simpa using h.1 x rfl
  | cons y ys => simpa using h.1.1 x rfl

variable {head : Option α} {l : List α}

/-- A node in front. -/
theorem IsChain.push (h : IsChain next prev head l) (hx : x ∉ l) (hn : next' x = head) (hp : prev' x = none)
    (hhead : ∀ y, head = some y → prev' y = some x) (hnext : ∀ z, z ≠ x → next' z = next z)
    (hprev : ∀ z, z ≠ x → head ≠ some z → prev' z = prev z) : IsChain next' prev' (some x) (x :: l) := by
  refine ⟨rfl, ⟨⟨nofun, ?_⟩, ?_⟩, List.nodup_cons.mpr ⟨hx, h.nodup⟩⟩
  · rintro y ⟨⟩
    exact hp
  · cases l with
    | nil => exact ⟨by rintro y ⟨⟩; rw [hn, h.head]; rfl, nofun⟩
    | cons y ys =>
      have hy : head = some y := h.head
      have hnot : y ∉ ys := (List.nodup_cons.mp h.nodup).1
      refine ⟨⟨?_, ?_⟩, h.path.2.congr (fun z hz => hnext z ?_) fun z hz => hprev z ?_ ?_⟩
      · rintro z ⟨⟩
        rw [hn, hy]
      · rintro z ⟨⟩
        exact hhead y hy
      all_goals grind

/-- A node is taken out. -/
theorem IsChain.remove [DecidableEq α] (h : IsChain next prev head (xs ++ x :: ys)) (next' prev' : α → Option α)
    (hnext : ∀ z, z ∈ xs ++ ys → next' z = if prev x = some z then next x else next z)
    (hprev : ∀ z, z ∈ xs ++ ys → prev' z = if next x = some z then prev x else prev z) :
    IsChain next' prev' (if prev x = none then next x else head) (xs ++ ys) := by
  obtain ⟨hfront, hback⟩ := Path.append.mp h.path
  have hlast : prev x = xs.getLast? := by simpa using hfront.last
  have hfirst : next x = ys.head? := by simpa using hback.first
  have hnodup : (xs ++ ys).Nodup := h.nodup.sublist (by simp)
  refine ⟨?_, ?_, hnodup⟩
  · have hhead := h.head
    cases xs with
    | nil => simp [hlast, hfirst]
    | cons z zs => simp_all
  · rcases xs.eq_nil_or_concat' with rfl | ⟨front, q, rfl⟩
    · cases ys with
      | nil => exact ⟨nofun, nofun⟩
      | cons r ys =>
        refine ⟨⟨nofun, ?_⟩, hback.2.congr (fun z hz => ?_) fun z hz => ?_⟩
        · rintro z ⟨⟩
          simp_all
        · rw [hnext z (by simp_all; tauto), hlast]
          simp
        · rw [hprev z (by simp_all), hfirst]
          simp_all
          grind
    · have hq : prev x = some q := by simp [hlast]
      rw [List.append_assoc, List.singleton_append] at hnodup ⊢
      refine Path.append.mpr ⟨(Path.append.mp hfront).1.congr (fun z hz => ?_) fun z hz => ?_, ?_⟩
      · have hz : z ∈ front := by simpa using hz
        rw [hnext z (by simp [hz]), hq, if_neg]
        rintro ⟨⟩
        exact (List.nodup_append.mp hnodup).2.2 q hz q (by simp) rfl
      · have hz : z ∈ front ∨ z = q := by simpa [eq_comm] using hz
        rw [hprev z (by simp only [List.mem_append, List.mem_singleton]; tauto), hfirst, if_neg]
        intro hz'
        cases ys with
        | nil => cases hz'
        | cons r ys =>
          obtain rfl : r = z := by simpa using hz'
          rcases hz with hz | rfl
          · exact (List.nodup_append.mp hnodup).2.2 r hz r (by simp) rfl
          · simp [List.nodup_append] at hnodup
      · cases ys with
        | nil =>
          refine ⟨?_, nofun⟩
          rintro z ⟨⟩
          rw [hnext q (by simp), if_pos hq, hfirst]
          rfl
        | cons r ys =>
          have hr : q ≠ r ∧ q ∉ ys ∧ r ∉ ys := by simp_all [List.nodup_append]
          refine ⟨⟨?_, ?_⟩, hback.2.congr (fun z hz => ?_) fun z hz => ?_⟩
          · rintro z ⟨⟩
            rw [hnext q (by simp), if_pos hq, hfirst]
            rfl
          · rintro z ⟨⟩
            rw [hprev r (by simp), if_pos (by simpa using hfirst), hq]
          · rw [hnext z (by simp_all; grind), hq, if_neg (by simp_all; grind)]
          · rw [hprev z (by simp_all), hfirst, if_neg (by simp_all; grind)]

end Swish.Lib
