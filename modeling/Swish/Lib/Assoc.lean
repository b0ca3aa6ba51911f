import Mathlib.Data.List.Basic

/-!
Association lists in which a key is set once: setting it again moves it to the end.
-/

set_option autoImplicit false

namespace Assoc

variable {κ ν : Type} [DecidableEq κ]

def find (l : List (κ × ν)) (key : κ) : Option ν := (l.find? fun x => x.1 = key).map Prod.snd

def set (l : List (κ × ν)) (key : κ) (value : ν) : List (κ × ν) := l.filter (fun x => x.1 ≠ key) ++ [(key, value)]

def setAll (pairs l : List (κ × ν)) : List (κ × ν) := pairs.foldl (fun l x => set l x.1 x.2) l

/-- The value of the last pair with the key. -/
def last (pairs : List (κ × ν)) (key : κ) : Option ν := find pairs.reverse key

@[simp] theorem find_nil (key : κ) : find ([] : List (κ × ν)) key = none := rfl

theorem find_cons (x : κ × ν) (l : List (κ × ν)) (key : κ) :
    find (x :: l) key = if x.1 = key then some x.2 else find l key := by
  unfold find
  by_cases h : x.1 = key
  · rw [List.find?_cons_of_pos (by simpa using h), if_pos h]
    rfl
  · rw [List.find?_cons_of_neg (by simpa using h), if_neg h]

theorem find_append (l l' : List (κ × ν)) (key : κ) : find (l ++ l') key = (find l key).or (find l' key) := by
  simp only [find, List.find?_append, Option.map_or]

theorem find_eq_none {l : List (κ × ν)} {key : κ} : find l key = none ↔ ∀ x ∈ l, x.1 ≠ key := by
  simp [find]

theorem find_eq_some {l : List (κ × ν)} {key : κ} {value : ν} (h : find l key = some value) : (key, value) ∈ l := by
  obtain ⟨x, hx, rfl⟩ := Option.map_eq_some_iff.mp h
  have hkey : x.1 = key := by simpa using List.find?_some hx
  exact hkey ▸ List.mem_of_find?_eq_some hx

theorem find_of_mem {l : List (κ × ν)} (h : (l.map Prod.fst).Nodup) {key : κ} {value : ν} (hmem : (key, value) ∈ l) :
    find l key = some value := by
  induction l with
  | nil => cases hmem
  | cons x l ih =>
    obtain ⟨hx, hl⟩ := List.nodup_cons.mp h
    rw [find_cons]
    obtain rfl | hmem := List.mem_cons.mp hmem
    · rw [if_pos rfl]
    · have hne : x.1 ≠ key := fun heq => hx (heq ▸ List.mem_map.mpr ⟨_, hmem, rfl⟩)
      rw [if_neg hne]
      exact ih hl hmem

theorem mem_set {l : List (κ × ν)} {key : κ} {value : ν} {x : κ × ν} :
    x ∈ set l key value ↔ x ∈ l ∧ x.1 ≠ key ∨ x = (key, value) := by
  simp [set]

theorem find_set (l : List (κ × ν)) (key : κ) (value : ν) (k : κ) :
    find (set l key value) k = if key = k then some value else find l k := by
  unfold set
  rw [find_append, find_cons, find_nil]
  by_cases h : key = k
  · have hnone : find (l.filter fun x => x.1 ≠ key) k = none := by
      apply find_eq_none.mpr
      intro x hx
      have := (List.mem_filter.mp hx).2
      exact h ▸ (by simpa using this)
    rw [hnone, if_pos h, if_pos h]
    rfl
  · rw [if_neg h, if_neg h, Option.or_none]
    induction l with
    | nil => rfl
    | cons x l ih =>
      by_cases hx : x.1 = key
      · rw [List.filter_cons_of_neg (by simpa using hx), ih, find_cons, if_neg (hx ▸ h)]
      · rw [List.filter_cons_of_pos (by simpa using hx), find_cons, find_cons, ih]

theorem nodup_set {l : List (κ × ν)} (h : (l.map Prod.fst).Nodup) (key : κ) (value : ν) :
    ((set l key value).map Prod.fst).Nodup := by
  unfold set
  rw [List.map_append, List.nodup_append]
  refine ⟨h.sublist (List.Sublist.map _ List.filter_sublist), by simp, ?_⟩
  intro a ha b hb heq
  obtain ⟨x, hx, rfl⟩ := List.mem_map.mp ha
  have hne : x.1 ≠ key := by simpa using (List.mem_filter.mp hx).2
  exact hne (heq.trans (List.mem_singleton.mp hb))

theorem find_setAll (pairs l : List (κ × ν)) (key : κ) :
    find (setAll pairs l) key = (last pairs key).or (find l key) := by
  induction pairs generalizing l with
  | nil => rfl
  | cons x pairs ih =>
    have hlast : last (x :: pairs) key = (last pairs key).or (find [x] key) := by
      unfold last
      rw [List.reverse_cons, find_append]
    have hone : (find [x] key).or (find l key) = find (set l x.1 x.2) key := by
      rw [find_set, find_cons]
      by_cases h : x.1 = key
      · rw [if_pos h, if_pos h]
        rfl
      · rw [if_neg h, if_neg h]
        rfl
    rw [hlast, Option.or_assoc, hone]
    exact ih _

theorem nodup_setAll (pairs : List (κ × ν)) {l : List (κ × ν)} (h : (l.map Prod.fst).Nodup) :
    ((setAll pairs l).map Prod.fst).Nodup := by
  induction pairs generalizing l with
  | nil => exact h
  | cons x pairs ih => exact ih (nodup_set h x.1 x.2)

end Assoc
