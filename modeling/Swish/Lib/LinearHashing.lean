import Mathlib.Data.List.Flatten
import Mathlib.Data.List.Perm.Basic
import Mathlib.Tactic.Linarith

/-!
Linear hashing: a table of n active slots, half < n ≤ 2 * half, grows and shrinks
by one slot at a time. Slots are counted from 0. The buckets of a table are kept
in segments of equal length.
-/

set_option autoImplicit false

namespace LinearHashing

/-- The slot of a hash value. Slots from n on are not in use yet, and what hashes
there is kept with the buddy half a table below. -/
def slot (half n h : Int) : Int := if h % (2 * half) < n then h % (2 * half) else h % (2 * half) - half

variable {half n h : Int}

theorem slot_nonneg (h0 : 0 < half) (hn : half ≤ n) : 0 ≤ slot half n h := by
  have h1 := Int.emod_nonneg h (by omega : 2 * half ≠ 0)
  unfold slot
  split <;> omega

theorem slot_lt (h0 : 0 < half) (hn : half ≤ n) : slot half n h < n := by
  have h1 := Int.emod_lt_of_pos h (by omega : 0 < 2 * half)
  unfold slot
  split <;> omega

/-- When slot n is opened, what hashes to n moves there from its buddy. -/
theorem slot_succ : slot half (n + 1) h = if h % (2 * half) = n then n else slot half n h := by
  unfold slot
  by_cases hm : h % (2 * half) = n
  · rw [if_pos hm, if_pos (by omega), hm]
  · rw [if_neg hm]
    by_cases hlt : h % (2 * half) < n
    · rw [if_pos hlt, if_pos (by omega)]
    · rw [if_neg hlt, if_neg (by omega)]

/-- Only what hashes to slot n or to its buddy is in the buddy's bucket. -/
theorem slot_eq_buddy (hb : slot half n h = n - half) :
    h % (2 * half) = n - half ∨ h % (2 * half) = n := by
  unfold slot at hb
  split at hb <;> omega

theorem slot_of_eq (hm : h % (2 * half) = n) : slot half n h = n - half := by
  unfold slot
  rw [hm]
  simp

/-- A full table can be read as half of a table of twice the size. -/
theorem slot_double (h0 : 0 < half) : slot (2 * half) (2 * half) h = slot half (2 * half) h := by
  have h1 := Int.emod_nonneg h (by omega : 2 * half ≠ 0)
  have h2 := Int.emod_lt_of_pos h (by omega : 0 < 2 * half)
  have h3 := Int.emod_nonneg h (by omega : 2 * (2 * half) ≠ 0)
  have h4 := Int.emod_lt_of_pos h (by omega : 0 < 2 * (2 * half))
  have h5 : h % (2 * (2 * half)) % (2 * half) = h % (2 * half) :=
    Int.emod_emod_of_dvd h (Dvd.intro_left 2 rfl)
  unfold slot
  rw [if_pos h2]
  by_cases hlt : h % (2 * (2 * half)) < 2 * half
  · rw [if_pos hlt, ← h5, Int.emod_eq_of_lt h3 hlt]
  · rw [if_neg hlt, ← h5]
    generalize h % (2 * (2 * half)) = x at *
    rw [← Int.sub_emod_right x (2 * half), Int.emod_eq_of_lt (by omega) (by omega)]

section Segments

variable {α : Type}

/-- Segments of equal length. -/
def Uniform (w : Nat) (segs : List (List α)) : Prop := ∀ seg ∈ segs, seg.length = w

theorem Uniform.length {w : Nat} {segs : List (List α)} (h : Uniform w segs) :
    segs.flatten.length = w * segs.length := by
  induction segs with
  | nil => simp
  | cons a l ih =>
    have h1 : a.length = w := h a (by simp)
    have h2 := ih fun x hx => h x (by simp [hx])
    rw [List.flatten_cons, List.length_append, h1, h2, List.length_cons, Nat.mul_succ]
    omega

/-- The segments before one of them, and those after it. -/
theorem Uniform.split {w i : Nat} {segs : List (List α)} (h : Uniform w segs) {seg : List α}
    (hs : segs[i]? = some seg) :
    ∃ before after, segs = before ++ seg :: after ∧ before.length = i ∧ before.flatten.length = w * i := by
  obtain ⟨hlt, hseg⟩ := List.getElem?_eq_some_iff.mp hs
  have hbefore : (segs.take i).length = i := List.length_take_of_le (Nat.le_of_lt hlt)
  have huniform : Uniform w (segs.take i) := fun x hx => h x (List.mem_of_mem_take hx)
  refine ⟨segs.take i, segs.drop (i + 1), ?_, hbefore, ?_⟩
  · rw [← hseg, List.getElem_cons_drop, List.take_append_drop]
  · rw [huniform.length, hbefore]

/-- Element j of segment i among the elements of all the segments. -/
theorem Uniform.getElem? {w i j : Nat} {segs : List (List α)} (h : Uniform w segs) (hj : j < w)
    {seg : List α} (hs : segs[i]? = some seg) : segs.flatten[w * i + j]? = seg[j]? := by
  have hseg : seg.length = w := h seg (List.mem_of_getElem? hs)
  obtain ⟨before, after, rfl, -, hlen⟩ := h.split hs
  rw [List.flatten_append, List.flatten_cons, List.getElem?_append_right (by omega), hlen, Nat.add_sub_cancel_left,
    List.getElem?_append_left (by omega)]

theorem Uniform.set {w i : Nat} {segs : List (List α)} (h : Uniform w segs) {seg : List α}
    (hs : seg.length = w) : Uniform w (segs.set i seg) := by
  intro x hx
  rcases List.mem_or_eq_of_mem_set hx with h1 | h1
  · exact h x h1
  · rw [h1]; exact hs

/-- Writing into one segment. -/
theorem Uniform.flatten_set {w i j : Nat} {segs : List (List α)} (h : Uniform w segs) (hj : j < w)
    {seg : List α} (hs : segs[i]? = some seg) (x : α) :
    (segs.set i (seg.set j x)).flatten = segs.flatten.set (w * i + j) x := by
  have hseg : seg.length = w := h seg (List.mem_of_getElem? hs)
  obtain ⟨before, after, rfl, hbefore, hlen⟩ := h.split hs
  rw [List.set_append_right _ _ (by omega), hbefore, Nat.sub_self, List.set_cons_zero, List.flatten_append,
    List.flatten_append, List.flatten_cons, List.flatten_cons, List.set_append_right _ _ (by omega), hlen,
    Nat.add_sub_cancel_left, List.set_append_left _ _ (by omega)]

theorem Uniform.take {w : Nat} {segs : List (List α)} (h : Uniform w segs) (k : Nat) :
    (segs.take k).flatten = segs.flatten.take (w * k) := by
  induction segs generalizing k with
  | nil => simp
  | cons a l ih =>
    have h1 : a.length = w := h a (by simp)
    cases k with
    | zero => simp
    | succ k =>
      have h2 := ih (fun x hx => h x (by simp [hx])) k
      have h3 : w * (k + 1) = a.length + w * k := by
        rw [h1, Nat.mul_succ]
        omega
      rw [List.take_succ_cons, List.flatten_cons, List.flatten_cons, h3, List.take_length_add_append, h2]

end Segments

section Buckets

variable {α : Type} {l : List (List α)} {i j : Nat} {b b₁ b₂ : List α}

/-- What is in the other buckets. -/
theorem flatten_set_perm (hi : i < l.length) (b : List α) :
    (l.set i b).flatten.Perm (b ++ (l.set i []).flatten) := by
  induction l generalizing i with
  | nil => simp at hi
  | cons a l ih =>
    cases i with
    | zero => simp
    | succ i =>
      have h1 := ih (i := i) (by simpa using hi)
      simp only [List.set_cons_succ, List.flatten_cons]
      have h2 := (List.Perm.append_left a h1).trans (List.perm_append_comm_assoc _ _ _)
      exact h2

theorem flatten_perm (hb : l[i]? = some b) : l.flatten.Perm (b ++ (l.set i []).flatten) := by
  obtain ⟨hi, he⟩ := List.getElem?_eq_some_iff.mp hb
  have h1 := flatten_set_perm hi b
  have h2 : l.set i b = l := by rw [← he, List.set_getElem_self]
  rwa [h2] at h1

theorem mem_flatten_set_nil {x : α} (hx : x ∈ (l.set i []).flatten) :
    ∃ k b, k ≠ i ∧ l[k]? = some b ∧ x ∈ b := by
  obtain ⟨b, hb, hxb⟩ := List.mem_flatten.mp hx
  obtain ⟨k, hk⟩ := List.mem_iff_getElem?.mp hb
  by_cases hki : k = i
  · subst hki
    rw [List.getElem?_set] at hk
    split at hk
    · split at hk
      · cases hk
        cases hxb
      · cases hk
    · contradiction
  · rw [List.getElem?_set_ne (Ne.symm hki)] at hk
    exact ⟨k, b, hki, hk, hxb⟩

/-- Splitting a bucket into itself and an empty one. -/
theorem split_perm (hij : i ≠ j) (hb : l[i]? = some b) (he : l[j]? = some []) (hp : b.Perm (b₁ ++ b₂)) :
    ((l.set i b₁).set j b₂).flatten.Perm l.flatten := by
  obtain ⟨hi, _⟩ := List.getElem?_eq_some_iff.mp hb
  obtain ⟨hj, hje⟩ := List.getElem?_eq_some_iff.mp he
  have h1 : ((l.set i b₁).set j []) = l.set i b₁ := by
    have hnil : (l.set i b₁)[j]? = some [] := by rw [List.getElem?_set_ne hij, he]
    obtain ⟨hj', hje'⟩ := List.getElem?_eq_some_iff.mp hnil
    rw [← hje', List.set_getElem_self]
  have h2 := flatten_set_perm (l := l.set i b₁) (i := j) (by simpa using hj) b₂
  rw [h1] at h2
  have h3 := h2.trans (List.Perm.append_left b₂ (flatten_set_perm hi b₁))
  have h4 : (b₂ ++ (b₁ ++ (l.set i []).flatten)).Perm (b ++ (l.set i []).flatten) := by
    rw [← List.append_assoc]
    exact List.Perm.append_right _ (List.perm_append_comm.trans hp.symm)
  exact (h3.trans h4).trans (flatten_perm hb).symm

/-- Merging a bucket into another. -/
theorem merge_perm (hij : i ≠ j) (h1 : l[i]? = some b₁) (h2 : l[j]? = some b₂) :
    ((l.set i (b₁ ++ b₂)).set j []).flatten.Perm l.flatten := by
  obtain ⟨hi, _⟩ := List.getElem?_eq_some_iff.mp h1
  have h3 : (l.set j [])[i]? = some b₁ := by rw [List.getElem?_set_ne (Ne.symm hij), h1]
  have h4 : l.flatten.Perm (b₂ ++ (b₁ ++ ((l.set j []).set i []).flatten)) :=
    (flatten_perm h2).trans (List.Perm.append_left b₂ (flatten_perm h3))
  rw [List.set_comm _ _ hij]
  have h5 := flatten_set_perm (l := l.set j []) (i := i) (by simpa using hi) (b₁ ++ b₂)
  refine h5.trans (List.Perm.trans ?_ h4.symm)
  rw [← List.append_assoc]
  exact List.Perm.append_right _ List.perm_append_comm

end Buckets

end LinearHashing
