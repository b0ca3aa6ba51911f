import Mathlib.Algebra.Group.Nat.Defs
import Mathlib.Data.List.Basic

/-!
A stream that is compressed block by block: what is left of it in the buffer, and
the blocks of the whole stream.
-/

set_option autoImplicit false

namespace Swish.Lib

variable {σ α : Type}

/-- One item more in the buffer. A full buffer of n items is compressed. -/
def feed (f : σ → List α → σ) (n : Nat) (s : σ × List α) (x : α) : σ × List α :=
  if s.2.length + 1 = n then (f s.1 (s.2 ++ [x]), []) else (s.1, s.2 ++ [x])

def absorb (f : σ → List α → σ) (n : Nat) (s : σ × List α) (xs : List α) : σ × List α := xs.foldl (feed f n) s

/-- The first k blocks of n items. -/
def blocks (n : Nat) : Nat → List α → List (List α)
  | 0, _ => []
  | k + 1, xs => xs.take n :: blocks n k (xs.drop n)

variable {f : σ → List α → σ} {n : Nat}

@[simp] theorem absorb_nil (s : σ × List α) : absorb f n s [] = s := rfl

theorem absorb_cons (s : σ × List α) (x : α) (xs : List α) : absorb f n s (x :: xs) = absorb f n (feed f n s x) xs :=
  rfl

theorem absorb_append (s : σ × List α) (xs ys : List α) :
    absorb f n s (xs ++ ys) = absorb f n (absorb f n s xs) ys :=
  List.foldl_append

theorem absorb_short {s : σ} {buf xs : List α} (h : buf.length + xs.length < n) :
    absorb f n (s, buf) xs = (s, buf ++ xs) := by
  induction xs generalizing buf with
  | nil => simp
  | cons x xs ih =>
    rw [List.length_cons] at h
    rw [absorb_cons, feed, if_neg (by simp only; omega), ih (by simp; omega), List.append_assoc]
    rfl

/-- The buffer is filled. -/
theorem absorb_full {s : σ} {buf xs : List α} (hne : xs ≠ []) (h : buf.length + xs.length = n) :
    absorb f n (s, buf) xs = (f s (buf ++ xs), []) := by
  obtain ⟨ys, y, rfl⟩ := List.eq_nil_or_concat xs |>.resolve_left hne
  rw [List.concat_eq_append, List.length_append, List.length_singleton] at h
  have hshort : absorb f n (s, buf) ys = (s, buf ++ ys) := absorb_short (by omega)
  have hlast : (buf ++ ys).length + 1 = n := by
    rw [List.length_append]
    omega
  rw [List.concat_eq_append, absorb_append, hshort, absorb_cons, feed, if_pos hlast, absorb_nil, List.append_assoc]

theorem absorb_blocks (hn : 0 < n) {k : Nat} {s : σ} {xs : List α} (h : xs.length = k * n) :
    absorb f n (s, []) xs = ((blocks n k xs).foldl f s, []) := by
  induction k generalizing s xs with
  | zero =>
    obtain rfl : xs = [] := List.eq_nil_of_length_eq_zero (by omega)
    rfl
  | succ k ih =>
    rw [Nat.succ_mul] at h
    have hfirst : (xs.take n).length = n := by
      rw [List.length_take]
      omega
    have hne : xs.take n ≠ [] := List.ne_nil_of_length_pos (by omega)
    have hrest : (xs.drop n).length = k * n := by
      rw [List.length_drop]
      omega
    have hfull : absorb f n (s, []) (xs.take n) = (f s (xs.take n), []) := absorb_full hne (by simpa using hfirst)
    rw [← List.take_append_drop n xs, absorb_append, hfull, ih hrest, List.take_append_drop]
    rfl

/-- How much is left in the buffer. -/
theorem absorb_length (hn : 0 < n) (s : σ) {buf : List α} (xs : List α) (h : buf.length < n) :
    (absorb f n (s, buf) xs).2.length = (buf.length + xs.length) % n := by
  induction xs generalizing s buf with
  | nil => exact (Nat.mod_eq_of_lt h).symm
  | cons x xs ih =>
    rw [absorb_cons, feed, List.length_cons]
    by_cases hfull : buf.length + 1 = n
    · rw [if_pos hfull, ih _ (by simpa using hn)]
      have : buf.length + (xs.length + 1) = xs.length + n := by omega
      rw [this, Nat.add_mod_right, List.length_nil, Nat.zero_add]
    · have hlt : (buf ++ [x]).length < n := by
        rw [List.length_append, List.length_singleton]
        omega
      rw [if_neg hfull, ih _ hlt, List.length_append, List.length_singleton]
      congr 1
      omega

theorem blocks_map {β : Type} (g : List α → List β) (n m : Nat) (k : Nat) (xs : List α)
    (ht : ∀ l : List α, n ≤ l.length → (g l).take m = g (l.take n))
    (hd : ∀ l : List α, n ≤ l.length → (g l).drop m = g (l.drop n)) (h : k * n ≤ xs.length) :
    blocks m k (g xs) = (blocks n k xs).map g := by
  induction k generalizing xs with
  | zero => rfl
  | succ k ih =>
    rw [Nat.succ_mul] at h
    rw [blocks, blocks, List.map_cons, ht xs (by omega), hd xs (by omega), ih _ (by rw [List.length_drop]; omega)]

theorem length_of_mem_blocks {k : Nat} {xs b : List α} (h : xs.length = k * n) (hb : b ∈ blocks n k xs) :
    b.length = n := by
  induction k generalizing xs with
  | zero => cases hb
  | succ k ih =>
    rw [Nat.succ_mul] at h
    rcases List.mem_cons.mp hb with rfl | hb
    · rw [List.length_take]
      omega
    · exact ih (by rw [List.length_drop]; omega) hb

end Swish.Lib
