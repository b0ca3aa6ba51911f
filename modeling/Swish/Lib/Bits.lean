import Mathlib.Algebra.Group.Nat.Defs
import Mathlib.Data.List.Basic

/-!
Numbers as strings of bits, the highest bit first, and strings of bits cut into
bytes.
-/

set_option autoImplicit false

namespace Swish.Lib

/-- The w low bits of n. -/
def bits : Nat → Nat → List Bool
  | 0, _ => []
  | w+1, n => bits w (n / 2) ++ [n % 2 == 1]

def ofBits (l : List Bool) : Nat := l.foldl (fun n b => 2 * n + b.toNat) 0

/-- Groups of eight bits; a shorter rest is dropped. -/
def bytes : List Bool → List UInt8
  | b7 :: b6 :: b5 :: b4 :: b3 :: b2 :: b1 :: b0 :: rest =>
    UInt8.ofNat (ofBits [b7, b6, b5, b4, b3, b2, b1, b0]) :: bytes rest
  | _ => []

@[simp] theorem bits_length (w n : Nat) : (bits w n).length = w := by
  induction w generalizing n with
  | zero => rfl
  | succ w ih => simp [bits, ih]

theorem bits_append (w v n : Nat) : bits (w + v) n = bits w (n / 2 ^ v) ++ bits v n := by
  induction v generalizing n with
  | zero => simp [bits]
  | succ v ih =>
    rw [← Nat.add_assoc, bits, ih, bits, List.append_assoc, Nat.div_div_eq_div_mul, Nat.pow_succ']

/-- Higher bits do not count. -/
theorem bits_mul_add (v a n : Nat) : bits v (a * 2 ^ v + n) = bits v n := by
  induction v generalizing n with
  | zero => rfl
  | succ v ih =>
    have hdiv : (a * 2 ^ (v + 1) + n) / 2 = a * 2 ^ v + n / 2 := by
      rw [Nat.pow_succ, ← Nat.mul_assoc]
      omega
    have hmod : (a * 2 ^ (v + 1) + n) % 2 = n % 2 := by
      rw [Nat.pow_succ, ← Nat.mul_assoc]
      omega
    rw [bits, bits, hdiv, hmod, ih]

theorem ofBits_concat (l : List Bool) (b : Bool) : ofBits (l ++ [b]) = 2 * ofBits l + b.toNat := by
  simp [ofBits]

theorem ofBits_bits {w n : Nat} (h : n < 2 ^ w) : ofBits (bits w n) = n := by
  induction w generalizing n with
  | zero =>
    have hn : n = 0 := by simpa using h
    rw [hn]
    rfl
  | succ w ih =>
    rw [Nat.pow_succ] at h
    rw [bits, ofBits_concat, ih (by omega)]
    rcases Nat.mod_two_eq_zero_or_one n with h0 | h0
    · simp [h0]
      omega
    · simp [h0]
      omega

theorem bytes_bits (n : Nat) (rest : List Bool) : bytes (bits 8 n ++ rest) = UInt8.ofNat n :: bytes rest := by
  have hmod : bits 8 n = bits 8 (n % 256) := by
    have h := bits_mul_add 8 (n / 256) (n % 256)
    rw [show n / 256 * 2 ^ 8 + n % 256 = n from by omega] at h
    exact h
  have hn : ofBits (bits 8 (n % 256)) = n % 256 := ofBits_bits (by omega)
  have hbyte : UInt8.ofNat n = UInt8.ofNat (n % 256) := by
    apply UInt8.toNat_inj.mp
    rw [UInt8.toNat_ofNat', UInt8.toNat_ofNat']
    omega
  rw [hmod, hbyte]
  generalize n % 256 = k at hn
  simp only [bits, List.nil_append, List.cons_append, bytes] at hn ⊢
  rw [hn]

theorem bytes_of_short {l : List Bool} (h : l.length < 8) : bytes l = [] := by
  unfold bytes
  split
  · simp at h
    omega
  · rfl

end Swish.Lib
