import Mathlib.Algebra.Group.Nat.Defs
import Mathlib.Data.List.Basic

/-!
Numbers as byte strings of a fixed width, little end and big end first.
-/

set_option autoImplicit false

namespace Swish.Lib

/-- The number with the bytes bs, the lowest one first. -/
def leValue : List UInt8 → Nat
  | [] => 0
  | b :: bs => b.toNat + 256 * leValue bs

/-- The lowest bytes of n, the lowest one first. -/
def leBytes : Nat → Nat → List UInt8
  | 0, _ => []
  | k + 1, n => UInt8.ofNat n :: leBytes k (n / 256)

/-- The number with the bytes bs, the highest one first. -/
def beValue (bs : List UInt8) : Nat := leValue bs.reverse

/-- The lowest bytes of n, the highest one first. -/
def beBytes (k n : Nat) : List UInt8 := (leBytes k n).reverse

@[simp] theorem length_leBytes (k n : Nat) : (leBytes k n).length = k := by
  induction k generalizing n with
  | zero => rfl
  | succ k ih => simp [leBytes, ih]

@[simp] theorem length_beBytes (k n : Nat) : (beBytes k n).length = k := by
  simp [beBytes]

theorem leValue_leBytes (k n : Nat) (h : n < 256 ^ k) : leValue (leBytes k n) = n := by
  induction k generalizing n with
  | zero =>
    have hn : n = 0 := by omega
    simp [hn, leBytes, leValue]
  | succ k ih =>
    have hd : n / 256 < 256 ^ k := by
      apply (Nat.div_lt_iff_lt_mul (by decide)).2
      rwa [Nat.pow_succ] at h
    simp only [leBytes, leValue, UInt8.toNat_ofNat', ih _ hd]
    omega

theorem beValue_beBytes (k n : Nat) (h : n < 256 ^ k) : beValue (beBytes k n) = n := by
  simp [beValue, beBytes, leValue_leBytes k n h]

theorem leBytes_leValue (bs : List UInt8) : leBytes bs.length (leValue bs) = bs := by
  induction bs with
  | nil => rfl
  | cons b bs ih =>
    have hb : b.toNat < 256 := b.toNat_lt
    have hd : (b.toNat + 256 * leValue bs) / 256 = leValue bs := by omega
    have ho : UInt8.ofNat (b.toNat + 256 * leValue bs) = b := by
      apply UInt8.toNat_inj.1
      rw [UInt8.toNat_ofNat']
      omega
    simp only [List.length_cons, leValue, leBytes, hd, ho, ih]

/-- One byte of an exclusive or. -/
theorem xor_cons (b c : UInt8) (m n : Nat) :
    (b.toNat + 256 * m) ^^^ (c.toNat + 256 * n) = (b ^^^ c).toNat + 256 * (m ^^^ n) := by
  have hb : b.toNat < 256 := b.toNat_lt
  have hc : c.toNat < 256 := c.toNat_lt
  have hmod : ((b.toNat + 256 * m) ^^^ (c.toNat + 256 * n)) % 2 ^ 8 = (b ^^^ c).toNat := by
    have h1 : (b.toNat + 256 * m) % 2 ^ 8 = b.toNat := by omega
    have h2 : (c.toNat + 256 * n) % 2 ^ 8 = c.toNat := by omega
    rw [Nat.xor_mod_two_pow, h1, h2, UInt8.toNat_xor]
  have hdiv : ((b.toNat + 256 * m) ^^^ (c.toNat + 256 * n)) / 2 ^ 8 = m ^^^ n := by
    have h1 : (b.toNat + 256 * m) / 2 ^ 8 = m := by omega
    have h2 : (c.toNat + 256 * n) / 2 ^ 8 = n := by omega
    rw [Nat.xor_div_two_pow, h1, h2]
  omega

/-- Numbers are combined byte by byte. -/
theorem leValue_xor {as bs : List UInt8} (h : as.length = bs.length) :
    leValue as ^^^ leValue bs = leValue (List.zipWith (· ^^^ ·) as bs) := by
  induction as generalizing bs with
  | nil =>
    cases bs with
    | nil => rfl
    | cons b bs => cases h
  | cons a as ih =>
    cases bs with
    | nil => cases h
    | cons b bs =>
      have hl : as.length = bs.length := by simpa using h
      simp only [List.zipWith_cons_cons, leValue, xor_cons, ih hl]

/-- A byte above a number. -/
theorem or_shift {m k : Nat} (h : m < 2 ^ k) (b : UInt8) : m ||| b.toNat <<< k = m + 2 ^ k * b.toNat := by
  rw [Nat.or_comm, ← Nat.shiftLeft_add_eq_or_of_lt h, Nat.shiftLeft_eq]
  rw [Nat.mul_comm, Nat.add_comm]

end Swish.Lib
