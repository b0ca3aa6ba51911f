import Swish.Lib.Bytes

/-!
mask-bytevector!, which masks a part of a bytevector in place: bytes up to a word
boundary, then whole words, then the bytes that are left.
-/

set_option autoImplicit false

namespace Swish.WebSocket

open Swish.Lib

structure Key where
  bytes : List UInt8
  length : bytes.length = 4

def Key.ref (key : Key) (i : Nat) : UInt8 := key.bytes.getD (i % 4) 0

def xorByte (i : Nat) (m : UInt8) (bv : List UInt8) : List UInt8 := bv.modify i (· ^^^ m)

/-- xor-range! for the n bytes from i, with the mask from j. -/
def xorRange (key : Key) : Nat → Nat → Nat → List UInt8 → List UInt8
  | 0, _, _, bv => bv
  | n + 1, i, j, bv => xorRange key n (i + 1) (j + 1) (xorByte i (key.ref j) bv)

/-- load-mask for n bytes. -/
def loadMask (key : Key) : Nat → Nat → Nat → Nat → Nat
  | 0, _, _, m => m
  | n + 1, i, shift, m => loadMask key n (i + 1) (shift + 8) (m ||| (key.ref i).toNat <<< shift)

/-- bytevector-u32-ref and bytevector-u24-ref, little end first. -/
def leRef (k : Nat) (bv : List UInt8) (i : Nat) : Nat := leValue ((bv.drop i).take k)

/-- bytevector-u32-set! and bytevector-u24-set!, little end first. -/
def leSet (k : Nat) (bv : List UInt8) (i x : Nat) : List UInt8 :=
  bv.take i ++ (leBytes k x ++ bv.drop (i + k))

/-- The body of the loop over words. A fixnum holds a word, or else three bytes of it. -/
def maskWord (fixnumWidth : Nat) (key : Key) (mask2Start i : Nat) (bv : List UInt8) : List UInt8 :=
  if 32 ≤ fixnumWidth then leSet 4 bv i (leRef 4 bv i ^^^ loadMask key 4 mask2Start 0 0)
  else xorByte (i + 3) (key.ref (mask2Start + 3)) (leSet 3 bv i (leRef 3 bv i ^^^ loadMask key 3 mask2Start 0 0))

/-- The loop over n words from i. -/
def maskWords (fixnumWidth : Nat) (key : Key) (mask2Start : Nat) : Nat → Nat → List UInt8 → List UInt8
  | 0, _, bv => bv
  | n + 1, i, bv =>
    maskWords fixnumWidth key mask2Start n (i + 4) (maskWord fixnumWidth key mask2Start i bv)

/-- The first word boundary from i on. -/
def boundary (i : Nat) : Nat := 4 * (i / 4 + min (i % 4) 1)

def maskBytevector (fixnumWidth : Nat) (payload : List UInt8) (start payloadLen : Nat) (key : Key) : List UInt8 :=
  let end0 := start + payloadLen
  let end1 := min (boundary start) end0
  let end2 := 4 * (end0 / 4)
  let mask2Start := end1 - start
  if start < end0 ∧ end0 ≤ payload.length then
    let payload := xorRange key (end1 - start) start 0 payload
    let payload := if end2 ≤ end1 then payload
      else maskWords fixnumWidth key mask2Start ((end2 - end1 + 3) / 4) end1 payload
    if end1 ≤ end2 then xorRange key (end0 - end2) end2 mask2Start payload else payload
  else payload

variable {fixnumWidth : Nat} {key : Key} {bv bv' : List UInt8} {start lo mid hi i j n : Nat}

/-- The bytes from lo to hi are masked, where the mask begins at start. -/
def Masked (key : Key) (start lo hi : Nat) (bv bv' : List UInt8) : Prop :=
  ∀ p, bv'[p]? = if lo ≤ p ∧ p < hi then bv[p]?.map (· ^^^ key.ref (p - start)) else bv[p]?

theorem Masked.refl : Masked key start lo lo bv bv := by
  intro p
  rw [if_neg (by omega)]

theorem Masked.trans {bv'' : List UInt8} (h : Masked key start lo mid bv bv') (h' : Masked key start mid hi bv' bv'')
    (h1 : lo ≤ mid) (h2 : mid ≤ hi) : Masked key start lo hi bv bv'' := by
  intro p
  rw [h' p, h p]
  by_cases hm : p < mid
  · rw [if_neg (by omega)]
    by_cases hl : lo ≤ p
    · rw [if_pos ⟨hl, hm⟩, if_pos ⟨hl, by omega⟩]
    · rw [if_neg (by omega), if_neg (by omega)]
  · by_cases hh : p < hi
    · rw [if_pos ⟨by omega, hh⟩, if_neg (by omega), if_pos ⟨by omega, hh⟩]
    · rw [if_neg (by omega), if_neg (by omega), if_neg (by omega)]

theorem Masked.length (h : Masked key start lo hi bv bv') : bv'.length = bv.length := by
  apply Nat.le_antisymm
  · apply List.getElem?_eq_none_iff.1
    rw [h, List.getElem?_eq_none (Nat.le_refl _)]
    split <;> rfl
  · apply List.getElem?_eq_none_iff.1
    have hn := h bv'.length
    rw [List.getElem?_eq_none (Nat.le_refl _)] at hn
    split at hn
    · exact Option.map_eq_none_iff.1 hn.symm
    · exact hn.symm

theorem Key.ref_mod (key : Key) {i j : Nat} (h : i % 4 = j % 4) : key.ref i = key.ref j := by
  simp only [Key.ref, h]

theorem xorByte_masked (hj : j % 4 = (i - start) % 4) :
    Masked key start i (i + 1) bv (xorByte i (key.ref j) bv) := by
  intro p
  rw [xorByte, List.getElem?_modify]
  by_cases hp : i = p
  · subst hp
    rw [if_pos (by omega), key.ref_mod hj]
    simp
  · rw [if_neg (by omega)]
    simp [hp]

theorem xorRange_masked (hi : start ≤ i) (hj : j % 4 = (i - start) % 4) :
    Masked key start i (i + n) bv (xorRange key n i j bv) := by
  induction n generalizing i j bv with
  | zero => exact .refl
  | succ n ih =>
    have hstep : Masked key start i (i + 1) bv (xorByte i (key.ref j) bv) := xorByte_masked hj
    have hrest := @ih (xorByte i (key.ref j) bv) (i + 1) (j + 1) (by omega) (by omega)
    rw [show i + 1 + n = i + (n + 1) from by omega] at hrest
    exact hstep.trans hrest (by omega) (by omega)

/-- The bytes of the mask from j on. -/
def Key.window (key : Key) (n j : Nat) : List UInt8 := (List.range n).map fun t => key.ref (j + t)

theorem Key.window_succ (key : Key) (n j : Nat) : key.window (n + 1) j = key.ref j :: key.window n (j + 1) := by
  simp [Key.window, List.range_succ_eq_map, Nat.add_comm, Nat.add_left_comm, Function.comp_def]

theorem loadMask_eq (n j shift m : Nat) (h : m < 2 ^ shift) :
    loadMask key n j shift m = m + 2 ^ shift * leValue (key.window n j) := by
  induction n generalizing j shift m with
  | zero => simp [loadMask, Key.window, leValue]
  | succ n ih =>
    have hb : (key.ref j).toNat < 256 := (key.ref j).toNat_lt
    have hlt : m + 2 ^ shift * (key.ref j).toNat < 2 ^ (shift + 8) := by
      have hle : 2 ^ shift * (key.ref j).toNat ≤ 2 ^ shift * 255 := Nat.mul_le_mul_left _ (by omega)
      rw [Nat.pow_add]
      omega
    rw [loadMask, or_shift h, ih _ _ _ hlt, Key.window_succ, leValue, Nat.pow_add]
    rw [Nat.mul_add, Nat.add_assoc, Nat.mul_assoc]

/-- A word is masked byte by byte. -/
theorem leSet_masked {k : Nat} (hi : start ≤ i) (hj : j % 4 = (i - start) % 4) (hk : i + k ≤ bv.length) :
    Masked key start i (i + k) bv (leSet k bv i (leRef k bv i ^^^ loadMask key k j 0 0)) := by
  have hlen : ((bv.drop i).take k).length = k := by
    simp
    omega
  have hx : leRef k bv i ^^^ loadMask key k j 0 0 =
      leValue (List.zipWith (· ^^^ ·) ((bv.drop i).take k) (key.window k j)) := by
    rw [loadMask_eq k j 0 0 (by decide), leRef]
    rw [← leValue_xor (by rw [hlen]; simp [Key.window])]
    simp
  have hz : (List.zipWith (· ^^^ ·) ((bv.drop i).take k) (key.window k j)).length = k := by
    simp [Key.window]
    omega
  have hb := leBytes_leValue (List.zipWith (· ^^^ ·) ((bv.drop i).take k) (key.window k j))
  rw [hz] at hb
  rw [leSet, hx, hb]
  intro p
  by_cases h1 : p < i
  · rw [if_neg (by omega), List.getElem?_append_left (by simp; omega), List.getElem?_take_of_lt h1]
  · rw [List.getElem?_append_right (by simp; omega)]
    have hti : (bv.take i).length = i := by
      simp
      omega
    rw [hti]
    by_cases h2 : p < i + k
    · rw [if_pos ⟨by omega, h2⟩, List.getElem?_append_left (by omega)]
      rw [List.getElem?_zipWith, List.getElem?_take_of_lt (by omega), List.getElem?_drop]
      rw [show i + (p - i) = p from by omega]
      have hw : (key.window k j)[p - i]? = some (key.ref (j + (p - i))) := by
        simp [Key.window, List.getElem?_range (show p - i < k by omega)]
      rw [hw, key.ref_mod (show (j + (p - i)) % 4 = (p - start) % 4 by omega)]
      cases bv[p]? <;> rfl
    · rw [if_neg (by omega), List.getElem?_append_right (by omega), hz, List.getElem?_drop]
      rw [show i + k + (p - i - k) = p from by omega]

theorem maskWord_masked (hi : start ≤ i) (hj : j % 4 = (i - start) % 4) (hk : i + 4 ≤ bv.length) :
    Masked key start i (i + 4) bv (maskWord fixnumWidth key j i bv) := by
  unfold maskWord
  split
  · exact leSet_masked hi hj hk
  · have hlow : Masked key start i (i + 3) bv (leSet 3 bv i (leRef 3 bv i ^^^ loadMask key 3 j 0 0)) :=
      leSet_masked hi hj (by omega)
    exact hlow.trans (xorByte_masked (by omega)) (by omega) (by omega)

theorem maskWords_masked (hi : start ≤ i) (hj : j % 4 = (i - start) % 4) (hk : i + 4 * n ≤ bv.length) :
    Masked key start i (i + 4 * n) bv (maskWords fixnumWidth key j n i bv) := by
  induction n generalizing i bv with
  | zero => exact .refl
  | succ n ih =>
    have hstep : Masked key start i (i + 4) bv (maskWord fixnumWidth key j i bv) := maskWord_masked hi hj (by omega)
    have hrest := @ih (maskWord fixnumWidth key j i bv) (i + 4) (by omega) (by omega) (by rw [hstep.length]; omega)
    rw [show i + 4 + 4 * n = i + 4 * (n + 1) from by omega] at hrest
    exact hstep.trans hrest (by omega) (by omega)

theorem boundary_spec (i : Nat) : i ≤ boundary i ∧ boundary i < i + 4 ∧ boundary i % 4 = 0 := by
  unfold boundary
  omega

theorem maskBytevector_masked (start n : Nat) (h : start + n ≤ bv.length) :
    Masked key start start (start + n) bv (maskBytevector fixnumWidth bv start n key) := by
  unfold maskBytevector
  obtain ⟨hb1, hb2, hb3⟩ := boundary_spec start
  by_cases hn : n = 0
  · subst hn
    simp only [Nat.add_zero, Nat.lt_irrefl, false_and, if_false]
    exact .refl
  · dsimp only
    rw [if_pos ⟨by omega, h⟩]
    generalize he1 : min (boundary start) (start + n) = end1
    generalize he2 : 4 * ((start + n) / 4) = end2
    have hfirst : Masked key start start end1 bv (xorRange key (end1 - start) start 0 bv) := by
      have hx : Masked key start start (start + (end1 - start)) bv (xorRange key (end1 - start) start 0 bv) :=
        xorRange_masked (Nat.le_refl start) (by omega)
      rwa [show start + (end1 - start) = end1 from by omega] at hx
    by_cases h2 : end1 ≤ end2
    · rw [if_pos h2]
      -- the words begin on a boundary
      have hend1 : end1 = boundary start := by omega
      have hwords : Masked key start end1 end2 (xorRange key (end1 - start) start 0 bv)
          (if end2 ≤ end1 then xorRange key (end1 - start) start 0 bv
            else maskWords fixnumWidth key (end1 - start) ((end2 - end1 + 3) / 4) end1
              (xorRange key (end1 - start) start 0 bv)) := by
        split
        · have : end1 = end2 := by omega
          subst this
          exact .refl
        · have hcount : end1 + 4 * ((end2 - end1 + 3) / 4) = end2 := by omega
          have hfits : end1 + 4 * ((end2 - end1 + 3) / 4) ≤ (xorRange key (end1 - start) start 0 bv).length := by
            rw [hfirst.length]
            omega
          have hm := @maskWords_masked fixnumWidth key _ start end1 (end1 - start) _ (by omega) rfl hfits
          rwa [hcount] at hm
      have hlast : ∀ bv', Masked key start end2 (start + n) bv' (xorRange key (start + n - end2) end2 (end1 - start) bv') := by
        intro bv'
        have hx : Masked key start end2 (end2 + (start + n - end2)) bv'
            (xorRange key (start + n - end2) end2 (end1 - start) bv') := xorRange_masked (by omega) (by omega)
        rwa [show end2 + (start + n - end2) = start + n from by omega] at hx
      exact (hfirst.trans hwords (by omega) h2).trans (hlast _) (by omega) (by omega)
    · rw [if_neg h2, if_pos (by omega)]
      have : end1 = start + n := by omega
      rw [← this]
      exact hfirst

end Swish.WebSocket
