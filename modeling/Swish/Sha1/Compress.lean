import Mathlib.Data.List.GetD
import Mathlib.Data.List.Induction
import Mathlib.Tactic.Ring
import Swish.Sha1.Context

/-!
The code compresses a block as the standard does.
-/

set_option autoImplicit false

namespace Swish.Sha1

open Swish.Lib

theorem rotl_one (x : UInt32) : rotl 1 x = Standard.rotl 1 x := by
  apply UInt32.toBitVec_inj.mp
  simp [rotl, Standard.rotl, BitVec.rotateLeft_def]

theorem rotl_five (x : UInt32) : rotl 5 x = Standard.rotl 5 x := by
  apply UInt32.toBitVec_inj.mp
  simp [rotl, Standard.rotl, BitVec.rotateLeft_def]

theorem rotl_thirty (x : UInt32) : rotl 30 x = Standard.rotl 30 x := by
  apply UInt32.toBitVec_inj.mp
  simp [rotl, Standard.rotl, BitVec.rotateLeft_def]

theorem ofBits_append (xs ys : List Bool) : ofBits (xs ++ ys) = ofBits xs * 2 ^ ys.length + ofBits ys := by
  induction ys using List.reverseRecOn with
  | nil => simp [ofBits]
  | append_singleton ys y ih =>
    rw [← List.append_assoc, ofBits_concat, ofBits_concat, ih, List.length_append, List.length_singleton,
      Nat.pow_succ]
    ring

theorem ofBits_bytesBits_append (bs : List UInt8) (b : UInt8) :
    ofBits (bytesBits (bs ++ [b])) = ofBits (bytesBits bs) * 256 + b.toNat := by
  have hb : ofBits (bits 8 b.toNat) = b.toNat := ofBits_bits b.toNat_lt
  rw [bytesBits_append, ofBits_append]
  simp [hb]

/-- Four bytes as a word. -/
theorem bigEndian (b0 b1 b2 b3 : UInt8) :
    b0.toUInt32 <<< 24 ||| b1.toUInt32 <<< 16 ||| b2.toUInt32 <<< 8 ||| b3.toUInt32 =
      UInt32.ofNat (ofBits (bytesBits [b0, b1, b2, b3])) := by
  have h0 := b0.toNat_lt
  have h1 := b1.toNat_lt
  have h2 := b2.toNat_lt
  have h3 := b3.toNat_lt
  have hvalue : ofBits (bytesBits [b0, b1, b2, b3]) =
      ((b0.toNat * 256 + b1.toNat) * 256 + b2.toNat) * 256 + b3.toNat := by
    rw [show [b0, b1, b2, b3] = [] ++ [b0] ++ [b1] ++ [b2] ++ [b3] from rfl]
    have hnil : ofBits (bytesBits []) = 0 := rfl
    simp only [ofBits_bytesBits_append, hnil, Nat.zero_mul, Nat.zero_add]
  have hfirst : b0.toNat <<< 24 ||| b1.toNat <<< 16 = (b0.toNat * 256 + b1.toNat) <<< 16 := by
    rw [← Nat.shiftLeft_add_eq_or_of_lt (by rw [Nat.shiftLeft_eq]; omega)]
    simp only [Nat.shiftLeft_eq]
    omega
  have hsecond : (b0.toNat * 256 + b1.toNat) <<< 16 ||| b2.toNat <<< 8 =
      ((b0.toNat * 256 + b1.toNat) * 256 + b2.toNat) <<< 8 := by
    rw [← Nat.shiftLeft_add_eq_or_of_lt (by rw [Nat.shiftLeft_eq]; omega)]
    simp only [Nat.shiftLeft_eq]
    omega
  have hthird : ((b0.toNat * 256 + b1.toNat) * 256 + b2.toNat) <<< 8 ||| b3.toNat =
      ((b0.toNat * 256 + b1.toNat) * 256 + b2.toNat) * 256 + b3.toNat := by
    rw [← Nat.shiftLeft_add_eq_or_of_lt (by omega), Nat.shiftLeft_eq]
  apply UInt32.toNat_inj.mp
  rw [hvalue, UInt32.toNat_ofNat', Nat.mod_eq_of_lt (by omega), ← hthird, ← hsecond, ← hfirst]
  have e0 : b0.toNat <<< 24 % 4294967296 = b0.toNat <<< 24 := Nat.mod_eq_of_lt (by rw [Nat.shiftLeft_eq]; omega)
  have e1 : b1.toNat <<< 16 % 4294967296 = b1.toNat <<< 16 := Nat.mod_eq_of_lt (by rw [Nat.shiftLeft_eq]; omega)
  have e2 : b2.toNat <<< 8 % 4294967296 = b2.toNat <<< 8 := Nat.mod_eq_of_lt (by rw [Nat.shiftLeft_eq]; omega)
  simp [e0, e1, e2]

/-- The words of a block of bytes. -/
theorem word_bytesBits {bs : List UInt8} {t : Nat} (h : 4 * t + 3 < bs.length) :
    Standard.word (bytesBits bs) t =
      (bs.getD (4 * t) 0).toUInt32 <<< 24 ||| (bs.getD (4 * t + 1) 0).toUInt32 <<< 16 |||
        (bs.getD (4 * t + 2) 0).toUInt32 <<< 8 ||| (bs.getD (4 * t + 3) 0).toUInt32 := by
  have hfour : (bs.drop (4 * t)).take 4 =
      [bs.getD (4 * t) 0, bs.getD (4 * t + 1) 0, bs.getD (4 * t + 2) 0, bs.getD (4 * t + 3) 0] := by
    have h2 : 4 * t + 2 < bs.length := by omega
    have h1 : 4 * t + 1 < bs.length := by omega
    have h0 : 4 * t < bs.length := by omega
    rw [List.drop_eq_getElem_cons h0, List.drop_eq_getElem_cons h1, List.drop_eq_getElem_cons h2,
      List.drop_eq_getElem_cons h]
    rw [List.getD_eq_getElem _ _ h0, List.getD_eq_getElem _ _ h1, List.getD_eq_getElem _ _ h2,
      List.getD_eq_getElem _ _ h]
    rfl
  have hdrop : (bytesBits bs).drop (32 * t) = bytesBits (bs.drop (4 * t)) := by
    rw [← drop_bytesBits]
    congr 1
    omega
  rw [bigEndian, ← hfour, Standard.word, hdrop, ← take_bytesBits]

theorem getD_set (w : List UInt32) (t j : Nat) (x : UInt32) (ht : t < w.length) :
    (w.set t x).getD j 0 = if j = t then x else w.getD j 0 := by
  rw [List.getD_eq_getElem?_getD, List.getElem?_set, List.getD_eq_getElem?_getD]
  by_cases hj : j = t
  · rw [if_pos hj, if_pos hj.symm, if_pos ht]
    rfl
  · rw [if_neg hj, if_neg fun h => hj h.symm]

/-- A loop that fills the array from a on with the values of g. -/
theorem fillWords {g : List UInt32 → Nat → UInt32} {v : Nat → UInt32} (a n : Nat) {w : List UInt32}
    (hlen : a + n ≤ w.length) (hw : ∀ j < a, w.getD j 0 = v j)
    (hg : ∀ t w', a ≤ t → (∀ j < t, w'.getD j 0 = v j) → t < a + n → g w' t = v t) :
    ∀ j < a + n, ((List.range' a n).foldl (fun w t => w.set t (g w t)) w).getD j 0 = v j := by
  induction n generalizing a w with
  | zero => exact hw
  | succ n ih =>
    rw [List.range'_succ, List.foldl_cons, show a + (n + 1) = a + 1 + n by omega]
    refine ih (a + 1) (by simpa using by omega) (fun j hj => ?_)
      fun t w' ht hw' htn => hg t w' (by omega) hw' (by omega)
    rw [getD_set w a j _ (by omega)]
    by_cases hja : j = a
    · rw [if_pos hja, hja]
      exact hg a w (Nat.le_refl a) hw (by omega)
    · rw [if_neg hja]
      exact hw j (by omega)

theorem length_fillWords (g : List UInt32 → Nat → UInt32) (ts : List Nat) (w : List UInt32) :
    (ts.foldl (fun w t => w.set t (g w t)) w).length = w.length := by
  induction ts generalizing w with
  | nil => rfl
  | cons t ts ih => rw [List.foldl_cons, ih, List.length_set]

theorem schedule_eq (block : Vector UInt8 64) (j : Nat) (hj : j < 80) :
    (extendWords (loadWords block (List.replicate 80 0))).getD j 0 =
      Standard.w (Standard.word (bytesBits block.toList)) j := by
  have hlen : (loadWords block (List.replicate 80 0)).length = 80 := by
    rw [loadWords, length_fillWords, List.length_replicate]
  have hload : ∀ j < 0 + 16, (loadWords block (List.replicate 80 0)).getD j 0 =
      Standard.w (Standard.word (bytesBits block.toList)) j := by
    rw [loadWords, List.range_eq_range']
    refine fillWords 0 16 (by simp) (fun j hj => absurd hj (by omega)) fun t w' _ _ ht => ?_
    rw [Standard.w_lt (by omega), word_bytesBits (by simp; omega)]
  refine fillWords 16 64 (by omega) (fun j hj => hload j (by omega)) (fun t w' h16 hw ht => ?_) j hj
  rw [rotl_one, Standard.w_ge h16, hw _ (by omega), hw _ (by omega), hw _ (by omega), hw _ (by omega)]

/-- One of the four loops. -/
theorem rounds_eq {f : UInt32 → UInt32 → UInt32 → UInt32} {k : UInt32} {w : List UInt32} {m : Nat → UInt32} {t : Nat}
    (hf : ∀ s, t ≤ s → s < t + 20 → Standard.f s = f) (hk : ∀ s, t ≤ s → s < t + 20 → Standard.k s = k)
    (hw : ∀ s, t ≤ s → s < t + 20 → w.getD s 0 = Standard.w m s) (v : Words) :
    rounds f k w t v = (List.range' t 20).foldl (Standard.step m) v := by
  unfold rounds
  refine List.foldl_ext _ _ _ fun v s hs => ?_
  rw [List.mem_range'_1] at hs
  rw [Standard.step, hf s hs.1 hs.2, hk s hs.1 hs.2, hw s hs.1 hs.2, rotl_five, rotl_thirty]
  congr 1
  rw [UInt32.add_assoc, UInt32.add_assoc _ k, UInt32.add_comm k]

theorem allRounds_eq {w : List UInt32} {m : Nat → UInt32} (hw : ∀ s < 80, w.getD s 0 = Standard.w m s) (v : Words) :
    allRounds w v = (List.range 80).foldl (Standard.step m) v := by
  have hfirst : ∀ v, rounds ch 0x5A827999 w 0 v = (List.range' 0 20).foldl (Standard.step m) v := by
    refine rounds_eq (fun s _ h => ?_) (fun s _ h => ?_) fun s _ h => hw s (by omega)
    · rw [Standard.f, if_pos (by omega)]
      rfl
    · rw [Standard.k, if_pos (by omega)]
  have hsecond : ∀ v, rounds parity 0x6ED9EBA1 w 20 v = (List.range' 20 20).foldl (Standard.step m) v := by
    refine rounds_eq (fun s h h' => ?_) (fun s h h' => ?_) fun s _ h => hw s (by omega)
    · rw [Standard.f, if_neg (by omega), if_pos (by omega)]
      rfl
    · rw [Standard.k, if_neg (by omega), if_pos (by omega)]
  have hthird : ∀ v, rounds maj 0x8F1BBCDC w 40 v = (List.range' 40 20).foldl (Standard.step m) v := by
    refine rounds_eq (fun s h h' => ?_) (fun s h h' => ?_) fun s _ h => hw s (by omega)
    · rw [Standard.f, if_neg (by omega), if_neg (by omega), if_pos (by omega)]
      rfl
    · rw [Standard.k, if_neg (by omega), if_neg (by omega), if_pos (by omega)]
  have hfourth : ∀ v, rounds parity 0xCA62C1D6 w 60 v = (List.range' 60 20).foldl (Standard.step m) v := by
    refine rounds_eq (fun s h h' => ?_) (fun s h h' => ?_) fun s _ h => hw s (by omega)
    · rw [Standard.f, if_neg (by omega), if_neg (by omega), if_neg (by omega)]
      rfl
    · rw [Standard.k, if_neg (by omega), if_neg (by omega), if_neg (by omega)]
  have hsplit : List.range 80 = ((List.range' 0 20 ++ List.range' 20 20) ++ List.range' 40 20) ++ List.range' 60 20 := by
    rw [List.range_eq_range', List.range'_append_1, List.range'_append_1, List.range'_append_1]
  rw [allRounds, hsplit, List.foldl_append, List.foldl_append, List.foldl_append, hfirst, hsecond, hthird, hfourth]

theorem addWords_eq (h : Vector UInt32 5) (v : Words) : addWords h v = Standard.next h v := by
  rw [addWords, Standard.next, Words.add, Words.add, UInt32.add_comm v.a, UInt32.add_comm v.b, UInt32.add_comm v.c,
    UInt32.add_comm v.d, UInt32.add_comm v.e]

/-- SHA1ProcessMessageBlock computes the compression function of the standard. -/
theorem compressBlock_eq (h : Vector UInt32 5) (block : Vector UInt8 64) :
    compressBlock h block = Standard.compress h (Standard.word (bytesBits block.toList)) := by
  rw [compressBlock, addWords_eq, allRounds_eq (schedule_eq block), Standard.compress]

end Swish.Sha1
