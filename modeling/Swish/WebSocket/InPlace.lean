import Swish.WebSocket.Mask

/-!
mask-bytevector! with unchecked primitives: none of its accesses is out of the range that it is to
mask, and its loops end where they are to end.
-/

set_option autoImplicit false

namespace Swish.WebSocket

variable {fixnumWidth : Nat} {key : Key} {bv : List UInt8} {lo hi i j n : Nat}

/-- xor-range! as a loop that ends at an equal index. It fails at a byte that is not in the range
from lo to hi. -/
def xorRangeIn (lo hi : Nat) (key : Key) (stop i j : Nat) (bv : List UInt8) : Option (List UInt8) :=
  if i = stop then some bv
  else if lo ≤ i ∧ i < hi then xorRangeIn lo hi key stop (i + 1) (j + 1) (xorByte i (key.ref j) bv)
  else none
termination_by hi - i

/-- The loop over words. The accesses to a word are to its four bytes on either path. -/
def maskWordsIn (lo hi fixnumWidth : Nat) (key : Key) (mask2Start end2 i : Nat) (bv : List UInt8) :
    Option (List UInt8) :=
  if end2 ≤ i then some bv
  else if lo ≤ i ∧ i + 4 ≤ hi then
    maskWordsIn lo hi fixnumWidth key mask2Start end2 (i + 4) (maskWord fixnumWidth key mask2Start i bv)
  else none
termination_by hi - i

/-- mask-bytevector! with a check of each access. -/
def maskBytevectorIn (fixnumWidth : Nat) (payload : List UInt8) (start payloadLen : Nat) (key : Key) :
    Option (List UInt8) :=
  let end0 := start + payloadLen
  let end1 := min (boundary start) end0
  let end2 := 4 * (end0 / 4)
  let mask2Start := end1 - start
  if start < end0 ∧ end0 ≤ payload.length then
    (xorRangeIn start end0 key end1 start 0 payload).bind fun payload =>
      (if end2 ≤ end1 then some payload
        else maskWordsIn start end0 fixnumWidth key mask2Start end2 end1 payload).bind fun payload =>
          if end1 ≤ end2 then xorRangeIn start end0 key end0 end2 mask2Start payload else some payload
  else some payload

theorem xorRangeIn_eq (hlo : lo ≤ i) (hhi : i + n ≤ hi) :
    xorRangeIn lo hi key (i + n) i j bv = some (xorRange key n i j bv) := by
  induction n generalizing i j bv with
  | zero =>
    rw [xorRangeIn, if_pos (by omega)]
    rfl
  | succ n ih =>
    have hne : i ≠ i + (n + 1) := by omega
    have hin : lo ≤ i ∧ i < hi := ⟨hlo, by omega⟩
    have hto : i + (n + 1) = i + 1 + n := by omega
    rw [xorRangeIn, if_neg hne, if_pos hin, hto]
    exact ih (by omega) (by omega)

theorem maskWordsIn_eq (hlo : lo ≤ i) (hhi : i + 4 * n ≤ hi) :
    maskWordsIn lo hi fixnumWidth key j (i + 4 * n) i bv = some (maskWords fixnumWidth key j n i bv) := by
  induction n generalizing i bv with
  | zero =>
    rw [maskWordsIn, if_pos (by omega)]
    rfl
  | succ n ih =>
    have hlt : ¬i + 4 * (n + 1) ≤ i := by omega
    have hin : lo ≤ i ∧ i + 4 ≤ hi := ⟨hlo, by omega⟩
    have hto : i + 4 * (n + 1) = i + 4 + 4 * n := by omega
    rw [maskWordsIn, if_neg hlt, if_pos hin, hto]
    exact ih (by omega) (by omega)

/-- No access is out of range. -/
theorem maskBytevectorIn_eq (fixnumWidth : Nat) (payload : List UInt8) (start n : Nat) (key : Key) :
    maskBytevectorIn fixnumWidth payload start n key = some (maskBytevector fixnumWidth payload start n key) := by
  obtain ⟨hb1, hb2, hb3⟩ := boundary_spec start
  unfold maskBytevectorIn maskBytevector
  dsimp only
  by_cases hguard : start < start + n ∧ start + n ≤ payload.length
  · rw [if_pos hguard, if_pos hguard]
    generalize he1 : min (boundary start) (start + n) = end1
    generalize he2 : 4 * ((start + n) / 4) = end2
    have hfirst : xorRangeIn start (start + n) key end1 start 0 payload =
        some (xorRange key (end1 - start) start 0 payload) := by
      have hx : xorRangeIn start (start + n) key (start + (end1 - start)) start 0 payload = _ :=
        xorRangeIn_eq (Nat.le_refl start) (by omega)
      rwa [show start + (end1 - start) = end1 from by omega] at hx
    rw [hfirst, Option.bind_some]
    -- the words are a whole number of strides
    have hwords : ∀ bv, end1 < end2 →
        maskWordsIn start (start + n) fixnumWidth key (end1 - start) end2 end1 bv =
          some (maskWords fixnumWidth key (end1 - start) ((end2 - end1 + 3) / 4) end1 bv) := by
      intro bv hlt
      have hcount : end1 + 4 * ((end2 - end1 + 3) / 4) = end2 := by omega
      have hx : maskWordsIn start (start + n) fixnumWidth key (end1 - start)
          (end1 + 4 * ((end2 - end1 + 3) / 4)) end1 bv = _ := maskWordsIn_eq (by omega) (by omega)
      rwa [hcount] at hx
    have hlast : ∀ bv, end1 ≤ end2 → xorRangeIn start (start + n) key (start + n) end2 (end1 - start) bv =
        some (xorRange key (start + n - end2) end2 (end1 - start) bv) := by
      intro bv hle
      have hx : xorRangeIn start (start + n) key (end2 + (start + n - end2)) end2 (end1 - start) bv = _ :=
        xorRangeIn_eq (by omega) (by omega)
      rwa [show end2 + (start + n - end2) = start + n from by omega] at hx
    by_cases h2 : end2 ≤ end1
    · rw [if_pos h2, if_pos h2, Option.bind_some]
      by_cases h1 : end1 ≤ end2
      · rw [if_pos h1, if_pos h1, hlast _ h1]
      · rw [if_neg h1, if_neg h1]
    · rw [if_neg h2, if_neg h2, hwords _ (by omega), Option.bind_some]
      rw [if_pos (by omega), if_pos (by omega), hlast _ (by omega)]
  · rw [if_neg hguard, if_neg hguard]

theorem Masked.unique {start : Nat} {bv' bv'' : List UInt8} (h : Masked key start lo hi bv bv')
    (h' : Masked key start lo hi bv bv'') : bv' = bv'' :=
  List.ext_getElem? fun p => (h p).trans (h' p).symm

theorem Masked.involutive {start : Nat} {bv' bv'' : List UInt8} (h : Masked key start lo hi bv bv')
    (h' : Masked key start lo hi bv' bv'') : bv'' = bv := by
  refine List.ext_getElem? fun p => ?_
  rw [h' p, h p]
  by_cases hp : lo ≤ p ∧ p < hi
  · rw [if_pos hp, if_pos hp]
    cases hb : bv[p]? with
    | none => rfl
    | some b =>
      rw [Option.map_some, Option.map_some, UInt8.xor_assoc, UInt8.xor_self, UInt8.xor_zero]
  · rw [if_neg hp, if_neg hp]

/-- mask-bytevector! masks each byte of the range with its byte of the key, and no other byte, with
words of 32 and of 24 bits alike. Doing it again undoes it. -/
theorem mask_in_place (fixnumWidth : Nat) (payload : List UInt8) (start n : Nat) (key : Key)
    (h : start + n ≤ payload.length) :
    maskBytevectorIn fixnumWidth payload start n key = some (maskBytevector fixnumWidth payload start n key) ∧
    (∀ p, (maskBytevector fixnumWidth payload start n key)[p]? =
      if start ≤ p ∧ p < start + n then payload[p]?.map (· ^^^ key.ref (p - start)) else payload[p]?) ∧
    (∀ fixnumWidth', maskBytevector fixnumWidth payload start n key = maskBytevector fixnumWidth' payload start n key) ∧
    maskBytevector fixnumWidth (maskBytevector fixnumWidth payload start n key) start n key = payload := by
  have hmasked : ∀ fixnumWidth', Masked key start start (start + n) payload
      (maskBytevector fixnumWidth' payload start n key) := fun _ => maskBytevector_masked start n h
  have hagain : Masked key start start (start + n) (maskBytevector fixnumWidth payload start n key)
      (maskBytevector fixnumWidth (maskBytevector fixnumWidth payload start n key) start n key) :=
    maskBytevector_masked start n ((hmasked fixnumWidth).length.symm ▸ h)
  exact ⟨maskBytevectorIn_eq fixnumWidth payload start n key, hmasked fixnumWidth,
    fun _ => (hmasked fixnumWidth).unique (hmasked _), (hmasked fixnumWidth).involutive hagain⟩

/-- A range that begins and ends in the middle of a word. -/
theorem mask_in_place_inside :
    maskBytevectorIn 61 [1, 2, 3, 4, 5, 6] 1 4 ⟨[16, 32, 64, 128], rfl⟩ =
      some (maskBytevector 61 [1, 2, 3, 4, 5, 6] 1 4 ⟨[16, 32, 64, 128], rfl⟩) :=
  (mask_in_place 61 [1, 2, 3, 4, 5, 6] 1 4 ⟨[16, 32, 64, 128], rfl⟩ (by decide)).1

end Swish.WebSocket
