import Mathlib.Algebra.Group.Nat.Defs
import Mathlib.Data.List.Basic

/-!
The function osi_string_to_utf8 of osi.c. It measures the string, allocates a block,
and writes the block. A write outside of the block has no result.
-/

set_option autoImplicit false

namespace Swish.Osi

/-- The bits of size_t and of fixnums. Fixnums have tags. -/
structure Machine where
  sizeWidth : Nat
  fixnumWidth : Nat
  tagged : fixnumWidth + 2 ≤ sizeWidth

/-- A Scheme string. Its length is a fixnum. -/
structure SchemeString (m : Machine) where
  chars : List Char
  length_lt : chars.length < 2 ^ (m.fixnumWidth - 1)

/-- A sum of type size_t. -/
def addSize (m : Machine) (a b : Nat) : Nat := (a + b) % 2 ^ m.sizeWidth

/-- What the first loop adds for a character. -/
def byteCount (c : UInt32) : Nat :=
  if c < 0x80 then 1
  else if c < 0x800 then 2
  else if c < 0x10000 then 3
  else 4

def byteLength (m : Machine) (chars : List Char) : Nat :=
  chars.foldl (fun len c => addSize m len (byteCount c.val)) 0

/-- A block of memory, and the offsets written so far. -/
structure Block where
  bytes : List UInt8
  stores : List Nat

def Block.store (b : Block) (offset : Nat) (v : UInt8) : Option Block :=
  if offset < b.bytes.length then some ⟨b.bytes.set offset v, b.stores ++ [offset]⟩ else none

/-- The block and the pointer utf8, as an offset. -/
structure Output where
  block : Block
  utf8 : Nat

/-- The assignment `*utf8++ = v`, when the value has been converted to a byte. -/
def Output.put (o : Output) (v : UInt8) : Option Output :=
  (o.block.store o.utf8 v).map fun b => ⟨b, o.utf8 + 1⟩

/-- One round of the second loop. -/
def writeChar (o : Output) (c : UInt32) : Option Output :=
  if c < 0x80 then o.put c.toUInt8
  else if c < 0x800 then do
    let o ← o.put ((c >>> 6) ||| 0xC0).toUInt8
    o.put ((c &&& 0x3F) ||| 0x80).toUInt8
  else if c < 0x10000 then do
    let o ← o.put ((c >>> 12) ||| 0xE0).toUInt8
    let o ← o.put (((c >>> 6) &&& 0x3F) ||| 0x80).toUInt8
    o.put ((c &&& 0x3F) ||| 0x80).toUInt8
  else do
    let o ← o.put ((c >>> 18) ||| 0xF0).toUInt8
    let o ← o.put (((c >>> 12) &&& 0x3F) ||| 0x80).toUInt8
    let o ← o.put (((c >>> 6) &&& 0x3F) ||| 0x80).toUInt8
    o.put ((c &&& 0x3F) ||| 0x80).toUInt8

/-- The function malloc. It gives a block of the size asked for, with any contents, or NULL. -/
structure Malloc where
  alloc : Nat → Option (List UInt8)
  length_eq : ∀ size bytes, alloc size = some bytes → bytes.length = size

/-- The value returned, and what is stored in utf8_len. -/
structure Result where
  result : Option Block
  utf8Len : Nat

def stringToUtf8 (m : Machine) (malloc : Malloc) (s : SchemeString m) : Option Result :=
  let len := byteLength m s.chars
  match malloc.alloc (addSize m len 1) with
  | none => some ⟨none, 0⟩
  | some bytes => do
    let o ← s.chars.foldlM (fun o c => writeChar o c.val) ⟨⟨bytes, []⟩, 0⟩
    let b ← o.block.store o.utf8 0
    some ⟨some b, len⟩

section

variable {m : Machine}

/-- The bytes of a character, as the second loop computes them. -/
def charBytes (c : UInt32) : List UInt8 :=
  if c < 0x80 then [c.toUInt8]
  else if c < 0x800 then [((c >>> 6) ||| 0xC0).toUInt8, ((c &&& 0x3F) ||| 0x80).toUInt8]
  else if c < 0x10000 then
    [((c >>> 12) ||| 0xE0).toUInt8, (((c >>> 6) &&& 0x3F) ||| 0x80).toUInt8, ((c &&& 0x3F) ||| 0x80).toUInt8]
  else
    [((c >>> 18) ||| 0xF0).toUInt8, (((c >>> 12) &&& 0x3F) ||| 0x80).toUInt8,
      (((c >>> 6) &&& 0x3F) ||| 0x80).toUInt8, ((c &&& 0x3F) ||| 0x80).toUInt8]

/-- The two loops agree on each character. -/
theorem length_charBytes (c : UInt32) : (charBytes c).length = byteCount c := by
  unfold charBytes byteCount
  split
  · rfl
  · split
    · rfl
    · split <;> rfl

theorem byteCount_le (c : UInt32) : byteCount c ≤ 4 := by
  unfold byteCount
  split
  · decide
  · split
    · decide
    · split <;> decide

/-- A mask changes nothing in a byte that it covers. -/
theorem and_mask {x b : UInt8} {k : Nat} (hb : b.toNat = 2 ^ k - 1) (hx : x.toNat < 2 ^ k) : x &&& b = x := by
  rw [← UInt8.toNat_inj, UInt8.toNat_and, hb, Nat.and_two_pow_sub_one_eq_mod, Nat.mod_eq_of_lt hx]

/-- The bits of a character from a position on, as a byte. -/
theorem toNat_lead {v n : UInt32} {k : Nat} (hn : n.toNat < 32) (hk : 2 ^ k ≤ 256) (h : v.toNat < 2 ^ n.toNat * 2 ^ k) :
    (v >>> n).toUInt8.toNat < 2 ^ k := by
  have hlt : v.toNat / 2 ^ n.toNat < 2 ^ k := Nat.div_lt_of_lt_mul h
  rw [UInt32.toNat_toUInt8, UInt32.toNat_shiftRight, Nat.mod_eq_of_lt hn, Nat.shiftRight_eq_div_pow,
    Nat.mod_eq_of_lt (Nat.lt_of_lt_of_le hlt hk)]
  exact hlt

theorem toNat_val_lt (c : Char) : c.val.toNat < 0x110000 := by
  have hc := c.valid
  simp only [UInt32.isValidChar, Nat.isValidChar] at hc
  omega

/-- The bytes are those of UTF-8. Only the first has bits that no mask is applied to. -/
theorem charBytes_eq (c : Char) : charBytes c.val = String.utf8EncodeChar c := by
  rw [String.utf8EncodeChar_eq_utf8EncodeCharFast]
  have hc := toNat_val_lt c
  have h1 : c.val < 0x80 ↔ c.val ≤ 0x7f := by
    rw [UInt32.lt_iff_toNat_lt, UInt32.le_iff_toNat_le]
    exact Nat.lt_succ_iff
  have h2 : c.val < 0x800 ↔ c.val ≤ 0x7ff := by
    rw [UInt32.lt_iff_toNat_lt, UInt32.le_iff_toNat_le]
    exact Nat.lt_succ_iff
  have h3 : c.val < 0x10000 ↔ c.val ≤ 0xffff := by
    rw [UInt32.lt_iff_toNat_lt, UInt32.le_iff_toNat_le]
    exact Nat.lt_succ_iff
  unfold charBytes String.utf8EncodeCharFast
  simp only [h1, h2, h3, UInt32.toUInt8_or, UInt32.toUInt8_and]
  split
  · rfl
  · split
    · next h =>
      have hlead : (c.val >>> 6).toUInt8.toNat < 2 ^ 5 :=
        toNat_lead (by decide) (by decide) (Nat.lt_of_le_of_lt (UInt32.le_iff_toNat_le.mp h) (by decide))
      rw [and_mask (b := 0x1f) rfl hlead]
      rfl
    · split
      · next h =>
        have hlead : (c.val >>> 12).toUInt8.toNat < 2 ^ 4 :=
          toNat_lead (by decide) (by decide) (Nat.lt_of_le_of_lt (UInt32.le_iff_toNat_le.mp h) (by decide))
        rw [and_mask (b := 0x0f) rfl hlead]
        rfl
      · have hlead : (c.val >>> 18).toUInt8.toNat < 2 ^ 3 :=
          toNat_lead (by decide) (by decide) (Nat.lt_of_lt_of_le hc (by decide))
        rw [and_mask (b := 0x07) rfl hlead]
        rfl

theorem flatMap_charBytes (chars : List Char) :
    chars.flatMap (fun c => charBytes c.val) = chars.flatMap String.utf8EncodeChar := by
  rw [funext charBytes_eq]

/-- The first loop does not overflow, and neither does the size of the block. -/
theorem byteLength_eq (s : SchemeString m) :
    byteLength m s.chars = (s.chars.flatMap fun c => charBytes c.val).length ∧
      addSize m (byteLength m s.chars) 1 = (s.chars.flatMap fun c => charBytes c.val).length + 1 := by
  have hbound (chars : List Char) : (chars.flatMap fun c => charBytes c.val).length ≤ 4 * chars.length := by
    induction chars with
    | nil => exact Nat.le_refl 0
    | cons c chars ih =>
      have hc := byteCount_le c.val
      rw [← length_charBytes] at hc
      rw [List.flatMap_cons, List.length_append, List.length_cons]
      omega
  have hfold (chars : List Char) (len : Nat)
      (hlt : len + (chars.flatMap fun c => charBytes c.val).length < 2 ^ m.sizeWidth) :
      chars.foldl (fun len c => addSize m len (byteCount c.val)) len =
        len + (chars.flatMap fun c => charBytes c.val).length := by
    induction chars generalizing len with
    | nil => rfl
    | cons c chars ih =>
      rw [List.flatMap_cons, List.length_append, length_charBytes] at hlt ⊢
      have hadd : addSize m len (byteCount c.val) = len + byteCount c.val := Nat.mod_eq_of_lt (by omega)
      rw [List.foldl_cons, hadd, ih _ (by omega)]
      omega
  have hsize : 4 * s.chars.length + 1 < 2 ^ m.sizeWidth := by
    have hchars := s.length_lt
    have hpow : 2 ^ (m.fixnumWidth - 1) * 2 ^ 2 ≤ 2 ^ m.sizeWidth := by
      rw [← Nat.pow_add]
      exact Nat.pow_le_pow_right (by decide) (by have := m.tagged; omega)
    omega
  have hlen : byteLength m s.chars = (s.chars.flatMap fun c => charBytes c.val).length := by
    rw [byteLength, hfold _ 0 (by have := hbound s.chars; omega), Nat.zero_add]
  refine ⟨hlen, ?_⟩
  rw [hlen]
  exact Nat.mod_eq_of_lt (by have := hbound s.chars; omega)

theorem writeChar_eq (o : Output) (c : UInt32) : writeChar o c = (charBytes c).foldlM Output.put o := by
  unfold writeChar charBytes
  split
  · simp
  · split
    · simp
    · split
      · simp
      · simp

theorem writeChars_eq (chars : List Char) (o : Output) :
    chars.foldlM (fun o c => writeChar o c.val) o = (chars.flatMap fun c => charBytes c.val).foldlM Output.put o := by
  induction chars generalizing o with
  | nil => rfl
  | cons c chars ih =>
    rw [List.foldlM_cons, List.flatMap_cons, List.foldlM_append, writeChar_eq]
    exact congrArg _ (funext ih)

/-- The bytes are at the start of a block of the size, and each offset was written once, in order. -/
structure Filled (size : Nat) (bytes : List UInt8) (o : Output) : Prop where
  length : o.block.bytes.length = size
  start : o.block.bytes.take bytes.length = bytes
  stores : o.block.stores = List.range bytes.length
  utf8 : o.utf8 = bytes.length

namespace Filled

variable {size : Nat} {bytes : List UInt8} {o : Output}

/-- A write at the pointer, which is in the block. -/
theorem store (h : Filled size bytes o) (hlt : bytes.length < size) (v : UInt8) :
    ∃ b, o.block.store o.utf8 v = some b ∧ Filled size (bytes ++ [v]) ⟨b, o.utf8 + 1⟩ := by
  have hin : o.utf8 < o.block.bytes.length := by
    rw [h.length, h.utf8]
    exact hlt
  refine ⟨_, if_pos hin, ?_, ?_, ?_, ?_⟩
  · rw [List.length_set, h.length]
  · have hset : (o.block.bytes.set bytes.length v)[bytes.length]? = some v :=
      List.getElem?_set_self (by rw [h.length]; exact hlt)
    rw [h.utf8, List.length_append, List.length_singleton, List.take_add_one, hset,
      List.take_set_of_le (Nat.le_refl _), h.start]
    rfl
  · rw [h.stores, h.utf8, List.length_append, List.length_singleton, List.range_succ]
  · rw [h.utf8, List.length_append, List.length_singleton]

theorem put (h : Filled size bytes o) (hlt : bytes.length < size) (v : UInt8) :
    ∃ o', o.put v = some o' ∧ Filled size (bytes ++ [v]) o' := by
  obtain ⟨b, hb, hfilled⟩ := h.store hlt v
  exact ⟨_, by rw [Output.put, hb]; rfl, hfilled⟩

theorem run (h : Filled size bytes o) (more : List UInt8) (hle : bytes.length + more.length ≤ size) :
    ∃ o', more.foldlM Output.put o = some o' ∧ Filled size (bytes ++ more) o' := by
  induction more generalizing bytes o with
  | nil => exact ⟨o, rfl, by simpa using h⟩
  | cons v more ih =>
    rw [List.length_cons] at hle
    obtain ⟨o', ho', hfilled⟩ := h.put (by omega) v
    obtain ⟨o'', ho'', hfilled⟩ := ih hfilled (by rw [List.length_append, List.length_singleton]; omega)
    refine ⟨o'', ?_, by simpa using hfilled⟩
    rw [List.foldlM_cons, ho']
    exact ho''

end Filled

/-- The second loop and the zero after it, in a block of the size computed. -/
theorem write_block {chars : List Char} {block : List UInt8}
    (h : block.length = (chars.flatMap String.utf8EncodeChar).length + 1) :
    ∃ o b, chars.foldlM (fun o c => writeChar o c.val) ⟨⟨block, []⟩, 0⟩ = some o ∧ o.block.store o.utf8 0 = some b ∧
      b = ⟨chars.flatMap String.utf8EncodeChar ++ [0],
        List.range ((chars.flatMap String.utf8EncodeChar).length + 1)⟩ := by
  have hempty : Filled ((chars.flatMap String.utf8EncodeChar).length + 1) [] ⟨⟨block, []⟩, 0⟩ := ⟨h, rfl, rfl, rfl⟩
  obtain ⟨o, ho, hfilled⟩ := hempty.run (chars.flatMap String.utf8EncodeChar) (by simp)
  obtain ⟨b, hb, hfull⟩ := hfilled.store (by simp) 0
  refine ⟨o, b, ?_, hb, ?_⟩
  · rw [writeChars_eq, flatMap_charBytes]
    exact ho
  · obtain ⟨bytes, stores⟩ := b
    have hlen := hfull.length
    have hstart := hfull.start
    have hstores := hfull.stores
    simp only [List.nil_append, List.length_append, List.length_singleton] at hlen hstart hstores
    rw [← hlen, List.take_length] at hstart
    rw [hstart, hstores]

/-- Every byte of the block is written once, with the encoding of the string and a zero. -/
theorem stringToUtf8_encodes (m : Machine) (malloc : Malloc) (s : SchemeString m) :
    ∃ r, stringToUtf8 m malloc s = some r ∧
      (malloc.alloc (s.chars.utf8Encode.size + 1) = none → r = ⟨none, 0⟩) ∧
      (malloc.alloc (s.chars.utf8Encode.size + 1) ≠ none →
        r = ⟨some ⟨s.chars.utf8Encode.data.toList ++ [0], List.range (s.chars.utf8Encode.size + 1)⟩,
          s.chars.utf8Encode.size⟩) ∧
      s.chars.utf8Encode.utf8Decode? = some s.chars.toArray := by
  obtain ⟨hlen, hsize⟩ := byteLength_eq s
  rw [flatMap_charBytes] at hlen hsize
  have hbytes : s.chars.utf8Encode.data.toList = s.chars.flatMap String.utf8EncodeChar := List.toList_data_toByteArray
  have hcount : s.chars.utf8Encode.size = (s.chars.flatMap String.utf8EncodeChar).length := List.size_toByteArray
  rw [hbytes, hcount, stringToUtf8, hsize, hlen]
  cases hm : malloc.alloc ((s.chars.flatMap String.utf8EncodeChar).length + 1) with
  | none => exact ⟨_, rfl, fun _ => rfl, fun h => absurd rfl h, List.utf8Decode?_utf8Encode⟩
  | some block =>
    obtain ⟨o, b, ho, hb, rfl⟩ := write_block (malloc.length_eq _ block hm)
    refine ⟨_, ?_, fun h => (by cases h), fun _ => rfl, List.utf8Decode?_utf8Encode⟩
    simp only [ho, Option.bind_eq_bind, Option.bind_some, hb]

end

end Swish.Osi
