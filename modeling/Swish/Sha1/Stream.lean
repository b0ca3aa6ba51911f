import Swish.Sha1.Compress

/-!
A context stands for the bytes that were put into it, and its result is the digest
of the standard.
-/

set_option autoImplicit false

namespace Swish.Sha1

open Swish.Lib

def compressBytes (h : Vector UInt32 5) (block : List UInt8) : Vector UInt32 5 :=
  Standard.compress h (Standard.word (bytesBits block))

/-- The length in bits. -/
def Context.bitLength (c : Context) : Nat := c.lengthHigh.toNat * 2 ^ 32 + c.lengthLow.toNat

/-- The part of the block that is in use. -/
def Context.live (c : Context) : List UInt8 := c.messageBlock.toList.take c.messageBlockIndex

/-- The bytes m are in the context, and no more. -/
structure Represents (c : Context) (m : List UInt8) : Prop where
  absorbed : absorb compressBytes 64 (Standard.initial, []) m = (c.intermediateHash, c.live)
  index : c.messageBlockIndex < 64
  length : c.bitLength = 8 * m.length
  computed : c.computed = false
  corrupted : c.corrupted = .success

variable {c : Context} {m : List UInt8}

theorem Context.bitLength_lt (c : Context) : c.bitLength < 2 ^ 64 := by
  have hhigh := c.lengthHigh.toNat_lt
  have hlow := c.lengthLow.toNat_lt
  unfold Context.bitLength
  omega

theorem Context.live_length (h : c.messageBlockIndex ≤ 64) : c.live.length = c.messageBlockIndex := by
  rw [Context.live, List.length_take, Vector.length_toList]
  omega

theorem Represents.length_lt (h : Represents c m) : m.length < 2 ^ 61 := by
  have := h.length
  have := c.bitLength_lt
  omega

theorem Represents.index_eq (h : Represents c m) : c.messageBlockIndex = m.length % 64 := by
  have hlen := @absorb_length _ _ compressBytes 64 (by decide) Standard.initial [] m (by decide)
  rw [h.absorbed, List.length_nil, Nat.zero_add] at hlen
  rw [← hlen, Context.live_length (Nat.le_of_lt h.index)]

theorem represents_reset (c : Context) : Represents c.reset [] :=
  ⟨rfl, Nat.zero_lt_succ 63, by simp [Context.bitLength, Context.reset], rfl, rfl⟩

/-! Storing bytes. -/

theorem store_ok (b : UInt8) (h : c.messageBlockIndex < 64) :
    ∃ block, c.store b = some { c with messageBlock := block, messageBlockIndex := c.messageBlockIndex + 1 } ∧
      block.toList.take (c.messageBlockIndex + 1) = c.live ++ [b] := by
  refine ⟨_, by rw [Context.store, dif_pos h], ?_⟩
  rw [Vector.toList_set, List.take_add_one, List.take_set_of_le (Nat.le_refl _), List.getElem?_set_self (by simpa using h)]
  rfl

theorem foldlM_store_ok {bs : List UInt8} (h : c.messageBlockIndex + bs.length ≤ 64) :
    ∃ block, bs.foldlM Context.store c =
        some { c with messageBlock := block, messageBlockIndex := c.messageBlockIndex + bs.length } ∧
      block.toList.take (c.messageBlockIndex + bs.length) = c.live ++ bs := by
  induction bs generalizing c with
  | nil => exact ⟨c.messageBlock, rfl, (List.append_nil _).symm⟩
  | cons b bs ih =>
    rw [List.length_cons] at h
    obtain ⟨block, hstore, hlive⟩ := store_ok b (c := c) (by omega)
    obtain ⟨block', hrest, hlive'⟩ := @ih
      { c with messageBlock := block, messageBlockIndex := c.messageBlockIndex + 1 } (by simp only; omega)
    have hcount : c.messageBlockIndex + 1 + bs.length = c.messageBlockIndex + (bs.length + 1) := by omega
    refine ⟨block', ?_, ?_⟩
    · rw [List.foldlM_cons, hstore, List.length_cons]
      refine hrest.trans ?_
      simp only [hcount]
    · rw [List.length_cons, ← hcount]
      refine hlive'.trans ?_
      rw [Context.live]
      simp only [hlive, List.append_assoc, List.singleton_append]

/-! Adding to the length. -/

theorem addLength_ok {n : UInt32} (h : c.bitLength + n.toNat < 2 ^ 64) :
    ∃ high low, c.addLength n = { c with lengthHigh := high, lengthLow := low } ∧
      high.toNat * 2 ^ 32 + low.toNat = c.bitLength + n.toNat := by
  have hhigh := c.lengthHigh.toNat_lt
  have hlow := c.lengthLow.toNat_lt
  have hn := n.toNat_lt
  unfold Context.bitLength at h
  have hsum : (c.lengthLow + n).toNat = (c.lengthLow.toNat + n.toNat) % 2 ^ 32 := UInt32.toNat_add _ _
  have hnext : (c.lengthHigh + 1).toNat = (c.lengthHigh.toNat + 1) % 2 ^ 32 := UInt32.toNat_add _ _
  unfold Context.addLength Context.bitLength
  by_cases hcarry : c.lengthLow + n < c.lengthLow
  · have hlt := UInt32.lt_iff_toNat_lt.mp hcarry
    have hzero : c.lengthHigh + 1 ≠ 0 := by
      intro hz
      rw [hz] at hnext
      have : (0 : UInt32).toNat = 0 := rfl
      omega
    rw [if_pos hcarry, if_neg hzero]
    exact ⟨_, _, rfl, by omega⟩
  · have hge : ¬ (c.lengthLow + n).toNat < c.lengthLow.toNat := fun hlt => hcarry (UInt32.lt_iff_toNat_lt.mpr hlt)
    rw [if_neg hcarry]
    exact ⟨_, _, rfl, by omega⟩

/-- The length does not fit in two words. -/
theorem addLength_overflow {n : UInt32} (h : 2 ^ 64 ≤ c.bitLength + n.toNat) :
    (c.addLength n).corrupted = .inputTooLong := by
  have hhigh := c.lengthHigh.toNat_lt
  have hlow := c.lengthLow.toNat_lt
  have hn := n.toNat_lt
  unfold Context.bitLength at h
  have hsum : (c.lengthLow + n).toNat = (c.lengthLow.toNat + n.toNat) % 2 ^ 32 := UInt32.toNat_add _ _
  have hnext : (c.lengthHigh + 1).toNat = (c.lengthHigh.toNat + 1) % 2 ^ 32 := UInt32.toNat_add _ _
  have hcarry : c.lengthLow + n < c.lengthLow := UInt32.lt_iff_toNat_lt.mpr (by omega)
  have hzero : c.lengthHigh + 1 = 0 := by
    apply UInt32.toNat_inj.mp
    rw [hnext]
    have : (0 : UInt32).toNat = 0 := rfl
    omega
  rw [Context.addLength, if_pos hcarry]
  exact if_pos hzero

@[simp] theorem addLength_index (n : UInt32) : (c.addLength n).messageBlockIndex = c.messageBlockIndex := by
  unfold Context.addLength
  split <;> rfl

/-! The input. -/

theorem inputByte_ok (h : Represents c m) (b : UInt8) (hlen : m.length + 1 < 2 ^ 61) :
    ∃ c', c.inputByte b = some c' ∧ Represents c' (m ++ [b]) := by
  obtain ⟨block, hstore, hlive⟩ := store_ok b h.index
  have hbits := h.length
  have height : (8 : UInt32).toNat = 8 := rfl
  obtain ⟨high, low, hadd, hvalue⟩ := @addLength_ok
    { c with messageBlock := block, messageBlockIndex := c.messageBlockIndex + 1 } 8
    (by simp only [Context.bitLength] at hbits ⊢; omega)
  have habs : absorb compressBytes 64 (Standard.initial, []) (m ++ [b]) =
      feed compressBytes 64 (c.intermediateHash, c.live) b := by
    rw [absorb_append, h.absorbed]
    rfl
  have hlength : high.toNat * 2 ^ 32 + low.toNat = 8 * (m ++ [b]).length := by
    rw [List.length_append, List.length_singleton, Nat.mul_add_one, ← hbits]
    exact hvalue
  have hlivelen : c.live.length = c.messageBlockIndex := Context.live_length (Nat.le_of_lt h.index)
  unfold Context.inputByte
  rw [hstore]
  simp only [bind, Option.bind, hadd]
  by_cases hfull : c.messageBlockIndex + 1 = 64
  · rw [if_pos ⟨h.corrupted, hfull⟩]
    have hblock : block.toList = c.live ++ [b] := by
      rw [← hlive, hfull, List.take_of_length_le (by simp)]
    have hhash : compressBlock c.intermediateHash block = compressBytes c.intermediateHash (c.live ++ [b]) := by
      rw [compressBlock_eq, hblock, compressBytes]
    refine ⟨_, rfl, ?_, Nat.zero_lt_succ 63, hlength, h.computed, h.corrupted⟩
    rw [habs, feed, if_pos (by simp only [hlivelen, hfull]), ← hhash]
    rfl
  · rw [if_neg fun hc => hfull hc.2]
    refine ⟨_, rfl, ?_, Nat.lt_of_le_of_ne h.index hfull, hlength, h.computed, h.corrupted⟩
    rw [habs, feed, if_neg (by simp only [hlivelen]; exact hfull)]
    simp only [Context.live] at hlive ⊢
    rw [hlive]

theorem inputs_ok {bs : List UInt8} (h : Represents c m) (hlen : m.length + bs.length < 2 ^ 61) :
    ∃ c', bs.foldlM Context.inputByte c = some c' ∧ Represents c' (m ++ bs) := by
  induction bs generalizing c m with
  | nil => exact ⟨c, rfl, by rwa [List.append_nil]⟩
  | cons b bs ih =>
    rw [List.length_cons] at hlen
    obtain ⟨c₁, hfirst, h₁⟩ := inputByte_ok h b (by omega)
    obtain ⟨c', hrest, h'⟩ := ih h₁ (by rw [List.length_append, List.length_singleton]; omega)
    refine ⟨c', ?_, by rwa [List.append_assoc] at h'⟩
    rw [List.foldlM_cons, hfirst]
    exact hrest

/-- With the byte that makes it 2^64 bits the length is too long, and the block is full. -/
theorem inputByte_overflow (h : Represents c m) (b : UInt8) (hlen : m.length + 1 = 2 ^ 61) :
    ∃ c', c.inputByte b = some c' ∧ c'.corrupted = .inputTooLong ∧ c'.messageBlockIndex = 64 ∧ c'.computed = false := by
  obtain ⟨block, hstore, -⟩ := store_ok b h.index
  have hindex := h.index_eq
  have hbits := h.length
  have height : (8 : UInt32).toNat = 8 := rfl
  have hover := @addLength_overflow
    { c with messageBlock := block, messageBlockIndex := c.messageBlockIndex + 1 } 8
    (by simp only [Context.bitLength] at hbits ⊢; omega)
  unfold Context.inputByte
  rw [hstore]
  simp only [bind, Option.bind]
  rw [if_neg (by rw [hover]; nofun)]
  refine ⟨_, rfl, hover, ?_, ?_⟩
  · rw [addLength_index]
    simp only
    omega
  · have hcomputed := h.computed
    unfold Context.addLength
    split <;> exact hcomputed

theorem inputs_overflow (h : Represents c m) {bs : List UInt8} (hlen : m.length + bs.length = 2 ^ 61) :
    ∃ c', bs.foldlM Context.inputByte c = some c' ∧ c'.corrupted = .inputTooLong ∧ c'.messageBlockIndex = 64 ∧
      c'.computed = false := by
  have hm := h.length_lt
  obtain ⟨front, b, rfl⟩ := List.eq_nil_or_concat bs |>.resolve_left (List.ne_nil_of_length_pos (by omega))
  rw [List.concat_eq_append, List.length_append, List.length_singleton] at hlen
  obtain ⟨c₁, hfront, h₁⟩ := @inputs_ok c m front h (by omega)
  obtain ⟨c', hlast, hc'⟩ := inputByte_overflow h₁ b (by rw [List.length_append]; omega)
  refine ⟨c', ?_, hc'⟩
  rw [List.concat_eq_append, List.foldlM_append, hfront]
  exact (by simp [hlast])

/-- What SHA1Input does with bs after m: up to the limit it takes them in, at the limit it says that they are too
long, and beyond it it writes behind the block. -/
theorem input_at_limit (h : Represents c m) (bs : List UInt8) :
    (m.length + bs.length < 2 ^ 61 → ∃ c', c.input bs = some (.success, c') ∧ Represents c' (m ++ bs)) ∧
    (m.length + bs.length = 2 ^ 61 →
      ∃ c', c.input bs = some (.inputTooLong, c') ∧ c'.corrupted = .inputTooLong ∧ c'.computed = false) ∧
    (2 ^ 61 < m.length + bs.length → c.input bs = none) := by
  have hm := h.length_lt
  have hstart : bs ≠ [] → c.input bs = (bs.foldlM Context.inputByte c).map fun c => (c.corrupted, c) := by
    intro hne
    rw [Context.input, if_neg hne, if_neg (by rw [h.computed]; decide), if_neg (fun hc => hc h.corrupted)]
  refine ⟨fun hlen => ?_, fun hlen => ?_, fun hlen => ?_⟩
  · by_cases hne : bs = []
    · subst hne
      exact ⟨c, rfl, by rwa [List.append_nil]⟩
    · obtain ⟨c', hinputs, h'⟩ := inputs_ok h hlen
      refine ⟨c', ?_, h'⟩
      rw [hstart hne, hinputs, Option.map_some, h'.corrupted]
  · obtain ⟨c', hinputs, hc, -, hcomputed⟩ := inputs_overflow h hlen
    have hne : bs ≠ [] := List.ne_nil_of_length_pos (by omega)
    exact ⟨c', by rw [hstart hne, hinputs, Option.map_some, hc], hc, hcomputed⟩
  · have hne : bs ≠ [] := List.ne_nil_of_length_pos (by omega)
    have hfirst : (bs.take (2 ^ 61 - m.length)).length = 2 ^ 61 - m.length := by
      rw [List.length_take]
      omega
    obtain ⟨c', hinputs, -, hindex, -⟩ := @inputs_overflow c m h (bs.take (2 ^ 61 - m.length)) (by omega)
    obtain ⟨b, bs', hrest⟩ := List.exists_cons_of_ne_nil (l := bs.drop (2 ^ 61 - m.length))
      (List.ne_nil_of_length_pos (by rw [List.length_drop]; omega))
    have hbehind : c'.inputByte b = none := by
      rw [Context.inputByte, Context.store, dif_neg (by omega)]
      rfl
    have hall : bs.foldlM Context.inputByte c = none := by
      rw [← List.take_append_drop (2 ^ 61 - m.length) bs, List.foldlM_append, hinputs, hrest]
      exact (by simp [hbehind])
    rw [hstart hne, hall, Option.map_none]

/-! Padding. -/

/-- The length as it is stored. -/
def lengthBytes (high low : UInt32) : List UInt8 :=
  [(high >>> 24).toUInt8, (high >>> 16).toUInt8, (high >>> 8).toUInt8, high.toUInt8,
    (low >>> 24).toUInt8, (low >>> 16).toUInt8, (low >>> 8).toUInt8, low.toUInt8]

/-- All but the hash, the block and the index is the same. -/
def Context.Keeps (c c' : Context) : Prop :=
  c'.lengthHigh = c.lengthHigh ∧ c'.lengthLow = c.lengthLow ∧ c'.computed = c.computed ∧ c'.corrupted = c.corrupted

theorem stores_short {bs : List UInt8} (h : c.messageBlockIndex + bs.length < 64) :
    ∃ c', bs.foldlM Context.store c = some c' ∧ c'.messageBlockIndex = c.messageBlockIndex + bs.length ∧
      (c'.intermediateHash, c'.live) = absorb compressBytes 64 (c.intermediateHash, c.live) bs ∧ c.Keeps c' := by
  obtain ⟨block, hstore, hlive⟩ := @foldlM_store_ok c bs (by omega)
  have hlen : c.live.length = c.messageBlockIndex := Context.live_length (by omega)
  refine ⟨_, hstore, rfl, ?_, rfl, rfl, rfl, rfl⟩
  rw [absorb_short (by omega), ← hlive]
  rfl

/-- The block is filled and compressed. -/
theorem stores_full {bs : List UInt8} (hne : bs ≠ []) (h : c.messageBlockIndex + bs.length = 64) :
    ∃ c', bs.foldlM Context.store c = some c' ∧
      (c'.processMessageBlock.intermediateHash, c'.processMessageBlock.live) =
        absorb compressBytes 64 (c.intermediateHash, c.live) bs ∧ c.Keeps c'.processMessageBlock := by
  obtain ⟨block, hstore, hlive⟩ := @foldlM_store_ok c bs (by omega)
  have hlen : c.live.length = c.messageBlockIndex := Context.live_length (by omega)
  rw [h, List.take_of_length_le (by simp)] at hlive
  refine ⟨_, hstore, ?_, rfl, rfl, rfl, rfl⟩
  have hhash : compressBlock c.intermediateHash block = compressBytes c.intermediateHash (c.live ++ bs) := by
    rw [compressBlock_eq, hlive, compressBytes]
  rw [absorb_full hne (by omega), ← hhash]
  rfl

theorem set_last_eight {l : List UInt8} (h : l.length = 64) (x0 x1 x2 x3 x4 x5 x6 x7 : UInt8) :
    (((((((l.set 56 x0).set 57 x1).set 58 x2).set 59 x3).set 60 x4).set 61 x5).set 62 x6).set 63 x7 =
      l.take 56 ++ [x0, x1, x2, x3, x4, x5, x6, x7] := by
  have hfront : (l.take 56).length = 56 := by
    rw [List.length_take]
    omega
  have hback : (l.drop 56).length = 8 := by
    rw [List.length_drop]
    omega
  obtain ⟨y0, y1, y2, y3, y4, y5, y6, y7, hy⟩ : ∃ y0 y1 y2 y3 y4 y5 y6 y7, l.drop 56 = [y0, y1, y2, y3, y4, y5, y6, y7] := by
    match l.drop 56, hback with
    | [y0, y1, y2, y3, y4, y5, y6, y7], _ => exact ⟨y0, y1, y2, y3, y4, y5, y6, y7, rfl⟩
  have hl : l = l.take 56 ++ [y0, y1, y2, y3, y4, y5, y6, y7] := by
    rw [← hy, List.take_append_drop]
  generalize l.take 56 = front at hl hfront ⊢
  subst hl
  simp [List.set_append_right, hfront]

theorem storeLength_block (hindex : c.messageBlockIndex = 56) :
    c.storeLength.messageBlock.toList = c.live ++ lengthBytes c.lengthHigh c.lengthLow := by
  simp only [Context.storeLength, Vector.toList_set]
  rw [set_last_eight (by simp), Context.live, hindex, lengthBytes]

/-- The last block. -/
theorem close_block (hindex : c.messageBlockIndex = 56) :
    c.storeLength.processMessageBlock.intermediateHash =
      (absorb compressBytes 64 (c.intermediateHash, c.live) (lengthBytes c.lengthHigh c.lengthLow)).1 := by
  have hlen : c.live.length = 56 := by rw [Context.live_length (by omega), hindex]
  have hne : lengthBytes c.lengthHigh c.lengthLow ≠ [] := List.cons_ne_nil _ _
  have hhash : compressBlock c.intermediateHash c.storeLength.messageBlock =
      compressBytes c.intermediateHash (c.live ++ lengthBytes c.lengthHigh c.lengthLow) := by
    rw [compressBlock_eq, storeLength_block hindex, compressBytes]
  rw [absorb_full hne (by rw [hlen]; rfl)]
  exact hhash

/-- Zeros up to the length, and the last block. -/
theorem padding_end (h : c.messageBlockIndex ≤ 56) :
    ∃ c', (c.fill 56).map (fun c => c.storeLength.processMessageBlock) = some c' ∧
      c'.intermediateHash = (absorb compressBytes 64 (c.intermediateHash, c.live)
        (List.replicate (56 - c.messageBlockIndex) 0 ++ lengthBytes c.lengthHigh c.lengthLow)).1 ∧ c.Keeps c' := by
  have hcount : (List.replicate (56 - c.messageBlockIndex) (0 : UInt8)).length = 56 - c.messageBlockIndex :=
    List.length_replicate
  obtain ⟨c', hstore, hindex, habs, hkeeps⟩ := @stores_short c (List.replicate (56 - c.messageBlockIndex) 0) (by omega)
  refine ⟨c'.storeLength.processMessageBlock, by rw [Context.fill, hstore, Option.map_some], ?_, hkeeps⟩
  rw [close_block (by omega), absorb_append, ← habs, hkeeps.1, hkeeps.2.1]

theorem store_fill (padByte : UInt8) (n : Nat) (h : c.messageBlockIndex < 64) :
    (c.store padByte).bind (fun c => c.fill n) =
      (padByte :: List.replicate (n - (c.messageBlockIndex + 1)) 0).foldlM Context.store c := by
  obtain ⟨block, hstore, -⟩ := store_ok padByte h
  rw [List.foldlM_cons, hstore]
  rfl

theorem padMessage_ok (habs : absorb compressBytes 64 (Standard.initial, []) m = (c.intermediateHash, c.live))
    (hi : c.messageBlockIndex < 64) (padByte : UInt8) :
    ∃ c', c.padMessage padByte = some c' ∧
      c'.intermediateHash = (absorb compressBytes 64 (Standard.initial, []) (m ++ padByte ::
        (List.replicate ((119 - m.length % 64) % 64) 0 ++ lengthBytes c.lengthHigh c.lengthLow))).1 ∧ c.Keeps c' := by
  have hindex : c.messageBlockIndex = m.length % 64 := by
    have hlen := @absorb_length _ _ compressBytes 64 (by decide) Standard.initial [] m (by decide)
    rw [habs, List.length_nil, Nat.zero_add] at hlen
    rw [← hlen, Context.live_length (Nat.le_of_lt hi)]
  rw [← hindex, absorb_append, habs, Context.padMessage, Context.storePadByte]
  by_cases hbig : 56 ≤ c.messageBlockIndex
  · -- the length needs a block of its own
    have hcount : (padByte :: List.replicate (64 - (c.messageBlockIndex + 1)) (0 : UInt8)).length =
        64 - c.messageBlockIndex := by
      rw [List.length_cons, List.length_replicate]
      omega
    obtain ⟨c₁, hstore, habs₁, hkeeps₁⟩ := @stores_full c
      (padByte :: List.replicate (64 - (c.messageBlockIndex + 1)) 0) (List.cons_ne_nil _ _) (by omega)
    obtain ⟨c', hend, hhash, hkeeps⟩ := @padding_end c₁.processMessageBlock (Nat.zero_le 56)
    have hzeros : (119 - c.messageBlockIndex) % 64 = 64 - (c.messageBlockIndex + 1) + 56 := by omega
    have hsplit : padByte :: (List.replicate (64 - (c.messageBlockIndex + 1) + 56) 0 ++
          lengthBytes c.lengthHigh c.lengthLow) =
        (padByte :: List.replicate (64 - (c.messageBlockIndex + 1)) 0) ++
          (List.replicate 56 0 ++ lengthBytes c.lengthHigh c.lengthLow) := by
      rw [List.replicate_add, List.cons_append, List.append_assoc]
    refine ⟨c', ?_, ?_, hkeeps.1.trans hkeeps₁.1, hkeeps.2.1.trans hkeeps₁.2.1, hkeeps.2.2.1.trans hkeeps₁.2.2.1,
      hkeeps.2.2.2.trans hkeeps₁.2.2.2⟩
    · rw [if_pos hbig, store_fill padByte 64 hi, hstore]
      exact hend
    · rw [hhash, hzeros, hsplit, absorb_append _ (padByte :: _), ← habs₁, hkeeps₁.1, hkeeps₁.2.1]
      rfl
  · obtain ⟨block, hstore, hlive⟩ := store_ok padByte hi
    obtain ⟨c', hend, hhash, hkeeps⟩ := @padding_end
      { c with messageBlock := block, messageBlockIndex := c.messageBlockIndex + 1 } (by simp only; omega)
    have hzeros : (119 - c.messageBlockIndex) % 64 = 56 - (c.messageBlockIndex + 1) := by omega
    have hlen : c.live.length = c.messageBlockIndex := Context.live_length (Nat.le_of_lt hi)
    have hfirst : absorb compressBytes 64 (c.intermediateHash, c.live) [padByte] =
        (c.intermediateHash, block.toList.take (c.messageBlockIndex + 1)) := by
      rw [hlive, absorb_short (by rw [List.length_singleton]; omega)]
    refine ⟨c', ?_, ?_, hkeeps⟩
    · rw [if_neg hbig, hstore]
      exact hend
    · rw [hhash, hzeros, ← List.singleton_append, absorb_append _ [padByte], hfirst]
      rfl

end Swish.Sha1
