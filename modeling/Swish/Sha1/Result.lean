import Swish.Lib.Refine
import Swish.Sha1.Stream

/-!
The padding of the code is that of the standard, and so are its digests: of bytes,
and of bytes with up to seven bits behind them.
-/

set_option autoImplicit false

namespace Swish.Sha1

open Swish.Lib

variable {c : Context} {m : List UInt8}

theorem bits_eight_mod (n : Nat) : bits 8 (n % 256) = bits 8 n := by
  have h := bits_mul_add 8 (n / 256) (n % 256)
  rw [show n / 256 * 2 ^ 8 + n % 256 = n by omega] at h
  exact h.symm

theorem beBytes_succ (k n : Nat) : beBytes (k + 1) n = beBytes k (n / 256) ++ [UInt8.ofNat n] := by
  rw [beBytes, leBytes, List.reverse_cons]
  rfl

theorem bytesBits_beBytes (k n : Nat) : bytesBits (beBytes k n) = bits (8 * k) n := by
  induction k generalizing n with
  | zero => rfl
  | succ k ih =>
    have hlast : bytesBits [UInt8.ofNat n] = bits 8 n := by
      rw [bytesBits_cons, bytesBits_nil, List.append_nil, UInt8.toNat_ofNat', bits_eight_mod]
    rw [beBytes_succ, bytesBits_append, ih, hlast, Nat.mul_succ, bits_append]
    rfl

theorem bytesBits_zeros (k : Nat) : bytesBits (List.replicate k 0) = List.replicate (8 * k) false := by
  induction k with
  | zero => rfl
  | succ k ih =>
    have hzero : bits 8 (0 : UInt8).toNat = List.replicate 8 false := rfl
    rw [List.replicate_succ, bytesBits_cons, ih, hzero, ← List.replicate_add]
    congr 1
    omega

/-- A byte of a word. -/
theorem shift_toUInt8 (w k : UInt32) (hk : k.toNat < 32) : (w >>> k).toUInt8 = UInt8.ofNat (w.toNat / 2 ^ k.toNat) := by
  apply UInt8.toNat_inj.mp
  rw [UInt32.toNat_toUInt8, UInt32.toNat_shiftRight, UInt8.toNat_ofNat', Nat.mod_eq_of_lt hk, Nat.shiftRight_eq_div_pow]

theorem toUInt8_eq (w : UInt32) : w.toUInt8 = UInt8.ofNat w.toNat := by
  apply UInt8.toNat_inj.mp
  rw [UInt32.toNat_toUInt8, UInt8.toNat_ofNat']

theorem beBytes_four (w : UInt32) :
    beBytes 4 w.toNat = [(w >>> 24).toUInt8, (w >>> 16).toUInt8, (w >>> 8).toUInt8, w.toUInt8] := by
  rw [shift_toUInt8 w 24 (by decide), shift_toUInt8 w 16 (by decide), shift_toUInt8 w 8 (by decide), toUInt8_eq]
  simp only [beBytes_succ, Nat.div_div_eq_div_mul]
  rfl

theorem beBytes_add (j k n : Nat) : beBytes (j + k) n = beBytes j (n / 256 ^ k) ++ beBytes k n := by
  induction k generalizing n with
  | zero => simp [beBytes, leBytes]
  | succ k ih =>
    rw [← Nat.add_assoc, beBytes_succ, ih, beBytes_succ k, List.append_assoc, Nat.div_div_eq_div_mul, Nat.pow_succ']

theorem beBytes_mod (k n a : Nat) : beBytes k (a * 256 ^ k + n) = beBytes k n := by
  induction k generalizing n with
  | zero => rfl
  | succ k ih =>
    have hdiv : (a * 256 ^ (k + 1) + n) / 256 = a * 256 ^ k + n / 256 := by
      rw [Nat.pow_succ, ← Nat.mul_assoc]
      omega
    have hbyte : UInt8.ofNat (a * 256 ^ (k + 1) + n) = UInt8.ofNat n := by
      apply UInt8.toNat_inj.mp
      rw [UInt8.toNat_ofNat', UInt8.toNat_ofNat', Nat.pow_succ, ← Nat.mul_assoc]
      omega
    rw [beBytes_succ, beBytes_succ, hdiv, ih, hbyte]

theorem lengthBytes_eq (high low : UInt32) :
    lengthBytes high low = beBytes 8 (high.toNat * 2 ^ 32 + low.toNat) := by
  have hlow : low.toNat < 256 ^ 4 := low.toNat_lt
  have hhigh : (high.toNat * 256 ^ 4 + low.toNat) / 256 ^ 4 = high.toNat := by
    rw [Nat.add_comm, Nat.add_mul_div_right _ _ (by decide), Nat.div_eq_of_lt hlow, Nat.zero_add]
  rw [show 2 ^ 32 = 256 ^ 4 by decide, show 8 = 4 + 4 from rfl, beBytes_add, hhigh, beBytes_mod, beBytes_four,
    beBytes_four]
  rfl

/-- The padded message, when some bits t come after the bytes m. -/
theorem pad_bytes {t : List Bool} {padByte : UInt8} (ht : t.length < 8)
    (hp : bits 8 padByte.toNat = t ++ true :: List.replicate (7 - t.length) false) :
    Standard.pad (bytesBits m ++ t) = bytesBits (m ++ padByte ::
      (List.replicate ((119 - m.length % 64) % 64) 0 ++ beBytes 8 (8 * m.length + t.length))) := by
  have hlen : (bytesBits m ++ t).length = 8 * m.length + t.length := by
    rw [List.length_append, length_bytesBits]
  have hzeros : (959 - (8 * m.length + t.length) % 512) % 512 = 7 - t.length + 8 * ((119 - m.length % 64) % 64) := by
    omega
  rw [Standard.pad, hlen, hzeros, bytesBits_append, bytesBits_cons, hp, bytesBits_append, bytesBits_zeros,
    bytesBits_beBytes, List.replicate_add]
  simp only [List.append_assoc, List.cons_append]

/-- The hash value of the standard, when the padded message is made of bytes. -/
theorem hash_of_pad {bs : List Bool} {ys : List UInt8} (hpad : Standard.pad bs = bytesBits ys) (hlen : ys.length % 64 = 0) :
    Standard.hash bs = (absorb compressBytes 64 (Standard.initial, []) ys).1 := by
  have hcount : (bytesBits ys).length / 512 = ys.length / 64 := by
    rw [length_bytesBits]
    omega
  have hblocks : blocks 512 (ys.length / 64) (bytesBits ys) = (blocks 64 (ys.length / 64) ys).map bytesBits :=
    blocks_map bytesBits 64 512 _ ys (fun l _ => take_bytesBits 64 l) (fun l _ => drop_bytesBits 64 l) (by omega)
  rw [Standard.hash, hpad, hcount, hblocks, List.foldl_map,
    absorb_blocks (k := ys.length / 64) (by decide) (by omega)]
  rfl

theorem messageDigest_eq (c : Context) :
    c.messageDigest = c.intermediateHash.toList.flatMap fun w => beBytes 4 w.toNat := by
  obtain ⟨a, b, d, e, f, hwords⟩ : ∃ a b d e f, c.intermediateHash = #v[a, b, d, e, f] := by
    obtain ⟨⟨l⟩, hl⟩ := c.intermediateHash
    match l, hl with
    | [a, b, d, e, f], _ => exact ⟨a, b, d, e, f, rfl⟩
  rw [Context.messageDigest, hwords]
  simp only [beBytes_four]
  rfl

/-- Padding and the digest. -/
theorem finalize_ok {t : List Bool} {padByte : UInt8}
    (habs : absorb compressBytes 64 (Standard.initial, []) m = (c.intermediateHash, c.live))
    (hi : c.messageBlockIndex < 64) (hbits : c.bitLength = 8 * m.length + t.length) (ht : t.length < 8)
    (hp : bits 8 padByte.toNat = t ++ true :: List.replicate (7 - t.length) false) :
    ∃ c', c.finalize padByte = some c' ∧ c'.messageDigest = sha1 (bytesBits m ++ t) ∧ c'.computed = true ∧
      c'.corrupted = c.corrupted := by
  obtain ⟨c₁, hpad, hhash, hkeeps⟩ := padMessage_ok habs hi padByte
  have hlength : lengthBytes c.lengthHigh c.lengthLow = beBytes 8 (8 * m.length + t.length) := by
    rw [lengthBytes_eq, ← hbits]
    rfl
  have hstandard := pad_bytes (m := m) ht hp
  rw [← hlength] at hstandard
  refine ⟨{ c₁ with messageBlock := Vector.replicate 64 0, lengthHigh := 0, lengthLow := 0, computed := true },
    by rw [Context.finalize, hpad, Option.map_some], ?_, rfl, hkeeps.2.2.2⟩
  rw [messageDigest_eq, sha1, hash_of_pad hstandard ?_, ← hhash]
  simp only [List.length_append, List.length_cons, List.length_replicate, lengthBytes, List.length_nil]
  omega

/-- The result is the digest of the bytes that were put in. -/
theorem result_ok (h : Represents c m) :
    ∃ c', c.result = some (.ok (sha1 (bytesBits m)), c') := by
  obtain ⟨c', hfinal, hdigest, -, -⟩ := @finalize_ok c m [] 0x80 h.absorbed h.index h.length (by decide)
    (by decide)
  rw [List.append_nil] at hdigest
  refine ⟨c', ?_⟩
  rw [Context.result, if_neg (fun hc => hc h.corrupted), h.computed, ← hdigest]
  simp [hfinal]

theorem masks_get : ∀ i : Fin 8, (Context.masks.get i).toNat = 256 - 2 ^ (8 - i.val) ∧
    (Context.markbit.get i).toNat = 2 ^ (7 - i.val) := by
  decide

theorem mask_mark : ∀ i < 8, ∀ k < 256, (k &&& (256 - 2 ^ (8 - i))) ||| 2 ^ (7 - i) =
    k / 2 ^ (8 - i) * 2 ^ (8 - i) + 2 ^ (7 - i) := by
  decide +kernel

theorem bits_mark : ∀ i < 8, bits (8 - i) (2 ^ (7 - i)) = true :: List.replicate (7 - i) false := by
  decide

theorem bits_mask_mark {i k : Nat} (hi : i < 8) (hk : k < 256) :
    bits 8 ((k &&& (256 - 2 ^ (8 - i))) ||| 2 ^ (7 - i)) = (bits 8 k).take i ++ true :: List.replicate (7 - i) false := by
  have hsplit : ∀ n, bits 8 n = bits i (n / 2 ^ (8 - i)) ++ bits (8 - i) n := by
    intro n
    rw [← bits_append, Nat.add_sub_cancel' (by omega)]
  have hmark : 2 ^ (7 - i) < 2 ^ (8 - i) := Nat.pow_lt_pow_right (by decide) (by omega)
  have hhigh : (k / 2 ^ (8 - i) * 2 ^ (8 - i) + 2 ^ (7 - i)) / 2 ^ (8 - i) = k / 2 ^ (8 - i) := by
    rw [Nat.add_comm, Nat.add_mul_div_right _ _ (Nat.two_pow_pos _), Nat.div_eq_of_lt hmark, Nat.zero_add]
  rw [mask_mark i hi k hk, hsplit, hhigh, bits_mul_add, bits_mark i hi, hsplit k, List.take_left' (bits_length ..)]

/-- The last byte that SHA1FinalBits makes. -/
theorem bits_finalByte (messageBits : UInt8) {n : Nat} (hn : n < 8) :
    bits 8 ((messageBits &&& Context.masks[n]) ||| Context.markbit[n]).toNat =
      (bits 8 messageBits.toNat).take n ++ true :: List.replicate (7 - n) false := by
  have hmasks := masks_get ⟨n, hn⟩
  have hget : (Context.masks[n]).toNat = 256 - 2 ^ (8 - n) ∧ (Context.markbit[n]).toNat = 2 ^ (7 - n) := hmasks
  rw [UInt8.toNat_or, UInt8.toNat_and, hget.1, hget.2]
  exact bits_mask_mark hn messageBits.toNat_lt

theorem finalBits_ok (h : Represents c m) (messageBits : UInt8) {n : Nat} (h0 : 0 < n) (hn : n < 8) :
    ∃ c₁, c.finalBits messageBits n = some (.success, c₁) ∧
      c₁.result = some (.ok (sha1 (bytesBits m ++ (bits 8 messageBits.toNat).take n)), c₁) := by
  have hlength := h.length
  have hlast : ((bits 8 messageBits.toNat).take n).length = n := by
    rw [List.length_take, bits_length]
    omega
  have hsmall : (UInt32.ofNat n).toNat = n := by
    rw [UInt32.toNat_ofNat', Nat.mod_eq_of_lt (by omega)]
  have hfits : c.bitLength + (UInt32.ofNat n).toNat < 2 ^ 64 := by
    have := c.bitLength_lt
    omega
  obtain ⟨high, low, hadd, hvalue⟩ := addLength_ok hfits
  obtain ⟨c₁, hfinal, hdigest, hcomputed, hcorrupted⟩ := @finalize_ok { c with lengthHigh := high, lengthLow := low } m
    ((bits 8 messageBits.toNat).take n) _ h.absorbed h.index (by rw [hlast, ← hlength, ← hsmall]; exact hvalue)
    (by omega) (by rw [hlast]; exact bits_finalByte messageBits hn)
  have hok : c₁.corrupted = .success := hcorrupted.trans h.corrupted
  refine ⟨c₁, ?_, ?_⟩
  · rw [Context.finalBits, if_neg (by omega), if_neg (fun hc => hc h.corrupted), if_neg (by rw [h.computed]; decide),
      dif_pos hn, hadd, hfinal, Option.map_some, hok]
  · rw [Context.result, if_neg (fun hc => hc hok), if_pos hcomputed, ← hdigest]
    rfl

/-- Calls of SHA1Input, and what they return. -/
def Context.inputs (c : Context) (chunks : List (List UInt8)) : Option (List Code × Context) :=
  calls Context.input c chunks

theorem represents_inputs {c : Context} {m : List UInt8} (h : Represents c m) (chunks : List (List UInt8))
    (hlen : m.length + chunks.flatten.length < 2 ^ 61) :
    ∃ c', c.inputs chunks = some (List.replicate chunks.length .success, c') ∧ Represents c' (m ++ chunks.flatten) := by
  induction chunks generalizing c m with
  | nil => exact ⟨c, rfl, by rwa [List.flatten_nil, List.append_nil]⟩
  | cons chunk chunks ih =>
    rw [List.flatten_cons, List.length_append] at hlen
    obtain ⟨c₁, hfirst, h₁⟩ := (input_at_limit h chunk).1 (by omega)
    obtain ⟨c', hrest, h'⟩ := ih h₁ (by rw [List.length_append]; omega)
    refine ⟨c', ?_, by rwa [List.flatten_cons, ← List.append_assoc]⟩
    rw [Context.inputs] at hrest ⊢
    rw [calls, hfirst, Option.bind_some, hrest, Option.map_some, List.length_cons, List.replicate_succ]

/-- The digest does not depend on how the bytes are cut, and is that of the standard for every number of bits. -/
theorem sha1_of_chunks (c : Context) (chunks : List (List UInt8)) (messageBits : UInt8) (length : Nat)
    (hbytes : chunks.flatten.length < 2 ^ 61) (hbits : length < 8) :
    ∃ c₁ c₂ c₃, c.reset.inputs chunks = some (List.replicate chunks.length .success, c₁) ∧
      c₁.finalBits messageBits length = some (.success, c₂) ∧
      c₂.result = some (.ok (sha1 (bytesBits chunks.flatten ++ (bits 8 messageBits.toNat).take length)), c₃) := by
  obtain ⟨c₁, hinputs, h₁⟩ := represents_inputs (represents_reset c) chunks (by simpa using hbytes)
  rw [List.nil_append] at h₁
  refine ⟨c₁, ?_⟩
  cases length with
  | zero =>
    obtain ⟨c₃, hresult⟩ := result_ok h₁
    exact ⟨c₁, c₃, hinputs, rfl, by rw [hresult, List.take_zero, List.append_nil]⟩
  | succ n =>
    obtain ⟨c₂, hfinal, hresult⟩ := finalBits_ok h₁ messageBits (Nat.succ_pos n) hbits
    exact ⟨c₂, c₂, hinputs, hfinal, hresult⟩

theorem sha1_of_chunks_abc : ∃ c₁ c₂ c₃,
    (Context.reset ⟨Vector.replicate 5 0, 0, 0, 0, Vector.replicate 64 0, false, .success⟩).inputs [[97], [98, 99]] =
        some ([.success, .success], c₁) ∧
      c₁.finalBits 0x60 3 = some (.success, c₂) ∧
      c₂.result = some (.ok (sha1 (bytesBits [97, 98, 99] ++ [false, true, true])), c₃) :=
  sha1_of_chunks ⟨Vector.replicate 5 0, 0, 0, 0, Vector.replicate 64 0, false, .success⟩ [[97], [98, 99]] 0x60 3
    (by decide) (by decide)

end Swish.Sha1
