import Swish.Base64.Decode

/-!
base64-encode, group by group, and its inverse.
-/

set_option autoImplicit false

namespace Swish.Base64

open Swish.Lib

variable {a : Alphabet} {machine : Machine}

/-- The letter for six bits. -/
def Alphabet.letter (a : Alphabet) (v : Nat) : UInt8 := a.encoding[v]?.getD 0

theorem Alphabet.letter_mem {v : Nat} (h : v < 64) : a.letter v ∈ a.encoding := by
  have hv : v < a.encoding.length := by
    rw [a.length]
    exact h
  rw [Alphabet.letter, List.getElem?_eq_getElem hv]
  exact List.getElem_mem hv

theorem Alphabet.value_letter {v : Nat} (h : v < 64) : a.value (a.letter v) = v := by
  have hv : v < a.encoding.length := by
    rw [a.length]
    exact h
  rw [Alphabet.letter, List.getElem?_eq_getElem hv]
  exact a.nodup.idxOf_getElem v hv

theorem translate_eq (a : Alphabet) (bits k : Nat) : translate a bits k = a.letter (bits / 64 ^ k % 64) := by
  unfold translate Alphabet.letter
  have hmask : (bits >>> (6 * k)) &&& 0x3F = bits / 64 ^ k % 64 := by
    have h := Nat.and_two_pow_sub_one_eq_mod (bits >>> (6 * k)) 6
    rw [Nat.shiftRight_eq_div_pow, Nat.pow_mul] at h
    rw [Nat.shiftRight_eq_div_pow, Nat.pow_mul]
    exact h
  rw [hmask]

/-- The four letters for 24 bits. -/
def quad (a : Alphabet) (bits : Nat) : List UInt8 :=
  [translate a bits 3, translate a bits 2, translate a bits 1, translate a bits 0]

theorem or_bytes {t3 t2 t1 t0 : Nat} (h2 : t2 < 256) (h1 : t1 < 256) (h0 : t0 < 256) :
    (t3 <<< 24) ||| (t2 <<< 16) ||| (t1 <<< 8) ||| (t0 <<< 0) = 2 ^ 24 * t3 + (2 ^ 16 * t2 + (2 ^ 8 * t1 + t0)) := by
  rw [Nat.two_pow_add_eq_or_of_lt (by omega), Nat.two_pow_add_eq_or_of_lt (by omega),
    Nat.two_pow_add_eq_or_of_lt (by omega), Nat.or_assoc, Nat.or_assoc, Nat.shiftLeft_eq, Nat.shiftLeft_eq,
    Nat.shiftLeft_eq, Nat.shiftLeft_zero, Nat.mul_comm t3, Nat.mul_comm t2, Nat.mul_comm t1]

theorem or_two_bytes {t1 t0 : Nat} (h0 : t0 < 256) : (t1 <<< 8) ||| (t0 <<< 0) = 2 ^ 8 * t1 + t0 := by
  rw [Nat.two_pow_add_eq_or_of_lt (by omega), Nat.shiftLeft_eq, Nat.shiftLeft_zero, Nat.mul_comm t1]

theorem ofNat_eq {n : Nat} {b : UInt8} (h : n % 256 = b.toNat) : UInt8.ofNat n = b := by
  apply UInt8.toNat_inj.mp
  rw [UInt8.toNat_ofNat', ← h]

/-- Both ways to store the four letters. -/
theorem writeEncoded_append (bv : List UInt8) (narrow : Bool) (i : Nat) (done rest : List UInt8)
    (x y z w : UInt8) :
    writeEncoded a bv narrow done.length i (done ++ x :: y :: z :: w :: rest) =
      done ++ (quad a (u24Ref bv i) ++ rest) := by
  unfold writeEncoded quad
  dsimp only
  generalize translate a (u24Ref bv i) 3 = t3
  generalize translate a (u24Ref bv i) 2 = t2
  generalize translate a (u24Ref bv i) 1 = t1
  generalize translate a (u24Ref bv i) 0 = t0
  have h2 : t2.toNat < 256 := t2.toNat_lt
  have h1 : t1.toNat < 256 := t1.toNat_lt
  have h0 : t0.toNat < 256 := t0.toNat_lt
  have h3 : t3.toNat < 256 := t3.toNat_lt
  cases narrow with
  | true =>
    rw [if_pos rfl, or_two_bytes h2, or_two_bytes h0]
    unfold u16Set
    rw [ofNat_eq (b := t3) (by omega), ofNat_eq (b := t2) (by omega), ofNat_eq (b := t1) (by omega),
      ofNat_eq (b := t0) (by omega)]
    simp [Nat.add_assoc]
  | false =>
    rw [if_neg (by simp), or_bytes h2 h1 h0]
    unfold u32Set
    rw [ofNat_eq (b := t3) (by omega), ofNat_eq (b := t2) (by omega), ofNat_eq (b := t1) (by omega),
      ofNat_eq (b := t0) (by omega)]
    simp

/-- Three bytes as one number. -/
def join (x y z : UInt8) : Nat := x.toNat * 65536 + y.toNat * 256 + z.toNat

theorem join_lt (x y z : UInt8) : join x y z < 2 ^ 24 := by
  have hx : x.toNat < 256 := x.toNat_lt
  have hy : y.toNat < 256 := y.toNat_lt
  have hz : z.toNat < 256 := z.toNat_lt
  unfold join
  omega

/-- Encoding group by group. -/
def encodeGroups (a : Alphabet) : List UInt8 → List UInt8
  | x :: y :: z :: rest => quad a (join x y z) ++ encodeGroups a rest
  | [x, y] => [translate a (join x y 0) 3, translate a (join x y 0) 2, translate a (join x y 0) 1, pad]
  | [x] => [translate a (join x 0 0) 3, translate a (join x 0 0) 2, pad, pad]
  | [] => []

theorem u24Ref_append (before rest : List UInt8) (x y z : UInt8) :
    u24Ref (before ++ x :: y :: z :: rest) before.length = join x y z := by
  simp [u24Ref, join]

theorem getBits_one (before : List UInt8) (x : UInt8) :
    getBits (before ++ [x]) before.length = join x 0 0 := by
  simp [getBits, get, join, Nat.shiftLeft_eq]

theorem getBits_two (before : List UInt8) (x y : UInt8) :
    getBits (before ++ [x, y]) before.length = join x y 0 := by
  have hy : y.toNat < 256 := y.toNat_lt
  have hor := Nat.two_pow_add_eq_or_of_lt (show y.toNat * 256 < 2 ^ 16 by omega) x.toNat
  rw [Nat.mul_comm] at hor
  have hlt : ¬ before.length + 2 ≤ before.length := by omega
  simp [getBits, get, join, Nat.shiftLeft_eq, hlt]
  exact hor.symm

theorem exists_four {buf : List UInt8} (h : 4 ≤ buf.length) :
    ∃ x y z w rest, buf = x :: y :: z :: w :: rest := by
  match buf, h with
  | x :: y :: z :: w :: rest, _ => exact ⟨x, y, z, w, rest, rfl⟩

theorem encodeLoop_eq (narrow : Bool) {n : Nat} {suffix buf : List UInt8} (hs : suffix ≠ [])
    (hn : suffix.length ≤ n) (hb : buf.length = base64EncodedSize suffix.length) (before done : List UInt8) :
    encodeLoop a (before ++ suffix) narrow n before.length done.length (done ++ buf) =
      done ++ encodeGroups a suffix := by
  induction n generalizing suffix buf before done with
  | zero => exact absurd (List.eq_nil_of_length_eq_zero (by omega)) hs
  | succ n ih =>
    have hsize : 4 ≤ buf.length := by
      have hpos := List.length_pos_of_ne_nil hs
      rw [hb]
      unfold base64EncodedSize
      split <;> omega
    obtain ⟨b0, b1, b2, b3, buf, rfl⟩ := exists_four hsize
    rw [encodeLoop]
    match suffix, hs with
    | [x], _ =>
      obtain rfl : buf = [] := List.eq_nil_of_length_eq_zero (by simpa [base64EncodedSize] using hb)
      simp only [List.length_append, List.length_singleton]
      rw [if_neg (by omega), if_neg (by omega), getBits_one]
      simp [writePadded, encodeGroups]
    | [x, y], _ =>
      obtain rfl : buf = [] := List.eq_nil_of_length_eq_zero (by simpa [base64EncodedSize] using hb)
      have hone : before.length + 3 - (before.length + 2) = 1 := by omega
      simp only [List.length_append, List.length_cons, List.length_nil]
      rw [if_neg (by omega), if_neg (by omega), getBits_two, hone]
      simp [writePadded, encodeGroups]
    | [x, y, z], _ =>
      obtain rfl : buf = [] := List.eq_nil_of_length_eq_zero (by simpa [base64EncodedSize] using hb)
      rw [if_neg (by simp), if_pos (by simp), writeEncoded_append, u24Ref_append]
      simp [encodeGroups]
    | x :: y :: z :: r :: rest, _ =>
      have hlen : buf.length = base64EncodedSize (r :: rest).length := by
        simp only [List.length_cons, base64EncodedSize] at hb ⊢
        split <;> split at hb <;> omega
      have hnext := @ih (r :: rest) buf (by simp) (by simp at hn ⊢; omega) hlen (before ++ [x, y, z])
        (done ++ quad a (join x y z))
      simp only [List.length_append, List.length_cons]
      rw [if_pos (by omega), writeEncoded_append, u24Ref_append, encodeGroups]
      simp only [List.append_assoc, List.cons_append, List.nil_append, List.length_append, List.length_cons,
        List.length_nil, quad] at hnext ⊢
      exact hnext

theorem base64Encode_eq (a : Alphabet) (bv : List UInt8) (narrow : Bool) :
    base64Encode a bv narrow = encodeGroups a bv := by
  unfold base64Encode
  by_cases h : bv.length = 0
  · rw [if_pos h, List.eq_nil_of_length_eq_zero h]
    rfl
  · rw [if_neg h]
    exact encodeLoop_eq narrow (fun he => h (by rw [he]; rfl)) (Nat.le_refl _) (by rw [List.length_replicate])
      [] []

/-- The six bits of 24 that the k-th letter stands for. -/
def digit (bits : Nat) (k : Fin 4) : Nat := bits / 64 ^ (3 - k.val) % 64

theorem digit_lt (bits : Nat) (k : Fin 4) : digit bits k < 64 := by
  unfold digit
  omega

theorem pack_digit {bits : Nat} (h : bits < 2 ^ 24) : pack (digit bits) = bits := by
  show 2 ^ 18 * (bits / 64 ^ 3 % 64) + (2 ^ 12 * (bits / 64 ^ 2 % 64) +
    (2 ^ 6 * (bits / 64 ^ 1 % 64) + bits / 64 ^ 0 % 64)) = bits
  omega

theorem threeBytes_join (x y z : UInt8) : threeBytes (join x y z) = [x, y, z] := by
  have hy : y.toNat < 256 := y.toNat_lt
  have hz : z.toNat < 256 := z.toNat_lt
  have hx : x.toNat < 256 := x.toNat_lt
  unfold join
  rw [threeBytes_natCast, ofNat_eq (b := x) (by omega), ofNat_eq (b := y) (by omega),
    ofNat_eq (b := z) (by omega)]

theorem translate_mem (bits k : Nat) : translate a bits k ∈ a.encoding := by
  rw [translate_eq]
  exact a.letter_mem (by omega)

theorem value_translate (bits k : Nat) : a.value (translate a bits k) = bits / 64 ^ k % 64 := by
  rw [translate_eq, a.value_letter (by omega)]

theorem encodeGroups_length (a : Alphabet) (bv : List UInt8) :
    (encodeGroups a bv).length = 4 * ((bv.length + 2) / 3) := by
  induction bv using encodeGroups.induct with
  | case1 x y z rest ih =>
    simp only [encodeGroups, quad, List.length_append, List.length_cons, List.length_nil, ih]
    omega
  | case2 x y => simp [encodeGroups]
  | case3 x => simp [encodeGroups]
  | case4 => simp [encodeGroups]

theorem encodeGroups_mem (a : Alphabet) (bv : List UInt8) :
    ∀ b ∈ encodeGroups a bv, b ∈ a.encoding ∨ b = pad := by
  induction bv using encodeGroups.induct with
  | case1 x y z rest ih =>
    intro b hb
    rw [encodeGroups, List.mem_append] at hb
    rcases hb with hb | hb
    · simp only [quad, List.mem_cons, List.not_mem_nil, or_false] at hb
      rcases hb with rfl | rfl | rfl | rfl
      · exact .inl (translate_mem _ _)
      · exact .inl (translate_mem _ _)
      · exact .inl (translate_mem _ _)
      · exact .inl (translate_mem _ _)
    · exact ih b hb
  | case2 x y => simp [encodeGroups, translate_mem]
  | case3 x => simp [encodeGroups, translate_mem]
  | case4 => simp [encodeGroups]

theorem encodeGroups_wellFormed (a : Alphabet) (bv : List UInt8) : WellFormed a (encodeGroups a bv) := by
  induction bv using encodeGroups.induct with
  | case1 x y z rest ih =>
    rw [encodeGroups]
    have hquad : ∀ b ∈ quad a (join x y z), b ∈ a.encoding := by
      intro b hb
      simp only [quad, List.mem_cons, List.not_mem_nil, or_false] at hb
      rcases hb with rfl | rfl | rfl | rfl <;> exact translate_mem _ _
    cases rest with
    | nil => exact ⟨quad a (join x y z), [], by simp [encodeGroups], hquad, .inl rfl⟩
    | cons r rest =>
      have hlen := encodeGroups_length a (r :: rest)
      exact (wellFormed_append (by rw [hlen, List.length_cons]; omega)).mpr ⟨hquad, ih⟩
  | case2 x y =>
    rw [encodeGroups]
    exact ⟨[_, _, _], [pad], rfl, by simp [translate_mem], .inr (.inl rfl)⟩
  | case3 x =>
    rw [encodeGroups]
    exact ⟨[_, _], [pad, pad], rfl, by simp [translate_mem], .inr (.inr rfl)⟩
  | case4 =>
    rw [encodeGroups]
    exact ⟨[], [], rfl, by simp, .inl rfl⟩

theorem rfcDecode_encodeGroups (a : Alphabet) (bv : List UInt8) : rfcDecode a (encodeGroups a bv) = bv := by
  have hne : ∀ bits k, translate a bits k ≠ pad := fun bits k => a.ne_pad (translate_mem bits k)
  induction bv using encodeGroups.induct with
  | case1 x y z rest ih =>
    have hmem : ∀ k, group (translate a (join x y z) 3) (translate a (join x y z) 2) (translate a (join x y z) 1)
        (translate a (join x y z) 0) k ∈ a.encoding :=
      (forall_group (P := fun b => b ∈ a.encoding)).mpr
        ⟨translate_mem _ _, translate_mem _ _, translate_mem _ _, translate_mem _ _⟩
    have hval : (fun k => a.value (group (translate a (join x y z) 3) (translate a (join x y z) 2)
        (translate a (join x y z) 1) (translate a (join x y z) 0) k)) = digit (join x y z) := by
      funext k
      match k with
      | 0 => exact value_translate _ _
      | 1 => exact value_translate _ _
      | 2 => exact value_translate _ _
      | 3 => exact value_translate _ _
    have hgroup := rfcDecode_group hmem (encodeGroups a rest)
    rw [hval, pack_digit (join_lt x y z), threeBytes_join, ih] at hgroup
    exact hgroup
  | case2 x y =>
    have hthree := bytes_three (digit_lt (join x y 0))
    rw [pack_digit (join_lt x y 0), threeBytes_join] at hthree
    simp [rfcDecode, encodeGroups, hne, value_translate]
    exact hthree
  | case3 x =>
    have htwo := bytes_two (digit_lt (join x 0 0))
    rw [pack_digit (join_lt x 0 0), threeBytes_join] at htwo
    simp [rfcDecode, encodeGroups, hne, value_translate]
    exact htwo
  | case4 => rfl

/-- What is well formed is decoded as it should be. -/
theorem WellFormed.meets {n : Nat} {bv : List UInt8} (hn : bv.length = 4 * (n + 1)) (h : WellFormed a bv)
    (hmem : ∀ b ∈ bv, b ∈ a.encoding ∨ b = pad) : Meets a bv := by
  have hsmall : ∀ b, b ∈ a.encoding ∨ b = pad → b < 128 := by
    intro b hb
    rcases hb with hb | rfl
    · exact a.ascii b hb
    · decide
  induction n generalizing bv with
  | zero =>
    obtain ⟨x, y, z, w, rest, rfl, hrest⟩ := exists_group hn
    obtain rfl : rest = [] := List.eq_nil_of_length_eq_zero (by omega)
    have hall : ∀ k, group x y z w k ∈ a.encoding ∨ group x y z w k = pad :=
      (forall_group (P := fun b => b ∈ a.encoding ∨ b = pad)).mpr
        ⟨hmem x (by simp), hmem y (by simp), hmem z (by simp), hmem w (by simp)⟩
    exact ⟨fun k => hsmall _ (hall k), fun _ => .inr (.inr (.inr hall)), fun hne => absurd rfl hne⟩
  | succ n ih =>
    obtain ⟨x, y, z, w, rest, rfl, hrest⟩ := exists_group hn
    have hall : ∀ k, group x y z w k ∈ a.encoding ∨ group x y z w k = pad :=
      (forall_group (P := fun b => b ∈ a.encoding ∨ b = pad)).mpr
        ⟨hmem x (by simp), hmem y (by simp), hmem z (by simp), hmem w (by simp)⟩
    have hwf := ((@wellFormed_append a [x, y, z, w] rest (by omega)).mp h).2
    refine ⟨fun k => hsmall _ (hall k), fun he => ?_, fun _ _ => ih hrest hwf fun b hb => hmem b (by simp [hb])⟩
    rw [he] at hrest
    simp at hrest

/-- Decoding undoes encoding. -/
theorem base64_round_trip (a : Alphabet) (bv : List UInt8) (narrow : Bool) (machine : Machine) :
    base64Encode a bv true = base64Encode a bv false ∧
    (base64Encode a bv narrow).length = 4 * ((bv.length + 2) / 3) ∧
    (∀ b ∈ base64Encode a bv narrow, b ∈ a.encoding ∨ b = pad) ∧
    ∃ trace, base64Decode a machine (base64Encode a bv narrow) [] = .ok bv trace := by
  rw [base64Encode_eq, base64Encode_eq, base64Encode_eq]
  have hlen := encodeGroups_length a bv
  refine ⟨rfl, hlen, encodeGroups_mem a bv, ?_⟩
  have hmeets : Meets a (encodeGroups a bv) := by
    by_cases h0 : (bv.length + 2) / 3 = 0
    · rw [List.eq_nil_of_length_eq_zero (l := encodeGroups a bv) (by omega)]
      trivial
    · exact (encodeGroups_wellFormed a bv).meets (n := (bv.length + 2) / 3 - 1) (by omega)
        (encodeGroups_mem a bv)
  have hright : Correct a machine (encodeGroups a bv) := correct_of_meets a machine fun _ => hmeets
  obtain ⟨out, trace, hrun⟩ := hright.returns.mpr ⟨by omega, encodeGroups_wellFormed a bv⟩
  refine ⟨trace, ?_⟩
  rw [hrun, hright.result out trace hrun, rfcDecode_encodeGroups]

end Swish.Base64
