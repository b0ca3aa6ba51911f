import Swish.Digest.Digest

/-!
Hashes as hexadecimal strings: hash->hex-string, hex-string->hash and
bytevector->hex-string.
-/

set_option autoImplicit false

namespace Swish.Digest

open Swish.Lib Swish.Sha1

def digits : List Char := "0123456789abcdef".toList

def hashToHexString (bv : List UInt8) : List Char :=
  bv.flatMap fun b : UInt8 => [digits.getD (b >>> 4).toNat ' ', digits.getD (b &&& 0xF).toNat ' ']

/-- char-value, with the ranges of hex-val. -/
def hexVal (c : Char) : Option Nat :=
  if 48 ≤ c.toNat ∧ c.toNat ≤ 57 then some (c.toNat - 48)
  else if 97 ≤ c.toNat ∧ c.toNat ≤ 102 then some (10 + (c.toNat - 97))
  else if 65 ≤ c.toNat ∧ c.toNat ≤ 70 then some (10 + (c.toNat - 65))
  else none

/-- The loop over a string of even length. -/
def hexPairs : List Char → Option (List UInt8)
  | c :: c' :: s =>
    (hexVal c).bind fun hi => (hexVal c').bind fun lo => (hexPairs s).map fun bv => UInt8.ofNat (hi <<< 4 ||| lo) :: bv
  | _ => some []

def hexStringToHash (s : List Char) : Except Failure (List UInt8) :=
  if s.length % 2 = 0 then
    match hexPairs s with
    | some bv => .ok bv
    | none => .error (.badArg "hex-string->hash")
  else .error (.badArg "hex-string->hash")

/-- The capital digits as small ones. -/
def lower (c : Char) : Char :=
  if 65 ≤ c.toNat ∧ c.toNat ≤ 70 then Char.ofNat (c.toNat + 32) else c

theorem hexVal_digit : ∀ n < 16, hexVal (digits.getD n ' ') = some n ∧ lower (digits.getD n ' ') = digits.getD n ' ' := by
  decide

theorem hexVal_iff (c : Char) (n : Nat) : hexVal c = some n ↔ n < 16 ∧ lower c = digits.getD n ' ' := by
  have hall : ∀ k < 103, ∀ n < 16, hexVal (Char.ofNat k) = some n ↔ lower (Char.ofNat k) = digits.getD n ' ' := by
    decide +kernel
  have hdigits : ∀ n < 16, (digits.getD n ' ').toNat < 103 := by decide
  by_cases hc : c.toNat < 103
  · constructor
    · intro h
      have hn : n < 16 := by
        unfold hexVal at h
        split_ifs at h <;> simp only [Option.some.injEq] at h <;> omega
      have := (hall c.toNat hc n hn).mp (by rwa [Char.ofNat_toNat])
      rw [Char.ofNat_toNat] at this
      exact ⟨hn, this⟩
    · rintro ⟨hn, h⟩
      have := (hall c.toNat hc n hn).mpr (by rwa [Char.ofNat_toNat])
      rwa [Char.ofNat_toNat] at this
  · constructor
    · intro h
      unfold hexVal at h
      rw [if_neg (by omega), if_neg (by omega), if_neg (by omega)] at h
      cases h
    · rintro ⟨hn, h⟩
      rw [lower, if_neg (by omega)] at h
      have := hdigits n hn
      rw [← h] at this
      omega

theorem byte_of_nibbles : ∀ hi < 16, ∀ lo < 16,
    (UInt8.ofNat (hi <<< 4 ||| lo) >>> 4).toNat = hi ∧ (UInt8.ofNat (hi <<< 4 ||| lo) &&& 0xF).toNat = lo := by
  decide +kernel

theorem nibbles_of_byte : ∀ k < 256, (UInt8.ofNat k >>> 4).toNat < 16 ∧ (UInt8.ofNat k &&& 0xF).toNat < 16 ∧
    UInt8.ofNat ((UInt8.ofNat k >>> 4).toNat <<< 4 ||| (UInt8.ofNat k &&& 0xF).toNat) = UInt8.ofNat k := by
  decide +kernel

theorem hashToHexString_cons (b : UInt8) (bv : List UInt8) : hashToHexString (b :: bv) =
    digits.getD (b >>> 4).toNat ' ' :: digits.getD (b &&& 0xF).toNat ' ' :: hashToHexString bv := rfl

theorem hexPairs_iff (s : List Char) (bv : List UInt8) :
    (s.length % 2 = 0 ∧ hexPairs s = some bv) ↔ s.map lower = hashToHexString bv := by
  induction s using hexPairs.induct generalizing bv with
  | case1 c c' s ih =>
    rw [hexPairs, List.map_cons, List.map_cons, List.length_cons, List.length_cons]
    constructor
    · rintro ⟨heven, h⟩
      obtain ⟨hi, hhi, h⟩ := Option.bind_eq_some_iff.mp h
      obtain ⟨lo, hlo, h⟩ := Option.bind_eq_some_iff.mp h
      obtain ⟨rest, hrest, rfl⟩ := Option.map_eq_some_iff.mp h
      obtain ⟨hi16, hhi⟩ := (hexVal_iff c hi).mp hhi
      obtain ⟨lo16, hlo⟩ := (hexVal_iff c' lo).mp hlo
      obtain ⟨hhigh, hlow⟩ := byte_of_nibbles hi hi16 lo lo16
      rw [hashToHexString_cons, hhigh, hlow, ← hhi, ← hlo, (ih rest).mp ⟨by omega, hrest⟩]
    · intro h
      cases bv with
      | nil => cases h
      | cons b bv =>
        have hb := nibbles_of_byte b.toNat b.toNat_lt
        rw [UInt8.ofNat_toNat] at hb
        rw [hashToHexString_cons, List.cons.injEq, List.cons.injEq] at h
        obtain ⟨heven, hrest⟩ := (ih bv).mpr h.2.2
        refine ⟨by omega, ?_⟩
        rw [(hexVal_iff c _).mpr ⟨hb.1, h.1⟩, Option.bind_some, (hexVal_iff c' _).mpr ⟨hb.2.1, h.2.1⟩, Option.bind_some,
          hrest, Option.map_some, hb.2.2]
  | case2 s hs =>
    match s, hs with
    | [], _ => cases bv <;> simp [hexPairs, hashToHexString]
    | [c], _ => cases bv <;> simp [hashToHexString]
    | c :: c' :: s, hs => exact absurd rfl (hs c c' s)

/-- A string is read as some bytes exactly when with small letters it is what is written for them. -/
theorem hexStringToHash_iff (s : List Char) (bv : List UInt8) :
    hexStringToHash s = .ok bv ↔ s.map lower = hashToHexString bv := by
  rw [← hexPairs_iff s, hexStringToHash]
  by_cases heven : s.length % 2 = 0
  · rw [if_pos heven]
    cases hexPairs s with
    | none => simp
    | some rest => simp [heven]
  · simp [heven]

/-- Small letters are written. -/
theorem map_lower_hashToHexString (bv : List UInt8) : (hashToHexString bv).map lower = hashToHexString bv := by
  induction bv with
  | nil => rfl
  | cons b bv ih =>
    have hb := nibbles_of_byte b.toNat b.toNat_lt
    rw [UInt8.ofNat_toNat] at hb
    rw [hashToHexString_cons, List.map_cons, List.map_cons, ih, (hexVal_digit _ hb.1).2, (hexVal_digit _ hb.2.1).2]

/-- The round trip, and exactly which strings are read as what. -/
theorem hex_string_exact :
    (∀ bv, hexStringToHash (hashToHexString bv) = .ok bv) ∧
      ∀ s bv, hexStringToHash s = .ok bv ↔ s.map lower = hashToHexString bv :=
  ⟨fun bv => (hexStringToHash_iff _ bv).mpr (map_lower_hashToHexString bv), hexStringToHash_iff⟩

/-! bytevector->hex-string. -/

/-- The loop from i on. -/
def hashBlocks (bv : List UInt8) (blockSize : Nat) (hpos : 0 < blockSize) (i : Nat) (md : Ctx) :
    Option (Except Failure Value × Ctx) :=
  if bv.length ≤ i then some (.ok .void, md)
  else
    (hashPart md bv i (min blockSize (bv.length - i) : Nat)).bind fun r =>
      match r.1 with
      | .ok _ => hashBlocks bv blockSize hpos (i + blockSize) r.2
      | .error e => some (.error e, r.2)
termination_by bv.length - i

/-- open-digest* with the default provider. -/
def openDigest (garbage : Context) (digestName : String) (maybeHmac : Option (List UInt8)) : Except Failure Ctx :=
  if digestName ≠ "SHA1" then .error (.badArg "bytevector->hex-string")
  else if maybeHmac.isSome then .error (.badArg "bytevector->hex-string")
  else .ok (osiOpenSha1 garbage)

/-- What is done between open-digest* and close-digest. -/
def hexOfDigest (bv : List UInt8) (blockSize : Nat) (hpos : 0 < blockSize) (md : Ctx) :
    Option (Except Failure (List Char)) :=
  (hashBlocks bv blockSize hpos 0 md).bind fun r =>
    match r.1 with
    | .error e => some (.error e)
    | .ok _ => (getHash r.2).map fun r =>
      match r.1 with
      | .ok (.bytes digest) => .ok (hashToHexString digest)
      | .ok .void => .error (.badArg "hash->hex-string")
      | .error e => .error e

def bytevectorToHexString (garbage : Context) (bv : List UInt8) (digestName : String) (blockSize : Int) :
    Option (Except Failure (List Char)) :=
  if h : fixnumGe 1 blockSize then
    match openDigest garbage digestName none with
    | .error e => some (.error e)
    | .ok md => hexOfDigest bv blockSize.toNat (by have := h.1; omega) md
  else some (.error (.badArg "bytevector->hex-string"))

theorem hashPart_stands {md : Ctx} {p : Phase} (h : Stands md p) (data : List UInt8) (startIndex size : Nat)
    (hstart : startIndex < 2 ^ 60) (hpos : 0 < size) (hsize : size < 2 ^ 60) :
    Option.Rel (Same Stands) (hashPart md data startIndex size) (p.addPart data startIndex size) := by
  have hargs : fixnumGe 0 startIndex ∧ fixnumGe 1 size := by
    unfold fixnumGe mostPositiveFixnum
    omega
  rw [hashPart, if_pos hargs]
  exact helpHash_stands h data (by simp only [Int.toNat_natCast]; omega) size

theorem addPart_taking (m data : List UInt8) (startIndex size : Nat) : (Phase.taking m).addPart data startIndex size =
    if 2 ^ 32 ≤ size then some (.error .foreignArg, .taking m)
    else if data.length < startIndex + size then
      some (.error (.ioError "osi_hash_data" "osi_hash_data" einval), .taking m)
    else (Phase.taking m).add ((data.drop startIndex).take size) := rfl

/-- A part that fits is added. -/
theorem hashPart_ok {md : Ctx} {bv : List UInt8} {i size : Nat} (h : Stands md (.taking (bv.take i)))
    (hlen : bv.length < 2 ^ 60) (hpos : 0 < size) (hsize : size < 2 ^ 32) (hlast : i + size ≤ bv.length) :
    ∃ md', hashPart md bv i size = some (.ok .void, md') ∧ Stands md' (.taking (bv.take (i + size))) := by
  have hrel := hashPart_stands h bv i size (by omega) hpos (by omega)
  have hcount : (bv.take i).length + ((bv.drop i).take size).length < 2 ^ 61 := by
    rw [List.length_take, List.length_take, List.length_drop]
    omega
  rw [addPart_taking, if_neg (by omega), if_neg (by omega), Phase.add, if_pos hcount, ← List.take_add] at hrel
  exact exists_of_rel hrel

theorem hashBlocks_ok {bv : List UInt8} {blockSize : Nat} (hpos : 0 < blockSize) (hlen : bv.length < 2 ^ 60)
    (hsmall : min blockSize bv.length < 2 ^ 32) {i : Nat} {md : Ctx} (h : Stands md (.taking (bv.take i))) :
    ∃ md', hashBlocks bv blockSize hpos i md = some (.ok .void, md') ∧ Stands md' (.taking bv) := by
  induction hn : bv.length - i using Nat.strong_induction_on generalizing i md with
  | h n ih =>
    rw [hashBlocks]
    by_cases hend : bv.length ≤ i
    · rw [if_pos hend]
      exact ⟨md, rfl, by rwa [List.take_of_length_le hend] at h⟩
    · obtain ⟨md₁, hpart, h₁⟩ := @hashPart_ok md bv i (min blockSize (bv.length - i)) h hlen (by omega) (by omega)
        (by omega)
      rw [if_neg hend, hpart]
      have htake : bv.take (i + min blockSize (bv.length - i)) = bv.take (i + blockSize) := by
        by_cases hlast : blockSize ≤ bv.length - i
        · rw [Nat.min_eq_left hlast]
        · rw [List.take_of_length_le (by omega), List.take_of_length_le (by omega)]
      rw [htake] at h₁
      exact ih (bv.length - (i + blockSize)) (by omega) h₁ rfl

/-- A block that is too long for osi_hash_data: the first is. -/
theorem hashBlocks_foreignArg {bv : List UInt8} {blockSize : Nat} (hpos : 0 < blockSize) (hlen : bv.length < 2 ^ 60)
    (hbig : 2 ^ 32 ≤ min blockSize bv.length) {md : Ctx} (h : Stands md (.taking [])) :
    ∃ md', hashBlocks bv blockSize hpos 0 md = some (.error .foreignArg, md') := by
  have hrel := hashPart_stands h bv 0 (min blockSize (bv.length - 0)) (by decide) (by omega)
    (by omega)
  rw [addPart_taking, if_pos (by omega)] at hrel
  obtain ⟨md', hpart, -⟩ := exists_of_rel hrel
  refine ⟨md', ?_⟩
  rw [hashBlocks, if_neg (by omega)]
  exact congrArg (fun x => Option.bind x _) hpart

theorem getHash_taking {md : Ctx} {m : List UInt8} (h : Stands md (.taking m)) :
    ∃ md', getHash md = some (.ok (.bytes (sha1 (bytesBits m))), md') := by
  obtain ⟨md', hget, -⟩ := exists_of_rel (getHash_stands h)
  exact ⟨md', hget⟩

/-- The block size does not matter, unless it makes a block of 2^32 bytes. -/
theorem bytevectorToHexString_eq (garbage : Context) (bv : List UInt8) (blockSize : Int) (hblock : fixnumGe 1 blockSize)
    (hlen : bv.length < 2 ^ 60) :
    bytevectorToHexString garbage bv "SHA1" blockSize = some
      (if min blockSize.toNat bv.length < 2 ^ 32 then .ok (hashToHexString (sha1 (bytesBits bv)))
      else .error .foreignArg) := by
  have hpos : 0 < blockSize.toNat := by
    have := hblock.1
    omega
  have hstart : Stands (osiOpenSha1 garbage) (.taking []) := .taking (represents_reset garbage)
  have hopen : openDigest garbage "SHA1" none = .ok (osiOpenSha1 garbage) := rfl
  rw [bytevectorToHexString, dif_pos hblock, hopen]
  simp only [hexOfDigest]
  by_cases hsmall : min blockSize.toNat bv.length < 2 ^ 32
  · obtain ⟨md₁, hblocks, h₁⟩ := hashBlocks_ok hpos hlen hsmall (i := 0) hstart
    obtain ⟨md₂, hget⟩ := getHash_taking h₁
    rw [if_pos hsmall, hblocks, Option.bind_some]
    simp only [hget, Option.map_some]
  · obtain ⟨md₁, hblocks⟩ := hashBlocks_foreignArg hpos hlen (by omega) hstart
    rw [if_neg hsmall, hblocks]
    rfl

theorem bytevectorToHexString_eq_abc :
    bytevectorToHexString ⟨Vector.replicate 5 0, 0, 0, 0, Vector.replicate 64 0, false, .success⟩ [97, 98, 99] "SHA1" 2 =
      some (.ok (hashToHexString (sha1 (bytesBits [97, 98, 99])))) :=
  bytevectorToHexString_eq ⟨Vector.replicate 5 0, 0, 0, 0, Vector.replicate 64 0, false, .success⟩ [97, 98, 99] 2
    (by decide) (by decide)

end Swish.Digest
