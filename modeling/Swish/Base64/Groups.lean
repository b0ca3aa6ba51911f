import Swish.Base64.Codec
import Swish.Lib.Bits

/-!
One group of base64-decode. As long as no byte of a group has its high bit set, the
order of evaluation and the memory around the table do not matter, and the four groups
of six bits are three bytes.
-/

set_option autoImplicit false

namespace Swish.Base64

open Swish.Lib

variable {α β : Type} {a : Alphabet} {machine : Machine}

theorem fillDecode_get (bv : List UInt8) (hnd : bv.Nodup) (i : Nat) (out : List UInt8)
    (hlen : out.length = 256) (b : UInt8) :
    (fillDecode bv i out)[b.toNat]? =
      if b ∈ bv then some (UInt8.ofNat (i + bv.idxOf b)) else out[b.toNat]? := by
  induction bv generalizing i out with
  | nil => simp [fillDecode]
  | cons x bv ih =>
    obtain ⟨hx, hnd⟩ := List.nodup_cons.mp hnd
    rw [fillDecode, ih hnd (i + 1) _ (by simpa using hlen)]
    by_cases hb : b = x
    · subst hb
      have hlt : b.toNat < out.length := by
        rw [hlen]
        exact b.toNat_lt
      simp [hx, hlt]
    · have hne : x.toNat ≠ b.toNat := fun h => hb (UInt8.toNat_inj.mp h).symm
      have hadd : i + 1 + bv.idxOf b = i + (bv.idxOf b + 1) := by omega
      rw [List.getElem?_set_ne hne, List.idxOf_cons_ne _ (Ne.symm hb), hadd]
      simp [hb]

/-- The six bits a byte stands for. -/
def Alphabet.value (a : Alphabet) (b : UInt8) : Nat := a.encoding.idxOf b

theorem Alphabet.value_lt {b : UInt8} (h : b ∈ a.encoding) : a.value b < 64 := by
  rw [← a.length]
  exact List.idxOf_lt_length_of_mem h

/-- What the table says about a byte. -/
def Alphabet.tableBits (a : Alphabet) (b : UInt8) : Int := if b ∈ a.encoding then a.value b else -1

theorem decoding_get (a : Alphabet) (b : UInt8) :
    a.decoding[b.toNat]? = some (if b ∈ a.encoding then UInt8.ofNat (a.value b) else 255) := by
  have hlt : b.toNat < 256 := b.toNat_lt
  rw [Alphabet.decoding, encodeToDecode, fillDecode_get _ a.nodup 0 _ List.length_replicate b]
  split
  · simp [Alphabet.value]
  · rw [List.getElem?_replicate, if_pos hlt]

theorem signed_small {b : UInt8} (h : b < 128) : signed b = b.toNat := if_pos h

theorem s8Ref_small (beyond : Int → UInt8) {b : UInt8} (h : b < 128) :
    s8Ref a.decoding beyond (signed b) = a.tableBits b := by
  rw [signed_small h, s8Ref, if_pos (by omega), Int.toNat_natCast, decoding_get, Option.getD_some,
    Alphabet.tableBits]
  by_cases hb : b ∈ a.encoding
  · have hv := a.value_lt hb
    have hn : (UInt8.ofNat (a.value b)).toNat = a.value b := by
      rw [UInt8.toNat_ofNat']
      omega
    have hs : UInt8.ofNat (a.value b) < 128 := by
      rw [UInt8.lt_iff_toNat_lt, hn]
      show _ < 128
      omega
    rw [if_pos hb, if_pos hb, signed_small hs, hn]
  · rw [if_neg hb, if_neg hb]
    rfl

/-- A result of m with the trace it adds: the same from every trace, and with
indices inside of the table only. -/
def Yields (m : Decode α) (r : Except BadArg α) : Prop :=
  ∀ trace, ∃ ext : List Int, (∀ i ∈ ext, 0 ≤ i ∧ i < 256) ∧
    m trace = match r with
      | .ok x => .ok x (trace ++ ext)
      | .error e => .error e (trace ++ ext)

namespace Yields

variable {m : Decode α} {f : α → Decode β} {r : Except BadArg β} {x : α} {e : BadArg}

theorem bind (h : Yields m (.ok x)) (hf : Yields (f x) r) : Yields (m >>= f) r := by
  intro trace
  obtain ⟨ext, h1, h2⟩ := h trace
  obtain ⟨ext', h3, h4⟩ := hf (trace ++ ext)
  refine ⟨ext ++ ext', fun i hi => ?_, ?_⟩
  · rcases List.mem_append.mp hi with hi | hi
    · exact h1 i hi
    · exact h3 i hi
  · show EStateM.bind m f trace = _
    unfold EStateM.bind
    rw [h2, ← List.append_assoc]
    exact h4

theorem bind_error (h : Yields m (.error e)) : Yields (m >>= f) (.error e) := by
  intro trace
  obtain ⟨ext, h1, h2⟩ := h trace
  refine ⟨ext, h1, ?_⟩
  show EStateM.bind m f trace = _
  unfold EStateM.bind
  rw [h2]

theorem pure (x : α) : Yields (pure x) (.ok x) :=
  fun trace => ⟨[], by simp, by rw [List.append_nil]; rfl⟩

theorem throw (e : BadArg) : Yields (throw e : Decode α) (.error e) :=
  fun trace => ⟨[], by simp, by rw [List.append_nil]; rfl⟩

end Yields

theorem toBits_yields {b : UInt8} (h : b < 128) :
    Yields (toBits a machine (signed b)) (.ok (a.tableBits b)) := by
  intro trace
  refine ⟨[signed b], fun i hi => ?_, ?_⟩
  · rw [List.mem_singleton.mp hi, signed_small h]
    have hlt : b.toNat < 256 := b.toNat_lt
    omega
  · unfold toBits
    rw [s8Ref_small machine.beyond h]

theorem check_yields (x : Int) : Yields (check x) (if 0 ≤ x then .ok x else .error ⟨⟩) := by
  unfold check
  split
  · exact .pure x
  · exact .throw _

theorem tableBits_nonneg (b : UInt8) : 0 ≤ a.tableBits b ↔ b ∈ a.encoding := by
  unfold Alphabet.tableBits
  split
  · rename_i hb
    exact ⟨fun _ => hb, fun _ => by omega⟩
  · rename_i hb
    exact ⟨fun h => by omega, fun h => absurd h hb⟩

theorem checked_yields {b : UInt8} (h : b < 128) :
    Yields (do check (← toBits a machine (signed b)))
      (if b ∈ a.encoding then .ok (a.value b : Int) else .error ⟨⟩) := by
  refine (toBits_yields h).bind ?_
  have hc := check_yields (a.tableBits b)
  simp only [tableBits_nonneg] at hc
  by_cases hb : b ∈ a.encoding
  · rw [if_pos hb] at hc ⊢
    rw [Alphabet.tableBits, if_pos hb] at hc
    rw [Alphabet.tableBits, if_pos hb]
    exact hc
  · rw [if_neg hb] at hc ⊢
    exact hc

/-- What pad-or-bits makes of a byte. -/
def Alphabet.lastBits (a : Alphabet) (b : UInt8) : Int := if b = pad then 0 else a.tableBits b

theorem signed_eq_pad (b : UInt8) : signed b = signed pad ↔ b = pad := by
  constructor
  · intro h
    have hp : signed pad = 61 := by decide
    rw [hp, signed] at h
    have hlt : b.toNat < 256 := b.toNat_lt
    have hpad : pad.toNat = 61 := rfl
    split at h
    · exact UInt8.toNat_inj.mp (by omega)
    · omega
  · intro h
    rw [h]

theorem padOrBits_yields {b : UInt8} (h : b < 128) :
    Yields (padOrBits a machine (signed b)) (.ok (a.lastBits b)) := by
  unfold padOrBits Alphabet.lastBits
  by_cases hb : b = pad
  · rw [if_pos ((signed_eq_pad b).mpr hb), if_pos hb]
    exact .pure 0
  · rw [if_neg fun h1 => hb ((signed_eq_pad b).mp h1), if_neg hb]
    exact toBits_yields h

theorem evalArgs_yields {arg : Fin 4 → Decode Int} {val : Fin 4 → Int} (h : ∀ k, Yields (arg k) (.ok (val k)))
    (ks : List (Fin 4)) (v : Fin 4 → Int) :
    Yields (evalArgs arg ks v) (.ok fun i => if i ∈ ks then val i else v i) := by
  induction ks generalizing v with
  | nil => exact Yields.pure v
  | cons k ks ih =>
    refine (h k).bind ?_
    have hnext := ih fun i => if i = k then val k else v i
    have hfun : (fun i => if i ∈ ks then val i else if i = k then val k else v i) =
        fun i => if i ∈ k :: ks then val i else v i := by
      funext i
      by_cases hik : i = k
      · subst hik
        simp
      · simp [hik]
    rw [hfun] at hnext
    exact hnext

theorem evalArgs_fails {arg : Fin 4 → Decode Int} {res : Fin 4 → Except BadArg Int}
    (h : ∀ k, Yields (arg k) (res k)) {ks : List (Fin 4)} (v : Fin 4 → Int)
    (hk : ∃ k ∈ ks, res k = .error ⟨⟩) : Yields (evalArgs arg ks v) (.error ⟨⟩) := by
  induction ks generalizing v with
  | nil => simp at hk
  | cons k ks ih =>
    have hfirst := h k
    cases hres : res k with
    | error e =>
      rw [hres] at hfirst
      exact hfirst.bind_error
    | ok x =>
      rw [hres] at hfirst
      obtain ⟨k', hmem, hk'⟩ := hk
      refine hfirst.bind (ih _ ⟨k', ?_, hk'⟩)
      rcases List.mem_cons.mp hmem with rfl | hmem
      · rw [hres] at hk'
        cases hk'
      · exact hmem

theorem Machine.mem_order (machine : Machine) (k : Fin 4) : k ∈ machine.order := by
  rw [machine.perm.mem_iff]
  revert k
  decide

/-- The number that fxlogor makes of four six-bit groups. -/
def orShifts (v : Fin 4 → Int) : Int :=
  (shift (v 0) 0).lor ((shift (v 1) 1).lor ((shift (v 2) 2).lor (shift (v 3) 3)))

/-- Six bits of one byte on their place. -/
theorem arg_yields {get : Int → Decode Int} {q : Fin 4 → Int} {k : Fin 4} {r : Except BadArg Int}
    (h : Yields (if k = 0 then do check (← toBits a machine (q k)) else get (q k)) r) :
    Yields (if k = 0 then do return shift (← check (← toBits a machine (q k))) k
      else do return shift (← get (q k)) k) (r.map fun x => shift x k) := by
  have hmap : ∀ m : Decode Int, Yields m r →
      Yields (do let x ← m; return shift x k) (r.map fun x => shift x k) := by
    intro m hm
    cases r with
    | ok x => exact hm.bind (.pure _)
    | error e => exact hm.bind_error
  by_cases h0 : k = 0
  · rw [if_pos h0] at h ⊢
    have hm := hmap _ h
    rw [bind_assoc] at hm
    exact hm
  · rw [if_neg h0] at h ⊢
    exact hmap _ h

theorem combine_yields {get : Int → Decode Int} {q : Fin 4 → Int} {val : Fin 4 → Int}
    (h : ∀ k, Yields (if k = 0 then do check (← toBits a machine (q k)) else get (q k)) (.ok (val k))) :
    Yields (combine a machine get q) (.ok (orShifts val)) := by
  refine (evalArgs_yields (fun k => arg_yields (h k)) machine.order fun _ => 0).bind ?_
  simp only [machine.mem_order, if_true]
  exact .pure _

theorem combine_fails {get : Int → Decode Int} {q : Fin 4 → Int} {res : Fin 4 → Except BadArg Int}
    (h : ∀ k, Yields (if k = 0 then do check (← toBits a machine (q k)) else get (q k)) (res k))
    (hk : ∃ k, res k = .error ⟨⟩) : Yields (combine a machine get q) (.error ⟨⟩) := by
  obtain ⟨k, hk⟩ := hk
  exact (evalArgs_fails (fun k => arg_yields (h k)) _
    ⟨k, machine.mem_order k, by rw [hk]; rfl⟩).bind_error

/-- Four bytes of the input. -/
abbrev Group := Fin 4 → UInt8

/-- No byte of a group is negative as bytevector-s8-ref gives it. -/
def Ascii (g : Group) : Prop := ∀ k, g k < 128

theorem combine_full {g : Group} (hg : Ascii g) :
    Yields (combine a machine (checkGetBits a machine) fun k => signed (g k))
      (if ∀ k, g k ∈ a.encoding then .ok (orShifts fun k => a.value (g k)) else .error ⟨⟩) := by
  have harg : ∀ k : Fin 4, Yields (if k = 0 then do check (← toBits a machine (signed (g k)))
      else checkGetBits a machine (signed (g k)))
      (if g k ∈ a.encoding then .ok (a.value (g k) : Int) else .error ⟨⟩) := by
    intro k
    have hk := @checked_yields a machine _ (hg k)
    by_cases h0 : k = 0
    · rw [if_pos h0]
      exact hk
    · rw [if_neg h0]
      exact hk
  split
  · rename_i hall
    refine combine_yields fun k => ?_
    have hk := harg k
    rw [if_pos (hall k)] at hk
    exact hk
  · rename_i hall
    refine combine_fails harg ?_
    obtain ⟨k, hk⟩ := not_forall.mp hall
    exact ⟨k, if_neg hk⟩

/-- The six bits of the last group; only its first byte is checked. -/
def Alphabet.lastGroup (a : Alphabet) (g : Group) : Fin 4 → Int :=
  fun k => if k = 0 then a.value (g k) else a.lastBits (g k)

theorem combine_last {g : Group} (hg : Ascii g) :
    Yields (combine a machine (padOrBits a machine) fun k => signed (g k))
      (if g 0 ∈ a.encoding then .ok (orShifts (a.lastGroup g)) else .error ⟨⟩) := by
  have hfirst := @checked_yields a machine _ (hg 0)
  split
  · rename_i h0
    rw [if_pos h0] at hfirst
    refine combine_yields fun k => ?_
    by_cases hk : k = 0
    · subst hk
      exact hfirst
    · rw [if_neg hk, Alphabet.lastGroup, if_neg hk]
      exact padOrBits_yields (hg k)
  · rename_i h0
    rw [if_neg h0] at hfirst
    refine @combine_fails a machine _ _ (fun k => if k = 0 then .error ⟨⟩ else .ok (a.lastBits (g k)))
      (fun k => ?_) ⟨0, rfl⟩
    by_cases hk : k = 0
    · subst hk
      exact hfirst
    · rw [if_neg hk, if_neg hk]
      exact padOrBits_yields (hg k)

/-- Four six-bit groups as one number. -/
def pack (n : Fin 4 → Nat) : Nat := 2 ^ 18 * n 0 + (2 ^ 12 * n 1 + (2 ^ 6 * n 2 + n 3))

theorem orShifts_eq {n : Fin 4 → Nat} (h : ∀ k, n k < 64) : orShifts (fun k => (n k : Int)) = pack n := by
  have h1 := h 1
  have h2 := h 2
  have h3 := h 3
  have hshift : ∀ (x : Nat) (k : Fin 4), shift (x : Int) k = ((2 ^ (24 - 6 * (k.val + 1)) * x : Nat) : Int) := by
    intro x k
    unfold shift
    push_cast
    rw [Int.mul_comm]
  unfold orShifts pack
  rw [hshift, hshift, hshift, hshift, Nat.two_pow_add_eq_or_of_lt (by omega), Nat.two_pow_add_eq_or_of_lt (by omega),
    Nat.two_pow_add_eq_or_of_lt (by omega)]
  have hlast : 2 ^ (24 - 6 * ((3 : Fin 4).val + 1)) * n 3 = n 3 := Nat.one_mul _
  rw [hlast]
  rfl

/-- The bytes that bytevector-u24-set! stores. -/
def threeBytes (v : Int) : List UInt8 := [lowByte (v / 65536), lowByte (v / 256), lowByte v]

theorem u24Set_append (done rest : List UInt8) (x y z : UInt8) (v : Int) :
    u24Set (done ++ x :: y :: z :: rest) done.length v = done ++ (threeBytes v ++ rest) := by
  unfold u24Set threeBytes
  simp

theorem lowByte_natCast (n : Nat) : lowByte n = UInt8.ofNat n := by
  unfold lowByte
  apply UInt8.toNat_inj.mp
  rw [UInt8.toNat_ofNat', UInt8.toNat_ofNat']
  omega

theorem threeBytes_natCast (n : Nat) :
    threeBytes n = [UInt8.ofNat (n / 65536), UInt8.ofNat (n / 256), UInt8.ofNat n] := by
  unfold threeBytes
  rw [← lowByte_natCast, ← lowByte_natCast, ← lowByte_natCast]
  push_cast
  rfl

/-- Four groups of six bits are three bytes. -/
theorem bytes_pack {n : Fin 4 → Nat} (h : ∀ k, n k < 64) (rest : List Bool) :
    bytes (bits 6 (n 0) ++ (bits 6 (n 1) ++ (bits 6 (n 2) ++ (bits 6 (n 3) ++ rest)))) =
      threeBytes (pack n) ++ bytes rest := by
  have h1 := h 1
  have h2 := h 2
  have h3 := h 3
  have hsix : bits 24 (pack n) = bits 6 (n 0) ++ (bits 6 (n 1) ++ (bits 6 (n 2) ++ bits 6 (n 3))) := by
    have d0 : pack n / 2 ^ 18 = n 0 := by
      unfold pack
      omega
    have d1 : pack n / 2 ^ 12 = n 0 * 2 ^ 6 + n 1 := by
      unfold pack
      omega
    have d2 : pack n / 2 ^ 6 = (n 0 * 2 ^ 6 + n 1) * 2 ^ 6 + n 2 := by
      unfold pack
      omega
    have d3 : pack n = ((n 0 * 2 ^ 6 + n 1) * 2 ^ 6 + n 2) * 2 ^ 6 + n 3 := by
      unfold pack
      omega
    rw [bits_append 6 18, bits_append 6 12, bits_append 6 6, d0, d1, d2, bits_mul_add, bits_mul_add]
    nth_rewrite 1 [d3]
    rw [bits_mul_add]
  have height : bits 24 (pack n) = bits 8 (pack n / 65536) ++ (bits 8 (pack n / 256) ++ bits 8 (pack n)) := by
    have hlow : bits 16 (pack n) = bits 8 (pack n / 256) ++ bits 8 (pack n) := bits_append 8 8 _
    rw [← hlow]
    exact bits_append 8 16 _
  have hall : bits 6 (n 0) ++ (bits 6 (n 1) ++ (bits 6 (n 2) ++ (bits 6 (n 3) ++ rest))) =
      bits 8 (pack n / 65536) ++ (bits 8 (pack n / 256) ++ (bits 8 (pack n) ++ rest)) := by
    have he := congrArg (· ++ rest) (hsix.symm.trans height)
    simpa only [List.append_assoc] using he
  rw [hall, bytes_bits, bytes_bits, bytes_bits, threeBytes_natCast]
  rfl

/-- Two groups of six bits are one byte. -/
theorem bytes_two {n : Fin 4 → Nat} (h : ∀ k, n k < 64) :
    bytes (bits 6 (n 0) ++ bits 6 (n 1)) = (threeBytes (pack n)).take 1 := by
  have h1 := h 1
  have h2 := h 2
  have h3 := h 3
  have hfour : bits 6 (n 0) ++ bits 6 (n 1) = bits 8 (n 0 * 4 + n 1 / 16) ++ bits 4 (n 1) := by
    have hsix : bits 12 (n 0 * 2 ^ 6 + n 1) = bits 6 (n 0) ++ bits 6 (n 1) := by
      have d1 : (n 0 * 2 ^ 6 + n 1) / 2 ^ 6 = n 0 := by omega
      rw [bits_append 6 6, bits_mul_add, d1]
    have d2 : (n 0 * 2 ^ 6 + n 1) / 2 ^ 4 = n 0 * 4 + n 1 / 16 := by omega
    have hlow := bits_mul_add 4 (n 0 * 4) (n 1)
    rw [show n 0 * 4 * 2 ^ 4 + n 1 = n 0 * 2 ^ 6 + n 1 from by omega] at hlow
    rw [← hsix, bits_append 8 4, d2, hlow]
  have hbyte : pack n / 65536 = n 0 * 4 + n 1 / 16 := by
    unfold pack
    omega
  rw [hfour, bytes_bits, bytes_of_short (by simp), threeBytes_natCast, hbyte]
  rfl

/-- Three groups of six bits are two bytes. -/
theorem bytes_three {n : Fin 4 → Nat} (h : ∀ k, n k < 64) :
    bytes (bits 6 (n 0) ++ (bits 6 (n 1) ++ bits 6 (n 2))) = (threeBytes (pack n)).take 2 := by
  have h1 := h 1
  have h2 := h 2
  have h3 := h 3
  have height : bits 6 (n 0) ++ (bits 6 (n 1) ++ bits 6 (n 2)) =
      bits 8 (n 0 * 4 + n 1 / 16) ++ (bits 8 (n 0 * 1024 + n 1 * 16 + n 2 / 4) ++ bits 2 (n 2)) := by
    have hsix : bits 18 ((n 0 * 2 ^ 6 + n 1) * 2 ^ 6 + n 2) =
        bits 6 (n 0) ++ (bits 6 (n 1) ++ bits 6 (n 2)) := by
      have d1 : ((n 0 * 2 ^ 6 + n 1) * 2 ^ 6 + n 2) / 2 ^ 6 = n 0 * 2 ^ 6 + n 1 := by omega
      have d2 : ((n 0 * 2 ^ 6 + n 1) * 2 ^ 6 + n 2) / 2 ^ 12 = n 0 := by omega
      rw [bits_append 6 12, bits_append 6 6, bits_mul_add, d1, d2, bits_mul_add]
    have d3 : ((n 0 * 2 ^ 6 + n 1) * 2 ^ 6 + n 2) / 2 ^ 10 = n 0 * 4 + n 1 / 16 := by omega
    have d4 : ((n 0 * 2 ^ 6 + n 1) * 2 ^ 6 + n 2) / 2 ^ 2 = n 0 * 1024 + n 1 * 16 + n 2 / 4 := by omega
    have hlow := bits_mul_add 2 ((n 0 * 2 ^ 6 + n 1) * 2 ^ 4) (n 2)
    rw [show (n 0 * 2 ^ 6 + n 1) * 2 ^ 4 * 2 ^ 2 + n 2 = (n 0 * 2 ^ 6 + n 1) * 2 ^ 6 + n 2 from by omega]
      at hlow
    rw [← hsix, bits_append 8 10, bits_append 8 2, d3, d4, hlow]
  have hone : pack n / 65536 = n 0 * 4 + n 1 / 16 := by
    unfold pack
    omega
  have htwo : pack n / 256 = n 0 * 1024 + n 1 * 16 + n 2 / 4 := by
    unfold pack
    omega
  rw [height, bytes_bits, bytes_bits, bytes_of_short (by simp), threeBytes_natCast, hone, htwo]
  rfl

end Swish.Base64
