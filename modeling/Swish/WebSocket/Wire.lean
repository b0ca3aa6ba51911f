import Swish.WebSocket.Payloads

/-!
Frames as bytes, in any of the three forms of the length, and what read-frame makes
of them.
-/

set_option autoImplicit false

namespace Swish.WebSocket

open Swish.Lib

/-- The forms of a length. -/
inductive LengthForm where
  | byte | word | quad
  deriving DecidableEq

/-- The lengths that a form can hold. -/
def LengthForm.bound : LengthForm → Nat
  | .byte => 126
  | .word => 65536
  | .quad => 2 ^ 64

def LengthForm.code (len : Nat) : LengthForm → Nat
  | .byte => len
  | .word => 126
  | .quad => 127

def LengthForm.more (len : Nat) : LengthForm → List UInt8
  | .byte => []
  | .word => putU16 len
  | .quad => putU64 len

/-- A well-formed frame on the wire. -/
structure WireFrame extends Frame where
  form : LengthForm
  key : Option Key
  opcode_lt : opcode < 16
  fits : payload.length < form.bound

/-- The mask of a payload, byte by byte. -/
def maskPayload (key : Key) (payload : List UInt8) : List UInt8 := payload.mapIdx fun i b => b ^^^ key.ref i

def WireFrame.bytes (f : WireFrame) : List UInt8 :=
  putOpcode f.final f.opcode :: maskLen f.key.isSome (f.form.code f.payload.length) ::
    (f.form.more f.payload.length ++
      match f.key with
      | some key => key.bytes ++ maskPayload key f.payload
      | none => f.payload)

def isControl (opcode : Nat) : Bool := opcode.testBit 3

variable {w limit : Nat} {key : Key} {payload rest bv : List UInt8} {start n : Nat}

theorem maskPayload_maskPayload (key : Key) (payload : List UInt8) : maskPayload key (maskPayload key payload) = payload := by
  apply List.ext_getElem?
  intro i
  simp only [maskPayload, List.getElem?_mapIdx]
  cases payload[i]? with
  | none => rfl
  | some b => simp [UInt8.xor_assoc]

@[simp] theorem length_maskPayload (key : Key) (payload : List UInt8) :
    (maskPayload key payload).length = payload.length := by
  simp [maskPayload]

/-- The bytes of a masked part. -/
theorem maskBytevector_slice (h : start + n ≤ bv.length) :
    ((maskBytevector w bv start n key).drop start).take n = maskPayload key ((bv.drop start).take n) := by
  have hm : Masked key start start (start + n) bv (maskBytevector w bv start n key) := maskBytevector_masked start n h
  apply List.ext_getElem?
  intro i
  simp only [maskPayload, List.getElem?_mapIdx]
  by_cases hi : i < n
  · rw [List.getElem?_take_of_lt hi, List.getElem?_drop, hm, if_pos ⟨by omega, by omega⟩]
    rw [List.getElem?_take_of_lt hi, List.getElem?_drop]
    rw [show start + i - start = i from by omega]
  · rw [List.getElem?_eq_none (by rw [List.length_take]; omega)]
    rw [List.getElem?_eq_none (by rw [List.length_take]; omega)]
    rfl

/-- Masking leaves the bytes behind its part alone. -/
theorem maskBytevector_behind (h : start + n ≤ bv.length) :
    (maskBytevector w bv start n key).drop (start + n) = bv.drop (start + n) := by
  have hm : Masked key start start (start + n) bv (maskBytevector w bv start n key) := maskBytevector_masked start n h
  apply List.ext_getElem?
  intro i
  rw [List.getElem?_drop, List.getElem?_drop, hm, if_neg (by omega)]

theorem length_maskBytevector (h : start + n ≤ bv.length) : (maskBytevector w bv start n key).length = bv.length :=
  (maskBytevector_masked start n h).length

theorem maskBytevector_whole (key : Key) (payload : List UInt8) :
    maskBytevector w payload 0 payload.length key = maskPayload key payload := by
  have hlen : (maskBytevector w payload 0 payload.length key).length = payload.length := length_maskBytevector (by omega)
  have hs := @maskBytevector_slice w key payload 0 payload.length (by omega)
  rw [List.drop_zero, List.drop_zero, List.take_of_length_le (Nat.le_refl _)] at hs
  rwa [List.take_of_length_le (Nat.le_of_eq hlen)] at hs

theorem putOpcode_bits : ∀ final, ∀ opcode < 16, (putOpcode final opcode).toNat.testBit 7 = final ∧
    putOpcode final opcode &&& 0b01110000 = 0 ∧ (putOpcode final opcode &&& 0x0F).toNat = opcode := by
  decide

theorem maskLen_bits : ∀ masked, ∀ len < 128, (maskLen masked len).toNat.testBit 7 = masked ∧
    (maskLen masked len &&& 0x7F).toNat = len := by
  decide

theorem beValue_putU16 {n : Nat} (h : n < 65536) : beValue (putU16 n) = n := by
  have hand : ∀ m : Nat, 0xFF &&& m = m % 256 := by
    intro m
    rw [Nat.and_comm]
    exact Nat.and_two_pow_sub_one_eq_mod m 8
  simp only [beValue, putU16, List.reverse_cons, List.reverse_nil, List.nil_append, List.singleton_append, leValue,
    UInt8.toNat_ofNat', hand, Nat.shiftRight_eq_div_pow]
  omega

theorem getBytevectorExactlyN_append (bv rest : List UInt8) :
    getBytevectorExactlyN bv.length (bv ++ rest) = .ok (bv, rest) := by
  simp [getBytevectorExactlyN]

theorem getKey_append (key : Key) (rest : List UInt8) : getKey (key.bytes ++ rest) = .ok (key, rest) := by
  obtain ⟨bytes, hk⟩ := key
  have hlen : ¬ (bytes ++ rest).length < 4 := by
    rw [List.length_append]
    omega
  rw [getKey, dif_neg hlen]
  simp [List.take_append_of_le_length (Nat.le_of_eq hk.symm), List.drop_append_of_le_length (Nat.le_of_eq hk.symm),
    List.take_of_length_le (Nat.le_of_eq hk), List.drop_of_length_le (Nat.le_of_eq hk)]

theorem getPayloadLen_append (form : LengthForm) {len : Nat} (h : len < form.bound) (rest : List UInt8) :
    getPayloadLen (form.code len) (form.more len ++ rest) = .ok (len, rest) := by
  cases form with
  | byte =>
    have h126 : len < 126 := h
    have h1 : len ≠ 126 := by omega
    have h2 : len ≠ 127 := by omega
    simp [getPayloadLen, LengthForm.code, LengthForm.more, h1, h2]
  | word =>
    have hget := getBytevectorExactlyN_append (putU16 len) rest
    have hlen : (putU16 len).length = 2 := rfl
    rw [hlen] at hget
    simp only [getPayloadLen, LengthForm.code, LengthForm.more, if_true, getU16, hget, bind, Except.bind]
    rw [beValue_putU16 h]
    rfl
  | quad =>
    have hget := getBytevectorExactlyN_append (putU64 len) rest
    have hlen : (putU64 len).length = 8 := length_beBytes 8 len
    have hval : beValue (putU64 len) = len := beValue_beBytes 8 len h
    rw [hlen] at hget
    simp only [getPayloadLen, LengthForm.code, LengthForm.more, getU64, hget, bind, Except.bind, hval]
    rfl

theorem getPayload_append (key : Option Key) (payload rest : List UInt8) :
    getPayload w key.isSome payload.length
      ((match key with
        | some key => key.bytes ++ maskPayload key payload
        | none => payload) ++ rest) = .ok (payload, rest) := by
  cases key with
  | none => simp [getPayload, getBytevectorExactlyN_append]
  | some key =>
    have hget := getBytevectorExactlyN_append (maskPayload key payload) rest
    have hmask := @maskBytevector_whole w key (maskPayload key payload)
    rw [length_maskPayload] at hget hmask
    simp only [getPayload, Option.isSome_some, if_true, List.append_assoc, getKey_append, hget, bind, Except.bind]
    rw [hmask, maskPayload_maskPayload]
    rfl

theorem LengthForm.code_lt (form : LengthForm) {len : Nat} (h : len < form.bound) : form.code len < 128 := by
  cases form with
  | byte => exact Nat.lt_trans h (by decide)
  | word => exact (by decide : 126 < 128)
  | quad => exact (by decide : 127 < 128)

/-- What read-frame makes of a well-formed frame. -/
theorem readFrame_bytes (f : WireFrame) (rest : List UInt8) :
    readFrame w limit (f.bytes ++ rest) =
      if isControl f.opcode ∧ 125 < f.payload.length then .error (.controlFrameTooLong f.payload.length)
      else if limit < f.payload.length then .error .messageLimitExceeded
      else .ok (f.toFrame, rest) := by
  obtain ⟨h1, h2, h3⟩ := putOpcode_bits f.final f.opcode f.opcode_lt
  obtain ⟨h4, h5⟩ := maskLen_bits f.key.isSome _ (f.form.code_lt f.fits)
  have hlen := getPayloadLen_append f.form f.fits
  have hpay := @getPayload_append w f.key f.payload rest
  simp only [readFrame, WireFrame.bytes, List.cons_append, getU8, bind, Except.bind, h2, h3, h4, h5,
    List.append_assoc, hlen, ne_eq, not_true_eq_false, if_false]
  by_cases hc : isControl f.opcode = true ∧ 125 < f.payload.length
  · rw [if_pos hc]
    rw [isControl] at hc
    rw [if_pos hc]
    rfl
  · rw [if_neg hc]
    rw [isControl] at hc
    rw [if_neg hc]
    dsimp only [pure, Except.pure]
    by_cases hl : limit < f.payload.length
    · rw [if_pos hl, if_pos hl]
      rfl
    · rw [if_neg hl, if_neg hl]
      rw [hpay]
      dsimp only
      rw [h1]

/-- The loop over frames. -/
def runFrames (extract : Kind → List (List UInt8) → List UInt8) (messageLimit : Nat) :
    LoopState → List Frame → List Forwarded × Ending
  | _, [] => ([], .thrown .unexpectedEof)
  | s, f :: fs =>
    if isControl f.opcode ∧ 125 < f.payload.length then ([], .thrown (.controlFrameTooLong f.payload.length))
    else if s.limit < f.payload.length then ([], .thrown .messageLimitExceeded)
    else
      match handleFrame extract messageLimit s f with
      | .loop out s =>
        let (more, e) := runFrames extract messageLimit s fs
        (out ++ more, e)
      | .stop out e => (out, e)

theorem WireFrame.two_le_length (f : WireFrame) : 2 ≤ f.bytes.length := by
  simp [WireFrame.bytes]

/-- The reader takes the bytes frame by frame. -/
theorem readLoop_bytes (extract : Kind → List (List UInt8) → List UInt8) (messageLimit : Nat) (fs : List WireFrame)
    (fuel : Nat) (s : LoopState) (hf : (fs.flatMap WireFrame.bytes).length < fuel) :
    readLoop w extract messageLimit fuel s (fs.flatMap WireFrame.bytes) =
      runFrames extract messageLimit s (fs.map WireFrame.toFrame) := by
  induction fs generalizing fuel s with
  | nil =>
    cases fuel with
    | zero => cases hf
    | succ fuel => rfl
  | cons f fs ih =>
    have h2 := f.two_le_length
    rw [List.flatMap_cons, List.length_append] at hf
    cases fuel with
    | zero => omega
    | succ fuel =>
      rw [List.flatMap_cons, readLoop, readFrame_bytes, List.map_cons, runFrames]
      by_cases hc : isControl f.opcode = true ∧ 125 < f.payload.length
      · rw [if_pos hc, if_pos hc]
      · rw [if_neg hc, if_neg hc]
        by_cases hl : s.limit < f.payload.length
        · rw [if_pos hl, if_pos hl]
        · rw [if_neg hl, if_neg hl]
          dsimp only
          cases handleFrame extract messageLimit s f.toFrame with
          | stop out e => rfl
          | loop out s =>
            dsimp only
            rw [ih fuel s (by omega)]

theorem wsReadLoop_bytes (extract : Kind → List (List UInt8) → List UInt8) (messageLimit : Nat) (fs : List WireFrame) :
    wsReadLoop w extract messageLimit (fs.flatMap WireFrame.bytes) =
      runFrames extract messageLimit (.start messageLimit) (fs.map WireFrame.toFrame) :=
  readLoop_bytes extract messageLimit fs _ _ (Nat.lt_succ_self _)

end Swish.WebSocket
