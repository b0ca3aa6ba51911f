import Swish.WebSocket.Wire

/-!
What send-frame writes is what ws:read-loop forwards.
-/

set_option autoImplicit false

namespace Swish.WebSocket

/-- A message for send-message-frame. -/
structure Message where
  kind : Kind
  payload : List UInt8
  /-- The length of a bytevector is a fixnum. -/
  fixnum : payload.length < 2 ^ 60

def Kind.opcode : Kind → Nat
  | .text => 1
  | .binary => 2

def Message.forwarded (m : Message) : Forwarded := .message m.kind m.payload

/-- The bytes that send-frame writes for messages, one after the other. -/
def sendMessages (fixnumWidth : Nat) (masked : Bool) (keys : Nat → Key) (fragmentationSize : Option Nat) :
    Nat → List Message → List UInt8
  | _, [] => []
  | used, m :: ms =>
    let s := sendFrame fixnumWidth masked keys m.kind.opcode fragmentationSize ⟨m.payload, used, []⟩
    s.out ++ sendMessages fixnumWidth masked keys fragmentationSize s.used ms

variable {w limit start n opcode : Nat} {masked final : Bool} {keys : Nat → Key} {s t : Sending} {kind : Kind}
  {payload : List UInt8}

/-- The frame that do-send writes, and what it leaves in the bytevector. -/
structure Sends (s t : Sending) (f : WireFrame) (start n : Nat) : Prop where
  out : t.out = s.out ++ f.bytes
  payload : f.payload = (s.payload.drop start).take n
  behind : t.payload.drop (start + n) = s.payload.drop (start + n)
  length : t.payload.length = s.payload.length

/-- The form that do-send chooses for a length. -/
def formOf (len : Nat) : LengthForm :=
  if len < 126 then .byte else if len ≤ 0xFFFF then .word else .quad

theorem formOf_fits (h : n < 2 ^ 64) : n < (formOf n).bound := by
  unfold formOf
  split
  · assumption
  · split
    · exact Nat.lt_succ_of_le ‹_›
    · exact h

theorem putLength_eq (masked : Bool) (n : Nat) :
    putLength masked n = maskLen masked ((formOf n).code n) :: (formOf n).more n := by
  unfold putLength formOf
  split
  · rfl
  · split <;> rfl

theorem doSend_sends (hop : opcode < 16) (hn : start + n ≤ s.payload.length) (hfit : n < 2 ^ 64) :
    ∃ f : WireFrame, f.final = final ∧ f.opcode = opcode ∧
      Sends s (doSend w masked keys final opcode start n s) f start n := by
  have hlen : ((s.payload.drop start).take n).length = n := by
    rw [List.length_take, List.length_drop]
    omega
  have hform : ((s.payload.drop start).take n).length < (formOf n).bound := by
    rw [hlen]
    exact formOf_fits hfit
  cases masked with
  | false =>
    refine ⟨⟨⟨final, opcode, (s.payload.drop start).take n⟩, formOf n, none, hop, hform⟩, rfl, rfl, ?_, rfl, rfl, rfl⟩
    simp [doSend, WireFrame.bytes, putLength_eq, hlen]
  | true =>
    refine ⟨⟨⟨final, opcode, (s.payload.drop start).take n⟩, formOf n, some (keys s.used), hop, hform⟩, rfl, rfl, ?_, rfl,
      maskBytevector_behind hn, length_maskBytevector hn⟩
    simp [doSend, WireFrame.bytes, putLength_eq, hlen, maskBytevector_slice hn]

/-- Continuation frames that carry a payload, up to the final one. -/
inductive Continues : List WireFrame → List UInt8 → Prop where
  | last (f : WireFrame) (ho : f.opcode = 0) (hf : f.final = true) : Continues [f] f.payload
  | more (f : WireFrame) {fs : List WireFrame} {rest : List UInt8} (ho : f.opcode = 0) (hf : f.final = false)
      (h : Continues fs rest) : Continues (f :: fs) (f.payload ++ rest)

theorem sendRest_continues {size fuel : Nat} (hsize : 0 < size) (hfuel : n ≤ fuel) (hpos : 0 < fuel)
    (hn : start + n = s.payload.length) (hfit : n < 2 ^ 64) :
    ∃ fs, Continues fs (s.payload.drop start) ∧
      (sendRest w masked keys size fuel start n s).out = s.out ++ fs.flatMap WireFrame.bytes := by
  induction fuel generalizing start n s with
  | zero => cases hpos
  | succ fuel ih =>
    rw [sendRest]
    split
    · obtain ⟨f, h1, h2, hf⟩ := @doSend_sends w start n 0 masked true keys s (by decide) (by omega) hfit
      have hp : f.payload = s.payload.drop start := by
        rw [hf.payload, List.take_of_length_le (by rw [List.length_drop]; omega)]
      exact ⟨[f], hp ▸ .last f h2 h1, by simp [hf.out]⟩
    · obtain ⟨f, h1, h2, hf⟩ := @doSend_sends w start size 0 masked false keys s (by decide) (by omega) (by omega)
      obtain ⟨fs, hfs, hout⟩ := @ih (start + size) (n - size) (doSend w masked keys false 0 start size s)
        (by omega) (by omega) (by rw [hf.length]; omega) (by omega)
      rw [hf.behind] at hfs
      have hp : s.payload.drop start = f.payload ++ s.payload.drop (start + size) := by
        rw [hf.payload, ← List.drop_drop, List.take_append_drop]
      exact ⟨f :: fs, hp ▸ .more f h2 h1 hfs, by simp [hout, hf.out]⟩

/-- The frames of a message. -/
inductive Carries (kind : Kind) : List WireFrame → List UInt8 → Prop where
  | single (f : WireFrame) (ho : f.opcode = kind.opcode) (hf : f.final = true) : Carries kind [f] f.payload
  | first (f : WireFrame) {fs : List WireFrame} {rest : List UInt8} (ho : f.opcode = kind.opcode) (hf : f.final = false)
      (h : Continues fs rest) : Carries kind (f :: fs) (f.payload ++ rest)

theorem Kind.opcode_lt (kind : Kind) : kind.opcode < 16 := by
  cases kind <;> decide

theorem sendFrame_carries {size : Option Nat} (hsize : ∀ n, size = some n → 0 < n) (hfit : s.payload.length < 2 ^ 60) :
    ∃ fs, Carries kind fs s.payload ∧
      (sendFrame w masked keys kind.opcode size s).out = s.out ++ fs.flatMap WireFrame.bytes := by
  have hwhole : ∃ fs, Carries kind fs s.payload ∧
      (doSend w masked keys true kind.opcode 0 s.payload.length s).out = s.out ++ fs.flatMap WireFrame.bytes := by
    obtain ⟨f, h1, h2, hf⟩ := @doSend_sends w 0 s.payload.length kind.opcode masked true keys s kind.opcode_lt (by omega)
      (by omega)
    have hp : f.payload = s.payload := by
      rw [hf.payload, List.drop_zero, List.take_of_length_le (Nat.le_refl _)]
    exact ⟨[f], hp ▸ .single f h2 h1, by simp [hf.out]⟩
  unfold sendFrame
  cases size with
  | none => exact hwhole
  | some n =>
    have hn := hsize n rfl
    dsimp only
    split
    · exact hwhole
    · obtain ⟨f, h1, h2, hf⟩ := @doSend_sends w 0 n kind.opcode masked false keys s kind.opcode_lt (by omega) (by omega)
      obtain ⟨fs, hfs, hout⟩ := @sendRest_continues w n (s.payload.length - n) masked keys
        (doSend w masked keys false kind.opcode 0 n s) n (s.payload.length - n) hn (Nat.le_refl _) (by omega)
        (by rw [hf.length]; omega) (by omega)
      have hb := hf.behind
      rw [Nat.zero_add] at hb
      rw [hb] at hfs
      have hp : s.payload = f.payload ++ s.payload.drop n := by
        rw [hf.payload, List.drop_zero, List.take_append_drop]
      exact ⟨f :: fs, hp ▸ .first f h2 h1 hfs, by simp [hout, hf.out]⟩

variable {r : Requests} {fs : List WireFrame} {rest : List Frame} {st : LoopState}

/-- The reader at a data frame that is not too long. -/
theorem runFrames_data {ex : Kind → List (List UInt8) → List UInt8} {f : Frame} {out : List Forwarded} {st' : LoopState}
    (hc : isControl f.opcode = false) (hl : f.payload.length ≤ st.limit)
    (hh : handleFrame ex limit st f = .loop out st') :
    runFrames ex limit st (f :: rest) =
      (out ++ (runFrames ex limit st' rest).1, (runFrames ex limit st' rest).2) := by
  rw [runFrames, if_neg (by simp [hc]), if_neg (by omega), hh]

theorem runFrames_too_long {ex : Kind → List (List UInt8) → List UInt8} {f : Frame} (hc : isControl f.opcode = false)
    (hl : st.limit < f.payload.length) :
    runFrames ex limit st (f :: rest) = ([], .thrown .messageLimitExceeded) := by
  rw [runFrames, if_neg (by simp [hc]), if_pos hl]

theorem Continues.run (h : Continues fs payload) (ht : st.type = some kind) :
    runFrames (extract r) limit st (fs.map WireFrame.toFrame ++ rest) =
      if payload.length ≤ st.limit then
        (.message kind (st.payloads.reverse.flatten ++ payload) :: (runFrames (extract r) limit (.start limit) rest).1,
          (runFrames (extract r) limit (.start limit) rest).2)
      else ([], .thrown .messageLimitExceeded) := by
  induction h generalizing st with
  | last f ho hf =>
    have hc : isControl f.opcode = false := by
      rw [ho]
      rfl
    split
    · rename_i hl
      have hh : handleFrame (extract r) limit st f.toFrame =
          .loop [.message kind (st.payloads.reverse.flatten ++ f.payload)] (.start limit) := by
        simp only [handleFrame, ho, continuationFrame, ht, hf, if_true, extract_eq]
        simp
      exact runFrames_data hc hl hh
    · exact runFrames_too_long hc (by omega)
  | more f ho hf h ih =>
    rename_i fs rest'
    have hc : isControl f.opcode = false := by
      rw [ho]
      rfl
    have hh : handleFrame (extract r) limit st f.toFrame =
        .loop [] ⟨some kind, f.payload :: st.payloads, st.limit - f.payload.length⟩ := by
      simp only [handleFrame, ho, continuationFrame, ht, hf]
      simp
    rw [List.length_append, List.map_cons, List.cons_append]
    by_cases hl : f.payload.length ≤ st.limit
    · rw [runFrames_data hc hl hh, ih rfl]
      dsimp only
      by_cases hrest : rest'.length ≤ st.limit - f.payload.length
      · rw [if_pos hrest, if_pos (by omega)]
        simp
      · rw [if_neg hrest, if_neg (by omega)]
        rfl
    · rw [runFrames_too_long hc (by omega), if_neg (by omega)]

/-- The reader at the frames of a message. -/
theorem Carries.run (h : Carries kind fs payload) :
    runFrames (extract r) limit (.start limit) (fs.map WireFrame.toFrame ++ rest) =
      if payload.length ≤ limit then
        (.message kind payload :: (runFrames (extract r) limit (.start limit) rest).1,
          (runFrames (extract r) limit (.start limit) rest).2)
      else ([], .thrown .messageLimitExceeded) := by
  cases h with
  | single f ho hf =>
    have hc : isControl f.opcode = false := by
      rw [ho]
      cases kind <;> rfl
    split
    · rename_i hl
      have hh : handleFrame (extract r) limit (.start limit) f.toFrame = .loop [.message kind f.payload] (.start limit) := by
        cases kind <;> simp [handleFrame, ho, Kind.opcode, firstFrame, LoopState.start, hf]
      exact runFrames_data hc hl hh
    · exact runFrames_too_long hc (by simp only [LoopState.start]; omega)
  | first f ho hf h =>
    rename_i fs rest'
    have hc : isControl f.opcode = false := by
      rw [ho]
      cases kind <;> rfl
    have hh : handleFrame (extract r) limit (.start limit) f.toFrame =
        .loop [] ⟨some kind, [f.payload], limit - f.payload.length⟩ := by
      cases kind <;> simp [handleFrame, ho, Kind.opcode, firstFrame, LoopState.start, hf]
    rw [List.length_append, List.map_cons, List.cons_append]
    by_cases hl : f.payload.length ≤ limit
    · rw [runFrames_data hc hl hh, h.run rfl]
      dsimp only
      by_cases hrest : rest'.length ≤ limit - f.payload.length
      · rw [if_pos hrest, if_pos (by omega)]
        simp
      · rw [if_neg hrest, if_neg (by omega)]
        rfl
    · rw [runFrames_too_long hc (by simp only [LoopState.start]; omega), if_neg (by omega)]

/-- What the reader is to make of messages. -/
def received (limit : Nat) : List Message → List Forwarded × Ending
  | [] => ([], .thrown .unexpectedEof)
  | m :: ms =>
    if m.payload.length ≤ limit then (m.forwarded :: (received limit ms).1, (received limit ms).2)
    else ([], .thrown .messageLimitExceeded)

theorem sendMessages_frames {size : Option Nat} (hsize : ∀ n, size = some n → 0 < n) (ms : List Message) (used : Nat) :
    ∃ fs : List WireFrame, sendMessages w masked keys size used ms = fs.flatMap WireFrame.bytes ∧
      runFrames (extract r) limit (.start limit) (fs.map WireFrame.toFrame) = received limit ms := by
  induction ms generalizing used with
  | nil => exact ⟨[], rfl, rfl⟩
  | cons m ms ih =>
    obtain ⟨fs, hfs, hout⟩ := @sendFrame_carries w masked keys ⟨m.payload, used, []⟩ m.kind size hsize m.fixnum
    obtain ⟨gs, hgs, hrun⟩ :=
      ih (sendFrame w masked keys m.kind.opcode size ⟨m.payload, used, []⟩).used
    refine ⟨fs ++ gs, ?_, ?_⟩
    · rw [sendMessages, hout, hgs, List.nil_append, List.flatMap_append]
    · rw [List.map_append, hfs.run, hrun]
      rfl

theorem received_of_le {ms : List Message} (h : ∀ m ∈ ms, m.payload.length ≤ limit) :
    received limit ms = (ms.map Message.forwarded, .thrown .unexpectedEof) := by
  induction ms with
  | nil => rfl
  | cons m ms ih =>
    rw [received, if_pos (h m List.mem_cons_self), ih fun x hx => h x (List.mem_cons_of_mem _ hx)]
    rfl

theorem received_of_lt {before after : List Message} {m : Message} (h : ∀ x ∈ before, x.payload.length ≤ limit)
    (hm : limit < m.payload.length) :
    received limit (before ++ m :: after) = (before.map Message.forwarded, .thrown .messageLimitExceeded) := by
  induction before with
  | nil => rw [List.nil_append, received, if_neg (by omega)]; rfl
  | cons x before ih =>
    rw [List.cons_append, received, if_pos (h x List.mem_cons_self), ih fun y hy => h y (List.mem_cons_of_mem _ hy)]
    rfl

theorem read_of_send (w w' : Nat) (r : Requests) (messageLimit : Nat) (masked : Bool) (keys : Nat → Key)
    (fragmentationSize : Option Nat) (hsize : ∀ n, fragmentationSize = some n → 0 < n) (ms : List Message) :
    ((∀ m ∈ ms, m.payload.length ≤ messageLimit) →
      wsReadLoop w' (extract r) messageLimit (sendMessages w masked keys fragmentationSize 0 ms) =
        (ms.map Message.forwarded, .thrown .unexpectedEof)) ∧
    ∀ before m after, ms = before ++ m :: after → (∀ x ∈ before, x.payload.length ≤ messageLimit) →
      messageLimit < m.payload.length →
      wsReadLoop w' (extract r) messageLimit (sendMessages w masked keys fragmentationSize 0 ms) =
        (before.map Message.forwarded, .thrown .messageLimitExceeded) := by
  obtain ⟨fs, hfs, hrun⟩ := @sendMessages_frames w messageLimit masked keys r fragmentationSize hsize ms 0
  rw [hfs, wsReadLoop_bytes, hrun]
  constructor
  · intro h
    exact received_of_le h
  · intro before m after hms h hm
    rw [hms]
    exact received_of_lt h hm

/-- Keys of four bytes, for a test. -/
def sampleKey : Key := ⟨[1, 2, 3, 4], rfl⟩

/-- A reader that asks for whole buffers. -/
def wholeBuffers : Requests where
  start _ _ := 0
  count size _ := size
  some _ _ h := h
  fits size _ _ := by omega
  kept _ got := Nat.zero_le got
  bufferSize := 1
  bufferSize_pos := Nat.one_pos

/-- A text in fragments of two bytes, and a binary message that is too long. -/
theorem read_of_send_fragments :
    wsReadLoop 61 (extract wholeBuffers) 5
        (sendMessages 61 true (fun _ => sampleKey) (some 2) 0
          [⟨.text, [10, 20, 30, 40, 50], by decide⟩, ⟨.binary, [1, 2, 3, 4, 5, 6], by decide⟩]) =
      ([.message .text [10, 20, 30, 40, 50]], .thrown .messageLimitExceeded) := by
  refine (read_of_send 61 61 wholeBuffers 5 true (fun _ => sampleKey) (some 2) ?_ _).2 [_] _ [] rfl ?_ ?_
  · intro n hn
    cases hn
    decide
  · intro x hx
    rw [List.mem_singleton.1 hx]
    decide
  · decide

end Swish.WebSocket
