import Swish.WebSocket.RoundTrip

/-!
Ping and pong frames among the frames of other messages. They do not count for the
limit of a message, but read-frame holds their length against what earlier fragments
have left of it.
-/

set_option autoImplicit false

namespace Swish.WebSocket

/-- A stream of frames, some of which are inserted. -/
abbrev Stream := List (Bool × WireFrame)

def Stream.bytes (items : Stream) : List UInt8 := (items.map Prod.snd).flatMap WireFrame.bytes

/-- The frames of the stream itself. -/
def Stream.original (items : Stream) : Stream := items.filter fun x => !x.1

def Stream.frames (items : Stream) : List Frame := items.map fun x => x.2.toFrame

theorem Stream.frames_cons (inserted : Bool) (f : WireFrame) (items : Stream) :
    Stream.frames ((inserted, f) :: items) = f.toFrame :: Stream.frames items := rfl

theorem Stream.original_inserted (c : WireFrame) (items : Stream) :
    Stream.original ((true, c) :: items) = Stream.original items := rfl

theorem Stream.original_own (f : WireFrame) (items : Stream) :
    Stream.original ((false, f) :: items) = (false, f) :: Stream.original items := rfl

/-- The message for a ping or a pong. -/
def Frame.control (f : Frame) : Forwarded := if f.opcode = 9 then .ping f.payload else .pong f.payload

/-- What may be inserted: a final ping or pong with at most 125 bytes. -/
structure Insertable (f : Frame) : Prop where
  final : f.final = true
  opcode : f.opcode = 9 ∨ f.opcode = 10
  short : f.payload.length ≤ 125

/-- Every frame is read without an exception. Only the last one can close the connection. -/
def Accepts (extract : Kind → List (List UInt8) → List UInt8) (messageLimit : Nat) : LoopState → List Frame → Prop
  | _, [] => True
  | s, f :: fs => ¬ (isControl f.opcode = true ∧ 125 < f.payload.length) ∧ f.payload.length ≤ s.limit ∧
    match handleFrame extract messageLimit s f with
    | .loop _ s => Accepts extract messageLimit s fs
    | .stop _ e => e = .closed ∧ fs = []

/-- The limit after a frame. -/
def nextLimit (messageLimit limit : Nat) (f : Frame) : Nat :=
  if isControl f.opcode then limit
  else if f.final then messageLimit
  else limit - f.payload.length

/-- What the fragments of a message that is not complete leave of the limit. -/
def limitAfter (messageLimit : Nat) (fs : List Frame) : Nat := fs.foldl (nextLimit messageLimit) messageLimit

def Forwarded.isMessage : Forwarded → Bool
  | .message _ _ => true
  | _ => false

/-- The inserted frames leave all else as it is. -/
structure Undisturbed (read : Stream → List Forwarded × Ending) (items : Stream) : Prop where
  ending : (read items).2 = (read items.original).2
  messages : (read items).1.filter Forwarded.isMessage = (read items.original).1.filter Forwarded.isMessage
  /-- An inserted frame is forwarded right behind what the frames before it make. -/
  place : ∀ before c after, items = before ++ (true, c) :: after →
    ∃ more, (read items).1 = (read before).1 ++ c.control :: more
  once : (read items).1.length = (read items.original).1.length + (items.filter Prod.fst).length

variable {ex : Kind → List (List UInt8) → List UInt8} {messageLimit limit : Nat} {s s' : LoopState} {f : Frame}
  {fs before : List Frame} {items : Stream} {out : List Forwarded}

/-- Between messages there are no payloads. -/
def LoopState.Ok (s : LoopState) : Prop := s.type = none → s.payloads = []

theorem firstFrame_loop (hs : s.Ok) {kind : Kind} (h : firstFrame messageLimit s f kind = .loop out s') :
    s'.Ok ∧ s'.limit = if f.final then messageLimit else s.limit - f.payload.length := by
  unfold firstFrame at h
  cases ht : s.type with
  | some k =>
    rw [ht] at h
    cases h
  | none =>
    rw [ht] at h
    simp only [hs ht, and_true] at h
    cases hf : f.final with
    | true =>
      rw [hf] at h
      cases h
      exact ⟨fun _ => rfl, rfl⟩
    | false =>
      rw [hf] at h
      cases h
      exact ⟨fun hn => (by cases hn), rfl⟩

theorem continuationFrame_loop (h : continuationFrame ex messageLimit s f = .loop out s') :
    s'.Ok ∧ s'.limit = if f.final then messageLimit else s.limit - f.payload.length := by
  unfold continuationFrame at h
  cases ht : s.type with
  | none =>
    rw [ht] at h
    cases h
  | some k =>
    rw [ht] at h
    cases hf : f.final with
    | true =>
      simp only [hf, if_true] at h
      cases h
      exact ⟨fun _ => rfl, rfl⟩
    | false =>
      simp only [hf] at h
      cases h
      exact ⟨fun hn => (by cases hn), rfl⟩

theorem controlFrame_loop {msg : Forwarded} (h : controlFrame s f msg = .loop out s') : s' = s := by
  unfold controlFrame at h
  split at h
  · cases h
    rfl
  · cases h

/-- What a frame makes of the limit. -/
theorem handleFrame_loop (hs : s.Ok) (h : handleFrame ex messageLimit s f = .loop out s') :
    s'.Ok ∧ s'.limit = nextLimit messageLimit s.limit f := by
  unfold handleFrame at h
  split at h
  · rename_i ho
    rw [nextLimit, ho]
    exact continuationFrame_loop h
  · rename_i ho
    rw [nextLimit, ho]
    exact firstFrame_loop hs h
  · rename_i ho
    rw [nextLimit, ho]
    exact firstFrame_loop hs h
  · unfold closeFrame at h
    split at h
    · cases h
    · cases h
    · dsimp only at h
      split at h <;> cases h
  · rename_i ho
    rw [nextLimit, ho, controlFrame_loop h]
    exact ⟨hs, rfl⟩
  · rename_i ho
    rw [nextLimit, ho, controlFrame_loop h]
    exact ⟨hs, rfl⟩
  · cases h

theorem handleFrame_insertable (hf : Insertable f) : handleFrame ex messageLimit s f = .loop [f.control] s := by
  rcases hf.opcode with ho | ho
  · simp [handleFrame, ho, controlFrame, hf.final, Frame.control]
  · simp [handleFrame, ho, controlFrame, hf.final, Frame.control]

theorem Insertable.isControl (hf : Insertable f) : isControl f.opcode = true := by
  rcases hf.opcode with ho | ho <;> rw [ho] <;> rfl

theorem Insertable.not_message (hf : Insertable f) : f.control.isMessage = false := by
  rcases hf.opcode with ho | ho <;> simp [Frame.control, ho, Forwarded.isMessage]

theorem runFrames_loop (h1 : ¬ (isControl f.opcode = true ∧ 125 < f.payload.length)) (h2 : f.payload.length ≤ s.limit)
    (hh : handleFrame ex messageLimit s f = .loop out s') :
    runFrames ex messageLimit s (f :: fs) =
      (out ++ (runFrames ex messageLimit s' fs).1, (runFrames ex messageLimit s' fs).2) := by
  rw [runFrames, if_neg h1, if_neg (by omega), hh]

theorem runFrames_stop {e : Ending} (h1 : ¬ (isControl f.opcode = true ∧ 125 < f.payload.length))
    (h2 : f.payload.length ≤ s.limit) (hh : handleFrame ex messageLimit s f = .stop out e) :
    runFrames ex messageLimit s (f :: fs) = (out, e) := by
  rw [runFrames, if_neg h1, if_neg (by omega), hh]

theorem runFrames_inserted (hf : Insertable f) (hl : f.payload.length ≤ s.limit) :
    runFrames ex messageLimit s (f :: fs) =
      (f.control :: (runFrames ex messageLimit s fs).1, (runFrames ex messageLimit s fs).2) :=
  runFrames_loop (by have := hf.short; omega) hl (handleFrame_insertable hf)

theorem runFrames_exceeds (hf : Insertable f) (hl : s.limit < f.payload.length) :
    runFrames ex messageLimit s (f :: fs) = ([], .thrown .messageLimitExceeded) := by
  have hshort := hf.short
  rw [runFrames, if_neg (by omega), if_pos hl]

/-- Each inserted frame fits into what is left of the limit. -/
def FitsAll (messageLimit : Nat) : Nat → Stream → Prop
  | _, [] => True
  | limit, (true, c) :: rest => c.payload.length ≤ limit ∧ FitsAll messageLimit limit rest
  | limit, (false, f) :: rest => FitsAll messageLimit (nextLimit messageLimit limit f.toFrame) rest

/-- The frames inserted into a stream. -/
def Inserts (items : Stream) : Prop := ∀ x ∈ items, x.1 = true → Insertable x.2.toFrame

theorem fitsAll_iff (hi : Inserts items) :
    FitsAll messageLimit limit items ↔ ∀ (before : Stream) c after, items = before ++ (true, c) :: after →
      c.payload.length ≤ before.frames.foldl (nextLimit messageLimit) limit := by
  induction items generalizing limit with
  | nil =>
    constructor
    · intro _ before c after h
      cases before <;> cases h
    · intro _
      trivial
  | cons x items ih =>
    have hi' : Inserts items := fun y hy => hi y (List.mem_cons_of_mem _ hy)
    obtain ⟨inserted, g⟩ := x
    cases inserted with
    | true =>
      have hg : nextLimit messageLimit limit g.toFrame = limit := by
        rw [nextLimit, if_pos (hi _ List.mem_cons_self rfl).isControl]
      rw [FitsAll, ih hi']
      constructor
      · intro ⟨h1, h2⟩ before c after h
        cases before with
        | nil =>
          cases h
          exact h1
        | cons y before =>
          cases h
          have hb := h2 before c after rfl
          simp only [Stream.frames, List.map_cons, List.foldl_cons, hg]
          exact hb
      · intro h
        refine ⟨h [] g items rfl, ?_⟩
        intro before c after he
        have hb := h ((true, g) :: before) c after (by rw [he]; rfl)
        simp only [Stream.frames, List.map_cons, List.foldl_cons, hg] at hb
        exact hb
    | false =>
      rw [FitsAll, ih hi']
      constructor
      · intro h2 before c after h
        cases before with
        | nil => cases h
        | cons y before =>
          cases h
          exact h2 before c after rfl
      · intro h before c after he
        exact h ((false, g) :: before) c after (by rw [he]; rfl)

/-- The last frame is one of the stream itself. -/
def EndsOriginal (items : Stream) : Prop := ∀ x, items.getLast? = some x → x.1 = false

theorem EndsOriginal.tail {x : Bool × WireFrame} (h : EndsOriginal (x :: items)) : EndsOriginal items := by
  cases items with
  | nil =>
    intro y hy
    cases hy
  | cons z items =>
    intro y hy
    exact h y (by rw [List.getLast?_cons_cons]; exact hy)

theorem EndsOriginal.eq_nil (h : EndsOriginal items) (ho : items.original = []) : items = [] := by
  cases hl : items.getLast? with
  | none => exact List.getLast?_eq_none_iff.1 hl
  | some x =>
    have hx : x ∈ items.original := by
      refine List.mem_filter.2 ⟨List.mem_of_getLast? hl, ?_⟩
      simp [h x hl]
    rw [ho] at hx
    cases hx

/-- A stream with frames inserted, where the reader is in the state s. -/
structure Setting (ex : Kind → List (List UInt8) → List UInt8) (messageLimit : Nat) (s : LoopState) (items : Stream) :
    Prop where
  ok : s.Ok
  accepts : Accepts ex messageLimit s items.original.frames
  inserts : Inserts items
  ends : EndsOriginal items

theorem Setting.inserted {c : WireFrame} (h : Setting ex messageLimit s ((true, c) :: items)) :
    Insertable c.toFrame ∧ Setting ex messageLimit s items :=
  ⟨h.inserts _ List.mem_cons_self rfl,
    h.ok, h.accepts, fun y hy => h.inserts y (List.mem_cons_of_mem _ hy), h.ends.tail⟩

/-- At a frame of the stream itself the reader goes on, or the stream is at its end. -/
theorem Setting.own {g : WireFrame} (h : Setting ex messageLimit s ((false, g) :: items)) :
    ¬ (isControl g.opcode = true ∧ 125 < g.payload.length) ∧ g.payload.length ≤ s.limit ∧
      ((∃ out s', handleFrame ex messageLimit s g.toFrame = .loop out s' ∧ Setting ex messageLimit s' items ∧
          s'.limit = nextLimit messageLimit s.limit g.toFrame) ∨
        ∃ out, handleFrame ex messageLimit s g.toFrame = .stop out .closed ∧ items = []) := by
  obtain ⟨h1, h2, h3⟩ := h.accepts
  refine ⟨h1, h2, ?_⟩
  cases hh : handleFrame ex messageLimit s g.toFrame with
  | loop out s' =>
    rw [hh] at h3
    obtain ⟨hok, hlim⟩ := handleFrame_loop h.ok hh
    exact .inl ⟨out, s', rfl, ⟨hok, h3, fun y hy => h.inserts y (List.mem_cons_of_mem _ hy), h.ends.tail⟩, hlim⟩
  | stop out e =>
    rw [hh] at h3
    obtain ⟨he, hn⟩ := h3
    have hnil : items.original = [] := List.map_eq_nil_iff.1 hn
    exact .inr ⟨out, by rw [he], h.ends.tail.eq_nil hnil⟩

/-- The reader on a stream in which all inserted frames fit. -/
theorem Setting.run (h : Setting ex messageLimit s items) (hf : FitsAll messageLimit s.limit items) :
    (runFrames ex messageLimit s items.frames).2 = (runFrames ex messageLimit s items.original.frames).2 ∧
      (runFrames ex messageLimit s items.frames).1.filter Forwarded.isMessage =
        (runFrames ex messageLimit s items.original.frames).1.filter Forwarded.isMessage ∧
      (runFrames ex messageLimit s items.frames).1.length =
        (runFrames ex messageLimit s items.original.frames).1.length + (items.filter Prod.fst).length := by
  induction items generalizing s with
  | nil => exact ⟨rfl, rfl, rfl⟩
  | cons x items ih =>
    obtain ⟨inserted, g⟩ := x
    cases inserted with
    | true =>
      obtain ⟨hg, hrest⟩ := h.inserted
      obtain ⟨h1, h2, h3⟩ := ih hrest hf.2
      rw [Stream.frames_cons, Stream.original_inserted, runFrames_inserted hg hf.1]
      refine ⟨h1, ?_, ?_⟩
      · rw [List.filter_cons, hg.not_message]
        exact h2
      · rw [List.length_cons, h3, List.filter_cons]
        simp only [if_true, List.length_cons]
        omega
    | false =>
      rw [Stream.original_own, Stream.frames_cons, Stream.frames_cons]
      obtain ⟨hc, hl, ⟨out, s', hh, hrest, hlim⟩ | ⟨out, hh, hnil⟩⟩ := h.own
      · rw [FitsAll, ← hlim] at hf
        obtain ⟨h1, h2, h3⟩ := ih hrest hf
        rw [runFrames_loop hc hl hh, runFrames_loop hc hl hh]
        refine ⟨h1, ?_, ?_⟩
        · rw [List.filter_append, List.filter_append, h2]
        · rw [List.length_append, List.length_append, h3, List.filter_cons]
          simp only [Bool.false_eq_true, if_false]
          omega
      · subst hnil
        rw [runFrames_stop hc hl hh, runFrames_stop hc hl hh]
        exact ⟨rfl, rfl, rfl⟩

/-- Up to an inserted frame the reader goes on, and then it forwards that frame. -/
theorem Setting.place {before after : Stream} {c : WireFrame}
    (h : Setting ex messageLimit s (before ++ (true, c) :: after))
    (hf : FitsAll messageLimit s.limit (before ++ (true, c) :: after)) :
    ∃ more, (runFrames ex messageLimit s (Stream.frames (before ++ (true, c) :: after))).1 =
      (runFrames ex messageLimit s before.frames).1 ++ c.control :: more := by
  induction before generalizing s with
  | nil =>
    obtain ⟨hc, hrest⟩ := h.inserted
    refine ⟨(runFrames ex messageLimit s after.frames).1, ?_⟩
    rw [List.nil_append, Stream.frames_cons, runFrames_inserted hc hf.1]
    rfl
  | cons x before ih =>
    obtain ⟨inserted, g⟩ := x
    rw [List.cons_append, Stream.frames_cons, Stream.frames_cons]
    cases inserted with
    | true =>
      obtain ⟨hg, hrest⟩ := Setting.inserted h
      obtain ⟨more, hm⟩ := ih hrest hf.2
      refine ⟨more, ?_⟩
      rw [runFrames_inserted hg hf.1, runFrames_inserted hg hf.1]
      exact congrArg (g.control :: ·) hm
    | false =>
      obtain ⟨hc, hl, ⟨out, s', hh, hrest, hlim⟩ | ⟨out, hh, hnil⟩⟩ := Setting.own h
      · rw [List.cons_append, FitsAll, ← hlim] at hf
        obtain ⟨more, hm⟩ := ih hrest hf
        refine ⟨more, ?_⟩
        rw [runFrames_loop hc hl hh, runFrames_loop hc hl hh, List.append_assoc]
        exact congrArg (out ++ ·) hm
      · cases before <;> cases hnil

/-- An inserted frame that does not fit ends the reader with an exception. -/
theorem Setting.exceeds (h : Setting ex messageLimit s items) (hf : ¬ FitsAll messageLimit s.limit items) :
    (runFrames ex messageLimit s items.frames).2 = .thrown .messageLimitExceeded := by
  induction items generalizing s with
  | nil => exact absurd trivial hf
  | cons x items ih =>
    obtain ⟨inserted, g⟩ := x
    rw [Stream.frames_cons]
    cases inserted with
    | true =>
      obtain ⟨hg, hrest⟩ := h.inserted
      by_cases hl : g.payload.length ≤ s.limit
      · rw [runFrames_inserted hg hl]
        exact ih hrest fun hr => hf ⟨hl, hr⟩
      · rw [runFrames_exceeds hg (by omega)]
    | false =>
      obtain ⟨hc, hl, ⟨out, s', hh, hrest, hlim⟩ | ⟨out, hh, hnil⟩⟩ := h.own
      · rw [runFrames_loop hc hl hh]
        rw [FitsAll, ← hlim] at hf
        exact ih hrest hf
      · subst hnil
        exact absurd trivial hf

/-- A stream that is accepted ends at its end or with a close frame. -/
theorem Accepts.ending (h : Accepts ex messageLimit s fs) :
    (runFrames ex messageLimit s fs).2 = .thrown .unexpectedEof ∨ (runFrames ex messageLimit s fs).2 = .closed := by
  induction fs generalizing s with
  | nil => exact .inl rfl
  | cons f fs ih =>
    obtain ⟨h1, h2, h3⟩ := h
    cases hh : handleFrame ex messageLimit s f with
    | loop out s' =>
      rw [hh] at h3
      rw [runFrames_loop h1 h2 hh]
      exact ih h3
    | stop out e =>
      rw [hh] at h3
      rw [runFrames_stop h1 h2 hh]
      exact .inr h3.1

theorem read_stream (w : Nat) (items : Stream) :
    wsReadLoop w ex messageLimit items.bytes = runFrames ex messageLimit (.start messageLimit) items.frames := by
  rw [Stream.bytes, wsReadLoop_bytes]
  simp [Stream.frames, Function.comp_def]

theorem control_frames_undisturbing_iff (w : Nat) (r : Requests) (messageLimit : Nat) (items : Stream)
    (ha : Accepts (extract r) messageLimit (.start messageLimit) items.original.frames) (hi : Inserts items)
    (he : EndsOriginal items) :
    Undisturbed (fun xs => wsReadLoop w (extract r) messageLimit xs.bytes) items ↔
      ∀ (before : Stream) c after, items = before ++ (true, c) :: after →
        c.payload.length ≤ limitAfter messageLimit before.frames := by
  have hset : Setting (extract r) messageLimit (.start messageLimit) items := ⟨fun _ => rfl, ha, hi, he⟩
  rw [show (∀ (before : Stream) c after, items = before ++ (true, c) :: after →
        c.payload.length ≤ limitAfter messageLimit before.frames) ↔ FitsAll messageLimit messageLimit items from
    (fitsAll_iff hi).symm]
  constructor
  · intro h
    by_contra hf
    have hexc := hset.exceeds hf
    have hend := h.ending
    rw [read_stream, read_stream, hexc] at hend
    rcases ha.ending with h1 | h1 <;> rw [h1] at hend <;> cases hend
  · intro hf
    obtain ⟨h1, h2, h3⟩ := hset.run hf
    refine ⟨?_, ?_, ?_, ?_⟩
    · rw [read_stream, read_stream, h1]
    · rw [read_stream, read_stream, h2]
    · intro before c after hitems
      subst hitems
      obtain ⟨more, hm⟩ := hset.place hf
      rw [read_stream, read_stream]
      exact ⟨more, hm⟩
    · rw [read_stream, read_stream, h3]

/-- A frame that is not masked, for tests. -/
def plainFrame (final : Bool) (opcode : Nat) (payload : List UInt8) (ho : opcode < 16) (hp : payload.length < 126) :
    WireFrame :=
  ⟨⟨final, opcode, payload⟩, .byte, none, ho, hp⟩

/-- A text of two bytes in two fragments, with a ping of n bytes between them. -/
def pingBetween (payload : List UInt8) (hp : payload.length < 126) : Stream :=
  [(false, plainFrame false 1 [104] (by decide) (by decide)), (true, plainFrame true 9 payload (by decide) hp),
    (false, plainFrame true 0 [105] (by decide) (by decide))]

theorem control_frames_undisturbing_short :
    Undisturbed (fun xs => wsReadLoop 61 (extract wholeBuffers) 2 xs.bytes) (pingBetween [7] (by decide)) := by
  refine (control_frames_undisturbing_iff 61 wholeBuffers 2 _ ?_ ?_ ?_).2 ?_
  · exact ⟨by decide, by decide, by decide, by decide, trivial⟩
  · intro x hx h
    simp only [pingBetween, List.mem_cons, List.not_mem_nil, or_false] at hx
    rcases hx with rfl | rfl | rfl
    · cases h
    · exact ⟨rfl, .inl rfl, by decide⟩
    · cases h
  · intro x hx
    cases hx
    rfl
  · intro before c after h
    cases before with
    | nil => cases h
    | cons x before =>
      cases before with
      | nil =>
        cases h
        decide
      | cons y before =>
        cases before with
        | nil => cases h
        | cons z before =>
          cases before <;> cases h

/-- The message is within its limit, and so is the ping of two bytes, but one byte is left of the limit when
the ping comes. -/
theorem ping_exceeds_limit :
    Accepts (extract wholeBuffers) 2 (.start 2) (pingBetween [7, 8] (by decide)).original.frames ∧
      wsReadLoop 61 (extract wholeBuffers) 2 (pingBetween [7, 8] (by decide)).original.bytes =
        ([.message .text [104, 105]], .thrown .unexpectedEof) ∧
      wsReadLoop 61 (extract wholeBuffers) 2 (pingBetween [7, 8] (by decide)).bytes =
        ([], .thrown .messageLimitExceeded) ∧
      ¬ Undisturbed (fun xs => wsReadLoop 61 (extract wholeBuffers) 2 xs.bytes) (pingBetween [7, 8] (by decide)) := by
  have hextract : extract wholeBuffers = fun _ payloads => payloads.flatten := by
    funext kind payloads
    exact extract_eq wholeBuffers kind payloads
  have h1 : wsReadLoop 61 (extract wholeBuffers) 2 (pingBetween [7, 8] (by decide)).original.bytes =
      ([.message .text [104, 105]], .thrown .unexpectedEof) := by
    rw [hextract]
    decide
  have h2 : wsReadLoop 61 (extract wholeBuffers) 2 (pingBetween [7, 8] (by decide)).bytes =
      ([], .thrown .messageLimitExceeded) := by decide
  refine ⟨⟨by decide, by decide, by decide, by decide, trivial⟩, h1, h2, ?_⟩
  intro h
  have hend := h.ending
  rw [h1, h2] at hend
  cases hend

end Swish.WebSocket
