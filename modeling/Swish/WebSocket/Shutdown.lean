import Swish.WebSocket.Established

/-!
How a websocket ends. Whatever comes first, the acts of the process are ws:init, frames
that are no close frames, and at the end one close frame and ws:closed.
-/

set_option autoImplicit false

namespace Swish.WebSocket.Established

open Swish.Lib

variable {opts : Options} {env : Env}

/-- acts' goes on from acts with frames that are no close frames. -/
def Opens (acts acts' : List Act) : Prop := ∃ new, acts' = acts ++ new ∧ ∀ a ∈ new, a.isOpen = true

theorem Opens.refl (acts : List Act) : Opens acts acts := ⟨[], by simp, by simp⟩

theorem writeFrames_opens (opcodes : List Nat) (h : ∀ opcode ∈ opcodes, opcode ≠ 8) (acts : List Act) :
    Opens acts (writeFrames env opcodes acts).1 := by
  induction opcodes generalizing acts with
  | nil => exact .refl acts
  | cons opcode opcodes ih =>
    have hopen : ∀ written, (Act.frame opcode written).isOpen = true :=
      fun _ => decide_eq_true (h opcode (by simp))
    unfold writeFrames
    split
    · obtain ⟨new, hn, hall⟩ := ih (fun o ho => h o (List.mem_cons_of_mem _ ho)) (acts ++ [.frame opcode true])
      refine ⟨.frame opcode true :: new, by rw [hn]; simp, fun a ha => ?_⟩
      rcases List.mem_cons.mp ha with rfl | ha
      · exact hopen true
      · exact hall a ha
    · refine ⟨[.frame opcode false], rfl, fun a ha => ?_⟩
      rw [List.mem_singleton.mp ha]
      exact hopen false

theorem restOpcodes_zero (size fuel remaining : Nat) : ∀ opcode ∈ restOpcodes size fuel remaining, opcode = 0 := by
  induction fuel generalizing remaining with
  | zero => simp [restOpcodes]
  | succ fuel ih =>
    unfold restOpcodes
    split
    · simp
    · intro opcode ho
      rcases List.mem_cons.mp ho with rfl | ho
      · rfl
      · exact ih _ opcode ho

theorem frameOpcodes_open (kind : Kind) (size : Option Nat) (len : Nat) :
    ∀ opcode ∈ frameOpcodes kind.opcode size len, opcode ≠ 8 := by
  have hkind : kind.opcode ≠ 8 := by cases kind <;> decide
  intro opcode ho
  unfold frameOpcodes at ho
  cases size with
  | none =>
    rw [List.mem_singleton.mp ho]
    exact hkind
  | some size =>
    dsimp only at ho
    split at ho
    · rw [List.mem_singleton.mp ho]
      exact hkind
    · rcases List.mem_cons.mp ho with rfl | ho
      · exact hkind
      · rw [restOpcodes_zero _ _ _ opcode ho]
        decide

theorem sendCloseFrame_eq (env : Env) (acts : List Act) :
    ∃ written, sendCloseFrame env acts = acts ++ [.frame 8 written] := by
  unfold sendCloseFrame writeFrames
  split
  · exact ⟨true, rfl⟩
  · exact ⟨false, rfl⟩

def State.isClosed : State → Bool
  | .closed _ _ => true
  | _ => false

/-- What a callback can do: go on or fail with the websocket open, or close it. -/
inductive Outcome (acts : List Act) (r : List Act × Result) : Prop where
  | goes (state : State) (ho : Opens acts r.1) (hs : state.isClosed = false) (hr : r.2 = .noReply state)
  | fails (reason : Reason) (ho : Opens acts r.1) (hr : r.2 = .raised reason)
  | closes (reason : Reason) (code : Nat) (text : List UInt8) (written : Bool)
      (ha : r.1 = acts ++ [.frame 8 written, .closed code text]) (hr : r.2 = .stop reason (.closed code text))

theorem doClose_outcome (reason : Reason) (code : Nat) (text : List UInt8) (acts : List Act) :
    Outcome acts (doClose env reason code text acts) := by
  obtain ⟨written, h⟩ := sendCloseFrame_eq env acts
  refine .closes reason code text written ?_ rfl
  unfold doClose onClose
  rw [h]
  simp

theorem noReply_outcome {acts acts' : List Act} (ho : Opens acts acts') (state : State) :
    Outcome acts (acts', noReply state) := by
  cases state with
  | closed code text => exact .fails .condition ho rfl
  | ping t => exact .goes (.ping t) ho rfl rfl
  | pong t => exact .goes (.pong t) ho rfl rfl

theorem andNoReply_outcome {acts : List Act} {w : Write} (ho : Opens acts w.1) (state : State) :
    Outcome acts (andNoReply w state) := by
  unfold andNoReply
  split
  · exact noReply_outcome ho state
  · exact .fails .condition ho rfl

theorem failed_outcome (acts : List Act) : Outcome acts (acts, failed) := .fails .condition (.refl acts) rfl

theorem callback_outcome (msg : Message) (state : State) (acts : List Act) :
    Outcome acts (callback opts env msg state acts) := by
  cases msg with
  | cast c =>
    cases c with
    | send kind bv => exact andNoReply_outcome (writeFrames_opens _ (frameOpcodes_open kind _ _) acts) state
    | sendBang kind bv => exact andNoReply_outcome (writeFrames_opens _ (frameOpcodes_open kind _ _) acts) state
    | close => exact doClose_outcome _ _ _ acts
    | other => exact failed_outcome acts
  | read msg =>
    cases msg with
    | message kind payload => exact failed_outcome acts
    | close => exact doClose_outcome _ _ _ acts
    | closeWith code reason => exact doClose_outcome _ _ _ acts
    | ping payload => exact andNoReply_outcome (writeFrames_opens [10] (by decide) acts) _
    | pong payload => exact noReply_outcome (.refl acts) _
  | readerExit reason => exact doClose_outcome _ _ _ acts
  | processExit reason => exact doClose_outcome _ _ _ acts
  | processDown reason => exact doClose_outcome _ _ _ acts
  | timeout =>
    cases state with
    | closed code text => exact failed_outcome acts
    | ping t =>
      unfold callback handleTimeout
      dsimp only
      split
      · exact andNoReply_outcome (writeFrames_opens [9] (by decide) acts) _
      · exact noReply_outcome (.refl acts) _
    | pong deadline =>
      unfold callback handleTimeout
      dsimp only
      split
      · exact doClose_outcome _ _ _ acts
      · exact noReply_outcome (.refl acts) _
  | parentExit reason => exact failed_outcome acts
  | call => exact failed_outcome acts
  | debug => exact failed_outcome acts
  | other => exact failed_outcome acts

/-- The end of a websocket. -/
def closing (written : Bool) (code : Nat) (text : List UInt8) : List Act :=
  [.frame 8 written, .closed code text, .closePorts]

/-- The acts of one message: frames that are no close frames, and then the end if it
is the end. -/
structure Turn (acts : List Act) (w : Websocket) : Prop where
  goes : w.ended = none → w.state.isClosed = false ∧ Opens acts w.acts
  ends : w.ended ≠ none → ∃ acts₁ written code text, Opens acts acts₁ ∧ w.acts = acts₁ ++ closing written code text

theorem terminate_turn {state : State} (hs : state.isClosed = false) (reason : Reason)
    {acts acts' : List Act} (ho : Opens acts acts') : Turn acts (terminate env reason state acts') := by
  obtain ⟨written, h⟩ := sendCloseFrame_eq env acts'
  have hend : terminate env reason state acts' = ⟨state, acts' ++ closing written 1001 [], some reason⟩ := by
    cases state with
    | closed code text => cases hs
    | ping t =>
      unfold terminate onClose
      rw [h]
      simp [closing]
    | pong t =>
      unfold terminate onClose
      rw [h]
      simp [closing]
  rw [hend]
  exact ⟨fun he => (by cases he), fun _ => ⟨acts', written, 1001, [], ho, rfl⟩⟩

theorem handleMsg_turn (msg : Message) {w : Websocket} (hw : w.ended = none) (hs : w.state.isClosed = false) :
    Turn w.acts (handleMsg opts env msg w) := by
  have hcallback : ∀ msg, Turn w.acts (handleCommonReply env w.state (callback opts env msg w.state w.acts)) := by
    intro msg
    unfold handleCommonReply
    cases @callback_outcome opts env msg w.state w.acts with
    | goes state ho hs' hr =>
      rw [hr]
      exact ⟨fun _ => ⟨hs', ho⟩, fun he => absurd rfl he⟩
    | fails reason ho hr =>
      rw [hr]
      exact terminate_turn hs reason ho
    | closes reason code text written ha hr =>
      rw [hr, ha]
      refine ⟨fun he => (by cases he), fun _ => ⟨w.acts, written, code, text, .refl _, ?_⟩⟩
      simp [terminate, closing]
  cases msg with
  | parentExit reason => exact terminate_turn hs reason (.refl _)
  | debug => exact ⟨fun _ => ⟨hs, .refl _⟩, fun he => absurd hw he⟩
  | call => exact hcallback .call
  | cast c => exact hcallback (.cast c)
  | read msg => exact hcallback (.read msg)
  | readerExit reason => exact hcallback (.readerExit reason)
  | processExit reason => exact hcallback (.processExit reason)
  | processDown reason => exact hcallback (.processDown reason)
  | timeout => exact hcallback .timeout
  | other => exact hcallback .other

theorem step_turn {w w' : Websocket} {m : Env × Message} (hs : w.state.isClosed = false)
    (h : step opts w m = .ok w') : w.ended = none ∧ Turn w.acts w' := by
  unfold step at h
  cases he : w.ended with
  | some reason =>
    rw [he] at h
    cases h
  | none =>
    rw [he] at h
    cases h
    exact ⟨rfl, handleMsg_turn m.2 he hs⟩

theorem Opens.trans {a b c : List Act} (h : Opens a b) (h' : Opens b c) : Opens a c := by
  obtain ⟨new, rfl, h1⟩ := h
  obtain ⟨new', rfl, h2⟩ := h'
  refine ⟨new ++ new', by simp, fun x hx => ?_⟩
  rcases List.mem_append.mp hx with hx | hx
  · exact h1 x hx
  · exact h2 x hx

theorem Turn.trans {acts : List Act} {w w' : Websocket} (h : Opens acts w.acts) (h' : Turn w.acts w') :
    Turn acts w' := by
  refine ⟨fun he => ⟨(h'.goes he).1, h.trans (h'.goes he).2⟩, fun he => ?_⟩
  obtain ⟨acts₁, written, code, text, ho, ha⟩ := h'.ends he
  exact ⟨acts₁, written, code, text, h.trans ho, ha⟩

/-- A whole run is one long turn. -/
theorem run_turn (waketime : Nat) (msgs : List (Env × Message)) {w : Websocket}
    (h : run opts waketime msgs = .ok w) : Turn [.init] w := by
  refine @Reach.run_history _ _ _ (step opts) (fun _ w => Turn [.init] w) ?_ msgs [] (enterLoop waketime) w
    ⟨fun _ => ⟨rfl, .refl _⟩, fun he => absurd rfl he⟩ h
  intro _ w m w' hi hs
  cases he : w.ended with
  | some reason =>
    unfold step at hs
    rw [he] at hs
    cases hs
  | none =>
    obtain ⟨hstate, ho⟩ := hi.goes he
    exact .trans ho (step_turn hstate hs).2

theorem countP_opens {acts : List Act} (h : ∀ a ∈ acts, a.isOpen = true) {p : Act → Bool}
    (hp : ∀ a, a.isOpen = true → p a = false) : acts.countP p = 0 := by
  refine List.countP_eq_zero.mpr fun a ha => ?_
  rw [hp a (h a ha)]
  exact Bool.false_ne_true

/-- In acts that end like this and have no close frame before, nothing but ws:closed
and the closing of the ports stands after a close frame. -/
theorem after_close_frame {written written' : Bool} {code : Nat} {text : List UInt8} {after : List Act}
    (acts : List Act) (h : ∀ a ∈ acts, a.isCloseFrame = false) :
    ∀ before, acts ++ closing written code text = before ++ .frame 8 written' :: after →
      after = [.closed code text, .closePorts] := by
  induction acts with
  | nil =>
    intro before hs
    cases before with
    | nil =>
      cases hs
      rfl
    | cons b bs =>
      have hmem : Act.frame 8 written' ∈ [Act.closed code text, .closePorts] := by
        have htail := congrArg List.tail hs
        simp only [closing, List.nil_append, List.cons_append, List.tail_cons] at htail
        rw [htail]
        simp
      simp at hmem
  | cons a acts ih =>
    intro before hs
    cases before with
    | nil =>
      simp only [List.cons_append, List.nil_append, List.cons.injEq] at hs
      have hopen := h a (by simp)
      rw [hs.1] at hopen
      cases hopen
    | cons b bs =>
      simp only [List.cons_append, List.cons.injEq] at hs
      exact ih (fun x hx => h x (List.mem_cons_of_mem _ hx)) bs hs.2

/-- However a websocket ends, it sends ws:init once and ws:closed once, tries to write
one close frame, and no frame after it. -/
theorem shutdown_announced_once (opts : Options) (waketime : Nat) (msgs : List (Env × Message))
    (w : Websocket) (h : run opts waketime msgs = .ok w) (he : w.ended ≠ none) :
    w.acts.count .init = 1 ∧ w.acts.countP Act.isClosed = 1 ∧ w.acts.countP Act.isCloseFrame ≤ 1 ∧
      ∀ before written after, w.acts = before ++ .frame 8 written :: after → ∀ a ∈ after, a.isFrame = false := by
  obtain ⟨acts₁, written, code, text, ⟨new, rfl, hopen⟩, ha⟩ := (run_turn waketime msgs h).ends he
  have hclosed : new.countP Act.isClosed = 0 := countP_opens hopen fun a ho => by
    cases a <;> simp_all [Act.isOpen, Act.isClosed]
  have hclose : new.countP Act.isCloseFrame = 0 := countP_opens hopen fun a ho => by
    cases a <;> simp_all [Act.isOpen, Act.isCloseFrame]
  have hinit : new.count .init = 0 := countP_opens hopen fun a ho => by
    cases a <;> simp_all [Act.isOpen]
  rw [ha]
  refine ⟨?_, ?_, ?_, fun before written' after hsplit => ?_⟩
  · simp [closing, hinit]
  · simp [closing, hclosed, List.countP_cons, Act.isClosed]
  · simp [closing, hclose, Act.isCloseFrame]
  · have hfront : ∀ a ∈ ([.init] ++ new : List Act), a.isCloseFrame = false := by
      intro a ha'
      rcases List.mem_append.mp ha' with ha' | ha'
      · rw [List.mem_singleton.mp ha']
        rfl
      · have := hopen a ha'
        cases a <;> simp_all [Act.isOpen, Act.isCloseFrame]
    rw [after_close_frame _ hfront before hsplit]
    simp [Act.isFrame]

/-- A message is sent in two frames, the second of which fails, as every write after it. -/
def failingSend : List (Env × Message) := [(⟨fun n => n ≤ 1, 0, 0⟩, .cast (.send .binary [1, 2]))]

theorem shutdown_announced_once_failure :
    ∃ w, run ⟨some 1, 30, 5⟩ 30 failingSend = .ok w ∧
      w.acts = [.init, .frame 2 true, .frame 0 false, .frame 8 false, .closed 1001 [], .closePorts] ∧
      w.acts.count .init = 1 ∧ w.acts.countP Act.isClosed = 1 ∧ w.acts.countP Act.isCloseFrame ≤ 1 ∧
      ∀ before written after, w.acts = before ++ .frame 8 written :: after → ∀ a ∈ after, a.isFrame = false :=
  ⟨_, rfl, rfl, shutdown_announced_once ⟨some 1, 30, 5⟩ 30 failingSend _ rfl (by decide)⟩

end Swish.WebSocket.Established
