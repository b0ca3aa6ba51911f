import Swish.Erlang.Notices

/-!
What a step does to the stack of the running process. Only the top activation
can change, an exception apart, and a $receive that goes on is the same call.
-/

set_option autoImplicit false

namespace Swish.Erlang
open CircularList

variable {s t : State} {p k : Nat} {m : Mon} {r r' : Receive} {rest : List Frame}

/-- The same call of $receive, outside its matcher. -/
structure Receive.Resumes (r r' : Receive) : Prop where
  call : r'.call = r.call
  matcher : r'.matcher = r.matcher
  waketime : r'.waketime = r.waketime
  phase : r'.phase ≠ .matching

theorem stack_setStack (s : State) (p : Nat) (fs : List Frame) : ((s.setStack p fs).pcb p).stack = fs := by
  simp [State.setStack]

theorem stack_setFlags (s : State) (p : Nat) (f : Flags → Flags) :
    ((s.setFlags p f).pcb p).stack = (s.pcb p).stack := by
  simp

theorem handleTrapExitHelp_stack (s : State) :
    ∃ l, (s.handleTrapExitHelp.pcb s.self).stack = l ++ (s.pcb s.self).stack := by
  unfold State.handleTrapExitHelp
  split
  · split
    · exact ⟨[.trapExitHandler], by simp [State.push, State.setStack, State.setFlags, State.modify,
        State.consume, State.record, State.removeMsg]⟩
    · exact ⟨[], stack_setFlags _ _ _⟩
  · exact ⟨[], stack_setFlags _ _ _⟩

theorem leave_stack (s : State) (r : Receive) (rest : List Frame) :
    ((s.leave r rest).pcb s.self).stack = rest := by
  unfold State.leave
  cases r.matcher with
  | user => exact stack_setStack s _ _
  | down m => exact stack_setStack s _ _

theorem leave_flushed (s : State) {r : Receive} (rest : List Frame) (hm : r.matcher = .down m) :
    Event.flushed m ∈ (s.leave r rest).log := by
  unfold State.leave
  rw [hm]
  exact List.mem_cons_self

/-- One iteration of find0 or find1: $receive goes on, offers a message to its
matcher, or times out. -/
theorem find_cases {b : Bool} {now rt : Nat} (hs : (s.pcb s.self).stack = .receive r :: rest)
    (h : s.step (.find b now rt) = .ok t) :
    (∃ l r', (t.pcb s.self).stack = l ++ .receive r' :: rest ∧ r.Resumes r') ∨
    (∃ k, (t.pcb s.self).stack = .receive { r with cursor := .msg k, phase := .matching } :: rest ∧
      (s.mail r.cursor).next = some (.msg k) ∧ (s.mail (.msg k)).prev ≠ none) ∨
    ((t.pcb s.self).stack = rest ∧ ∀ m, r.matcher = .down m → Event.flushed m ∈ t.log) := by
  have h0 : ∀ ph, ph ≠ .matching → r.Resumes { r with phase := ph } := fun ph hph =>
    ⟨rfl, rfl, rfl, hph⟩
  have hfind0 : ∀ b, ∃ l r', ((s.find0 r rest b).pcb s.self).stack = l ++ .receive r' :: rest ∧
      r.Resumes r' := by
    intro b
    unfold State.find0
    split
    · obtain ⟨l, hl⟩ := handleTrapExitHelp_stack
        (s.setStack s.self (.receive { r with phase := .find0 } :: rest))
      exact ⟨l, _, hl.trans (congrArg (l ++ ·) (stack_setStack s _ _)), h0 _ (by simp)⟩
    · exact ⟨[], _, stack_setStack _ _ _, h0 _ (by simp)⟩
  simp only [State.step, State.receiveStep, hs] at h
  split at h
  · cases h
    exact .inl (hfind0 b)
  · cases h
    exact .inl (hfind0 b)
  · unfold State.find1 State.endOfInbox at h
    dsimp only at h
    split at h
    · split at h
      · split at h
        · cases h
        · refine .inl ⟨[], { r with phase := .parked }, ?_, h0 _ (by simp)⟩
          rw [(SchedOnly.yield h).stack]
          exact stack_setStack s _ _
      · split at h
        · split at h
          · cases h
          · refine .inl ⟨[], { r with phase := .parked }, ?_, h0 _ (by simp)⟩
            rw [(SchedOnly.yield h).stack, stack_setFlags]
            exact stack_setStack s _ _
        · cases h
          exact .inr (.inr ⟨leave_stack s r rest, fun m hm => leave_flushed s rest hm⟩)
    · rename_i k hn
      split at h
      · rename_i hk
        cases h
        refine .inr (.inl ⟨k, stack_setStack s _ _, hn, ?_⟩)
        simpa [Option.isSome_iff_ne_none] using hk
      · cases h
        exact .inl ⟨[], _, stack_setStack s _ _, rfl, rfl, rfl, by simp⟩
    · cases h
  · cases h

/-- The matcher returns: its message is taken and the call is over, or $receive
goes on. -/
theorem matcher_cases {b : Bool} (hs : (s.pcb s.self).stack = .receive r :: rest)
    (h : s.step (.matcher b) = .ok t) :
    r.phase = .matching ∧ ∃ k, r.cursor = .msg k ∧
      (∀ m, r.matcher = .down m → b = (s.contents k).isDown m) ∧
      if b then (t.pcb s.self).stack = rest ∧ t = (s.consume k (.clause r.call)).leave r rest
      else (t.pcb s.self).stack = .receive { r with phase := .find1 } :: rest := by
  have hm : ∀ k, s.matched r rest k b = .ok t →
      if b then (t.pcb s.self).stack = rest ∧ t = (s.consume k (.clause r.call)).leave r rest
      else (t.pcb s.self).stack = .receive { r with phase := .find1 } :: rest := by
    intro k h1
    unfold State.matched at h1
    cases b with
    | true =>
      cases h1
      exact ⟨leave_stack (s.consume k (.clause r.call)) r rest, rfl⟩
    | false =>
      cases h1
      exact stack_setStack s _ _
  simp only [State.step, State.receiveStep, hs] at h
  split at h
  · rename_i k h1 h2 h3
    exact ⟨h1, k, h2, by simp [h3], hm k h⟩
  · rename_i k m h1 h2 h3
    obtain ⟨hb, h⟩ := ensure_ok h
    refine ⟨h1, k, h2, fun m' h4 => ?_, hm k h⟩
    rw [h3] at h4
    cases h4
    simpa using hb
  · cases h

/-- The handler of keyboard interrupts is called; a parked $receive starts over
afterwards. -/
theorem handleInterrupt_cases (h : s.step .handleInterrupt = .ok t) :
    (t.pcb s.self).stack = .keyboardHandler :: (s.pcb s.self).stack ∨
    ∃ r rest, (s.pcb s.self).stack = .receive r :: rest ∧
      (t.pcb s.self).stack = .keyboardHandler :: .receive { r with phase := .find0 } :: rest := by
  simp only [State.step, State.receiveStep] at h
  obtain ⟨_, h⟩ := ensure_ok h
  split at h
  · rename_i r rest hs
    have hs' : (s.pcb s.self).stack = .receive r :: rest := (stack_setFlags s s.self _).symm.trans hs
    split at h
    · cases h
      exact .inr ⟨r, rest, hs', by simp [State.push, State.setStack, State.setFlags, State.modify]⟩
    · cases h
      exact .inr ⟨r, rest, hs', by simp [State.push, State.setStack, State.setFlags, State.modify]⟩
    · cases h
      exact .inl (by simp [State.push, State.setStack, State.setFlags, State.modify])
    · cases h
  · cases h
    exact .inl (by simp [State.push, State.setStack, State.setFlags, State.modify])

theorem handleTrapExit_stack (h : s.step .handleTrapExit = .ok t) :
    ∃ l, (t.pcb s.self).stack = l ++ (s.pcb s.self).stack := by
  simp only [State.step, State.userStep] at h
  split at h
  · split at h
    · cases h
      exact handleTrapExitHelp_stack s
    · cases h
      exact ⟨[], rfl⟩
  · cases h

theorem handlerReturn_stack (h : s.step .handlerReturn = .ok t) :
    ∃ l, (t.pcb s.self).stack = l ++ (s.pcb s.self).stack.tail := by
  simp only [State.step, State.receiveStep] at h
  split at h
  · rename_i rest hs
    cases h
    obtain ⟨l, hl⟩ := handleTrapExitHelp_stack
      ((s.setStack s.self rest).setFlags s.self fun f => { f with handlingExit := false })
    have hrest := (stack_setFlags (s.setStack s.self rest) s.self
      fun f => { f with handlingExit := false }).trans (stack_setStack s _ _)
    exact ⟨l, by rw [hs]; exact hl.trans (congrArg (l ++ ·) hrest)⟩
  · rename_i rest hs
    cases h
    exact ⟨[], by rw [hs]; exact stack_setStack s _ _⟩
  · cases h

theorem raise_stack {n : Nat} (h : s.step (.raise n) = .ok t) :
    (t.pcb s.self).stack = (s.pcb s.self).stack.drop n := by
  simp only [State.step, State.userStep] at h
  split at h
  · obtain ⟨_, h⟩ := ensure_ok h
    cases h
    rw [stack_setFlags, stack_setStack]
  · cases h

theorem receive_stack {w : Option Nat} (h : s.step (.receive w) = .ok t) :
    (t.pcb s.self).stack =
      .receive ⟨s.nextCall, .user, w, .inbox s.self, .find0⟩ :: (s.pcb s.self).stack := by
  simp only [State.step, State.userStep] at h
  split at h
  · cases h
    exact stack_setStack s _ _
  · cases h

theorem flush_stack (hm : s.isOwnMon m = true) (h : s.step (.demonitorFlush m) = .ok t) :
    (t.pcb s.self).stack =
      .receive ⟨s.nextCall, .down m, some 0, .inbox s.self, .find0⟩ :: (s.pcb s.self).stack := by
  simp only [State.step, State.userStep, hm, if_true] at h
  split at h
  · cases h
    have h1 : ((s.demonitor m).pcb s.self).stack = (s.pcb s.self).stack := by
      have h2 := modify_keep (g := Pcb.stack) s s.self
        (f := fun x => { x with monitors := x.monitors.filter (· ≠ m) }) (fun _ => rfl) s.self
      have h3 := modify_keep (g := Pcb.stack) (s.removeMonitor m s.self) m.target
        (f := fun x => { x with monitors := x.monitors.filter (· ≠ m) }) (fun _ => rfl) s.self
      exact h3.trans h2
    rw [← h1]
    exact stack_setStack (s.demonitor m) s.self _
  · cases h

/-- The loop of $receive and its matcher run with a call on top. -/
theorem receive_top {a : Action} (ha : (∃ b now rt, a = .find b now rt) ∨ ∃ b, a = .matcher b) (h : s.step a = .ok t) :
    ∃ r rest, (s.pcb s.self).stack = .receive r :: rest := by
  obtain ⟨b, now, rt, rfl⟩ | ⟨b, rfl⟩ := ha
  · simp only [State.step, State.receiveStep] at h
    split at h
    · rename_i r rest hst
      exact ⟨r, rest, hst⟩
    · cases h
  · simp only [State.step, State.receiveStep] at h
    split at h
    · rename_i r rest hst
      exact ⟨r, rest, hst⟩
    · cases h

/-- No operation but an exception reaches below the top activation. -/
theorem step_tail {a : Action} (hreach : Reachable s) (ha' : t.alive s.self = true)
    (hr : ∀ n, a ≠ .raise n) (h : s.step a = .ok t) :
    ∃ l, (t.pcb s.self).stack = l ++ (s.pcb s.self).stack.tail := by
  have hdrop : ∀ {st : List Frame} {l : List Frame}, st = l ++ (s.pcb s.self).stack →
      ∃ l', st = l' ++ (s.pcb s.self).stack.tail := by
    intro st l hst
    cases hs : (s.pcb s.self).stack with
    | nil =>
      rw [hs] at hst
      exact ⟨l, hst⟩
    | cons f fs =>
      rw [hs] at hst
      exact ⟨l ++ [f], by rw [hst]; simp⟩
  by_cases hf : a.framing = true
  · cases a with
    | receive w => exact hdrop (l := [_]) (receive_stack h)
    | demonitorFlush m =>
      by_cases hm : s.isOwnMon m = true
      · exact hdrop (l := [_]) (flush_stack hm h)
      · simp only [State.step, State.userStep, hm] at h
        split at h
        · cases h
          exact hdrop (l := []) rfl
        · cases h
    | handleTrapExit =>
      obtain ⟨l, hl⟩ := handleTrapExit_stack h
      exact hdrop hl
    | raise n => exact absurd rfl (hr n)
    | find b now rt =>
      obtain ⟨r, rest, hs⟩ := receive_top (.inl ⟨b, now, rt, rfl⟩) h
      rw [hs]
      rcases find_cases hs h with ⟨l, r', h1, _⟩ | ⟨k, h1, _⟩ | ⟨h1, _⟩
      · exact ⟨l ++ [.receive r'], by rw [h1]; simp⟩
      · exact ⟨[_], h1⟩
      · exact ⟨[], h1⟩
    | matcher b =>
      obtain ⟨r, rest, hs⟩ := receive_top (.inr ⟨b, rfl⟩) h
      rw [hs]
      obtain ⟨_, k, _, _, h1⟩ := matcher_cases hs h
      cases b with
      | true => exact ⟨[], h1.1⟩
      | false => exact ⟨[_], h1⟩
    | handleInterrupt =>
      rcases handleInterrupt_cases h with h1 | ⟨r, rest, h1, h2⟩
      · exact hdrop (l := [_]) h1
      · exact ⟨[_, _], by rw [h2, h1]; rfl⟩
    | handlerReturn => exact handlerReturn_stack h
    | _ => cases hf
  · have hk := hreach.mailing_keeps (by simpa using hf) h (s.self + 1)
    exact hdrop (l := []) (hk.stack s.self (by omega) hreach.fine.2 ha')

/-- The message a matcher is called on is in the inbox at that moment. -/
theorem offered_inbox (h : Reachable s) (hr : Frame.receive r ∈ (s.pcb s.self).stack)
    (hn : (s.mail r.cursor).next = some (.msg k)) (hk : (s.mail (.msg k)).prev ≠ none) :
    k ∈ s.inbox s.self := by
  obtain ⟨⟨box, hbox⟩, _⟩ := h.mail
  have ha := (hbox.calls s.self r hr).1
  rw [inbox_eq hbox.boxes ha]
  exact hbox.boxes.mem_of_prev ha (hbox.next_cursor hr hn).1 hk

/-- A message that a clause gets has been taken out, now or before. -/
theorem consume_taken_out (h : Reachable s) (hr : Frame.receive r ∈ (s.pcb s.self).stack)
    (hk : r.cursor = .msg k) (c : Consumer) : ∃ c', Event.consume k c' true ∈ (s.consume k c).log := by
  obtain ⟨⟨box, hbox⟩, _⟩ := h.mail
  have ha := (hbox.calls s.self r hr).1
  cases hp : (s.mail (.msg k)).prev with
  | some q => exact ⟨c, by simp [State.consume, State.record, State.removeMsg, hp]⟩
  | none =>
    have hno : k ∉ box s.self := fun hmem => hbox.boxes.prev_of_mem ha hmem hp
    obtain ⟨c', hc'⟩ := hbox.boxes.taken s.self k ha (hbox.cursor_inserted hr hk) hno
    exact ⟨c', List.mem_cons_of_mem _ hc'⟩

theorem leave_mem_log {e : Event} (he : e ∈ s.log) : e ∈ (s.leave r rest).log := by
  obtain ⟨es, _, hl⟩ := leave_log s r rest
  exact log_mono hl he

end Swish.Erlang
