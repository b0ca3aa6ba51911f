import Swish.Erlang.Selective
import Swish.Lib.Except

/-!
A call of $receive from its start to its end. The steps of all processes may come in
any order; what is excluded is that the process itself receives during the call.
-/

set_option autoImplicit false

namespace Swish.Erlang
open CircularList Lib

/-- The call of $receive above these activations goes on. -/
def State.Going (s : State) (p : Nat) (base : List Frame) : Prop :=
  ∃ above r, (s.pcb p).stack = above ++ .receive r :: base

/-- A step under which the call goes on in p, whose trap-exit is not a handler. If the step
is one of p, it is no other call of $receive, and the matcher answers accepts. -/
structure Undisturbed (accepts : Contents → Bool) (p : Nat) (base : List Frame) (s : State) (a : Action) :
    Prop where
  going : s.Going p base
  trap : (s.pcb p).trapExitHandler ≠ .handler
  nested : s.self = p → (∀ w, a ≠ .receive w) ∧ ∀ m, a ≠ .demonitorFlush m
  matcher : s.self = p → ∀ b r rest k, a = .matcher b → (s.pcb p).stack = .receive r :: rest →
    r.cursor = .msg k → b = accepts (s.contents k)

def UndisturbedFrom (accepts : Contents → Bool) (p : Nat) (base : List Frame) : State → List Action → Prop
  | _, [] => True
  | s, a :: as => Undisturbed accepts p base s a ∧ ∀ t, s.step a = .ok t → UndisturbedFrom accepts p base t as

/-- A step of find1 or of the matcher of the innermost $receive of p. -/
def State.scanning (s : State) (p : Nat) (a : Action) : Bool :=
  match (s.pcb p).stack with
  | .receive r :: _ =>
    match a with
    | .find .. => s.self = p && r.phase = .find1
    | .matcher _ => s.self = p
    | _ => false
  | _ => false

/-- How many steps of a run are such. -/
def scans (p : Nat) : State → List Action → Nat
  | _, [] => 0
  | s, a :: as => (if s.scanning p a then 1 else 0) +
    match s.step a with
    | .ok t => scans p t as
    | .error _ => 0

variable {s t : State} {a : Action} {p k : Nat} {accepts : Contents → Bool} {base : List Frame} {r r' : Receive}

/-- The call above base is this one, with nothing but keyboard handlers above it. -/
def CallAt (p : Nat) (base : List Frame) (s : State) (r : Receive) : Prop :=
  ∃ above, (s.pcb p).stack = above ++ .receive r :: base ∧ ∀ f ∈ above, f = .keyboardHandler

/-- All messages at or behind the cursor have been refused but the one that the matcher
is looking at. -/
structure Scan (accepts : Contents → Bool) (p : Nat) (s : State) (r : Receive) : Prop where
  cursor : r.cursor = .inbox p ∨ ∃ c ∈ s.inbox p, r.cursor = .msg c
  refused : ∀ i ∈ s.inbox p, r.cursor.Behind i →
    accepts (s.contents i) = false ∨ (r.phase = .matching ∧ r.cursor = .msg i)

/-- What a step makes of a call that goes on. -/
inductive Turned (accepts : Contents → Bool) (s : State) (p : Nat) (a : Action) (r r' : Receive) : Prop where
  | stays (hs : s.scanning p a = false) (hc : r'.cursor = r.cursor)
      (hm : r'.phase = .matching ↔ r.phase = .matching)
  | parks (hend : ∀ i ∈ s.inbox p, r.cursor.Behind i) (hc : r'.cursor = r.cursor) (hm : r'.phase ≠ .matching)
      (hr : r.phase ≠ .matching)
  | offers (k : Nat) (hk : k ∈ s.inbox p) (hnext : ∀ i ∈ s.inbox p, i ≤ k → i = k ∨ r.cursor.Behind i)
      (hahead : r.cursor.ahead k = true) (hr : r.phase ≠ .matching) (hc : r'.cursor = .msg k)
      (hm : r'.phase = .matching)
  | refuses (k : Nat) (hk : r.cursor = .msg k) (hr : r.phase = .matching) (hno : accepts (s.contents k) = false)
      (hc : r'.cursor = r.cursor) (hm : r'.phase ≠ .matching)

/-- How a call ends. -/
inductive Ends (accepts : Contents → Bool) (p : Nat) (base : List Frame) (s t : State) (a : Action) : Prop where
  /-- The clause for message k runs next. -/
  | clause (r : Receive) (before : List Nat) (k : Nat) (after : List Nat) (hs : s.inbox p = before ++ k :: after)
      (hacc : accepts (s.contents k) = true) (hearlier : ∀ i ∈ before, accepts (s.contents i) = false)
      (ht : t = (s.consume k (.clause r.call)).leave r base) (hin : t.inbox p = before ++ after)
  /-- The timeout handler runs next. -/
  | timeout (r : Receive) (hnone : ∀ i ∈ s.inbox p, accepts (s.contents i) = false) (ht : t = s.leave r base)
      (hin : t.inbox p = s.inbox p)
  | raised (n : Nat) (ha : a = .raise n)
  | dead (hd : t.alive p = false)

/-- The messages are as they were. -/
def MailSame (s t : State) : Prop := t.mail = s.mail ∧ t.nextMsg = s.nextMsg ∧ t.contents = s.contents

theorem MailSame.inbox (h : MailSame s t) (p : Nat) : t.inbox p = s.inbox p := by
  unfold State.inbox
  rw [h.1, h.2.1]

theorem going_alive (h : Reachable s) (hg : s.Going p base) : s.alive p = true := by
  obtain ⟨above, r, hst⟩ := hg
  obtain ⟨⟨box, hbox⟩, -⟩ := h.mail
  exact (hbox.calls p r (by rw [hst]; simp)).1

/-- A call that is at the top of the stack is over when it is gone. -/
theorem not_going_base (hst : (s.pcb p).stack = base) : ¬ s.Going p base := by
  intro hg
  obtain ⟨above, r, h⟩ := hg
  have hlen := congrArg List.length (hst.symm.trans h)
  simp at hlen
  omega

/-- Without a handler, @handle-trap-exit-help only clears a flag. -/
theorem handleTrapExitHelp_off (hx : (s.pcb s.self).trapExitHandler ≠ .handler) :
    s.handleTrapExitHelp = s.setFlags s.self fun f => { f with exit := false } := by
  unfold State.handleTrapExitHelp
  rw [if_neg fun h => hx h.2]

theorem find0_off {rest : List Frame} {b : Bool} (hx : (s.pcb s.self).trapExitHandler ≠ .handler) :
    MailSame s (s.find0 r rest b) ∧
      ∃ ph, ph ≠ .matching ∧ ((s.find0 r rest b).pcb s.self).stack = .receive { r with phase := ph } :: rest := by
  unfold State.find0
  split
  · have hkeep := @modify_keep _ Pcb.trapExitHandler s s.self
      (fun x => { x with stack := .receive { r with phase := .find0 } :: rest }) (fun _ => rfl) s.self
    have htrap : ((s.setStack s.self (.receive { r with phase := .find0 } :: rest)).pcb s.self).trapExitHandler ≠
        .handler := fun h => hx (hkeep.symm.trans h)
    rw [handleTrapExitHelp_off htrap]
    refine ⟨⟨rfl, rfl, rfl⟩, .find0, by simp, ?_⟩
    exact (stack_setFlags _ s.self _).trans (stack_setStack s _ _)
  · exact ⟨⟨rfl, rfl, rfl⟩, .find1, by simp, stack_setStack s _ _⟩

theorem handleTrapExit_off (hx : (s.pcb s.self).trapExitHandler ≠ .handler) (h : s.step .handleTrapExit = .ok t) :
    MailSame s t ∧ (t.pcb s.self).stack = (s.pcb s.self).stack := by
  simp only [State.step, State.userStep] at h
  split at h
  · split at h
    · cases h
      rw [handleTrapExitHelp_off hx]
      exact ⟨⟨rfl, rfl, rfl⟩, stack_setFlags _ _ _⟩
    · cases h
      exact ⟨⟨rfl, rfl, rfl⟩, rfl⟩
  · cases h

/-- One iteration of find1 from a cursor in the inbox: $receive offers the next message,
or it is at the end and parks or gives up. -/
theorem find1_turn {rest : List Frame} {now rt : Nat} (hreach : Reachable s) (ha : s.alive s.self = true)
    (hcur : r.cursor = .inbox s.self ∨ ∃ c ∈ s.inbox s.self, r.cursor = .msg c) (hr : r.phase = .find1)
    (h : s.find1 r rest now rt = .ok t) :
    MailSame s t ∧
      (((∃ r', (t.pcb s.self).stack = .receive r' :: rest ∧ Turned accepts s s.self a r r')) ∨
        (t = s.leave r rest ∧ ∀ i ∈ s.inbox s.self, r.cursor.Behind i)) := by
  have hph : r.phase ≠ .matching := by simp [hr]
  have hyield : ∀ {u : State} {q n}, u.yield q n rt = .ok t → MailSame s u →
      (u.pcb s.self).stack = .receive { r with phase := .parked } :: rest →
      (∀ i ∈ s.inbox s.self, r.cursor.Behind i) →
      MailSame s t ∧
      (((∃ r', (t.pcb s.self).stack = .receive r' :: rest ∧ Turned accepts s s.self a r r')) ∨
        (t = s.leave r rest ∧ ∀ i ∈ s.inbox s.self, r.cursor.Behind i)) := by
    intro u q n hy hsame hst hend
    have hsched := SchedOnly.yield hy
    refine ⟨⟨hsched.mail.trans hsame.1, hsched.nextMsg.trans hsame.2.1, hsched.contents.trans hsame.2.2⟩, .inl
      ⟨{ r with phase := .parked }, ?_, .parks hend rfl (by simp) hph⟩⟩
    rw [hsched.stack]
    exact hst
  unfold State.find1 at h
  split at h
  · rename_i q hn
    have hend := end_linked hreach ha hcur hn
    unfold State.endOfInbox at h
    dsimp only at h
    split at h
    · split at h
      · cases h
      · exact hyield h ⟨rfl, rfl, rfl⟩ (stack_setStack s _ _) hend
    · split at h
      · split at h
        · cases h
        · exact hyield h ⟨rfl, rfl, rfl⟩ ((stack_setFlags _ s.self _).trans (stack_setStack s _ _)) hend
      · cases h
        refine ⟨?_, .inr ⟨rfl, hend⟩⟩
        unfold State.leave
        cases r.matcher <;> exact ⟨rfl, rfl, rfl⟩
  · rename_i k hn
    obtain ⟨hk, hprev, hahead, hnext⟩ := next_linked hreach ha hcur hn
    rw [if_pos (by simpa [Option.isSome_iff_ne_none] using hprev)] at h
    cases h
    exact ⟨⟨rfl, rfl, rfl⟩, .inl ⟨{ r with cursor := .msg k, phase := .matching }, stack_setStack s _ _,
      .offers k hk hnext hahead hph rfl rfl⟩⟩
  · cases h

theorem handlerReturn_keyboard {rest : List Frame} (hst : (s.pcb s.self).stack = .keyboardHandler :: rest)
    (h : s.step .handlerReturn = .ok t) : MailSame s t ∧ (t.pcb s.self).stack = rest := by
  simp only [State.step, State.receiveStep, hst] at h
  cases h
  exact ⟨⟨rfl, rfl, rfl⟩, stack_setStack s _ _⟩

/-- A keyboard handler is put above the call. -/
theorem handleInterrupt_turn (h : s.step .handleInterrupt = .ok t) (hat : CallAt s.self base s r) :
    MailSame s t ∧ ∃ r', CallAt s.self base t r' ∧ Turned accepts s s.self .handleInterrupt r r' := by
  have hquiet : s.scanning s.self .handleInterrupt = false := by
    unfold State.scanning
    split <;> rfl
  obtain ⟨above, hst, hall⟩ := hat
  simp only [State.step, State.receiveStep] at h
  obtain ⟨-, h⟩ := ensure_ok h
  have hkeep : ∀ u : State, (u.pcb s.self).stack = .keyboardHandler :: (s.pcb s.self).stack →
      ∃ r', CallAt s.self base u r' ∧ Turned accepts s s.self .handleInterrupt r r' := by
    intro u hu
    refine ⟨r, ⟨.keyboardHandler :: above, by rw [hu, hst]; rfl, fun f hf => ?_⟩, .stays hquiet rfl Iff.rfl⟩
    rcases List.mem_cons.mp hf with h1 | h1
    · exact h1
    · exact hall f h1
  have hpush : ∀ (f : Flags → Flags), ((s.setFlags s.self f).push .keyboardHandler).pcb s.self =
      { s.pcb s.self with flags := f (s.pcb s.self).flags, stack := .keyboardHandler :: (s.pcb s.self).stack } := by
    intro f
    simp [State.push, State.setStack, State.setFlags, State.modify]
  split at h
  · rename_i r₀ rest hs
    have hs' : (s.pcb s.self).stack = .receive r₀ :: rest := (stack_setFlags s s.self _).symm.trans hs
    have htop : above = [] ∧ r₀ = r ∧ rest = base := by
      rw [hst] at hs'
      cases above with
      | nil =>
        cases hs'
        exact ⟨rfl, rfl, rfl⟩
      | cons f fs =>
        rw [hall f (by simp)] at hs'
        cases hs'
    obtain ⟨rfl, rfl, rfl⟩ := htop
    have hfind0 : r₀.phase ≠ .matching → ∀ u : State,
        (u.pcb s.self).stack = .keyboardHandler :: .receive { r₀ with phase := .find0 } :: rest →
        ∃ r', CallAt s.self rest u r' ∧ Turned accepts s s.self .handleInterrupt r₀ r' := by
      intro hph u hu
      refine ⟨{ r₀ with phase := .find0 }, ⟨[.keyboardHandler], hu, by simp⟩, .stays hquiet rfl ?_⟩
      simp [hph]
    split at h
    · rename_i hph
      cases h
      refine ⟨⟨rfl, rfl, rfl⟩, hfind0 (by simp [hph]) _ ?_⟩
      simp [State.push, State.setStack, State.setFlags, State.modify]
    · rename_i hph
      cases h
      refine ⟨⟨rfl, rfl, rfl⟩, hfind0 (by simp [hph]) _ ?_⟩
      simp [State.push, State.setStack, State.setFlags, State.modify]
    · cases h
      exact ⟨⟨rfl, rfl, rfl⟩, hkeep _ (congrArg Pcb.stack (hpush _))⟩
    · cases h
  · cases h
    exact ⟨⟨rfl, rfl, rfl⟩, hkeep _ (congrArg Pcb.stack (hpush _))⟩

/-- An exception that does not reach the call. -/
theorem raise_turn {n : Nat} (h : s.step (.raise n) = .ok t) (hat : CallAt s.self base s r)
    (hg : t.Going s.self base) : MailSame s t ∧ CallAt s.self base t r := by
  have hstack := raise_stack h
  have hsame : MailSame s t := by
    simp only [State.step, State.userStep] at h
    split at h
    · obtain ⟨-, h⟩ := ensure_ok h
      cases h
      exact ⟨rfl, rfl, rfl⟩
    · cases h
  obtain ⟨above, hst, hall⟩ := hat
  obtain ⟨above', r', hg⟩ := hg
  have hle : n ≤ above.length := by
    have hlen := congrArg List.length (hstack.symm.trans hg)
    rw [hst] at hlen
    simp only [List.length_drop, List.length_append, List.length_cons] at hlen
    omega
  refine ⟨hsame, above.drop n, ?_, fun f hf => hall f (List.mem_of_mem_drop hf)⟩
  rw [hstack, hst, List.drop_append_of_le_length hle]

/-- The activation on top is the call itself when $receive makes a step. -/
theorem CallAt.top {rest : List Frame} {r₀ : Receive} (hat : CallAt p base s r)
    (hst : (s.pcb p).stack = .receive r₀ :: rest) : r₀ = r ∧ rest = base := by
  obtain ⟨above, h, hall⟩ := hat
  rw [hst] at h
  cases above with
  | nil =>
    cases h
    exact ⟨rfl, rfl⟩
  | cons f fs =>
    rw [hall f (by simp)] at h
    cases h

theorem not_scanning_of {rest : List Frame} {f : Frame} (hst : (s.pcb p).stack = f :: rest)
    (hf : ∀ r, f ≠ .receive r) : s.scanning p a = false := by
  unfold State.scanning
  rw [hst]
  cases f with
  | receive r => exact absurd rfl (hf r)
  | trapExitHandler => rfl
  | keyboardHandler => rfl

/-- The call goes on after this step, or it ends with it. -/
def Continues (accepts : Contents → Bool) (p : Nat) (base : List Frame) (s t : State) (a : Action) (r : Receive) :
    Prop :=
  ((∃ r', CallAt p base t r' ∧ Turned accepts s p a r r') ∧ s.inbox p <+: t.inbox p) ∨
    (¬ t.Going p base ∧ Ends accepts p base s t a)

/-- The matcher accepts the message under the cursor: those before it were refused. -/
theorem accept_ends (h : Reachable s)
    (hscan : Scan accepts s.self s r) (hcur : r.cursor = .msg k) (hacc : accepts (s.contents k) = true)
    (ht : t = (s.consume k (.clause r.call)).leave r base) : Ends accepts s.self base s t a := by
  have ha := h.fine.2
  obtain ⟨⟨box, hbox⟩, -⟩ := h.mail
  have hk : k ∈ s.inbox s.self := by
    rcases hscan.cursor with h1 | ⟨c, hc, h1⟩
    · rw [hcur] at h1
      cases h1
    · rw [hcur] at h1
      cases h1
      exact hc
  obtain ⟨before, after, hsplit⟩ := List.append_of_mem hk
  have hsorted := (inbox_sorted h ha).1
  rw [hsplit] at hsorted
  refine .clause r before k after hsplit hacc (fun i hi => ?_) ht ?_
  · have hik : i < k := (List.pairwise_append.mp hsorted).2.2 i hi k (by simp)
    have hb : r.cursor.Behind i := by
      rw [hcur]
      exact Nat.le_of_lt hik
    refine (hscan.refused i (by rw [hsplit]; simp [hi]) hb).resolve_right fun h1 => ?_
    have h2 := h1.2
    rw [hcur] at h2
    cases h2
    omega
  · rw [inbox_eq hbox.boxes ha] at hk hsplit
    have hleave : t.inbox s.self = (s.consume k (.clause r.call)).inbox s.self := by
      rw [ht]
      unfold State.leave
      cases r.matcher <;> rfl
    have hnodup := hbox.boxes.nodup s.self
    rw [hleave, inbox_eq (hbox.boxes.remove ha hk (.clause r.call)) ha]
    unfold dropMsg
    rw [hsplit] at hnodup ⊢
    exact filter_ne_append hnodup

/-- What a step of the process makes of a call. -/
theorem own_turn (h : Reachable s) (hs : s.step a = .ok t) (hu : Undisturbed accepts s.self base s a)
    (hat : CallAt s.self base s r) (hscan : Scan accepts s.self s r) (ha' : t.alive s.self = true) :
    Continues accepts s.self base s t a r := by
  have ha := h.fine.2
  have hsame : MailSame s t ∧ (∃ r', CallAt s.self base t r' ∧ Turned accepts s s.self a r r') →
      Continues accepts s.self base s t a r := by
    intro hP
    have hin := hP.1.inbox s.self
    exact .inl ⟨hP.2, hin.symm ▸ List.prefix_rfl⟩
  by_cases hf : a.framing = true
  · cases a with
    | receive w => exact absurd rfl ((hu.nested rfl).1 w)
    | demonitorFlush m => exact absurd rfl ((hu.nested rfl).2 m)
    | raise n =>
      by_cases hg : t.Going s.self base
      · obtain ⟨h1, h2⟩ := raise_turn hs hat hg
        refine hsame ⟨h1, r, h2, .stays ?_ rfl Iff.rfl⟩
        unfold State.scanning
        split <;> rfl
      · exact .inr ⟨hg, .raised n rfl⟩
    | handleTrapExit =>
      obtain ⟨h1, h2⟩ := handleTrapExit_off hu.trap hs
      refine hsame ⟨h1, r, ?_, .stays ?_ rfl Iff.rfl⟩
      · obtain ⟨above, hst, hall⟩ := hat
        exact ⟨above, h2.trans hst, hall⟩
      · unfold State.scanning
        split <;> rfl
    | handleInterrupt => exact hsame (handleInterrupt_turn hs hat)
    | handlerReturn =>
      obtain ⟨above, hst, hall⟩ := hat
      cases above with
      | nil =>
        rw [List.nil_append] at hst
        simp [State.step, State.receiveStep, hst] at hs
      | cons f fs =>
        rw [hall f (by simp), List.cons_append] at hst
        obtain ⟨h1, h2⟩ := handlerReturn_keyboard hst hs
        refine hsame ⟨h1, r, ⟨fs, h2, fun f hf => hall f (List.mem_cons_of_mem _ hf)⟩, .stays ?_ rfl Iff.rfl⟩
        exact not_scanning_of hst (by simp)
    | find b now rt =>
      obtain ⟨r₀, rest, hst⟩ := receive_top (.inl ⟨b, now, rt, rfl⟩) hs
      obtain ⟨rfl, rfl⟩ := hat.top hst
      have hfind0 : r₀.phase ≠ .matching → r₀.phase ≠ .find1 → t = s.find0 r₀ rest b →
          Continues accepts s.self rest s t (.find b now rt) r₀ := by
        intro hph hph' ht
        obtain ⟨h1, ph, h2, h3⟩ := @find0_off s r₀ rest b hu.trap
        rw [← ht] at h1 h3
        refine hsame ⟨h1, { r₀ with phase := ph }, ⟨[], h3, by simp⟩, .stays ?_ rfl ?_⟩
        · simp [State.scanning, hst, hph']
        · simp [hph, h2]
      simp only [State.step, State.receiveStep, hst] at hs
      split at hs
      · rename_i hph
        cases hs
        exact hfind0 (by simp [hph]) (by simp [hph]) rfl
      · rename_i hph
        cases hs
        exact hfind0 (by simp [hph]) (by simp [hph]) rfl
      · rename_i hph
        obtain ⟨h1, h2⟩ := find1_turn h ha hscan.cursor hph hs
        rcases h2 with ⟨r', h3, h4⟩ | ⟨h3, hend⟩
        · exact hsame ⟨h1, r', ⟨[], h3, by simp⟩, h4⟩
        · have hover : (t.pcb s.self).stack = rest := by
            rw [h3]
            exact leave_stack s r₀ rest
          refine .inr ⟨not_going_base hover, .timeout r₀ (fun i hi => ?_) h3 (h1.inbox _)⟩
          exact (hscan.refused i hi (hend i hi)).resolve_right fun h4 => by simp [hph] at h4
      · cases hs
    | matcher b =>
      obtain ⟨r₀, rest, hst⟩ := receive_top (.inr ⟨b, rfl⟩) hs
      obtain ⟨rfl, rfl⟩ := hat.top hst
      obtain ⟨hph, k, hcur, -, hcase⟩ := matcher_cases hst hs
      have hb := hu.matcher rfl b r₀ rest k rfl hst hcur
      cases b with
      | true => exact .inr ⟨not_going_base hcase.1, accept_ends h hscan hcur hb.symm hcase.2⟩
      | false =>
        have hm : MailSame s t := by
          simp only [State.step, State.receiveStep, hst] at hs
          split at hs
          · cases hs
            exact ⟨rfl, rfl, rfl⟩
          · obtain ⟨-, hs⟩ := ensure_ok hs
            cases hs
            exact ⟨rfl, rfl, rfl⟩
          · cases hs
        exact hsame ⟨hm, { r₀ with phase := .find1 }, ⟨[], hcase, by simp⟩,
          .refuses k hcur hph hb.symm rfl (by simp)⟩
    | _ => cases hf
  · have hf : a.framing = false := by simpa using hf
    have hk := h.mailing_keeps hf hs (s.self + 1)
    have hstack := hk.stack s.self (by omega) ha ha'
    have huser : s.userStep a = .ok t := by
      unfold State.step at hs
      split at hs
      · cases hf
      · cases hf
      · cases hf
      · cases hf
      · split at hs
        · exact hs
        · cases hs
    have hquiet : s.scanning s.self a = false := by
      unfold State.scanning
      split
      · split
        · cases hf
        · cases hf
        · rfl
      · rfl
    refine .inl ⟨⟨r, ?_, .stays hquiet rfl Iff.rfl⟩, ?_⟩
    · obtain ⟨above, hst, hall⟩ := hat
      exact ⟨above, hstack.trans hst, hall⟩
    · cases hw : a.working with
      | false =>
        exact inbox_grows h hs ha ha' fun k c _ hc => posts_consume (moves_posts (userStep_moves ha hw huser)) hc
      | true =>
        cases a with
        | setTrapExit x =>
          cases huser
          exact List.prefix_rfl
        | receive | demonitorFlush | handleTrapExit | raise => cases hf
        | _ => cases hw

/-- A step of another process leaves the call alone. -/
theorem other_turn (h : Reachable s) (hs : s.step a = .ok t) (hne : s.self ≠ p) (hat : CallAt p base s r)
    (ha' : t.alive p = true) : Continues accepts p base s t a r := by
  have ha : s.alive p = true := by
    obtain ⟨above, hst, -⟩ := hat
    exact going_alive h ⟨above, r, hst⟩
  have hstack := (h.mailing hs).stack p (Ne.symm hne) ha ha'
  have hquiet : s.scanning p a = false := by
    unfold State.scanning
    split
    · split
      · simp [hne]
      · simp [hne]
      · rfl
    · rfl
  obtain ⟨above, hst, hall⟩ := hat
  exact .inl ⟨⟨r, ⟨above, hstack.trans hst, hall⟩, .stays hquiet rfl Iff.rfl⟩, inbox_grows_other h hs hne ha ha'⟩

theorem turn (h : Reachable s) (hs : s.step a = .ok t) (hu : Undisturbed accepts p base s a)
    (hat : CallAt p base s r) (hscan : Scan accepts p s r) : Continues accepts p base s t a r := by
  cases ha' : t.alive p with
  | false =>
    refine .inr ⟨fun hg => ?_, .dead ha'⟩
    rw [going_alive (h.step hs) hg] at ha'
    cases ha'
  | true =>
    by_cases hself : s.self = p
    · subst hself
      exact own_turn h hs hu hat hscan ha'
    · exact other_turn h hs hself hat ha'

/-- The cursor is at no message that has come in since. -/
theorem behind_old {x : MPtr} {l new : List Nat} (hsorted : (l ++ new).Pairwise (· < ·))
    (hx : x = .inbox p ∨ ∃ c ∈ l, x = .msg c) {i : Nat} (hi : i ∈ l ++ new) (hb : x.Behind i) : i ∈ l := by
  rcases hx with rfl | ⟨c, hc, rfl⟩
  · exact absurd hb id
  · rcases List.mem_append.mp hi with h1 | h1
    · exact h1
    · have h2 := (List.pairwise_append.mp hsorted).2.2 c hc i h1
      simp only [MPtr.Behind] at hb
      omega

/-- A turn keeps what is known of the messages behind the cursor. -/
theorem Scan.turned (h : Reachable s) (hs : s.step a = .ok t) (ha : s.alive p = true) (ha' : t.alive p = true)
    (hscan : Scan accepts p s r) (ht : Turned accepts s p a r r') (hin : s.inbox p <+: t.inbox p) :
    Scan accepts p t r' := by
  obtain ⟨new, hnew⟩ := hin
  have hsorted := (inbox_sorted (h.step hs) ha').1
  rw [← hnew] at hsorted
  have hcontents : ∀ i ∈ s.inbox p, t.contents i = s.contents i := fun i hi =>
    (h.mailing hs).contents i ((inbox_sorted h ha).2 i hi)
  have hmem : ∀ {x : MPtr}, (x = .inbox p ∨ ∃ c ∈ s.inbox p, x = .msg c) →
      x = .inbox p ∨ ∃ c ∈ t.inbox p, x = .msg c := by
    intro x hx
    refine hx.imp_right fun h1 => ?_
    obtain ⟨c, hc, rfl⟩ := h1
    exact ⟨c, by rw [← hnew]; exact List.mem_append_left _ hc, rfl⟩
  have hold : ∀ {x : MPtr}, (x = .inbox p ∨ ∃ c ∈ s.inbox p, x = .msg c) → ∀ i ∈ t.inbox p, x.Behind i →
      i ∈ s.inbox p := by
    intro x hx i hi hb
    rw [← hnew] at hi
    exact behind_old hsorted hx hi hb
  cases ht with
  | stays hq hc hm =>
    refine ⟨by rw [hc]; exact hmem hscan.cursor, fun i hi hb => ?_⟩
    rw [hc] at hb ⊢
    have hi' := hold hscan.cursor i hi hb
    rw [hcontents i hi', hm]
    exact hscan.refused i hi' hb
  | parks hend hc hm hr =>
    refine ⟨by rw [hc]; exact hmem hscan.cursor, fun i hi hb => .inl ?_⟩
    rw [hc] at hb
    have hi' := hold hscan.cursor i hi hb
    rw [hcontents i hi']
    exact (hscan.refused i hi' hb).resolve_right fun h1 => hr h1.1
  | offers k hk hnext hahead hr hc hm =>
    refine ⟨by rw [hc]; exact hmem (.inr ⟨k, hk, rfl⟩), fun i hi hb => ?_⟩
    rw [hc] at hb ⊢
    have hi' := hold (.inr ⟨k, hk, rfl⟩) i hi hb
    rw [hcontents i hi']
    rcases hnext i hi' hb with h1 | h1
    · exact .inr ⟨hm, by rw [h1]⟩
    · exact .inl ((hscan.refused i hi' h1).resolve_right fun h2 => hr h2.1)
  | refuses k hk hr hno hc hm =>
    refine ⟨by rw [hc]; exact hmem hscan.cursor, fun i hi hb => .inl ?_⟩
    rw [hc] at hb
    have hi' := hold hscan.cursor i hi hb
    rw [hcontents i hi']
    rcases hscan.refused i hi' hb with h1 | ⟨-, h1⟩
    · exact h1
    · rw [hk] at h1
      cases h1
      exact hno

/-- How many steps it takes at most until message k is accepted. -/
def toGo (p : Nat) (s : State) (r : Receive) (k : Nat) : Nat :=
  2 * ((s.inbox p).filter fun i => r.cursor.ahead i && i ≤ k).length + if r.phase = .matching then 1 else 0

theorem toGo_le (p : Nat) (s : State) (r : Receive) (k : Nat) : toGo p s r k ≤ 2 * (s.inbox p).length + 1 := by
  have hle := List.length_filter_le (fun i => r.cursor.ahead i && i ≤ k) (s.inbox p)
  unfold toGo
  split <;> omega

/-- Messages that come in do not make it more. -/
theorem toGo_grows {new : List Nat} (hnew : s.inbox p ++ new = t.inbox p)
    (hsorted : (s.inbox p ++ new).Pairwise (· < ·)) (hk : k ∈ s.inbox p) (r : Receive) :
    toGo p t r k = toGo p s r k := by
  have hnone : (new.filter fun i => r.cursor.ahead i && i ≤ k) = [] := by
    refine List.filter_eq_nil_iff.mpr fun i hi => ?_
    have hlt := (List.pairwise_append.mp hsorted).2.2 k hk i hi
    simp only [Bool.and_eq_true, decide_eq_true_eq, not_and]
    omega
  unfold toGo
  rw [← hnew, List.filter_append, hnone, List.append_nil]

theorem filter_length_lt {l : List Nat} {f f' : Nat → Bool} (himp : ∀ i ∈ l, f' i = true → f i = true) (hk : k ∈ l)
    (hf : f k = true) (hf' : f' k = false) : (l.filter f').length < (l.filter f).length := by
  induction l with
  | nil => simp at hk
  | cons x xs ih =>
    have hle : (xs.filter f').length ≤ (xs.filter f).length := by
      rw [← List.countP_eq_length_filter, ← List.countP_eq_length_filter]
      exact List.countP_mono_left fun i hi h => himp i (List.mem_cons_of_mem _ hi) h
    rcases List.mem_cons.mp hk with rfl | hk
    · rw [List.filter_cons_of_pos hf, List.filter_cons_of_neg (by simp [hf']), List.length_cons]
      omega
    · have hlt := ih (fun i hi => himp i (List.mem_cons_of_mem _ hi)) hk
      rw [List.filter_cons, List.filter_cons]
      have hx := himp x (by simp)
      split
      · rw [if_pos (hx ‹_›), List.length_cons, List.length_cons]
        omega
      · split
        · rw [List.length_cons]
          omega
        · exact hlt

/-- As long as an accepted message is in the inbox, every step of the scan comes nearer
to it. -/
theorem toGo_turned (hscan : Scan accepts p s r) (ht : Turned accepts s p a r r') (hk : k ∈ s.inbox p)
    (hacc : accepts (s.contents k) = true) :
    toGo p s r' k + (if s.scanning p a then 1 else 0) ≤ toGo p s r k := by
  have hone : (if s.scanning p a then 1 else 0) ≤ 1 := by
    split <;> omega
  -- an accepted message is behind the cursor only if the matcher is looking at it
  have hbehind : r.cursor.Behind k → r.phase = .matching ∧ r.cursor = .msg k := by
    intro hb
    rcases hscan.refused k hk hb with h1 | h1
    · rw [hacc] at h1
      cases h1
    · exact h1
  cases ht with
  | stays hq hc hm =>
    unfold toGo
    rw [hc, hq]
    by_cases hph : r.phase = .matching <;> simp [hph, hm]
  | parks hend hc hm hr => exact absurd (hbehind (hend k hk)).1 hr
  | offers j hj hnext hahead hr hc hm =>
    have hjk : j ≤ k := by
      by_contra hlt
      rcases hnext k hk (by omega) with h1 | h1
      · omega
      · exact hr (hbehind h1).1
    have hlt : ((s.inbox p).filter fun i => r'.cursor.ahead i && i ≤ k).length <
        ((s.inbox p).filter fun i => r.cursor.ahead i && i ≤ k).length := by
      refine filter_length_lt (fun i hi h1 => ?_) hj (by simp [hahead, hjk]) (by simp [hc, MPtr.ahead])
      rw [hc] at h1
      simp only [MPtr.ahead, Bool.and_eq_true, decide_eq_true_eq] at h1 ⊢
      refine ⟨?_, h1.2⟩
      cases hx : r.cursor with
      | inbox q => rfl
      | msg c =>
        rw [hx] at hahead
        simp only [MPtr.ahead, decide_eq_true_eq] at hahead ⊢
        omega
    unfold toGo
    rw [if_pos hm, if_neg hr]
    omega
  | refuses j hj hr hno hc hm =>
    unfold toGo
    rw [hc, if_neg hm, if_pos hr]
    omega

theorem undisturbed_going {as : List Action} (hu : UndisturbedFrom accepts p base s as) (hr : s.run as = .ok t)
    (hg : t.Going p base) : s.Going p base := by
  cases as with
  | nil =>
    cases hr
    exact hg
  | cons a as => exact hu.1.going

theorem undisturbed_append {as bs : List Action} (hu : UndisturbedFrom accepts p base s (as ++ bs))
    (hr : s.run as = .ok t) : UndisturbedFrom accepts p base s as ∧ UndisturbedFrom accepts p base t bs := by
  induction as generalizing s with
  | nil =>
    cases hr
    exact ⟨trivial, hu⟩
  | cons a as ih =>
    rw [State.run] at hr
    obtain ⟨u, hs, hr⟩ := Lib.bind_ok hr
    obtain ⟨h1, h2⟩ := ih (hu.2 u hs) hr
    refine ⟨⟨hu.1, fun v hv => ?_⟩, h2⟩
    rw [hs] at hv
    cases hv
    exact h1

/-- A whole run of a call: its messages stay in the inbox, new ones come after them, and
the steps of the scan are numbered. -/
structure Scanned (accepts : Contents → Bool) (p : Nat) (base : List Frame) (s t : State) (as : List Action)
    (r r' : Receive) : Prop where
  call : CallAt p base t r'
  scan : Scan accepts p t r'
  grows : s.inbox p <+: t.inbox p
  contents : ∀ i ∈ s.inbox p, t.contents i = s.contents i
  steps : ∀ k ∈ s.inbox p, accepts (s.contents k) = true → toGo p t r' k + scans p s as ≤ toGo p s r k

theorem scanned {as : List Action} (h : Reachable s) (hu : UndisturbedFrom accepts p base s as)
    (hr : s.run as = .ok t) (hg : t.Going p base) (hat : CallAt p base s r) (hscan : Scan accepts p s r) :
    ∃ r', Scanned accepts p base s t as r r' := by
  induction as generalizing s r with
  | nil =>
    cases hr
    exact ⟨r, hat, hscan, List.prefix_rfl, fun _ _ => rfl, fun _ _ _ => by simp [scans]⟩
  | cons a as ih =>
    rw [State.run] at hr
    obtain ⟨u, hs, hr⟩ := Lib.bind_ok hr
    have hu' := hu.2 u hs
    have hgu := undisturbed_going hu' hr hg
    have ha := going_alive h hu.1.going
    have ha' := going_alive (h.step hs) hgu
    rcases turn h hs hu.1 hat hscan with ⟨⟨r₁, hat₁, hturn⟩, hin⟩ | ⟨hover, -⟩
    · have hscan₁ := hscan.turned h hs ha ha' hturn hin
      obtain ⟨r', h1⟩ := ih (h.step hs) hu' hr hat₁ hscan₁
      have hkeep : ∀ i ∈ s.inbox p, u.contents i = s.contents i := fun i hi =>
        (h.mailing hs).contents i ((inbox_sorted h ha).2 i hi)
      refine ⟨r', h1.call, h1.scan, hin.trans h1.grows, fun i hi => ?_, fun k hk hacc => ?_⟩
      · rw [h1.contents i (hin.subset hi), hkeep i hi]
      · have hstep := toGo_turned hscan hturn hk hacc
        have hacc' : accepts (u.contents k) = true := by rwa [hkeep k hk]
        have hrest := h1.steps k (hin.subset hk) hacc'
        obtain ⟨new, hnew⟩ := hin
        have hsorted := (inbox_sorted (h.step hs) ha').1
        rw [← hnew] at hsorted
        rw [toGo_grows hnew hsorted hk] at hrest
        simp only [scans, hs]
        omega
    · exact absurd hgu hover

/-- Whatever happens meanwhile, the messages of a call stay in the inbox in their order;
the call ends with the clause for the earliest message that is accepted, which alone is
taken out, or with a timeout when there is none, unless it is left by an exception or by
death. While there is one, the scan comes to it in a bounded number of steps. -/
theorem receive_takes_earliest (accepts : Contents → Bool) (p : Nat) (base : List Frame) (r₀ : Receive)
    (s₀ s t : State) (as : List Action) (a : Action) (h : Reachable s₀)
    (hcall : (s₀.pcb p).stack = .receive r₀ :: base) (hcursor : r₀.cursor = .inbox p)
    (hpure : UndisturbedFrom accepts p base s₀ as) (hrun : s₀.run as = .ok s)
    (hlast : Undisturbed accepts p base s a) (hstep : s.step a = .ok t) :
    s₀.inbox p <+: s.inbox p ∧
    (t.Going p base → s.inbox p <+: t.inbox p) ∧
    (¬ t.Going p base → Ends accepts p base s t a) ∧
    ∀ as₁ as₂ u, as = as₁ ++ as₂ → s₀.run as₁ = .ok u → ∀ k ∈ u.inbox p, accepts (u.contents k) = true →
      scans p u as₂ ≤ 2 * (u.inbox p).length + 1 := by
  have hat₀ : CallAt p base s₀ r₀ := ⟨[], hcall, by simp⟩
  have hscan₀ : Scan accepts p s₀ r₀ := ⟨.inl hcursor, fun i _ hb => by rw [hcursor] at hb; exact absurd hb id⟩
  obtain ⟨r, hr⟩ := scanned h hpure hrun hlast.going hat₀ hscan₀
  have hreach : Reachable s := by
    obtain ⟨bs, hbs⟩ := h
    exact ⟨bs ++ as, by rw [run_append, hbs]; exact hrun⟩
  refine ⟨hr.grows, fun hg => ?_, fun hover => ?_, fun as₁ as₂ u has hu k hk hacc => ?_⟩
  · rcases turn hreach hstep hlast hr.call hr.scan with ⟨-, h1⟩ | ⟨h1, -⟩
    · exact h1
    · exact absurd hg h1
  · rcases turn hreach hstep hlast hr.call hr.scan with ⟨⟨r', ⟨above, hst, -⟩, -⟩, -⟩ | ⟨-, h1⟩
    · exact absurd ⟨above, r', hst⟩ hover
    · exact h1
  · subst has
    obtain ⟨h1, h2⟩ := undisturbed_append hpure hu
    have hrest : u.run as₂ = .ok s := by
      rw [run_append, hu] at hrun
      exact hrun
    obtain ⟨ru, hru⟩ := scanned h h1 hu (undisturbed_going h2 hrest hlast.going) hat₀ hscan₀
    have hreachu : Reachable u := by
      obtain ⟨bs, hbs⟩ := h
      exact ⟨bs ++ as₁, by rw [run_append, hbs]; exact hu⟩
    obtain ⟨r', h3⟩ := scanned hreachu h2 hrest hlast.going hru.call hru.scan
    have hsteps := h3.steps k hk hacc
    have hle := toGo_le p u ru k
    omega

/-- A step of a call that is the only activation of p, as a test. -/
def undisturbedStep (accepts : Contents → Bool) (p : Nat) (s : State) (a : Action) : Bool :=
  match (s.pcb p).stack with
  | [.receive r] => (s.pcb p).trapExitHandler = .off &&
    match a with
    | .find .. => true
    | .matcher b =>
      match r.cursor with
      | .msg k => b == accepts (s.contents k)
      | .inbox _ => true
    | _ => false
  | _ => false

def undisturbedSteps (accepts : Contents → Bool) (p : Nat) : State → List Action → Bool
  | _, [] => true
  | s, a :: as => undisturbedStep accepts p s a &&
    match s.step a with
    | .ok t => undisturbedSteps accepts p t as
    | .error _ => true

theorem undisturbed_of_step (h : undisturbedStep accepts p s a = true) : Undisturbed accepts p [] s a := by
  unfold undisturbedStep at h
  split at h
  · rename_i r hst
    obtain ⟨htrap, h⟩ := Bool.and_eq_true_iff.mp h
    have htrap' : (s.pcb p).trapExitHandler ≠ .handler := by simp [of_decide_eq_true htrap]
    cases a with
    | find b now rt =>
      exact ⟨⟨[], r, hst⟩, htrap', fun _ => ⟨fun _ h => (by cases h), fun _ h => (by cases h)⟩,
        fun _ _ _ _ _ h => (by cases h)⟩
    | matcher b =>
      refine ⟨⟨[], r, hst⟩, htrap', fun _ => ⟨fun _ h => (by cases h), fun _ h => (by cases h)⟩, ?_⟩
      intro _ b' r' rest k hb hst' hcur
      cases hb
      rw [hst] at hst'
      cases hst'
      simpa [hcur] using h
    | _ => cases h
  · cases h

theorem undisturbed_of_steps {as : List Action} (h : undisturbedSteps accepts p s as = true) :
    UndisturbedFrom accepts p [] s as := by
  induction as generalizing s with
  | nil => trivial
  | cons a as ih =>
    unfold undisturbedSteps at h
    obtain ⟨h1, h2⟩ := Bool.and_eq_true_iff.mp h
    refine ⟨undisturbed_of_step h1, fun t ht => ih ?_⟩
    rw [ht] at h2
    exact h2

/-- The message of the user with this datum. -/
def Contents.isUser (d : Nat) : Contents → Bool
  | .user d' => d' = d
  | _ => false

/-- The earlier of two messages is refused, the later one is taken out. -/
theorem receive_takes_earliest_second : ∃ s₀ s t,
    bootState.run [.send 1 7, .send 1 8, .receive none] = .ok s₀ ∧
    s₀.run [.find false 0 0, .find false 0 0, .matcher false, .find false 0 0] = .ok s ∧
    s.step (.matcher true) = .ok t ∧ s.inbox 1 = [0, 1] ∧ t.inbox 1 = [0] ∧
    Ends (Contents.isUser 8) 1 [] s t (.matcher true) := by
  obtain ⟨s₀, hs₀, h₀⟩ := exists_of_runsTo
    (P := fun s => (s.pcb 1).stack = [.receive ⟨0, .user, none, .inbox 1, .find0⟩] ∧
      undisturbedSteps (Contents.isUser 8) 1 s
        [.find false 0 0, .find false 0 0, .matcher false, .find false 0 0] = true)
    (by decide +kernel : runsTo [.send 1 7, .send 1 8, .receive none] _ = true)
  obtain ⟨hst, hpure⟩ := of_decide_eq_true h₀
  obtain ⟨s, hs, h⟩ := exists_of_runsTo
    (P := fun s => undisturbedStep (Contents.isUser 8) 1 s (.matcher true) = true ∧ s.inbox 1 = [0, 1])
    (by decide +kernel : runsTo ([.send 1 7, .send 1 8, .receive none] ++
      [.find false 0 0, .find false 0 0, .matcher false, .find false 0 0]) _ = true)
  obtain ⟨hlast, hin⟩ := of_decide_eq_true h
  obtain ⟨t, ht, h'⟩ := exists_of_runsTo (P := fun t => (t.pcb 1).stack = [] ∧ t.inbox 1 = [0])
    (by decide +kernel : runsTo (([.send 1 7, .send 1 8, .receive none] ++
      [.find false 0 0, .find false 0 0, .matcher false, .find false 0 0]) ++ [.matcher true]) _ = true)
  obtain ⟨hst', hin'⟩ := of_decide_eq_true h'
  have hrun : s₀.run [.find false 0 0, .find false 0 0, .matcher false, .find false 0 0] = .ok s := by
    rw [run_append, hs₀] at hs
    exact hs
  have hstep : s.step (.matcher true) = .ok t := by
    rw [run_append, hs] at ht
    simp only [Except.bind, State.run] at ht
    cases hs' : s.step (.matcher true) with
    | error e => simp [hs'] at ht
    | ok u => simpa [hs'] using ht
  refine ⟨s₀, s, t, hs₀, hrun, hstep, hin, hin', ?_⟩
  exact (receive_takes_earliest _ 1 [] _ s₀ s t _ _ ⟨_, hs₀⟩ hst rfl (undisturbed_of_steps hpure) hrun
    (undisturbed_of_step hlast) hstep).2.2.1 (not_going_base hst')

end Swish.Erlang
