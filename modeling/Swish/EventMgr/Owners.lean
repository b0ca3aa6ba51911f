import Swish.EventMgr.Delivery

/-!
Which processes own handlers. A process may own the log handler and any number of the
others; the exit of a process, or a failure of its log handler, takes away its log
handler or its other handlers, but not both.
-/

set_option autoImplicit false

namespace Swish.EventMgr

open Swish.Lib

variable {E X : Type} {env : Env E X}

def OwnsLog (state : State E) (p : Nat) : Prop := state.logHandler.map Handler.owner = some p

def OwnsEntry (state : State E) (p : Nat) : Prop := ∃ h ∈ state.handlers, h.owner = p

/-- The log handler or an entry of handlers is owned by p. -/
def Owns (state : State E) (p : Nat) : Prop := OwnsLog state p ∨ OwnsEntry state p

def OwnsBoth (state : State E) (p : Nat) : Prop := OwnsLog state p ∧ OwnsEntry state p

/-- do-notify has unlinked p between the two states. -/
def Unlinked (s t : Server E X) (p : Nat) : Prop :=
  ∃ new, t.trace = s.trace ++ new ∧ .unlink p ∈ new

/-- The message is the exit of p, or with it the log handler of p has failed. -/
def Drops (s : Server E X) (msg : Message E) (t : Server E X) (p : Nat) : Prop :=
  msg = .exit p ∨ Unlinked s t p

/-- The message makes p the owner of a handler, if it has an effect. -/
def Registers (msg : Message E) (p : Nat) : Prop :=
  (∃ proc, msg = .call (.addHandler (.procedure proc) (.process p))) ∨
    ∃ proc endure, msg = .call (.setLogHandler (.procedure proc) (.process p) (.procedure endure))

/-- What do-notify does to the log handler, and whom it unlinks. -/
inductive LogEffect (state : State E) (trace : List (Action E X)) (r : State E × List (Action E X)) : Prop where
  | same (new : List (Action E X)) (ht : r.2 = trace ++ new) (hl : r.1.logHandler = state.logHandler)
      (hu : ∀ p, .unlink p ∉ new)
  | failed (new : List (Action E X)) (h : Handler) (ht : r.2 = trace ++ new)
      (hs : state.logHandler = some h) (hl : r.1.logHandler = none) (hu : ∀ p, .unlink p ∈ new ↔ p = h.owner)

theorem callHandlers_unlinks {event : E} (hs : List Handler) {trace trace' : List (Action E X)}
    (h : env.callHandlers event hs trace = .ok trace') :
    ∃ new, trace' = trace ++ new ∧ ∀ p, .unlink p ∉ new := by
  obtain ⟨calls, -, ht⟩ := callHandlers_acts hs h
  refine ⟨_, ht, fun p hmem => ?_⟩
  obtain ⟨⟨hd, raised⟩, -, hc⟩ := List.mem_flatMap.mp hmem
  cases raised <;> simp [callActs] at hc

theorem callLogHandler_effect {event : E} {state : State E} {trace : List (Action E X)}
    {r : State E × List (Action E X)} (h : env.callLogHandler event state trace = .ok r) :
    LogEffect state trace r := by
  unfold Env.callLogHandler at h
  cases hl : state.logHandler with
  | none =>
    rw [hl] at h
    cases h
    exact .same [.console event] rfl rfl (by simp)
  | some hd =>
    rw [hl] at h
    dsimp only at h
    cases hr : env.raises trace.length hd.proc event with
    | none =>
      rw [hr] at h
      cases h
      exact .same [.log hd event none] rfl rfl (by simp)
    | some e =>
      rw [hr] at h
      dsimp only at h
      split at h
      · cases h
        exact .same [.log hd event (some e), .console event, .consoleError e] (by simp) rfl (by simp)
      · obtain ⟨t₁, h₁, h₂⟩ := bind_ok h
        cases h₂
        rw [kill_ok h₁]
        exact .failed [.log hd event (some e), .console event, .unlink hd.owner, .kill hd.owner e] hd
          (by simp) hl rfl (by simp)

/-- An effect after acts that unlink nobody. -/
theorem LogEffect.after {state : State E} {trace trace₁ new : List (Action E X)}
    {r : State E × List (Action E X)} (ht₁ : trace₁ = trace ++ new) (hu₁ : ∀ p, .unlink p ∉ new)
    (h : LogEffect state trace₁ r) : LogEffect state trace r := by
  subst ht₁
  cases h with
  | same new' ht hl hu =>
    refine .same (new ++ new') (by rw [ht, List.append_assoc]) hl fun p hp => ?_
    rcases List.mem_append.mp hp with hp | hp
    · exact hu₁ p hp
    · exact hu p hp
  | failed new' hd ht hs hl hu =>
    refine .failed (new ++ new') hd (by rw [ht, List.append_assoc]) hs hl fun p => ?_
    rw [List.mem_append, hu]
    exact or_iff_right (hu₁ p)

theorem doNotify_effect {event : E} {state : State E} {trace : List (Action E X)}
    {r : State E × List (Action E X)} (h : env.doNotify event state trace = .ok r) :
    LogEffect state trace r := by
  unfold Env.doNotify at h
  cases hb : state.eventBuffer with
  | some buffer =>
    rw [hb] at h
    cases h
    exact .same [] (by simp) rfl (by simp)
  | none =>
    rw [hb] at h
    obtain ⟨t₁, h₁, h₂⟩ := bind_ok h
    obtain ⟨new, ht, hu⟩ := callHandlers_unlinks _ h₁
    have htrace : t₁ = trace ++ (.processing event state.handlers state.logHandler :: new) := by
      rw [ht]
      simp
    exact (callLogHandler_effect h₂).after htrace (by simpa using hu)

/-- Once the log handler has failed there is none that could fail again. -/
theorem LogEffect.trans {state : State E} {trace : List (Action E X)} {r r' : State E × List (Action E X)}
    (h : LogEffect state trace r) (h' : LogEffect r.1 r.2 r') : LogEffect state trace r' := by
  cases h with
  | same new ht hl hu =>
    have h'' := h'.after ht hu
    cases h'' with
    | same new' ht' hl' hu' => exact .same new' ht' (hl'.trans hl) hu'
    | failed new' hd ht' hs hl' hu' => exact .failed new' hd ht' (hl ▸ hs) hl' hu'
  | failed new hd ht hs hl hu =>
    cases h' with
    | same new' ht' hl' hu' =>
      refine .failed (new ++ new') hd (by rw [ht', ht, List.append_assoc]) hs (hl'.trans hl) fun p => ?_
      rw [List.mem_append, ← hu]
      exact or_iff_left (hu' p)
    | failed new' hd' ht' hs' hl' hu' =>
      rw [hl] at hs'
      cases hs'

theorem foldNotify_effect (events : List E) {state : State E} {trace : List (Action E X)}
    {r : State E × List (Action E X)} (h : env.foldNotify events state trace = .ok r) :
    LogEffect state trace r := by
  induction events generalizing r with
  | nil =>
    cases h
    exact .same [] (by simp) rfl (by simp)
  | cons event events ih =>
    unfold Env.foldNotify at h
    obtain ⟨r₁, h₁, h₂⟩ := bind_ok h
    exact (ih h₁).trans (doNotify_effect h₂)

theorem doFlushBuffer_effect {state : State E} {trace : List (Action E X)}
    {r : State E × List (Action E X)} (h : env.doFlushBuffer state trace = .ok r) :
    r.1.handlers = state.handlers ∧ LogEffect state trace r := by
  unfold Env.doFlushBuffer at h
  cases hb : state.eventBuffer with
  | none =>
    rw [hb] at h
    cases h
    exact ⟨rfl, .same [] (by simp) rfl (by simp)⟩
  | some buffer =>
    rw [hb] at h
    refine ⟨(foldNotify_adds buffer rfl h).1.handlers, ?_⟩
    have heffect := foldNotify_effect buffer h
    cases heffect with
    | same new ht hl hu => exact .same new ht hl hu
    | failed new hd ht hs hl hu => exact .failed new hd ht hs hl hu

theorem doNotify_handlers {event : E} {state : State E} {trace : List (Action E X)}
    {r : State E × List (Action E X)} (h : env.doNotify event state trace = .ok r) :
    r.1.handlers = state.handlers := by
  cases hb : state.eventBuffer with
  | none => exact (doNotify_adds hb h).1.handlers
  | some buffer =>
    unfold Env.doNotify at h
    rw [hb] at h
    cases h
    rfl

/-- What one message can do to the handlers. -/
inductive Change (msg : Message E) (s t : Server E X) : Prop where
  | same (hh : t.state.handlers = s.state.handlers) (hl : t.state.logHandler = s.state.logHandler)
      (hu : ∀ p, ¬ Unlinked s t p) (hm : ∀ p, msg ≠ .exit p)
  | failed (h : Handler) (hh : t.state.handlers = s.state.handlers) (hs : s.state.logHandler = some h)
      (hl : t.state.logHandler = none) (hu : ∀ p, Unlinked s t p → p = h.owner) (hm : ∀ p, msg ≠ .exit p)
  | added (proc owner : Nat) (hm : msg = .call (.addHandler (.procedure proc) (.process owner)))
      (hh : t.state.handlers = s.state.handlers ++ [⟨proc, owner⟩])
      (hl : t.state.logHandler = s.state.logHandler) (hu : ∀ p, ¬ Unlinked s t p)
  | logSet (proc owner endure : Nat)
      (hm : msg = .call (.setLogHandler (.procedure proc) (.process owner) (.procedure endure)))
      (hh : t.state.handlers = s.state.handlers) (hl : t.state.logHandler = some ⟨proc, owner⟩)
      (hu : ∀ p, ¬ Unlinked s t p)
  | exited (pid : Nat) (hm : msg = .exit pid) (ht : t.state = handleExit pid s.state)
      (hu : ∀ p, ¬ Unlinked s t p)
  | ended (he : t.ended = true) (hh : t.state.handlers = []) (hl : t.state.logHandler = none)

theorem not_unlinked {s t : Server E X} {new : List (Action E X)} (ht : t.trace = s.trace ++ new)
    (hu : ∀ p, .unlink p ∉ new) (p : Nat) : ¬ Unlinked s t p := by
  intro h
  obtain ⟨new', ht', hp⟩ := h
  rw [ht] at ht'
  exact hu p (List.append_cancel_left ht' ▸ hp)

theorem change_of_effect {msg : Message E} {s t : Server E X} {r : State E × List (Action E X)}
    {more : List (Action E X)} (hmore : ∀ p, .unlink p ∉ more) (h : LogEffect s.state s.trace r)
    (hh : t.state.handlers = s.state.handlers) (hl : t.state.logHandler = r.1.logHandler)
    (ht : t.trace = r.2 ++ more) (hm : ∀ p, msg ≠ .exit p) : Change msg s t := by
  cases h with
  | same new hr hlog hu =>
    rw [hr, List.append_assoc] at ht
    refine .same hh (hl.trans hlog) (not_unlinked ht fun p hp => ?_) hm
    rcases List.mem_append.mp hp with hp | hp
    · exact hu p hp
    · exact hmore p hp
  | failed new hd hr hs hlog hu =>
    rw [hr, List.append_assoc] at ht
    refine .failed hd hh hs (hl.trans hlog) (fun p hp => ?_) hm
    obtain ⟨new', ht', hp⟩ := hp
    rw [ht] at ht'
    rw [← List.append_cancel_left ht'] at hp
    rcases List.mem_append.mp hp with hp | hp
    · exact (hu p).mp hp
    · exact absurd hp (hmore p)

theorem change_same_reply (r : Reply) (msg : Message E) (s : Server E X) (hm : ∀ p, msg ≠ .exit p) :
    Change msg s (Env.reply r s.state s.trace) :=
  .same rfl rfl (not_unlinked rfl (by simp)) hm

theorem change_of_terminate {msg : Message E} {s t : Server E X}
    (h : env.terminate s.state s.trace = .ok t) : Change msg s t := by
  obtain ⟨r, h₁, h₂⟩ := bind_ok h
  cases h₂
  obtain ⟨hh, heffect⟩ := doFlushBuffer_effect h₁
  refine .ended rfl hh ?_
  cases heffect with
  | same new ht hl hu => exact hl
  | failed new hd ht hs hl hu => exact hl

theorem handleCall_change {request : Call} {s t : Server E X}
    (h : env.handleCall request s.state s.trace = .ok t) : Change (.call request) s t := by
  have hm : ∀ p, Message.call request ≠ (.exit p : Message E) := fun _ h => (by cases h)
  cases request with
  | addHandler proc owner =>
    cases proc with
    | procedure proc =>
      cases owner with
      | process owner =>
        cases h
        exact .added proc owner rfl rfl rfl
          (not_unlinked (List.append_assoc s.trace [.link owner] [.reply .ok]) (by simp))
      | procedure n | other n =>
        cases h
        exact change_same_reply _ _ s hm
    | process n | other n =>
      cases h
      exact change_same_reply _ _ s hm
  | flushBuffer =>
    obtain ⟨r, h₁, h₂⟩ := bind_ok h
    cases h₂
    obtain ⟨hh, heffect⟩ := doFlushBuffer_effect h₁
    exact change_of_effect (by simp) heffect hh rfl rfl hm
  | setLogHandler proc owner endure =>
    unfold Env.handleCall at h
    dsimp only at h
    split at h
    · cases h
      exact change_same_reply _ _ s hm
    · cases proc with
      | procedure proc =>
        cases owner with
        | process owner =>
          cases endure with
          | procedure endure =>
            cases h
            exact .logSet proc owner endure rfl rfl rfl
              (not_unlinked (List.append_assoc s.trace [.link owner, .resetConsole] [.reply .ok]) (by simp))
          | process n | other n =>
            cases h
            exact change_same_reply _ _ s hm
        | procedure n | other n =>
          cases h
          exact change_same_reply _ _ s hm
      | process n | other n =>
        cases h
        exact change_same_reply _ _ s hm
  | unregister registered =>
    cases registered with
    | true =>
      cases h
      exact change_same_reply _ _ s hm
    | false => exact change_of_terminate h
  | other => exact change_of_terminate h

theorem step_change {msg : Message E} {s t : Server E X} (h : step env s msg = .ok t) : Change msg s t := by
  have hs := (step_outcome h).1
  unfold step at h
  rw [hs] at h
  replace h : handleMsg env msg s.state s.trace = .ok t := h
  unfold handleMsg at h
  cases msg with
  | call request => exact handleCall_change h
  | cast => exact change_of_terminate h
  | other => exact change_of_terminate h
  | notify event =>
    obtain ⟨r, h₁, h₂⟩ := bind_ok h
    cases h₂
    have hmore : ∀ p, (.unlink p : Action E X) ∉ ([] : List (Action E X)) := fun p => List.not_mem_nil
    exact change_of_effect hmore (doNotify_effect h₁) (doNotify_handlers h₁) rfl
      (List.append_nil _).symm (fun _ h => (by cases h))
  | exit pid =>
    dsimp only at h
    split at h
    · exact change_of_terminate h
    · cases h
      exact .exited pid rfl rfl (not_unlinked (List.append_nil _).symm (by simp))

theorem handleExit_other {pid : Nat} {state : State E} (h : ¬ OwnsLog state pid) :
    handleExit pid state = { state with handlers := removeOwner pid state.handlers } := if_neg h

theorem handleExit_log {pid : Nat} {state : State E} (h : OwnsLog state pid) :
    handleExit pid state = { state with logHandler := none } := if_pos h

/-- When p is dropped, it owns something after it just if it owned both before it. -/
theorem owns_after_drop {msg : Message E} {s t : Server E X} {p : Nat} (h : step env s msg = .ok t)
    (hrun : t.ended = false) (hd : Drops s msg t p) : Owns t.state p ↔ OwnsBoth s.state p := by
  have hunlinked : (∀ q, ¬ Unlinked s t q) → msg = .exit p := by
    intro hu
    rcases hd with hd | hd
    · exact hd
    · exact absurd hd (hu p)
  -- without a log handler only the entries count
  have hentry : t.state.handlers = s.state.handlers → t.state.logHandler = none → OwnsLog s.state p →
      (Owns t.state p ↔ OwnsBoth s.state p) := by
    intro hh hl ho
    unfold Owns OwnsBoth OwnsEntry
    rw [hh]
    constructor
    · intro h1
      rcases h1 with h1 | h1
      · unfold OwnsLog at h1
        rw [hl] at h1
        cases h1
      · exact ⟨ho, h1⟩
    · exact fun h1 => .inr h1.2
  cases step_change h with
  | same hh hl hu hm => exact absurd (hunlinked hu) (hm p)
  | added proc owner hm hh hl hu =>
    rw [hunlinked hu] at hm
    cases hm
  | logSet proc owner endure hm hh hl hu =>
    rw [hunlinked hu] at hm
    cases hm
  | ended he hh hl =>
    rw [hrun] at he
    cases he
  | failed hd' hh hs hl hu hm =>
    have hp : p = hd'.owner := by
      rcases hd with hd | hd
      · exact absurd hd (hm p)
      · exact hu p hd
    refine hentry hh hl ?_
    unfold OwnsLog
    rw [hs, hp]
    rfl
  | exited pid hm ht hu =>
    have hpid := hunlinked hu
    rw [hm] at hpid
    cases hpid
    by_cases ho : OwnsLog s.state p
    · rw [handleExit_log ho] at ht
      exact hentry (by rw [ht]) (by rw [ht]) ho
    · rw [handleExit_other ho] at ht
      refine iff_of_false (fun h1 => ?_) fun h1 => ho h1.1
      rw [ht] at h1
      rcases h1 with h1 | ⟨hd', hmem, hown⟩
      · exact ho h1
      · exact of_decide_eq_true (List.mem_filter.mp hmem).2 hown

/-- A process that owns nothing gets something only when it is registered. -/
theorem not_owns_step {msg : Message E} {s t : Server E X} {p : Nat} (h : step env s msg = .ok t)
    (hr : ¬ Registers msg p) (hp : ¬ Owns s.state p) : ¬ Owns t.state p := by
  unfold Owns OwnsLog OwnsEntry at hp ⊢
  cases step_change h with
  | same hh hl hu hm =>
    rw [hh, hl]
    exact hp
  | failed hd hh hs hl hu hm =>
    rw [hh, hl]
    exact fun h1 => hp (.inr (h1.resolve_left (by simp)))
  | added proc owner hm hh hl hu =>
    rw [hh, hl]
    intro h1
    rcases h1 with h1 | ⟨hd, hmem, hown⟩
    · exact hp (.inl h1)
    · rcases List.mem_append.mp hmem with hmem | hmem
      · exact hp (.inr ⟨hd, hmem, hown⟩)
      · rw [List.mem_singleton.mp hmem] at hown
        cases hown
        exact hr (.inl ⟨proc, hm⟩)
  | logSet proc owner endure hm hh hl hu =>
    rw [hh, hl]
    intro h1
    rcases h1 with h1 | h1
    · cases h1
      exact hr (.inr ⟨proc, endure, hm⟩)
    · exact hp (.inr h1)
  | exited pid hm ht hu =>
    rw [ht]
    intro h1
    unfold handleExit at h1
    split at h1
    · exact hp (.inr (h1.resolve_left (by simp)))
    · rcases h1 with h1 | ⟨hd, hmem, hown⟩
      · exact hp (.inl h1)
      · exact hp (.inr ⟨hd, (List.mem_filter.mp hmem).1, hown⟩)
  | ended he hh hl =>
    rw [hh, hl]
    simp

theorem not_owns_run (msgs : List (Message E)) {s t : Server E X} {p : Nat}
    (h : Reach.run (step env) s msgs = .ok t) (hr : ∀ m ∈ msgs, ¬ Registers m p)
    (hp : ¬ Owns s.state p) : ¬ Owns t.state p := by
  induction msgs generalizing s with
  | nil =>
    cases h
    exact hp
  | cons msg msgs ih =>
    obtain ⟨u, h1, h2⟩ := bind_ok h
    exact ih h2 (fun m hm => hr m (List.mem_cons_of_mem _ hm)) (not_owns_step h1 (hr msg (by simp)) hp)

/-- No process that the message drops owns both the log handler and another handler. -/
def Apart (env : Env E X) (s : Server E X) (msg : Message E) : Prop :=
  ∀ p t, step env s msg = .ok t → Drops s msg t p → ¬ OwnsBoth s.state p

/-- One of the messages drops p while the server goes on, and none after it registers p. -/
def Dropped (env : Env E X) (msgs : List (Message E)) (p : Nat) : Prop :=
  ∃ before msg after s₁ s₂, msgs = before ++ msg :: after ∧ run env before = .ok s₁ ∧
    step env s₁ msg = .ok s₂ ∧ s₂.ended = false ∧ Drops s₁ msg s₂ p ∧ ∀ m ∈ after, ¬ Registers m p

/-- In every run in which no process owns both when it is dropped, a process that has
been dropped owns nothing until it is registered again. In every run, a process that is
dropped owns nothing right after it if and only if it did not own both before. -/
theorem dropped_owner_removed (env : Env E X) (msgs : List (Message E)) (s : Server E X)
    (h : run env msgs = .ok s) :
    (Reach.Along (step env) (Apart env) init msgs → ∀ p, Dropped env msgs p → ¬ Owns s.state p) ∧
    ∀ before msg after s₁ s₂ p, msgs = before ++ msg :: after → run env before = .ok s₁ →
      step env s₁ msg = .ok s₂ → s₂.ended = false → Drops s₁ msg s₂ p →
      (¬ Owns s₂.state p ↔ ¬ OwnsBoth s₁.state p) := by
  refine ⟨fun hall p hd => ?_, fun before msg after s₁ s₂ p hm h₁ h₂ he hd => ?_⟩
  · obtain ⟨before, msg, after, s₁, s₂, rfl, h₁, h₂, he, hd, hr⟩ := hd
    have hapart : ¬ OwnsBoth s₁.state p := Reach.along_at before after hall h₁ p s₂ h₂ hd
    have hgone : ¬ Owns s₂.state p := mt (owns_after_drop h₂ he hd).mp hapart
    obtain ⟨u, hu, hrest⟩ := Reach.run_append before (msg :: after) h
    rw [run] at h₁
    rw [h₁] at hu
    cases hu
    obtain ⟨v, hv, hrest⟩ := bind_ok hrest
    rw [h₂] at hv
    cases hv
    exact not_owns_run after hrest hr hgone
  · exact not_congr (owns_after_drop h₂ he hd)

/-- Process 2 owns a handler and process 3 the log handler, which fails. -/
def separateMessages : List (Message Nat) :=
  [.call .flushBuffer, .call (.addHandler (.procedure 4) (.process 2)),
    .call (.setLogHandler (.procedure 5) (.process 3) (.procedure 0)), .notify 10, .exit 2]

theorem apart_of_owners {s : Server E X} {msg : Message E}
    (h : ∀ hd ∈ s.state.handlers, s.state.logHandler.map Handler.owner ≠ some hd.owner) :
    Apart env s msg := by
  intro p t _ _ hboth
  obtain ⟨hlog, hd, hmem, rfl⟩ := hboth
  exact h hd hmem hlog

theorem dropped_owner_removed_separate :
    ∃ s, run sampleEnv separateMessages = .ok s ∧ ¬ Owns s.state 2 ∧
      ∀ before msg after s₁ s₂ p, separateMessages = before ++ msg :: after →
        run sampleEnv before = .ok s₁ → step sampleEnv s₁ msg = .ok s₂ → s₂.ended = false →
        Drops s₁ msg s₂ p → (¬ Owns s₂.state p ↔ ¬ OwnsBoth s₁.state p) := by
  have hall : Reach.Along (step sampleEnv) (Apart sampleEnv) init separateMessages :=
    ⟨apart_of_owners (by decide), apart_of_owners (by decide), apart_of_owners (by decide),
      apart_of_owners (by decide), apart_of_owners (by decide), trivial⟩
  have hdropped : Dropped sampleEnv separateMessages 2 :=
    ⟨separateMessages.take 4, .exit 2, [], _, _, rfl, rfl, rfl, rfl, .inl rfl, fun m hm => (by cases hm)⟩
  have hsafe := dropped_owner_removed sampleEnv separateMessages _ rfl
  exact ⟨_, rfl, hsafe.1 hall 2 hdropped, hsafe.2⟩

/-- Process 2 owns a handler and the log handler. -/
def ownsBothMessages : List (Message Nat) :=
  [.call .flushBuffer, .call (.addHandler (.procedure 4) (.process 2)),
    .call (.setLogHandler (.procedure 5) (.process 2) (.procedure 0))]

/-- Both when process 2 exits and when its log handler fails, its other handler stays. -/
theorem handler_of_dropped_owner_stays :
    (∃ s, run sampleEnv (ownsBothMessages ++ [.exit 2]) = .ok s ∧
      s.state.handlers = [⟨4, 2⟩] ∧ s.state.logHandler = none ∧ Owns s.state 2) ∧
    ∃ s, run sampleEnv (ownsBothMessages ++ [.notify 10]) = .ok s ∧ .unlink 2 ∈ s.trace ∧
      .kill 2 10 ∈ s.trace ∧ s.state.handlers = [⟨4, 2⟩] ∧ Owns s.state 2 := by
  refine ⟨⟨_, rfl, rfl, rfl, .inr ⟨⟨4, 2⟩, List.Mem.head _, rfl⟩⟩,
    ⟨_, rfl, by simp, by simp, rfl, .inr ⟨⟨4, 2⟩, List.Mem.head _, rfl⟩⟩⟩

end Swish.EventMgr
