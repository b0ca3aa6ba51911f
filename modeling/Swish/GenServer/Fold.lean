import Swish.GenServer.Loop
import Swish.Lib.Reach

/-!
The loop of a generic server as a fold over its messages.
-/

set_option autoImplicit false

namespace Swish.GenServer.Loop

open Swish.Lib

/-- The callback that a message is for. -/
def handler (parent : Option Nat) : Datum → Option Callback
  | .exitMsg q raw => if parent = some q then none else some (.handleInfo (.exitMsg q raw))
  | .vector [.symbol .genCall, client, msg] => some (.handleCall msg client)
  | .vector [.symbol .genCast, msg] => some (.handleCast msg)
  | .vector [.symbol .genDebug, _] => none
  | msg => some (.handleInfo msg)

def Callback.isCall : Callback → Bool
  | .handleCall _ _ => true
  | _ => false

/-- The token of the client that a reply goes to. -/
def Callback.client : Callback → Datum
  | .handleCall _ client => client
  | _ => .bool false

def Env.invoke (env : Env) (state : Datum) : Callback → Result
  | .handleCall msg client => env.handleCall msg client state
  | .handleCast msg => env.handleCast msg state
  | .handleInfo msg => env.handleInfo msg state

/-- The values a callback may return. -/
def wellFormed (call : Bool) : Datum → Bool
  | .vector [.symbol .reply, _, _] => call
  | .vector [.symbol .reply, _, _, timeout] => call && timeout.waits
  | .vector [.symbol .noReply, _] => true
  | .vector [.symbol .noReply, _, timeout] => timeout.waits
  | .vector [.symbol .stop, _, _] => true
  | .vector [.symbol .stop, _, _, _] => call
  | _ => false

/-- What a callback asks for. -/
inductive Wish where
  | next (reply : Option Datum) (state timeout : Datum)
  | stop (cause : Datum) (reply : Option Datum) (state : Datum)

/-- What a callback that was called with state asks for by its result. -/
inductive Asks (call : Bool) (state : Datum) : Result → Wish → Prop where
  | reply (v s : Datum) (h : call = true) :
      Asks call state (.returned (.vector [.symbol .reply, v, s])) (.next (some v) s (.symbol .infinity))
  | replyTimeout (v s t : Datum) (h : call = true) (ht : t.waits = true) :
      Asks call state (.returned (.vector [.symbol .reply, v, s, t])) (.next (some v) s t)
  | noReply (s : Datum) :
      Asks call state (.returned (.vector [.symbol .noReply, s])) (.next none s (.symbol .infinity))
  | noReplyTimeout (s t : Datum) (ht : t.waits = true) :
      Asks call state (.returned (.vector [.symbol .noReply, s, t])) (.next none s t)
  | stop (r s : Datum) : Asks call state (.returned (.vector [.symbol .stop, r, s])) (.stop r none s)
  | stopReply (r v s : Datum) (h : call = true) :
      Asks call state (.returned (.vector [.symbol .stop, r, v, s])) (.stop r (some v) s)
  | raised (x : Datum) : Asks call state (.raised x) (.stop (Result.raised x).tried.err none state)
  /-- A fault that is returned counts as raised. -/
  | returnedFault (v : Datum) (h : wellFormed call v = false) (hc : v.isCatch = true) :
      Asks call state (.returned v) (.stop v.err none state)
  | malformed (v : Datum) (h : wellFormed call v = false) (hc : v.isCatch = false) :
      Asks call state (.returned v) (.stop (.vector [.symbol .badReturnValue, v]) none state)

/-- One message with all that is done for it. -/
structure Turn where
  msg : Datum
  /-- The message stands for a wait that came to its end. -/
  expired : Bool
  handled : Option (Callback × Datum × Result)
  terminated : Option (Datum × Datum × Result)
  replied : Option (Datum × Datum)

def Turn.events (t : Turn) : List Event :=
  .received t.msg :: ((t.handled.map fun (c, state, r) => .handled c state r).toList ++
    (t.terminated.map fun (reason, state, r) => .terminated reason state r).toList ++
      (t.replied.map fun (client, v) => .replied client v).toList)

/-- The message taken out of the inbox. -/
def Turn.message (t : Turn) : Option Datum :=
  if t.expired then none else some t.msg

inductive Ending where
  | running (state timeout : Datum)
  | exited (err : Datum)

/-- The exit of a server that stops for a cause, with the result of terminate. -/
def ending (cause : Datum) : Result → Datum
  | .returned _ => cause.err
  | .raised x => (Result.raised x).tried.err

/-- A turn that starts in a state and with a pending timeout. -/
inductive Does (parent : Option Nat) (state timeout : Datum) : Turn → Ending → Prop where
  | debug (options : Datum) :
      Does parent state timeout ⟨.vector [.symbol .genDebug, options], false, none, none, none⟩
        (.running state timeout)
  | exit (q : Nat) (raw : Datum) (t : Result) (hq : parent = some q) :
      Does parent state timeout ⟨.exitMsg q raw, false, none, some (raw.err.reason, state, t), none⟩
        (.exited (ending raw.err t))
  | next (msg : Datum) (x : Bool) (c : Callback) (r : Result) (reply : Option Datum) (state' timeout' : Datum)
      (now : Nat) (hx : x = true → msg = .symbol .timeout) (hc : handler parent msg = some c)
      (h : Asks c.isCall state r (.next reply state' timeout')) :
      Does parent state timeout ⟨msg, x, some (c, state, r), none, reply.map (c.client, ·)⟩
        (.running state' (resolveTimeout now timeout'))
  | stop (msg : Datum) (x : Bool) (c : Callback) (r t : Result) (cause : Datum) (reply : Option Datum)
      (state' : Datum) (hx : x = true → msg = .symbol .timeout) (hc : handler parent msg = some c)
      (h : Asks c.isCall state r (.stop cause reply state')) :
      Does parent state timeout ⟨msg, x, some (c, state, r), some (cause.reason, state', t), reply.map (c.client, ·)⟩
        (.exited (ending cause t))

/-- Turns one after another, each in the state that the one before it leaves. -/
inductive Folds (parent : Option Nat) (state₀ timeout₀ : Datum) : List Turn → Ending → Prop where
  | start : Folds parent state₀ timeout₀ [] (.running state₀ timeout₀)
  | turn {ts : List Turn} {t : Turn} {state timeout : Datum} {e : Ending}
      (h : Folds parent state₀ timeout₀ ts (.running state timeout)) (ht : Does parent state timeout t e) :
      Folds parent state₀ timeout₀ (ts ++ [t]) e

def Proc.Ends (p : Proc) : Ending → Prop
  | .running state timeout => p.exit = none ∧ p.state = state ∧ p.timeout = timeout
  | .exited e => p.exit = some e

/-- The timeout that a callback returns. -/
def timeoutOf (call : Bool) : Datum → Option Datum
  | .vector [.symbol .reply, _, _, timeout] => if call then some timeout else none
  | .vector [.symbol .noReply, _, timeout] => some timeout
  | _ => none

/-- gen-server:reply can send to the client. -/
def Env.token (env : Env) : Datum → Bool
  | .vector [pid, _] => env.sends pid
  | _ => false

/-- terminate returns no fault. -/
def Result.quiet : Result → Bool
  | .returned v => !v.isCatch
  | .raised _ => true

def Wish.replies : Wish → Bool
  | .next reply _ _ | .stop _ reply _ => reply.isSome

/-- What the loop takes for granted about a message and the callbacks that it runs for it. -/
structure Fit (env : Env) (p : Proc) (msg : Datum) : Prop where
  options : ∀ d, msg = .vector [.symbol .genDebug, d] → d.isOptions = true
  client : ∀ c, handler p.parent msg = some c → c.isCall = true → p.debug.isTrue = true → c.client.hasFirst = true
  timeout : ∀ c v t, handler p.parent msg = some c → env.invoke p.state c = .returned v →
    timeoutOf c.isCall v = some t → t.waits = true
  token : ∀ c w, handler p.parent msg = some c → Asks c.isCall p.state (env.invoke p.state c) w →
    w.replies = true → env.token c.client = true
  stop : ∀ c cause reply state, handler p.parent msg = some c →
    Asks c.isCall p.state (env.invoke p.state c) (.stop cause reply state) →
    (env.terminate cause.reason state).quiet = true
  exit : ∀ q raw, msg = .exitMsg q raw → p.parent = some q →
    (env.terminate raw.err.reason p.state).quiet = true

/-- Every turn of a run is fit. -/
def Orderly (p : Proc) : Action → Prop
  | .arrive _ => True
  | .receive env => ∀ msg, p.inbox.head? = some msg → Fit env p msg
  | .expire env => Fit env p (.symbol .timeout)

variable {env : Env} {p q : Proc} {c : Callback} {w : Wish} {r : Result} {msg v client state timeout cause : Datum}
  {call : Bool} {parent : Option Nat}

theorem Datum.memqReturns_of_isList (s : Symbol) (d : Datum) (h : d.isList = true) : d.memqReturns s = true := by
  induction d using Datum.memqReturns.induct with
  | case1 => rfl
  | case2 r d ih => simp [memqReturns, ih h]
  | case3 a d ha ih =>
    rw [memqReturns]
    · exact ih h
    · exact ha
  | case4 d h1 h2 h3 => cases d <;> simp_all [isList]

/-- A debug report with proper options gives its reply back. -/
theorem Result.reported_eq (h : p.debug.isOptions = true) (r : Result) : r.reported p.debug = r := by
  cases r with
  | raised x => rfl
  | returned v =>
    unfold reported
    by_cases ht : p.debug.isTrue = true
    · have hl : p.debug.isList = true := by simpa [Datum.isOptions, ht] using h
      simp [ht, debugReport, Datum.memqReturns_of_isList _ _ hl]
    · simp [ht]

theorem waits_resolveTimeout (now : Nat) (t : Datum) : (resolveTimeout now t).waits = t.waits := by
  unfold resolveTimeout
  split
  · rename_i i
    split
    · simp only [Datum.waits, decide_eq_decide]
      omega
    · rfl
  · rfl

/-- try turns an exception into a fault. -/
theorem Result.tried_raised (x : Datum) : ∃ k r, (Result.raised x).tried = .fault k r := by
  cases x <;> exact ⟨_, _, rfl⟩

theorem Env.loop_eq (h : timeout.waits = true) (state : Datum) :
    env.loop p state timeout = { p with state := state, timeout := timeout } := by
  simp [Env.loop, h]

theorem Env.reply_eq (h : env.token client = true) (v : Datum) : env.reply p client v = .ok (p.note [.replied client v]) := by
  unfold Env.token at h
  split at h
  · simp [Env.reply, h]
  · cases h

theorem Env.terminateReason_eq (hd : p.debug.isOptions = true)
    (hq : (env.terminate cause.reason state).quiet = true) :
    env.terminateReason p cause state =
      (p.note [.terminated cause.reason state (env.terminate cause.reason state)],
        ending cause (env.terminate cause.reason state)) := by
  simp only [Env.terminateReason, Env.doTerminate, Result.reported_eq hd]
  cases ht : env.terminate cause.reason state with
  | returned v =>
    rw [ht] at hq
    have hv : v.isCatch = false := by simpa [Result.quiet] using hq
    simp [Result.tried, hv, ending]
  | raised x =>
    obtain ⟨k, r, hx⟩ := Result.tried_raised x
    simp [hx, Datum.isCatch, ending]

/-- Every result asks for something. -/
theorem asks_total (call : Bool) (state : Datum) (r : Result) : ∃ w, Asks call state r w := by
  cases r with
  | raised x => exact ⟨_, .raised x⟩
  | returned v =>
    cases h : wellFormed call v with
    | false =>
      cases hc : v.isCatch with
      | true => exact ⟨_, .returnedFault v h hc⟩
      | false => exact ⟨_, .malformed v h hc⟩
    | true =>
      unfold wellFormed at h
      split at h
      · exact ⟨_, .reply _ _ h⟩
      · obtain ⟨h1, h2⟩ := Bool.and_eq_true_iff.1 h
        exact ⟨_, .replyTimeout _ _ _ h1 h2⟩
      · exact ⟨_, .noReply _⟩
      · exact ⟨_, .noReplyTimeout _ _ h⟩
      · exact ⟨_, .stop _ _⟩
      · exact ⟨_, .stopReply _ _ _ h⟩
      · cases h

/-- What the loop does with the result of a callback. -/
def Env.act (env : Env) (p : Proc) (v : Datum) : Callback → Proc
  | .handleCall _ client => env.handleCallReply p client v
  | .handleCast _ | .handleInfo _ => env.handleCommonReply p v

/-- What a callback asks for, done. -/
def Proc.grant (p : Proc) (env : Env) (c : Callback) : Wish → Proc
  | .next reply state timeout =>
    { p.note (reply.map (.replied c.client ·)).toList with
      state := state, timeout := resolveTimeout env.now timeout }
  | .stop cause reply state =>
    let t := env.terminate cause.reason state
    (p.note (.terminated cause.reason state t :: (reply.map (.replied c.client ·)).toList)).raise (ending cause t)

theorem wellFormed_mono (h : wellFormed true v = false) : wellFormed false v = false := by
  unfold wellFormed at h ⊢
  split <;> simp_all

theorem Env.handleCommonReply_malformed (h : wellFormed false v = false)
    (ht : ∀ t, timeoutOf false v = some t → t.waits = true) :
    env.handleCommonReply p v =
      env.stop p (if v.isCatch then v.err else .vector [.symbol .badReturnValue, v]) p.state := by
  unfold Env.handleCommonReply
  split
  · simp [wellFormed] at h
  · rename_i t
    have hw := ht t rfl
    simp [wellFormed, hw] at h
  · simp [wellFormed] at h
  · split <;> rfl

/-- A value that is not well formed goes to the last clause of handle-common-reply. -/
theorem Env.act_malformed (h : wellFormed c.isCall v = false)
    (ht : ∀ t, timeoutOf c.isCall v = some t → t.waits = true) :
    env.act p v c = env.stop p (if v.isCatch then v.err else .vector [.symbol .badReturnValue, v]) p.state := by
  cases c with
  | handleCast m => exact env.handleCommonReply_malformed h ht
  | handleInfo m => exact env.handleCommonReply_malformed h ht
  | handleCall m client =>
    simp only [Callback.isCall] at h ht
    have ht' : ∀ t, timeoutOf false v = some t → t.waits = true := by
      intro t hv
      unfold timeoutOf at hv
      split at hv
      · cases hv
      · exact ht t hv
      · cases hv
    show env.handleCallReply p client v = _
    unfold Env.handleCallReply
    split
    · simp [wellFormed] at h
    · rename_i t
      have hw := ht t rfl
      simp [wellFormed, hw] at h
    · simp [wellFormed] at h
    · exact env.handleCommonReply_malformed (wellFormed_mono h) ht'

theorem Env.stop_eq (hd : p.debug.isOptions = true) (hq : (env.terminate cause.reason state).quiet = true) :
    env.stop p cause state = p.grant env c (.stop cause none state) := by
  simp only [Env.stop, Env.terminateReason_eq hd hq]
  rfl

/-- The loop grants what the callback asks for. -/
theorem Env.act_of_asks (hd : p.debug.isOptions = true) (h : Asks c.isCall p.state r w)
    (ht : ∀ v t, r = .returned v → timeoutOf c.isCall v = some t → t.waits = true)
    (hk : w.replies = true → env.token c.client = true)
    (hq : ∀ cause reply state, w = .stop cause reply state → (env.terminate cause.reason state).quiet = true) :
    env.act p r.tried c = p.grant env c w := by
  cases h with
  | reply v s hc =>
    cases c with
    | handleCall m client =>
      have hr : env.token client = true := hk rfl
      simp only [Env.act, Result.tried, Env.handleCallReply, Env.reply_eq hr]
      exact Env.loop_eq rfl s
    | _ => cases hc
  | replyTimeout v s t hc hw =>
    cases c with
    | handleCall m client =>
      have hr : env.token client = true := hk rfl
      simp only [Env.act, Result.tried, Env.handleCallReply, Env.reply_eq hr]
      exact Env.loop_eq ((waits_resolveTimeout _ t).trans hw) s
    | _ => cases hc
  | noReply s =>
    have hl : env.loop p s (.symbol .infinity) = p.grant env c (.next none s (.symbol .infinity)) := by
      rw [Env.loop_eq rfl]
      simp [Proc.grant, Proc.note, resolveTimeout]
    cases c <;> exact hl
  | noReplyTimeout s t hw =>
    have hl : env.loop p s (resolveTimeout env.now t) = p.grant env c (.next none s t) := by
      rw [Env.loop_eq (by rw [waits_resolveTimeout, hw])]
      simp [Proc.grant, Proc.note]
    cases c <;> exact hl
  | stop x s =>
    have hl := Env.stop_eq (c := c) hd (hq x none s rfl)
    cases c <;> exact hl
  | stopReply x v s hc =>
    cases c with
    | handleCall m client =>
      have hr : env.token client = true := hk rfl
      have hs := hq x (some v) s rfl
      simp only [Env.act, Result.tried, Env.handleCallReply, Env.terminateReason_eq hd hs, Env.reply_eq hr]
      simp [Proc.grant, Proc.note, Proc.raise, Callback.client]
    | _ => cases hc
  | raised x =>
    obtain ⟨k, e, hx⟩ := Result.tried_raised x
    rw [hx] at hq ⊢
    rw [Env.act_malformed (v := .fault k e) rfl (fun _ h => (by cases h))]
    exact Env.stop_eq hd (hq _ none _ rfl)
  | returnedFault v hv hc =>
    rw [Result.tried, Env.act_malformed hv (ht v · rfl), if_pos hc]
    exact Env.stop_eq hd (hq _ none _ rfl)
  | malformed v hv hc =>
    rw [Result.tried, Env.act_malformed hv (ht v · rfl), if_neg (by simp [hc])]
    exact Env.stop_eq hd (hq _ none _ rfl)

theorem Env.doHandleInfo_eq (hd : p.debug.isOptions = true) (msg state : Datum) :
    env.doHandleInfo p.debug msg state =
      ([.handled (.handleInfo msg) state (env.handleInfo msg state)], env.handleInfo msg state) := by
  simp only [Env.doHandleInfo, Result.reported_eq hd]

theorem Env.doHandleCast_eq (hd : p.debug.isOptions = true) (msg state : Datum) :
    env.doHandleCast p.debug msg state =
      ([.handled (.handleCast msg) state (env.handleCast msg state)], env.handleCast msg state) := by
  simp only [Env.doHandleCast, Result.reported_eq hd]

theorem Env.doHandleCall_eq (hd : p.debug.isOptions = true) (hf : p.debug.isTrue = true → client.hasFirst = true)
    (msg state : Datum) :
    env.doHandleCall p.debug msg client state =
      ([.handled (.handleCall msg client) state (env.handleCall msg client state)],
        env.handleCall msg client state) := by
  have hn : (p.debug.isTrue && !client.hasFirst) = false := by
    cases h : p.debug.isTrue with
    | false => rfl
    | true => simp [hf h]
  simp [Env.doHandleCall, hn, Result.reported_eq hd]

/-- A message for a callback. -/
theorem Env.handleMsg_handled (hd : p.debug.isOptions = true) (hc : handler p.parent msg = some c)
    (hf : c.isCall = true → p.debug.isTrue = true → c.client.hasFirst = true) :
    env.handleMsg p msg =
      env.act (p.note [.handled c p.state (env.invoke p.state c)]) (env.invoke p.state c).tried c := by
  unfold Env.handleMsg
  split
  · rename_i n raw
    rw [handler] at hc
    split at hc
    · cases hc
    · rename_i hn
      cases hc
      simp only [if_neg hn, Env.doHandleInfo_eq hd]
      rfl
  · rename_i client m
    cases hc
    have hv : p.debug.isTrue = true → client.hasFirst = true := hf rfl
    simp only [Env.doHandleCall_eq hd hv]
    rfl
  · cases hc
    simp only [Env.doHandleCast_eq hd]
    rfl
  · cases hc
  · rename_i h1 h2 h3 h4
    have hi : c = .handleInfo msg := by
      unfold handler at hc
      split at hc
      · exact absurd rfl (h1 _ _)
      · exact absurd rfl (h2 _ _)
      · exact absurd rfl (h3 _)
      · cases hc
      · exact (Option.some.inj hc).symm
    cases hi
    simp only [Env.doHandleInfo_eq hd]
    rfl

/-- A message for no callback is for the loop itself. -/
theorem handler_none (h : handler parent msg = none) :
    (∃ d, msg = .vector [.symbol .genDebug, d]) ∨ ∃ q raw, msg = .exitMsg q raw ∧ parent = some q := by
  unfold handler at h
  split at h
  · rename_i q raw
    split at h
    · rename_i hq
      exact .inr ⟨q, raw, rfl, hq⟩
    · cases h
  · cases h
  · cases h
  · exact .inl ⟨_, rfl⟩
  · cases h

theorem Asks.waits {reply : Option Datum} (h : Asks call state r (.next reply v timeout)) : timeout.waits = true := by
  cases h with
  | reply _ _ _ => rfl
  | replyTimeout _ _ _ _ ht => exact ht
  | noReply _ => rfl
  | noReplyTimeout _ _ ht => exact ht

/-- What a turn leaves alone, and what its events are. -/
structure After (p q : Proc) (t : Turn) (e : Ending) : Prop where
  does : Does p.parent p.state p.timeout t e
  ends : q.Ends e
  log : q.log = p.log ++ t.events
  parent : q.parent = p.parent
  inbox : q.inbox = p.inbox
  arrived : q.arrived = p.arrived
  options : q.debug.isOptions = true
  waits : q.timeout.waits = true

/-- The server can take a message. -/
structure Ready (p : Proc) : Prop where
  options : p.debug.isOptions = true
  waits : p.timeout.waits = true
  running : p.exit = none

theorem Proc.grant_after (hp : Ready p) (x : Bool) (hx : x = true → msg = .symbol .timeout)
    (hc : handler p.parent msg = some c) (h : Asks c.isCall p.state r w) :
    ∃ t e, t.message = (if x then none else some msg) ∧
      After p (((p.note [.received msg]).note [.handled c p.state r]).grant env c w) t e := by
  cases w with
  | next reply state timeout =>
    have hw : (resolveTimeout env.now timeout).waits = true := (waits_resolveTimeout _ _).trans h.waits
    refine ⟨_, _, rfl, .next msg x c r reply state timeout env.now hx hc h, ⟨hp.running, rfl, rfl⟩, ?_, rfl, rfl, rfl,
      hp.options, hw⟩
    cases reply <;> simp [grant, note, Turn.events]
  | stop cause reply state =>
    refine ⟨_, _, rfl, .stop msg x c r (env.terminate cause.reason state) cause reply state hx hc h, rfl, ?_,
      rfl, rfl, rfl, hp.options, hp.waits⟩
    cases reply <;> simp [grant, note, raise, Turn.events]

/-- The turn of a message for the loop itself. -/
theorem Proc.turn_after_own (hp : Ready p) (hf : Fit env p msg) (hc : handler p.parent msg = none) :
    ∃ t e, t.message = some msg ∧ After p (p.turn env msg) t e := by
  rcases handler_none hc with ⟨d, hm⟩ | ⟨q, raw, hm, hq⟩
  · subst hm
    have ht : p.turn env (.vector [.symbol .genDebug, d]) =
        { p.note [.received (.vector [.symbol .genDebug, d])] with debug := d } := Env.loop_eq hp.waits _
    rw [ht]
    exact ⟨_, _, rfl, .debug d, ⟨hp.running, rfl, rfl⟩, rfl, rfl, rfl, rfl, hf.options d rfl, hp.waits⟩
  · subst hm
    have ht : p.turn env (.exitMsg q raw) =
        (p.note [.received (.exitMsg q raw)]).grant env (.handleInfo .nil) (.stop raw.err none p.state) := by
      have hpq : (p.note [.received (.exitMsg q raw)]).parent = some q := hq
      rw [Proc.turn, Env.handleMsg, if_pos hpq]
      exact Env.stop_eq hp.options (hf.exit q raw rfl hq)
    rw [ht]
    refine ⟨_, _, rfl, .exit q raw (env.terminate raw.err.reason p.state) hq, rfl, ?_, rfl, rfl, rfl,
      hp.options, hp.waits⟩
    simp [Proc.grant, Proc.note, Proc.raise, Turn.events]

/-- The turn of a message. -/
theorem Proc.turn_after (hp : Ready p) (x : Bool) (hx : x = true → msg = .symbol .timeout) (hf : Fit env p msg) :
    ∃ t e, t.message = (if x then none else some msg) ∧ After p (p.turn env msg) t e := by
  cases hc : handler p.parent msg with
  | some c =>
    obtain ⟨w, ha⟩ := asks_total c.isCall p.state (env.invoke p.state c)
    have hm : p.turn env msg =
        ((p.note [.received msg]).note [.handled c p.state (env.invoke p.state c)]).grant env c w := by
      rw [Proc.turn, Env.handleMsg_handled (p := p.note [.received msg]) hp.options hc (hf.client c hc)]
      exact Env.act_of_asks hp.options ha (hf.timeout c · · hc) (hf.token c w hc ha)
        (fun cause reply state he => hf.stop c cause reply state hc (he ▸ ha))
    rw [hm]
    exact Proc.grant_after hp x hx hc ha
  | none =>
    cases x with
    | false => exact Proc.turn_after_own hp hf hc
    | true =>
      rw [hx rfl] at hc
      cases hc

/-- The server has done the turns of a fold. -/
structure Folded (parent : Option Nat) (state timeout : Datum) (p : Proc) (turns : List Turn) (e : Ending) : Prop where
  folds : Folds parent state timeout turns e
  log : p.log = turns.flatMap Turn.events
  /-- Messages are taken in the order of their arrival, and no message twice. -/
  arrived : p.arrived = turns.filterMap Turn.message ++ p.inbox
  ends : p.Ends e

def Event.isTerminated : Event → Bool
  | .terminated _ _ _ => true
  | _ => false

def Event.isReplied : Event → Bool
  | .replied _ _ => true
  | _ => false

def Datum.isGenCall : Datum → Bool
  | .vector [.symbol .genCall, _, _] => true
  | _ => false

def Ending.isExited : Ending → Bool
  | .running _ _ => false
  | .exited _ => true

variable {turns : List Turn} {t : Turn} {e : Ending} {state₀ timeout₀ : Datum}

theorem Does.terminated (h : Does parent state timeout t e) :
    t.events.countP Event.isTerminated = if e.isExited then 1 else 0 := by
  cases h with
  | debug d => rfl
  | exit q raw r hq => rfl
  | next msg x c r reply s u now hx hc ha => cases reply <;> rfl
  | stop msg x c r u cause reply s hx hc ha => cases reply <;> rfl

theorem Asks.no_reply (h : Asks false state r w) : w.replies = false := by
  cases h <;> trivial

theorem handler_isGenCall (h : handler parent msg = some c) (hc : msg.isGenCall = false) : c.isCall = false := by
  unfold handler at h
  split at h
  · split at h
    · cases h
    · cases h
      rfl
  · cases hc
  · cases h
    rfl
  · cases h
  · cases h
    rfl

/-- Only the turn of a call has a reply. -/
theorem replied_le (hc : handler parent msg = some c) (h : Asks c.isCall state r w) :
    (if w.replies then 1 else 0) ≤ if msg.isGenCall then 1 else 0 := by
  cases hm : msg.isGenCall with
  | true =>
    split
    · exact Nat.le_refl 1
    · exact Nat.zero_le 1
  | false =>
    rw [handler_isGenCall hc hm] at h
    simp [h.no_reply]

theorem Does.replied (h : Does parent state timeout t e) :
    t.events.countP Event.isReplied ≤ if t.msg.isGenCall then 1 else 0 := by
  cases h with
  | debug d => exact Nat.zero_le _
  | exit q raw r hq => exact Nat.zero_le _
  | next msg x c r reply s u now hx hc ha =>
    have hle := replied_le hc ha
    cases reply <;> exact hle
  | stop msg x c r u cause reply s hx hc ha =>
    have hle := replied_le hc ha
    cases reply <;> exact hle

theorem Folds.replied (h : Folds parent state₀ timeout₀ turns e) :
    ∀ t ∈ turns, t.events.countP Event.isReplied ≤ if t.msg.isGenCall then 1 else 0 := by
  induction h with
  | start =>
    intro t ht
    cases ht
  | turn h hd ih =>
    intro t ht
    rcases List.mem_append.1 ht with ht | ht
    · exact ih t ht
    · rw [List.mem_singleton.1 ht]
      exact hd.replied

theorem Folds.terminated (h : Folds parent state₀ timeout₀ turns e) :
    (turns.flatMap Turn.events).countP Event.isTerminated = if e.isExited then 1 else 0 := by
  induction h with
  | start => rfl
  | turn h hd ih =>
    rw [List.flatMap_append, List.countP_append, ih, List.flatMap_singleton, hd.terminated]
    exact Nat.zero_add _

theorem Proc.Ends.isExited (h : p.Ends e) : e.isExited = p.exit.isSome := by
  cases e with
  | running s t => rw [h.1]; rfl
  | exited x => rw [show p.exit = some x from h]; rfl

theorem Folded.terminated (h : Folded parent state₀ timeout₀ p turns e) :
    p.log.countP Event.isTerminated = if p.exit.isSome then 1 else 0 := by
  rw [h.log, h.folds.terminated, h.ends.isExited]

/-- What holds of a server between its turns. -/
structure Kept (parent : Option Nat) (state₀ timeout₀ : Datum) (p : Proc) : Prop where
  folded : ∃ turns e, Folded parent state₀ timeout₀ p turns e
  parent : p.parent = parent
  options : p.debug.isOptions = true
  waits : p.timeout.waits = true

theorem Kept.turn (h : Kept parent state₀ timeout₀ p) (hx : p.exit = none) {x : Bool}
    (ha : q.arrived = p.arrived) (hi : p.inbox = (if x then none else some msg).toList ++ q.inbox)
    (hq : After { p with inbox := q.inbox } q t e) (hm : t.message = if x then none else some msg) :
    Kept parent state₀ timeout₀ q := by
  obtain ⟨⟨turns, e', hf⟩, hp, hd, hw⟩ := h
  refine ⟨⟨turns ++ [t], e, ?_⟩, hq.parent.trans hp, hq.options, hq.waits⟩
  have hrun : e' = .running p.state p.timeout := by
    have he := hf.ends
    cases e' with
    | exited y => rw [show p.exit = some y from he] at hx; cases hx
    | running s u => rw [he.2.1, he.2.2]
  rw [hrun] at hf
  refine ⟨.turn hf.folds (hp ▸ hq.does), ?_, ?_, hq.ends⟩
  · rw [List.flatMap_append, List.flatMap_singleton, ← hf.log]
    exact hq.log
  · rw [List.filterMap_append, List.append_assoc, ha, hf.arrived, hi]
    cases x <;> simp [hm]

/-- An orderly step adds a turn, or a message. -/
theorem Kept.step {a : Action} (h : Kept parent state₀ timeout₀ p) (ha : Orderly p a) (hs : p.step a = .ok q) :
    Kept parent state₀ timeout₀ q := by
  unfold Proc.step at hs
  split at hs
  · cases hs
  · rename_i hx
    split at hs
    · cases hs
      obtain ⟨⟨turns, e, hf⟩, hp, hd, hw⟩ := h
      refine ⟨⟨turns, e, hf.folds, hf.log, ?_, ?_⟩, hp, hd, hw⟩
      · simp [hf.arrived]
      · have he := hf.ends
        cases e <;> exact he
    · rename_i env
      split at hs
      · rename_i msg rest hi
        cases hs
        have hfit : Fit env { p with inbox := rest } msg := by
          have hm := ha msg (by rw [hi]; rfl)
          exact ⟨hm.options, hm.client, hm.timeout, hm.token, hm.stop, hm.exit⟩
        obtain ⟨t, e, hm, hq⟩ := Proc.turn_after (p := { p with inbox := rest }) ⟨h.options, h.waits, hx⟩ false
          (fun hf => (by cases hf)) hfit
        refine h.turn (e := e) hx hq.arrived ?_ ?_ hm
        · rw [hi, hq.inbox]
          rfl
        · rw [hq.inbox]
          exact hq
      · cases hs
    · rename_i env
      split at hs
      · split at hs
        · cases hs
          obtain ⟨t, e, hm, hq⟩ := Proc.turn_after (p := p) ⟨h.options, h.waits, hx⟩ true (fun _ => rfl) ha
          refine h.turn (e := e) hx hq.arrived ?_ ?_ hm
          · rw [hq.inbox]
            rfl
          · rw [hq.inbox]
            exact hq
        · cases hs
      · cases hs

theorem Env.enterLoop_kept (hw : timeout.waits = true) (parent : Option Nat) (state : Datum) :
    Kept parent state (resolveTimeout env.now timeout) (env.enterLoop parent state timeout) := by
  have hr := (waits_resolveTimeout env.now timeout).trans hw
  rw [Env.enterLoop, Env.loop_eq hr]
  exact ⟨⟨[], _, .start, rfl, rfl, rfl, rfl, rfl⟩, rfl, rfl, hr⟩

theorem loop_folds (env : Env) (parent : Option Nat) (state timeout : Datum) (hw : timeout.waits = true) {p : Proc}
    (h : Reach (env.enterLoop parent state timeout) Proc.step Orderly p) :
    ∃ turns e, Folded parent state (resolveTimeout env.now timeout) p turns e ∧
      p.log.countP Event.isTerminated = (if p.exit.isSome then 1 else 0) ∧
      (∀ t ∈ turns, t.events.countP Event.isReplied ≤ if t.msg.isGenCall then 1 else 0) ∧
      (p.exit = none → p.inbox ≠ [] → ∀ env, ∃ q, p.step (.receive env) = .ok q) ∧
      (p.exit.isSome → ∀ a q, p.step a ≠ .ok q) := by
  have hk := h.invariant (Env.enterLoop_kept hw parent state) (fun _ _ _ hi ha hs => hi.step ha hs)
  obtain ⟨turns, e, hf⟩ := hk.folded
  refine ⟨turns, e, hf, hf.terminated, hf.folds.replied, ?_, ?_⟩
  · intro hx hi env
    obtain ⟨msg, rest, hr⟩ := List.exists_cons_of_ne_nil hi
    exact ⟨{ p with inbox := rest }.turn env msg, by simp only [Proc.step, hx, hr]⟩
  · intro hx a q hs
    obtain ⟨x, hx⟩ := Option.isSome_iff_exists.1 hx
    simp only [Proc.step, hx] at hs
    cases hs

/-- Callbacks that all end with r, and a terminate that ends with t. -/
def constantly (r t : Result) : Env where
  handleCall _ _ _ := r
  handleCast _ _ := r
  handleInfo _ _ := r
  terminate _ _ := t
  now := 0
  registered _ := false
  clientFirst := true
  src := .bool false

theorem constantly_fit {t : Result} (hd : p.debug = .bool false) (hc : handler p.parent msg = some c)
    (ht : ∀ v u, r = .returned v → timeoutOf c.isCall v = some u → u.waits = true)
    (hk : c.isCall = true → (constantly r t).token c.client = true) (hq : t.quiet = true) :
    Fit (constantly r t) p msg := by
  refine ⟨?_, ?_, ?_, ?_, fun _ _ _ _ _ _ => hq, fun _ _ _ _ => hq⟩
  · intro d hm
    rw [hm] at hc
    cases hc
  · intro c' _ _ hdt
    rw [hd] at hdt
    cases hdt
  · intro c' v u hc' hv hu
    cases hc.symm.trans hc'
    have hr : r = .returned v := by cases c <;> exact hv
    exact ht v u hr hu
  · intro c' w hc' ha hw
    cases hc.symm.trans hc'
    cases hcall : c.isCall with
    | true => exact hk hcall
    | false =>
      rw [hcall] at ha
      rw [ha.no_reply] at hw
      cases hw

/-- A server that replies to a call and then stops for a cast. -/
theorem loop_folds_stop :
    ∃ p, Reach ((constantly (.returned .nil) (.returned .nil)).enterLoop (some 1) .nil (.symbol .infinity))
        Proc.step Orderly p ∧
      p.exit = some (.symbol (.user 0)) ∧
      ∃ turns e, Folded (some 1) .nil (.symbol .infinity) p turns e ∧
        p.log.countP Event.isTerminated = 1 ∧
        ∀ t ∈ turns, t.events.countP Event.isReplied ≤ if t.msg.isGenCall then 1 else 0 := by
  let replies := constantly (.returned (.vector [.symbol .reply, .integer 5, .integer 6])) (.returned .nil)
  let stops := constantly (.returned (.vector [.symbol .stop, .symbol (.user 0), .integer 7])) (.returned .nil)
  let client := Datum.vector [.process 2, .nil]
  have hall : Reach.Along Proc.step Orderly
      ((constantly (.returned .nil) (.returned .nil)).enterLoop (some 1) .nil (.symbol .infinity))
      [.arrive (.vector [.symbol .genCall, client, .nil]), .receive replies,
        .arrive (.vector [.symbol .genCast, .nil]), .receive stops] := by
    refine ⟨trivial, ?_, trivial, ?_, trivial⟩
    · intro msg hm
      cases hm
      refine constantly_fit rfl rfl ?_ (fun _ => rfl) rfl
      intro v u hv hu
      cases hv
      cases hu
    · intro msg hm
      cases hm
      refine constantly_fit rfl rfl ?_ (fun hc => (by cases hc)) rfl
      intro v u hv hu
      cases hv
      cases hu
  have h := Reach.of_run _ .start hall rfl
  obtain ⟨turns, e, hf, ht, hr, _⟩ := loop_folds _ _ _ _ rfl h
  exact ⟨_, h, rfl, turns, e, hf, ht, hr⟩

/-- A callback returns #(no-reply () -1). The wait for the next message fails outside of try. -/
theorem loop_skips_terminate :
    ∃ p, Reach ((constantly (.returned .nil) (.returned .nil)).enterLoop (some 1) .nil (.symbol .infinity))
        Proc.step (fun _ _ => True) p ∧
      p.exit = some (.fault true (.vector [.symbol .timeoutValue, .integer (-1), .bool false])) ∧
      p.log.countP Event.isTerminated = 0 ∧
      ¬ ∃ turns e, Folded (some 1) .nil (.symbol .infinity) p turns e := by
  let env := constantly (.returned (.vector [.symbol .noReply, .nil, .integer (-1)])) (.returned .nil)
  have h : Reach ((constantly (.returned .nil) (.returned .nil)).enterLoop (some 1) .nil (.symbol .infinity))
      Proc.step (fun _ _ => True) _ :=
    .of_run [.arrive (.vector [.symbol .genCast, .nil]), .receive env] .start
      (Reach.along_of_forall (fun _ _ => trivial) _ _) rfl
  refine ⟨_, h, rfl, rfl, ?_⟩
  intro ⟨turns, e, hf⟩
  have ht := hf.terminated
  cases ht

/-- A fault that terminate returns takes the place of the reason. -/
theorem Env.stop_returned_fault (hd : p.debug.isOptions = true) (ht : env.terminate cause.reason state = .returned v)
    (hv : v.isCatch = true) : (env.stop p cause state).exit = some v.err := by
  simp [Env.stop, Env.terminateReason, Env.doTerminate, Result.reported_eq hd, ht, Result.tried, hv, Proc.raise]

/-- A reply to a client that is no token ends the server, with no call of terminate. -/
theorem Env.reply_no_token (h : env.token client = false) (v : Datum) :
    ∃ x, env.handleCallReply p client (.vector [.symbol .reply, v, state]) = p.raise (.fault true x) := by
  have hr : ∃ x, env.reply p client v = .error (.fault true x) := by
    unfold Env.token at h
    split at h
    · exact ⟨_, by simp only [Env.reply, h]; rfl⟩
    · rename_i hn
      unfold Env.reply
      split
      · exact absurd rfl (hn _ _)
      · exact ⟨_, rfl⟩
  obtain ⟨x, hx⟩ := hr
  exact ⟨x, by simp only [Env.handleCallReply, hx]⟩

end Swish.GenServer.Loop
