import Swish.Lib.Reach
import Swish.WebSocket.Shutdown
import Swish.WebSocket.Timed

/-!
A live peer is not dropped, and an idle one is pinged.
-/

set_option autoImplicit false

namespace Swish.WebSocket.Established

open Swish.Lib

section

variable {opts : Options} {env : Env} {state : State} {acts : List Act} {msg : Message}

theorem terminate_ended (reason : Reason) (state : State) (acts : List Act) :
    (terminate env reason state acts).ended = some reason := by
  cases state <;> rfl

theorem reply_noReply {new : State} (h : (handleCommonReply env state (acts, noReply new)).ended = none) :
    handleCommonReply env state (acts, noReply new) = ⟨new, acts, none⟩ := by
  cases new with
  | closed code text =>
    have hend : (handleCommonReply env state (acts, noReply (.closed code text))).ended = some .condition :=
      terminate_ended .condition state acts
    rw [hend] at h
    cases h
  | ping t => rfl
  | pong deadline => rfl

theorem reply_andNoReply {new : State} {wr : Write}
    (h : (handleCommonReply env state (andNoReply wr new)).ended = none) :
    wr.2 = true ∧ handleCommonReply env state (andNoReply wr new) = ⟨new, wr.1, none⟩ := by
  unfold andNoReply at h ⊢
  split at h
  · rename_i hwr
    rw [if_pos hwr]
    exact ⟨hwr, reply_noReply h⟩
  · have hend : (handleCommonReply env state (wr.1, failed)).ended = some .condition :=
      terminate_ended .condition state wr.1
    rw [hend] at h
    cases h

theorem reply_failed (state : State) (acts : List Act) :
    (handleCommonReply env state (acts, failed)).ended = some .condition := terminate_ended .condition state acts

/-- How the state changes when the loop goes on: it stays, or the next ping is put off, or a ping is sent. -/
inductive Goes (opts : Options) (env : Env) (msg : Message) (w w' : Websocket) : Prop where
  | stays (hs : w'.state = w.state) (hm : msg.isHeartbeat = false) (ht : msg ≠ .timeout)
  | rearms (hs : w'.state = .ping (nextPingTime opts env)) (hm : msg ≠ .debug)
  | pings (hm : msg = .timeout) (hold : w.state = .ping (nextPingTime opts env))
      (hw : w' = ⟨.pong (nextPongTime opts env), w.acts ++ [.frame 9 true], none⟩)

theorem timeout_goes {w : Websocket} (h : (handleMsg opts env .timeout w).ended = none) :
    Goes opts env .timeout w (handleMsg opts env .timeout w) := by
  change (handleCommonReply env w.state (handleTimeout opts env w.state w.acts)).ended = none at h
  have hstate : (handleMsg opts env .timeout w) =
    handleCommonReply env w.state (handleTimeout opts env w.state w.acts) := rfl
  rw [hstate]
  cases hs : w.state with
  | closed code text =>
    rw [hs] at h
    cases (reply_failed (.closed code text) w.acts).symm.trans h
  | ping t =>
    rw [hs] at h
    unfold handleTimeout at h ⊢
    dsimp only at h ⊢
    split at h
    · rename_i ht
      obtain ⟨hwr, hreply⟩ := reply_andNoReply h
      rw [if_pos ht, hreply]
      refine .pings rfl (hs.trans (congrArg State.ping ht)) ?_
      unfold sendPingFrame writeFrames at hwr ⊢
      split at hwr
      · rename_i hwrites
        rw [if_pos hwrites]
        rfl
      · cases hwr
    · rename_i ht
      rw [if_neg ht, reply_noReply h]
      exact .rearms rfl (fun he => (by cases he))
  | pong deadline =>
    rw [hs] at h
    unfold handleTimeout at h ⊢
    dsimp only at h ⊢
    split at h
    · cases h
    · rename_i hlate
      rw [if_neg hlate, reply_noReply h]
      exact .rearms rfl (fun he => (by cases he))

theorem handleMsg_goes {w : Websocket} (h : (handleMsg opts env msg w).ended = none) :
    Goes opts env msg w (handleMsg opts env msg w) := by
  cases msg with
  | parentExit reason => cases (terminate_ended reason w.state w.acts).symm.trans h
  | debug => exact .stays rfl rfl (fun he => (by cases he))
  | timeout => exact timeout_goes h
  | call => cases (reply_failed w.state w.acts).symm.trans h
  | other => cases (reply_failed w.state w.acts).symm.trans h
  | readerExit reason => cases h
  | processExit reason => cases h
  | processDown reason => cases h
  | cast c =>
    cases c with
    | send kind bv =>
      obtain ⟨hwr, hreply⟩ := @reply_andNoReply env w.state w.state _ h
      have hs := congrArg Websocket.state hreply
      exact .stays hs rfl (fun he => (by cases he))
    | sendBang kind bv =>
      obtain ⟨hwr, hreply⟩ := @reply_andNoReply env w.state w.state _ h
      have hs := congrArg Websocket.state hreply
      exact .stays hs rfl (fun he => (by cases he))
    | close => cases h
    | other => cases (reply_failed w.state w.acts).symm.trans h
  | read msg =>
    cases msg with
    | message kind payload => cases (reply_failed w.state w.acts).symm.trans h
    | close => cases h
    | closeWith code reason => cases h
    | ping payload =>
      obtain ⟨hwr, hreply⟩ := @reply_andNoReply env w.state (.ping (nextPingTime opts env)) _ h
      exact .rearms (congrArg Websocket.state hreply) (fun he => (by cases he))
    | pong payload => exact .rearms rfl (fun he => (by cases he))

theorem closed_mem {code : Nat} {text : List UInt8} {acts' : List Act} (hopen : ∀ a, a ∈ acts → a.isClosed = false)
    (h : .closed code text ∈ acts ++ acts') : .closed code text ∈ acts' := by
  cases List.mem_append.mp h with
  | inl hold => cases hopen _ hold
  | inr hnew => exact hnew

/-- do-close closes for want of a pong just if it is told so. -/
theorem doClose_noPong {reason : Reason} {code : Nat} {text : List UInt8} (hopen : ∀ a, a ∈ acts → a.isClosed = false)
    (h : ClosedNoPong (handleCommonReply env state (doClose env reason code text acts))) :
    reason = .noPong ∧ text = noResponse := by
  obtain ⟨hended, hmem⟩ := h
  obtain ⟨written, hclose⟩ := sendCloseFrame_eq env acts
  have hacts : (handleCommonReply env state (doClose env reason code text acts)).acts =
      acts ++ [.frame 8 written, .closed code text, .closePorts] := by
    simp [handleCommonReply, doClose, onClose, terminate, hclose]
  rw [hacts] at hmem
  have hnew := closed_mem hopen hmem
  simp at hnew
  exact ⟨Option.some.inj hended, hnew.2.symm⟩

theorem terminate_noPong {reason : Reason} (hopen : ∀ a, a ∈ acts → a.isClosed = false) :
    ¬ClosedNoPong (terminate env reason state acts) := by
  intro h
  obtain ⟨-, hmem⟩ := h
  obtain ⟨written, hclose⟩ := sendCloseFrame_eq env acts
  have hacts : ∃ acts', (terminate env reason state acts).acts = acts ++ acts' ∧ .closed 1002 noResponse ∉ acts' := by
    cases state with
    | closed code text => exact ⟨[.closePorts], rfl, by simp⟩
    | ping t => exact ⟨[.frame 8 written, .closed 1001 [], .closePorts], by simp [terminate, onClose, hclose], by simp⟩
    | pong t => exact ⟨[.frame 8 written, .closed 1001 [], .closePorts], by simp [terminate, onClose, hclose], by simp⟩
  obtain ⟨acts', hacts, hnew⟩ := hacts
  rw [hacts] at hmem
  exact hnew (closed_mem hopen hmem)

/-- The websocket closes for want of a pong when it times out at the deadline of a ping and has not seen
bytes come after the ping. -/
theorem noPong_cases {w : Websocket} (hopen : ∀ a, a ∈ w.acts → a.isClosed = false)
    (hended : w.ended = none) (h : ClosedNoPong (handleMsg opts env msg w)) :
    msg = .timeout ∧ ∃ deadline, w.state = .pong deadline ∧ env.sharedReadTimestamp + opts.pongTimeout ≤ deadline := by
  have hno : noResponse ≠ [] := by decide
  have hraised : ∀ {reason st acts}, reason ≠ .noPong → ¬ClosedNoPong (terminate env reason st acts) :=
    fun hne hc => hne (Option.some.inj ((terminate_ended _ _ _).symm.trans hc.1))
  have hcond : ∀ {acts}, ¬ClosedNoPong (handleCommonReply env w.state (acts, failed)) :=
    hraised (fun he => (by cases he))
  have hreply : ∀ {wr new}, ¬ClosedNoPong (handleCommonReply env w.state (andNoReply wr new)) := by
    intro wr new hc
    unfold andNoReply at hc
    split at hc
    · cases new with
      | closed code text => exact hcond hc
      | ping t => cases hc.1
      | pong deadline => cases hc.1
    · exact hcond hc
  have hdied : ∀ {reason code}, ¬ClosedNoPong (handleCommonReply env w.state (doClose env reason code [] w.acts)) :=
    fun hc => hno (doClose_noPong hopen hc).2.symm
  cases msg with
  | parentExit reason => exact absurd h (terminate_noPong hopen)
  | debug =>
    cases hended.symm.trans h.1
  | call => exact absurd h hcond
  | other => exact absurd h hcond
  | readerExit reason => exact absurd h hdied
  | processExit reason => exact absurd h hdied
  | processDown reason => exact absurd h hdied
  | cast c =>
    cases c with
    | send kind bv => exact absurd h hreply
    | sendBang kind bv => exact absurd h hreply
    | close => exact absurd h hdied
    | other => exact absurd h hcond
  | read msg =>
    cases msg with
    | message kind payload => exact absurd h hcond
    | close => exact absurd h hdied
    | closeWith code reason =>
      have hreason := (@doClose_noPong env w.state w.acts _ _ _ hopen h).1
      split at hreason
      · cases hreason
      · cases hreason
    | ping payload => exact absurd h hreply
    | pong payload => cases h.1
  | timeout =>
    change ClosedNoPong (handleCommonReply env w.state (handleTimeout opts env w.state w.acts)) at h
    cases hs : w.state with
    | closed code text =>
      rw [hs] at h
      exact absurd h (hraised (fun he => (by cases he)))
    | ping t =>
      rw [hs] at h
      unfold handleTimeout at h
      dsimp only at h
      split at h
      · rw [← hs] at h
        exact absurd h hreply
      · cases h.1
    | pong deadline =>
      rw [hs] at h
      unfold handleTimeout at h
      dsimp only at h
      split at h
      · rename_i hlate
        exact ⟨rfl, deadline, rfl, hlate⟩
      · cases h.1

end

/-- The message that the loop is at. -/
def Phase.handled : Phase → Option Message
  | .waiting => none
  | .begun msg => some msg
  | .looked msg _ => some msg

/-- Since the ping, every heartbeat is still to be taken up, and when the loop has timed out, none had
come. -/
inductive Unanswered (opts : Options) (w : World) (t : Nat) (since : List (Nat × Event)) : Prop where
  | pending (hp : w.phase.handled ≠ some .timeout)
      (h : ∀ x, x ∈ since → ∀ msg, x.2 = .delivered msg → msg.isHeartbeat = true →
        w.phase.handled = some msg ∨ msg ∈ w.inbox)
  | timedOut (mid : List (Nat × Event)) (n : Nat) (after : List (Nat × Event)) (hp : w.phase.handled = some .timeout)
      (hsince : since = mid ++ (n, .timedOut) :: after) (hn : t + opts.pongTimeout ≤ n)
      (hquiet : ∀ x, x ∈ mid → x.2.isHeartbeat = false)
      (hseen : ∀ msg seen, w.phase = .looked msg seen → ∀ x, x ∈ mid → x.2 = .bytes → x.1 ≤ seen)

def Awaited (opts : Options) (w : World) (deadline : Nat) : Prop :=
  ∃ t since, deadline = t + opts.pongTimeout ∧ oneDay < t ∧ PingAt opts w.log t since ∧ Unanswered opts w t since

/-- What holds while the loop goes on. -/
structure Loop (opts : Options) (w : World) : Prop where
  isOpen : ∀ a, a ∈ w.websocket.acts → a.isClosed = false
  waits : Waits w
  ping : ∀ t, w.websocket.state = .ping t → oneDay < t ∧ t ≤ w.sharedReadTimestamp + opts.pingFrequency
  pong : ∀ deadline, w.websocket.state = .pong deadline → Awaited opts w deadline
  due : w.phase.handled = some .timeout → w.waketime ≤ w.clock
  seen : ∀ msg seen, w.phase = .looked msg seen → oneDay < seen ∧ seen ≤ w.sharedReadTimestamp

structure Kept (opts : Options) (w : World) : Prop where
  day : oneDay < w.sharedReadTimestamp
  past : w.sharedReadTimestamp ≤ w.clock
  inbox : .timeout ∉ w.inbox
  bytes : ∀ x, x ∈ w.log → x.2 = .bytes → x.1 ≤ w.sharedReadTimestamp
  busy : w.phase.handled ≠ none → w.websocket.ended = none
  loop : w.websocket.ended = none → Loop opts w

/-- What goes on beside the loop. -/
structure Beside (w w' : World) : Prop where
  websocket : w'.websocket = w.websocket
  phase : w'.phase = w.phase
  waketime : w'.waketime = w.waketime
  clock : w.clock ≤ w'.clock
  shared : w.sharedReadTimestamp ≤ w'.sharedReadTimestamp
  inbox : ∀ msg, msg ∈ w.inbox → msg ∈ w'.inbox
  log : ∃ events, w'.log = w.log ++ events ∧ ∀ x, x ∈ events → ∀ msg, x.2 = .delivered msg → msg ∈ w'.inbox

section

variable {opts : Options} {w w' : World}

theorem PingAt.append {log since : List (Nat × Event)} {t : Nat} (h : PingAt opts log t since)
    (events : List (Nat × Event)) : PingAt opts (log ++ events) t (since ++ events) := by
  obtain ⟨before, acts, hlog⟩ := h
  exact ⟨before, acts, by rw [hlog, List.append_assoc, List.cons_append]⟩

theorem Awaited.beside {deadline : Nat} (h : Awaited opts w deadline) (hb : Beside w w') : Awaited opts w' deadline := by
  obtain ⟨t, since, hd, hday, hping, hun⟩ := h
  obtain ⟨events, hlog, hevents⟩ := hb.log
  refine ⟨t, since ++ events, hd, hday, hlog ▸ hping.append events, ?_⟩
  cases hun with
  | pending hp h =>
    refine .pending (hb.phase ▸ hp) fun x hx msg hmsg hbeat => ?_
    cases List.mem_append.mp hx with
    | inl hx =>
      rw [hb.phase]
      exact (h x hx msg hmsg hbeat).imp_right (hb.inbox msg)
    | inr hx => exact .inr (hevents x hx msg hmsg)
  | timedOut mid n after hp hsince hn hquiet hseen =>
    refine .timedOut mid n (after ++ events) (hb.phase ▸ hp) ?_ hn hquiet (hb.phase ▸ hseen)
    rw [hsince, List.append_assoc, List.cons_append]

theorem Loop.beside (h : Loop opts w) (hb : Beside w w') : Loop opts w' where
  isOpen := hb.websocket ▸ h.isOpen
  waits := by
    unfold Waits
    rw [hb.websocket, hb.waketime]
    exact h.waits
  ping := fun t ht => by
    rw [hb.websocket] at ht
    obtain ⟨hday, hle⟩ := h.ping t ht
    exact ⟨hday, Nat.le_trans hle (Nat.add_le_add_right hb.shared _)⟩
  pong := fun deadline hd => (h.pong deadline (hb.websocket ▸ hd)).beside hb
  due := fun hp => hb.waketime ▸ Nat.le_trans (h.due (hb.phase ▸ hp)) hb.clock
  seen := fun msg seen hp => by
    obtain ⟨hday, hle⟩ := h.seen msg seen (hb.phase ▸ hp)
    exact ⟨hday, Nat.le_trans hle hb.shared⟩

theorem Kept.beside (h : Kept opts w) (hb : Beside w w') (hpast : w'.sharedReadTimestamp ≤ w'.clock)
    (hinbox : .timeout ∉ w'.inbox) (hbytes : ∀ x, x ∈ w'.log → x.2 = .bytes → x.1 ≤ w'.sharedReadTimestamp) :
    Kept opts w' where
  day := Nat.lt_of_lt_of_le h.day hb.shared
  past := hpast
  inbox := hinbox
  bytes := hbytes
  busy := fun hp => hb.websocket ▸ h.busy (hb.phase ▸ hp)
  loop := fun he => (h.loop (hb.websocket ▸ he)).beside hb

theorem Kept.tick (h : Kept opts w) (ms : Nat) : Kept opts { w with clock := w.clock + ms } := by
  refine h.beside ⟨rfl, rfl, rfl, Nat.le_add_right _ ms, Nat.le_refl _, fun msg hmsg => hmsg, [], ?_, ?_⟩
    (Nat.le_trans h.past (Nat.le_add_right _ ms)) h.inbox h.bytes
  · exact (List.append_nil w.log).symm
  · exact fun x hx => (by cases hx)

theorem mem_record {e : Event} {x : Nat × Event} (h : x ∈ (w.record e).log) : x ∈ w.log ∨ x = (w.clock, e) :=
  (List.mem_append.mp h).imp_right List.mem_singleton.mp

theorem bytes_record {e : Event} {n : Nat} (h : ∀ x, x ∈ w.log → x.2 = .bytes → x.1 ≤ n) (he : e ≠ .bytes) :
    ∀ x, x ∈ (w.record e).log → x.2 = .bytes → x.1 ≤ n := by
  intro x hx hbytes
  cases mem_record hx with
  | inl hx => exact h x hx hbytes
  | inr hx =>
    rw [hx] at hbytes
    exact absurd hbytes he

theorem Kept.readBytes (h : Kept opts w) : Kept opts ({ w with sharedReadTimestamp := w.clock }.record .bytes) := by
  refine h.beside ⟨rfl, rfl, rfl, Nat.le_refl _, h.past, fun msg hmsg => hmsg, [(w.clock, .bytes)], rfl, ?_⟩
    (Nat.le_refl _) h.inbox ?_
  · intro x hx msg hmsg
    rw [List.mem_singleton.mp hx] at hmsg
    cases hmsg
  · intro x hx hbytes
    cases mem_record hx with
    | inl hx => exact Nat.le_trans (h.bytes x hx hbytes) h.past
    | inr hx =>
      rw [hx]
      exact Nat.le_refl w.clock

theorem Kept.deliver {msg : Message} (h : Kept opts w) (hmsg : msg ≠ .timeout) : Kept opts (w.deliver msg) := by
  unfold World.deliver
  split
  · exact h
  · refine h.beside ⟨rfl, rfl, rfl, Nat.le_refl _, Nat.le_refl _, fun msg' hmem => List.mem_append_left [msg] hmem,
      [(w.clock, .delivered msg)], rfl, ?_⟩ h.past ?_ ?_
    · intro x hx msg' hx'
      rw [List.mem_singleton.mp hx] at hx'
      cases hx'
      exact List.mem_append_right w.inbox (List.mem_singleton.mpr rfl)
    · intro hmem
      cases List.mem_append.mp hmem with
      | inl hmem => exact h.inbox hmem
      | inr hmem => exact hmsg (List.mem_singleton.mp hmem).symm
    · exact bytes_record h.bytes (fun he => (by cases he))

theorem Kept.receive {msg : Message} {inbox : List Message} (h : Kept opts w) (hp : w.phase = .waiting)
    (hended : w.websocket.ended = none) (hinbox : w.inbox = msg :: inbox) :
    Kept opts { w with inbox := inbox, phase := .begun msg } := by
  have hloop := h.loop hended
  have hno := h.inbox
  rw [hinbox] at hno
  have hmsg : msg ≠ .timeout := fun he => hno (he ▸ List.mem_cons_self)
  refine ⟨h.day, h.past, fun hmem => hno (List.mem_cons_of_mem msg hmem), h.bytes, fun _ => hended, fun _ => ?_⟩
  refine ⟨hloop.isOpen, hloop.waits, hloop.ping, fun deadline hd => ?_, fun hm => ?_, fun m seen hm => (by cases hm)⟩
  · obtain ⟨t, since, hdead, hday, hping, hun⟩ := hloop.pong deadline hd
    refine ⟨t, since, hdead, hday, hping, .pending (fun hm => hmsg (Option.some.inj hm)) ?_⟩
    intro x hx m hm hbeat
    cases hun with
    | pending hp' hpending =>
      cases hpending x hx m hm hbeat with
      | inl hcur =>
        rw [hp] at hcur
        cases hcur
      | inr hmem =>
        rw [hinbox] at hmem
        exact (List.mem_cons.mp hmem).imp_left fun he => congrArg some he.symm
    | timedOut mid n after hp' hsince hn hquiet hseen =>
      rw [hp] at hp'
      cases hp'
  · exact absurd (Option.some.inj hm) hmsg

theorem Kept.timeOut (h : Kept opts w) (hp : w.phase = .waiting) (hended : w.websocket.ended = none)
    (hinbox : w.inbox = []) (hwake : w.waketime ≤ w.clock) :
    Kept opts ({ w with phase := .begun .timeout }.record .timedOut) := by
  have hloop := h.loop hended
  have hbytes := @bytes_record { w with phase := .begun .timeout } .timedOut _ h.bytes (fun he => (by cases he))
  refine ⟨h.day, h.past, h.inbox, hbytes, fun _ => hended, fun _ => ?_⟩
  refine ⟨hloop.isOpen, hloop.waits, hloop.ping, fun deadline hd => ?_, fun _ => hwake, fun m seen hm => (by cases hm)⟩
  obtain ⟨t, since, hdead, hday, hping, hun⟩ := hloop.pong deadline hd
  refine ⟨t, since ++ [(w.clock, Event.timedOut)], hdead, hday, hping.append [(w.clock, .timedOut)],
    .timedOut since w.clock [] rfl rfl ?_ ?_ ?_⟩
  · -- the deadline is the waketime
    have hstate : w.websocket.state = .pong deadline := hd
    cases hloop.waits with
    | inl hw => cases hstate.symm.trans hw
    | inr hw =>
      cases hstate.symm.trans hw
      exact hdead ▸ hwake
  · intro x hx
    cases hun with
    | pending hp' hpending =>
      obtain ⟨c, e⟩ := x
      cases e with
      | bytes => rfl
      | timedOut => rfl
      | finished msg websocket => rfl
      | delivered msg =>
        cases hbeat : msg.isHeartbeat with
        | false => exact hbeat
        | true =>
          have hwait := hpending (c, .delivered msg) hx msg rfl hbeat
          rw [hp, hinbox] at hwait
          cases hwait with
          | inl hcur => cases hcur
          | inr hmem => cases hmem
    | timedOut mid n after hp' hsince hn hquiet hseen =>
      rw [hp] at hp'
      cases hp'
  · exact fun m seen hm => (by cases hm)

theorem Kept.look {msg : Message} (h : Kept opts w) (hp : w.phase = .begun msg) :
    Kept opts { w with phase := .looked msg w.sharedReadTimestamp } := by
  have hhandled : w.phase.handled = some msg := by rw [hp]; rfl
  have hended := h.busy (fun hn => by cases hhandled.symm.trans hn)
  have hloop := h.loop hended
  refine ⟨h.day, h.past, h.inbox, h.bytes, fun _ => hended, fun _ => ?_⟩
  refine ⟨hloop.isOpen, hloop.waits, hloop.ping, fun deadline hd => ?_, fun hm => hloop.due (hhandled.trans hm), ?_⟩
  · obtain ⟨t, since, hdead, hday, hping, hun⟩ := hloop.pong deadline hd
    refine ⟨t, since, hdead, hday, hping, ?_⟩
    cases hun with
    | pending hp' hpending =>
      rw [hhandled] at hp' hpending
      exact .pending hp' hpending
    | timedOut mid n after hp' hsince hn hquiet hseen =>
      refine .timedOut mid n after (hhandled.symm.trans hp') hsince hn hquiet fun m seen hm x hx hbytes => ?_
      cases hm
      obtain ⟨before, acts, hlog⟩ := hping
      refine h.bytes x ?_ hbytes
      rw [hlog, hsince]
      exact List.mem_append_right before (List.mem_cons_of_mem _ (List.mem_append_left _ hx))
  · intro m seen hm
    cases hm
    exact ⟨h.day, Nat.le_refl _⟩

theorem resolveTimeout_eq {x : Nat} (now : Nat) (h : oneDay < x) : resolveTimeout now x = x :=
  if_neg (Nat.not_le.mpr h)

/-- The waketime after a callback is the one of the new state. -/
theorem waits_next {now waketime x : Nat} {msg : Message} {state : State} (hm : msg ≠ .debug)
    (hs : state = .ping x ∨ state = .pong x) (hx : oneDay < x) : nextWaketime now msg state waketime = x := by
  have hnext : nextWaketime now msg state waketime = resolveTimeout now x := by
    cases hs with
    | inl hs =>
      rw [hs]
      cases msg with
      | debug => exact absurd rfl hm
      | _ => rfl
    | inr hs =>
      rw [hs]
      cases msg with
      | debug => exact absurd rfl hm
      | _ => rfl
  exact hnext.trans (resolveTimeout_eq now hx)

theorem Loop.waketime_day (h : Loop opts w) : oneDay < w.waketime := by
  cases h.waits with
  | inl hs => exact (h.ping w.waketime hs).1
  | inr hs =>
    obtain ⟨t, since, hdead, hday, -⟩ := h.pong w.waketime hs
    omega

theorem Loop.not_closed (h : Loop opts w) : w.websocket.state.isClosed = false := by
  cases h.waits with
  | inl hs =>
    rw [hs]
    rfl
  | inr hs =>
    rw [hs]
    rfl

/-- In receive there is nothing that has timed out, and nothing that has been looked at. -/
theorem loop_waiting (hp : w.phase = .waiting) (hopen : ∀ a, a ∈ w.websocket.acts → a.isClosed = false) (hwaits : Waits w)
    (hping : ∀ t, w.websocket.state = .ping t → oneDay < t ∧ t ≤ w.sharedReadTimestamp + opts.pingFrequency)
    (hpong : ∀ deadline, w.websocket.state = .pong deadline → Awaited opts w deadline) : Loop opts w := by
  refine ⟨hopen, hwaits, hping, hpong, fun he => ?_, fun m s he => ?_⟩
  · rw [hp] at he
    cases he
  · rw [hp] at he
    cases he

/-- A callback that returns to the loop keeps what the loop keeps. -/
theorem Loop.finish {msg : Message} {seen : Nat} (h : Loop opts w) (hp : w.phase = .looked msg seen)
    (hpast : w.sharedReadTimestamp ≤ w.clock) (hended : w.websocket.ended = none) (writes : Nat → Bool)
    (hgo : (w.finish opts msg seen writes).websocket.ended = none) : Loop opts (w.finish opts msg seen writes) := by
  have hopen : ∀ a, a ∈ (w.finish opts msg seen writes).websocket.acts → a.isClosed = false := by
    obtain ⟨-, new, hnew, hisopen⟩ := (@handleMsg_turn opts ⟨writes, w.clock, seen⟩ msg w.websocket hended h.not_closed).goes hgo
    intro a ha
    have ha' : a ∈ w.websocket.acts ++ new := hnew ▸ ha
    cases List.mem_append.mp ha' with
    | inl ha => exact h.isOpen a ha
    | inr ha =>
      cases a with
      | closed code text => cases hisopen _ ha
      | _ => rfl
  have hhandled : w.phase.handled = some msg := by rw [hp]; rfl
  obtain ⟨hseenday, hseen⟩ := h.seen msg seen hp
  cases handleMsg_goes hgo with
  | stays hs hm ht =>
    have hstays : (w.finish opts msg seen writes).websocket.state = w.websocket.state := hs
    have hwaits : (w.finish opts msg seen writes).websocket.state = .ping w.waketime ∨
        (w.finish opts msg seen writes).websocket.state = .pong w.waketime := hstays ▸ h.waits
    have hwake : (w.finish opts msg seen writes).waketime = w.waketime := by
      by_cases hdebug : msg = .debug
      · rw [hdebug]
        rfl
      · exact waits_next hdebug hwaits h.waketime_day
    refine loop_waiting rfl hopen ?_ (fun t ht => h.ping t (hstays ▸ ht)) fun deadline hd => ?_
    · unfold Waits
      rw [hwake]
      exact hwaits
    · obtain ⟨t, since, hdead, hday, hping, hun⟩ := h.pong deadline (hstays ▸ hd)
      refine ⟨t, _, hdead, hday, hping.append [(w.clock, .finished msg (w.finish opts msg seen writes).websocket)],
        .pending (fun he => (by cases he)) fun x hx m hm' hbeat => ?_⟩
      cases List.mem_append.mp hx with
      | inr hx =>
        rw [List.mem_singleton.mp hx] at hm'
        cases hm'
      | inl hx =>
        cases hun with
        | pending hp' hpending =>
          cases hpending x hx m hm' hbeat with
          | inl hcur =>
            cases hhandled.symm.trans hcur
            cases hm.symm.trans hbeat
          | inr hmem => exact .inr hmem
        | timedOut mid n after hp' hsince hn hquiet hseen =>
          exact absurd (Option.some.inj (hhandled.symm.trans hp')) ht
  | rearms hs hm =>
    have hday : oneDay < seen + opts.pingFrequency := Nat.lt_of_lt_of_le hseenday (Nat.le_add_right _ _)
    have hwake : (w.finish opts msg seen writes).waketime = seen + opts.pingFrequency := waits_next hm (.inl hs) hday
    refine loop_waiting rfl hopen (.inl (hs.trans (congrArg State.ping hwake.symm))) (fun t ht => ?_) fun deadline hd => ?_
    · cases hs.symm.trans ht
      exact ⟨hday, Nat.add_le_add_right hseen _⟩
    · cases hs.symm.trans hd
  | pings hm hold hw =>
    have hday : oneDay < w.clock := Nat.lt_of_lt_of_le hseenday (Nat.le_trans hseen hpast)
    have hstate : (w.finish opts msg seen writes).websocket.state = .pong (w.clock + opts.pongTimeout) :=
      congrArg Websocket.state hw
    have hwake : (w.finish opts msg seen writes).waketime = w.clock + opts.pongTimeout :=
      waits_next (hm ▸ fun he => (by cases he)) (.inr hstate) (Nat.lt_of_lt_of_le hday (Nat.le_add_right _ _))
    refine loop_waiting rfl hopen (.inr (hstate.trans (congrArg State.pong hwake.symm))) (fun t ht => ?_)
      fun deadline hd => ?_
    · cases hstate.symm.trans ht
    · cases hstate.symm.trans hd
      refine ⟨w.clock, [], rfl, hday, ⟨w.log, w.websocket.acts, ?_⟩, .pending (fun he => (by cases he)) ?_⟩
      · rw [← hm]
        exact congrArg (fun u => w.log ++ [(w.clock, Event.finished msg u)]) hw
      · exact fun x hx => (by cases hx)

theorem Kept.finish {msg : Message} {seen : Nat} (h : Kept opts w) (hp : w.phase = .looked msg seen)
    (writes : Nat → Bool) : Kept opts (w.finish opts msg seen writes) := by
  have hended := h.busy (by rw [hp]; exact fun hn => (by cases hn))
  exact ⟨h.day, h.past, h.inbox, bytes_record h.bytes (fun he => (by cases he)), fun hn => absurd rfl hn,
    (h.loop hended).finish hp h.past hended writes⟩

theorem Kept.step {a : Action} (h : Kept opts w) (hs : w.step opts a = .ok w') : Kept opts w' := by
  unfold World.step at hs
  cases a with
  | tick ms =>
    cases hs
    exact h.tick ms
  | readBytes =>
    cases hs
    exact h.readBytes
  | deliver msg =>
    dsimp only at hs
    split at hs
    · cases hs
    · rename_i hmsg
      cases hs
      exact h.deliver hmsg
  | receive =>
    dsimp only at hs
    split at hs
    · rename_i hp
      split at hs
      · cases hs
      · rename_i hended
        unfold World.receive at hs
        split at hs
        · cases hs
        · rename_i msg inbox hinbox
          cases hs
          exact h.receive hp (Option.not_isSome_iff_eq_none.mp hended) hinbox
    · cases hs
  | timeOut =>
    dsimp only at hs
    split at hs
    · rename_i hp
      split at hs
      · cases hs
      · rename_i hended
        unfold World.timeOut at hs
        split at hs
        · rename_i hready
          cases hs
          exact h.timeOut hp (Option.not_isSome_iff_eq_none.mp hended) hready.1 hready.2
        · cases hs
    · cases hs
  | look =>
    dsimp only at hs
    split at hs
    · rename_i msg hp
      cases hs
      exact h.look hp
    · cases hs
  | finish writes =>
    dsimp only at hs
    split at hs
    · rename_i msg seen hp
      cases hs
      exact h.finish hp writes
    · cases hs

theorem kept_start {clock shared : Nat} {inbox : List Message} (hday : oneDay < shared) (hpast : shared ≤ clock)
    (hinbox : .timeout ∉ inbox) : Kept opts (World.start opts clock shared inbox) := by
  have hping : oneDay < shared + opts.pingFrequency := Nat.lt_of_lt_of_le hday (Nat.le_add_right _ _)
  refine ⟨hday, hpast, hinbox, fun x hx => (by cases hx), fun hn => absurd rfl hn, fun _ => ?_⟩
  refine loop_waiting rfl (fun a ha => ?_) (.inl (congrArg State.ping (resolveTimeout_eq clock hping).symm))
    (fun t ht => ?_) fun deadline hd => (by cases hd)
  · rw [List.mem_singleton.mp ha]
    rfl
  · cases ht
    exact ⟨hping, Nat.le_refl _⟩

theorem kept_run {as : List Action} (h : Kept opts w) (hr : Reach.run (World.step opts) w as = .ok w') :
    Kept opts w' :=
  @Reach.run_history _ _ _ (World.step opts) (fun _ w => Kept opts w) (fun _ _ _ _ h hs => h.step hs) as [] w w' h hr

/-- The websocket closes for want of a pong only if the peer has been silent. -/
theorem Kept.silent {writes : Nat → Bool} (h : Kept opts w) (hs : w.step opts (.finish writes) = .ok w')
    (hclosed : ClosedNoPong w'.websocket) : Silent opts w := by
  unfold World.step at hs
  dsimp only at hs
  split at hs
  · rename_i msg seen hp
    cases hs
    have hhandled : w.phase.handled = some msg := by rw [hp]; rfl
    have hended := h.busy (fun hn => by cases hhandled.symm.trans hn)
    have hloop := h.loop hended
    obtain ⟨hmsg, deadline, hstate, hlate⟩ := noPong_cases hloop.isOpen hended hclosed
    obtain ⟨t, since, hdead, -, hping, hun⟩ := hloop.pong deadline hstate
    cases hun with
    | pending hp' hpending => exact absurd (hhandled.trans (congrArg some hmsg)) hp'
    | timedOut mid n after hp' hsince hn hquiet hseen =>
      refine ⟨t, mid, n, after, hdead ▸ hstate, hsince ▸ hping, hn, fun x hx => ⟨hquiet x hx, fun hbytes => ?_⟩⟩
      have hle : x.1 ≤ seen := hseen msg seen hp x hx hbytes
      dsimp only at hlate
      omega
  · cases hs

theorem terminate_prefix (env : Env) (reason : Reason) (state : State) (acts : List Act) :
    acts <+: (terminate env reason state acts).acts := by
  obtain ⟨written, hclose⟩ := sendCloseFrame_eq env acts
  cases state with
  | closed code text => exact ⟨[.closePorts], rfl⟩
  | ping t => exact ⟨closing written 1001 [], by simp [terminate, onClose, hclose, closing]⟩
  | pong t => exact ⟨closing written 1001 [], by simp [terminate, onClose, hclose, closing]⟩

/-- A timeout at ping-frequency after the last read sends a ping. -/
theorem timeout_pings {env : Env} {w : Websocket} (hs : w.state = .ping (nextPingTime opts env)) :
    ∃ written, w.acts ++ [.frame 9 written] <+: (handleMsg opts env .timeout w).acts := by
  refine ⟨env.writes w.acts.length, ?_⟩
  change _ <+: (handleCommonReply env w.state (handleTimeout opts env w.state w.acts)).acts
  rw [hs]
  unfold handleTimeout
  dsimp only
  rw [if_pos rfl]
  unfold sendPingFrame writeFrames
  split
  · rename_i hwrites
    rw [hwrites]
    exact List.prefix_rfl
  · rename_i hwrites
    rw [Bool.eq_false_iff.mpr hwrites]
    exact terminate_prefix env .condition _ _

/-- No other timeout does. -/
theorem timeout_ping_time {env : Env} {w : Websocket} {written : Bool} (hopen : w.state.isClosed = false)
    (h : w.acts ++ [.frame 9 written] <+: (handleMsg opts env .timeout w).acts) :
    w.state = .ping (nextPingTime opts env) := by
  change _ <+: (handleCommonReply env w.state (handleTimeout opts env w.state w.acts)).acts at h
  have hsame : ¬w.acts ++ [.frame 9 written] <+: w.acts := by
    intro hpre
    have hlen := hpre.length_le
    rw [List.length_append] at hlen
    exact Nat.not_succ_le_self _ hlen
  cases hs : w.state with
  | closed code text =>
    rw [hs] at hopen
    cases hopen
  | ping t =>
    rw [hs] at h
    unfold handleTimeout at h
    dsimp only at h
    split at h
    · rename_i ht
      rw [ht]
    · exact absurd h hsame
  | pong deadline =>
    rw [hs] at h
    unfold handleTimeout at h
    dsimp only at h
    split at h
    · obtain ⟨closed, hclose⟩ := sendCloseFrame_eq env w.acts
      have hacts : (handleCommonReply env (.pong deadline) (doClose env .noPong 1002 noResponse w.acts)).acts =
          w.acts ++ closing closed 1002 noResponse := by
        simp [handleCommonReply, doClose, onClose, terminate, hclose, closing]
      rw [hacts, List.prefix_append_right_inj] at h
      simp [closing] at h
    · exact absurd h hsame

/-- A timeout of a loop without messages. -/
theorem timeoutTurn_run (writes : Nat → Bool) (hp : w.phase = .waiting) (hended : w.websocket.ended = none)
    (hinbox : w.inbox = []) (hwake : w.waketime ≤ w.clock) :
    ∃ v, Reach.run (World.step opts) w (timeoutTurn writes) = .ok v ∧ v.phase = .waiting ∧ v.inbox = [] ∧
      v.clock = w.clock ∧ v.sharedReadTimestamp = w.sharedReadTimestamp ∧
      v.websocket = handleMsg opts ⟨writes, w.clock, w.sharedReadTimestamp⟩ .timeout w.websocket := by
  obtain ⟨websocket, clock, shared, inbox, phase, waketime, log⟩ := w
  cases hp
  cases hinbox
  have hopen : ¬websocket.ended.isSome = true := Option.not_isSome_iff_eq_none.mpr hended
  refine ⟨World.finish opts ⟨websocket, clock, shared, [], .looked .timeout shared, waketime,
    log ++ [(clock, .timedOut)]⟩ .timeout shared writes, ?_, rfl, rfl, rfl, rfl, rfl⟩
  simp only [timeoutTurn, Reach.run, World.step, World.timeOut, if_neg hopen, true_and, if_pos hwake, Except.bind,
    World.record]

theorem Kept.pingsIdle (h : Kept opts w) (hended : w.websocket.ended = none) : PingsIdle opts w := by
  have hloop := h.loop hended
  constructor
  · intro seen writes w' hp hs hpings
    unfold World.step at hs
    dsimp only at hs
    rw [hp] at hs
    cases hs
    obtain ⟨written, hpre⟩ := hpings
    have hstate := timeout_ping_time (hloop.not_closed) hpre
    have hwake : w.waketime = seen + opts.pingFrequency := by
      cases hloop.waits with
      | inl hw => exact State.ping.inj (hw.symm.trans hstate)
      | inr hw => cases hw.symm.trans hstate
    exact hwake ▸ hloop.due (by rw [hp]; rfl)
  · intro t writes hp hinbox hstate hidle
    have hwake : t = w.waketime := by
      cases hloop.waits with
      | inl hw => exact State.ping.inj (hstate.symm.trans hw)
      | inr hw => cases hstate.symm.trans hw
    obtain ⟨hday, hle⟩ := hloop.ping t hstate
    have hnow : w.waketime ≤ w.clock := hwake ▸ Nat.le_trans hle hidle
    obtain ⟨v, hv, hphase, hbox, hclock, hshared, hwebsocket⟩ := @timeoutTurn_run opts w writes hp hended hinbox hnow
    by_cases ht : t = w.sharedReadTimestamp + opts.pingFrequency
    · refine .inl ⟨v, hv, ?_⟩
      unfold Pings
      rw [hwebsocket]
      exact timeout_pings (hstate.trans (congrArg State.ping ht))
    · -- the timestamp is later than it was for t, and the ping is put off to the right time
      right
      have hnext : v.websocket = ⟨.ping (w.sharedReadTimestamp + opts.pingFrequency), w.websocket.acts, none⟩ := by
        rw [hwebsocket]
        change handleCommonReply _ _ (handleTimeout _ _ w.websocket.state _) = _
        rw [hstate]
        unfold handleTimeout
        dsimp only
        split
        · rename_i hnext
          exact absurd hnext ht
        · rfl
      have hkept : Kept opts v := kept_run h hv
      have hended' : v.websocket.ended = none := by rw [hnext]
      have hnow' : v.waketime ≤ v.clock := by
        have hstate' : v.websocket.state = .ping (w.sharedReadTimestamp + opts.pingFrequency) := by rw [hnext]
        cases (hkept.loop hended').waits with
        | inl hw =>
          rw [← State.ping.inj (hstate'.symm.trans hw), hclock]
          exact hidle
        | inr hw => cases hstate'.symm.trans hw
      obtain ⟨v', hv', -, -, -, -, hwebsocket'⟩ := @timeoutTurn_run opts v writes hphase hended' hbox hnow'
      refine ⟨v', ?_, ?_⟩
      · exact Reach.run_trans (timeoutTurn writes) (timeoutTurn writes) hv hv'
      · have hstate' : v.websocket.state = .ping (v.sharedReadTimestamp + opts.pingFrequency) := by rw [hnext, hshared]
        have hacts : w.websocket.acts = v.websocket.acts := by rw [hnext]
        unfold Pings
        rw [hwebsocket', hacts]
        exact timeout_pings hstate'

end

/-- A websocket drops its peer only if the peer has been silent from a ping to its deadline. The loop
always waits for the time that its state has, and so an idle connection is pinged. -/
theorem live_peer_is_kept (opts : Options) {clock shared : Nat} {inbox : List Message} {as : List Action} {u : World}
    (hday : oneDay < shared) (hpast : shared ≤ clock) (hinbox : .timeout ∉ inbox)
    (hr : Reach.run (World.step opts) (World.start opts clock shared inbox) as = .ok u) :
    (∀ writes w, u.step opts (.finish writes) = .ok w → ClosedNoPong w.websocket → Silent opts u) ∧
      (u.websocket.ended = none → Waits u ∧ PingsIdle opts u) := by
  have hkept : Kept opts u := kept_run (kept_start hday hpast hinbox) hr
  exact ⟨fun writes w hs hclosed => hkept.silent hs hclosed,
    fun hended => ⟨(hkept.loop hended).waits, hkept.pingsIdle hended⟩⟩

/-- A peer that sends nothing. -/
def silentPeer : List Action :=
  [.tick 30] ++ timeoutTurn (fun _ => true) ++ [.tick 5, .timeOut, .look]

theorem live_peer_is_kept_silent : ∃ u w,
    Reach.run (World.step ⟨none, 30, 5⟩) (World.start ⟨none, 30, 5⟩ (oneDay + 1) (oneDay + 1) []) silentPeer = .ok u ∧
      u.step ⟨none, 30, 5⟩ (.finish fun _ => true) = .ok w ∧ ClosedNoPong w.websocket ∧
      Silent ⟨none, 30, 5⟩ u := by
  refine ⟨_, _, rfl, rfl, ⟨rfl, ?_⟩, ?_⟩
  · exact .tail _ (.tail _ (.tail _ (.head _)))
  · refine (@live_peer_is_kept ⟨none, 30, 5⟩ (oneDay + 1) (oneDay + 1) [] silentPeer _ (by decide) (Nat.le_refl _)
      (by simp) rfl).1 (fun _ => true) _ rfl ⟨rfl, ?_⟩
    exact .tail _ (.tail _ (.tail _ (.head _)))

end Swish.WebSocket.Established
