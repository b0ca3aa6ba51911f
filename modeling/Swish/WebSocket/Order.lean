import Swish.WebSocket.Shutdown
import Swish.Lib.Except

/-!
What the owner of a websocket is sent, and in which order. The websocket sends ws:init
and ws:closed, its reader sends ws:message, and the scheduler may switch between them
after every act. The reader is there before ws:init is sent, and may still be there
after ws:closed has been.
-/

set_option autoImplicit false

namespace Swish.WebSocket.Established

open Swish.Lib

/-- The messages to the owner. -/
inductive Notice where
  | init
  | message (kind : Kind) (payload : List UInt8)
  | closed (code : Nat) (reason : List UInt8)
  deriving DecidableEq

/-- What ws:read-loop forwards on the bytes that arrive, and how it ends. -/
structure Source where
  items : List Forwarded
  reason : Reason
  deriving DecidableEq

def endingReason : Ending → Reason
  | .closed => .normal
  | .thrown .messageLimitExceeded => .messageLimitExceeded
  | _ => .other 0

/-- The reader on a stream of bytes all of whose texts can be decoded. -/
def Source.ofBytes (fixnumWidth : Nat) (r : Requests) (messageLimit : Nat) (bytes : List UInt8) : Source :=
  let (items, ending) := wsReadLoop fixnumWidth (extract r) messageLimit bytes
  ⟨items, endingReason ending⟩

/-- The reader, with what it has still to forward. -/
inductive Reader where
  | unborn
  | alive (items : List Forwarded)
  | gone

structure System where
  websocket : Websocket
  /-- The acts that the websocket has not come to yet. -/
  todo : List Act
  reader : Reader
  inbox : List Message
  websocketAlive : Bool
  processAlive : Bool
  /-- What has been put in the inbox of the owner by these two. -/
  delivered : List Notice

inductive Move where
  /-- The websocket spawns the reader. -/
  | spawn
  /-- The websocket does the next of its acts. -/
  | act
  /-- The reader forwards something, or exits. -/
  | forward
  /-- A message comes from elsewhere. -/
  | arrive (msg : Message)
  | processDies (reason : Reason)
  | receive (env : Env)
  | expire (env : Env)
  /-- The websocket process exits. -/
  | die

namespace System

/-- (send process x). A process that is dead gets nothing. -/
def tell (s : System) (n : Notice) : System :=
  if s.processAlive then { s with delivered := s.delivered ++ [n] } else s

/-- (send me x). -/
def post (s : System) (msg : Message) : System :=
  if s.websocketAlive then { s with inbox := s.inbox ++ [msg] } else s

def perform (s : System) : Act → System
  | .init => s.tell .init
  | .closed code reason => s.tell (.closed code reason)
  | _ => s

/-- The loop of the server takes a message. -/
def take (opts : Options) (env : Env) (msg : Message) (s : System) : System :=
  let w := handleMsg opts env msg s.websocket
  { s with websocket := w, todo := w.acts.drop s.websocket.acts.length }

end System

/-- Messages that do not come from the reader. -/
def Message.isForeign : Message → Bool
  | .read _ => false
  | .readerExit _ => false
  | _ => true

def Reader.isUnborn : Reader → Bool
  | .unborn => true
  | _ => false

def forwardItem (source : Source) (s : System) : Except Unit System :=
  match s.reader with
  | .alive [] => .ok ({ s with reader := .gone }.post (.readerExit source.reason))
  | .alive (.message kind payload :: items) => .ok ({ s with reader := .alive items }.tell (.message kind payload))
  | .alive (item :: items) => .ok ({ s with reader := .alive items }.post (.read item))
  | _ => .error ()

/-- A process that exits takes its links with it, unless the reason is normal. -/
def exitLinks (reason : Reason) (r : Reader) : Reader :=
  if reason = .normal then r else .gone

def move (opts : Options) (source : Source) (s : System) (m : Move) : Except Unit System :=
  match m with
  | .spawn => if s.reader.isUnborn then .ok { s with reader := .alive source.items } else .error ()
  | .act =>
    match s.todo with
    | a :: rest => if s.reader.isUnborn then .error () else .ok ({ s with todo := rest }.perform a)
    | [] => .error ()
  | .forward => forwardItem source s
  | .arrive msg => if msg.isForeign then .ok (s.post msg) else .error ()
  | .processDies reason =>
    if s.processAlive then .ok ({ s with processAlive := false }.post (.processDown reason)) else .error ()
  | .receive env =>
    if s.todo.isEmpty && s.websocket.ended.isNone then
      match s.inbox with
      | msg :: rest => .ok ({ s with inbox := rest }.take opts env msg)
      | [] => .error ()
    else .error ()
  | .expire env =>
    if s.todo.isEmpty && s.websocket.ended.isNone && s.inbox.isEmpty then .ok (s.take opts env .timeout)
    else .error ()
  | .die =>
    match s.websocket.ended with
    | some reason =>
      if s.todo.isEmpty && s.websocketAlive then
        .ok { s with websocketAlive := false, reader := exitLinks reason s.reader }
      else .error ()
    | none => .error ()

/-- ws:established just before it spawns the reader. -/
def start (waketime : Nat) : System where
  websocket := enterLoop waketime
  todo := [.init]
  reader := .unborn
  inbox := []
  websocketAlive := true
  processAlive := true
  delivered := []

def moves (opts : Options) (source : Source) (waketime : Nat) (ms : List Move) : Except Unit System :=
  Reach.run (move opts source) (start waketime) ms

def Notice.isClosed : Notice → Bool
  | .closed _ _ => true
  | _ => false

/-- ws:init comes before every ws:message, and ws:closed before none. -/
def InOrder (ns : List Notice) : Prop :=
  ∀ before kind payload after, ns = before ++ .message kind payload :: after →
    .init ∈ before ∧ ∀ n ∈ before, n.isClosed = false

/-- The websocket is past on-init and has not come to on-close. -/
def System.isOpen (s : System) : Bool :=
  !s.todo.contains .init && (s.websocket.ended.isNone || s.todo.any Act.isClosed)

/-- The reader is about to send a message to the owner. -/
def System.readerSends (s : System) : Bool :=
  match s.reader with
  | .alive (.message _ _ :: _) => s.processAlive
  | _ => false

/-- The reader sends messages only while the websocket is between on-init and on-close. -/
def Timely (s : System) (m : Move) : Prop :=
  match m with
  | .forward => s.readerSends = true → s.isOpen = true
  | _ => True

section

variable {opts : Options} {source : Source} {s t : System}

/-- The messages to the owner among the acts. -/
def Act.notice : Act → Option Notice
  | .init => some .init
  | .closed code reason => some (.closed code reason)
  | _ => none

def Notice.isMessage : Notice → Bool
  | .message _ _ => true
  | _ => false

/-- The owner has been sent what the websocket has come to. -/
structure Linked (s : System) : Prop where
  turn : Turn [.init] s.websocket
  done : ∃ done, s.websocket.acts = done ++ s.todo ∧
    (s.processAlive = true → (s.delivered.filter fun n => !n.isMessage) = done.filterMap Act.notice)

theorem acts_count_init {w : Websocket} (h : Turn [.init] w) : w.acts.count .init = 1 := by
  have hopens : ∀ new : List Act, (∀ a ∈ new, a.isOpen = true) → new.count .init = 0 := by
    intro new hnew
    refine countP_opens hnew fun a ho => ?_
    cases a <;> simp_all [Act.isOpen]
  cases he : w.ended with
  | none =>
    obtain ⟨-, new, ha, hnew⟩ := h.goes he
    rw [ha]
    simp [hopens new hnew]
  | some reason =>
    obtain ⟨acts₁, written, code, text, ⟨new, rfl, hnew⟩, ha⟩ := h.ends (by simp [he])
    rw [ha]
    simp [closing, hopens new hnew]

theorem acts_countP_closed {w : Websocket} (h : Turn [.init] w) :
    w.acts.countP Act.isClosed = if w.ended.isNone then 0 else 1 := by
  have hopens : ∀ new : List Act, (∀ a ∈ new, a.isOpen = true) → new.countP Act.isClosed = 0 := by
    intro new hnew
    refine countP_opens hnew fun a ho => ?_
    cases a <;> simp_all [Act.isOpen, Act.isClosed]
  cases he : w.ended with
  | none =>
    obtain ⟨-, new, ha, hnew⟩ := h.goes he
    rw [ha]
    simp [hopens new hnew, Act.isClosed]
  | some reason =>
    obtain ⟨acts₁, written, code, text, ⟨new, rfl, hnew⟩, ha⟩ := h.ends (by simp [he])
    rw [ha]
    simp [closing, hopens new hnew, List.countP_cons, Act.isClosed]

theorem mem_notices {done : List Act} {n : Notice} {a : Act} (ha : a.notice = some n)
    (hinj : ∀ a', a'.notice = some n → a' = a) : n ∈ done.filterMap Act.notice ↔ a ∈ done := by
  rw [List.mem_filterMap]
  constructor
  · intro h
    obtain ⟨a', h1, h2⟩ := h
    rw [← hinj a' h2]
    exact h1
  · exact fun h => ⟨a, h, ha⟩

theorem Linked.init_mem (h : Linked s) (hp : s.processAlive = true) :
    .init ∈ s.delivered ↔ .init ∉ s.todo := by
  obtain ⟨done, hacts, hdone⟩ := h.done
  have hcount := acts_count_init h.turn
  rw [hacts, List.count_append] at hcount
  have hmem : .init ∈ s.delivered ↔ .init ∈ done := by
    rw [← @mem_notices done .init .init rfl (fun a' h' => by cases a' <;> simp_all [Act.notice]), ← hdone hp]
    simp [Notice.isMessage]
  rw [hmem, ← List.count_pos_iff, ← List.count_pos_iff]
  omega

theorem Linked.closed_mem (h : Linked s) (hp : s.processAlive = true) :
    (∃ n ∈ s.delivered, n.isClosed = true) ↔ s.websocket.ended.isNone = false ∧ s.todo.any Act.isClosed = false := by
  obtain ⟨done, hacts, hdone⟩ := h.done
  have hcount := acts_countP_closed h.turn
  rw [hacts, List.countP_append] at hcount
  have hmem : (∃ n ∈ s.delivered, n.isClosed = true) ↔ 0 < done.countP Act.isClosed := by
    rw [List.countP_pos_iff]
    constructor
    · intro h1
      obtain ⟨n, hn, hc⟩ := h1
      have hn' : n ∈ s.delivered.filter fun n => !n.isMessage := by
        refine List.mem_filter.mpr ⟨hn, ?_⟩
        cases n <;> simp_all [Notice.isClosed, Notice.isMessage]
      rw [hdone hp] at hn'
      obtain ⟨a, ha, han⟩ := List.mem_filterMap.mp hn'
      refine ⟨a, ha, ?_⟩
      cases a <;> simp_all [Act.notice, Act.isClosed]
      rw [← han] at hc
      cases hc
    · intro h1
      obtain ⟨a, ha, hc⟩ := h1
      cases a with
      | closed code reason =>
        have hn : .closed code reason ∈ done.filterMap Act.notice := List.mem_filterMap.mpr ⟨_, ha, rfl⟩
        rw [← hdone hp] at hn
        exact ⟨_, (List.mem_filter.mp hn).1, rfl⟩
      | init => cases hc
      | frame opcode written => cases hc
      | closePorts => cases hc
  have htodo : s.todo.any Act.isClosed = false ↔ s.todo.countP Act.isClosed = 0 := by
    rw [List.countP_eq_zero, List.any_eq_false]
  rw [hmem, htodo]
  cases hn : s.websocket.ended.isNone with
  | true =>
    rw [hn] at hcount
    simp only [if_true] at hcount
    simp only [Bool.true_eq_false, false_and, iff_false]
    omega
  | false =>
    rw [hn] at hcount
    simp only [Bool.false_eq_true, if_false] at hcount
    simp only [true_and]
    omega

/-- For the owner the two sends are what counts. -/
theorem Linked.isOpen_iff (h : Linked s) (hp : s.processAlive = true) :
    s.isOpen = true ↔ .init ∈ s.delivered ∧ ∀ n ∈ s.delivered, n.isClosed = false := by
  have hclosed : (∀ n ∈ s.delivered, n.isClosed = false) ↔ ¬ ∃ n ∈ s.delivered, n.isClosed = true := by
    simp
  rw [hclosed, h.init_mem hp, h.closed_mem hp]
  unfold System.isOpen
  cases hn : s.websocket.ended.isNone <;> cases hc : s.todo.any Act.isClosed <;>
    by_cases hi : Act.init ∈ s.todo <;> simp [hi]

theorem inOrder_message {ns : List Notice} (kind : Kind) (payload : List UInt8) :
    InOrder (ns ++ [.message kind payload]) ↔ InOrder ns ∧ .init ∈ ns ∧ ∀ n ∈ ns, n.isClosed = false := by
  constructor
  · intro h
    refine ⟨fun before k p after he => h before k p (after ++ [.message kind payload]) (by simp [he]), ?_⟩
    exact h ns kind payload [] rfl
  · intro h before k p after he
    rcases List.eq_nil_or_concat after with rfl | ⟨after', n, rfl⟩
    · obtain ⟨rfl, -⟩ := List.append_inj' he rfl
      exact h.2
    · rw [List.concat_eq_append] at he
      have he' : ns ++ [.message kind payload] = (before ++ .message k p :: after') ++ [n] := by simp [he]
      obtain ⟨rfl, -⟩ := List.append_inj' he' rfl
      exact h.1 before k p after' rfl

theorem inOrder_other {ns : List Notice} {n : Notice} (hn : n.isMessage = false) :
    InOrder (ns ++ [n]) ↔ InOrder ns := by
  constructor
  · intro h before k p after he
    exact h before k p (after ++ [n]) (by simp [he])
  · intro h before k p after he
    rcases List.eq_nil_or_concat after with rfl | ⟨after', n', rfl⟩
    · obtain ⟨-, hlast⟩ := List.append_inj' he rfl
      cases hlast
      cases hn
    · rw [List.concat_eq_append] at he
      have he' : ns ++ [n] = (before ++ .message k p :: after') ++ [n'] := by simp [he]
      obtain ⟨rfl, -⟩ := List.append_inj' he' rfl
      exact h before k p after' rfl

/-- The effect of a move on what the theorems are about: the websocket takes a
message, comes to an act, or stays; the owner is sent something, or not. -/
inductive Effect (m : Move) (s t : System) : Prop where
  /-- Nothing changes, except that the owner may have died. -/
  | none (hw : t.websocket = s.websocket) (htodo : t.todo = s.todo) (hd : t.delivered = s.delivered)
      (hp : t.processAlive = true → s.processAlive = true)
  | sends (kind : Kind) (payload : List UInt8) (hm : m = .forward) (hw : t.websocket = s.websocket)
      (htodo : t.todo = s.todo) (hp : t.processAlive = s.processAlive)
      (hd : t.delivered = s.delivered ++ [.message kind payload])
  | acts (a : Act) (hw : t.websocket = s.websocket) (htodo : s.todo = a :: t.todo)
      (hp : t.processAlive = s.processAlive)
      (hd : t.delivered = if s.processAlive then s.delivered ++ a.notice.toList else s.delivered)
  | takes (env : Env) (msg : Message) (htodo : s.todo = []) (he : s.websocket.ended = .none)
      (hw : t.websocket = handleMsg opts env msg s.websocket)
      (ht : t.todo = t.websocket.acts.drop s.websocket.acts.length)
      (hp : t.processAlive = s.processAlive) (hd : t.delivered = s.delivered)

theorem post_none {m : Move} {u : System} (msg : Message) (hw : u.websocket = s.websocket) (htodo : u.todo = s.todo)
    (hd : u.delivered = s.delivered) (hp : u.processAlive = true → s.processAlive = true) :
    @Effect opts m s (u.post msg) := by
  unfold System.post
  split
  · exact .none hw htodo hd hp
  · exact .none hw htodo hd hp

theorem perform_effect {a : Act} {rest : List Act} (h : s.todo = a :: rest) :
    @Effect opts .act s ({ s with todo := rest }.perform a) := by
  cases a with
  | init =>
    refine .acts .init ?_ ?_ ?_ ?_
    all_goals
      simp only [System.perform, System.tell, Act.notice, Option.toList]
      split <;> simp [h]
  | closed code reason =>
    refine .acts (.closed code reason) ?_ ?_ ?_ ?_
    all_goals
      simp only [System.perform, System.tell, Act.notice, Option.toList]
      split <;> simp [h]
  | frame opcode written => exact .acts (.frame opcode written) rfl h rfl (by simp [System.perform, Act.notice])
  | closePorts => exact .acts .closePorts rfl h rfl (by simp [System.perform, Act.notice])

theorem post_delivered (u : System) (msg : Message) : (u.post msg).delivered = u.delivered := by
  unfold System.post
  split <;> rfl

/-- The reader sends a message just if it was about to. -/
theorem forwardItem_delivered (h : forwardItem source s = .ok t) :
    if s.readerSends then ∃ kind payload, t.delivered = s.delivered ++ [.message kind payload]
    else t.delivered = s.delivered := by
  unfold forwardItem at h
  unfold System.readerSends
  cases hr : s.reader with
  | unborn =>
    rw [hr] at h
    cases h
  | gone =>
    rw [hr] at h
    cases h
  | alive items =>
    rw [hr] at h
    cases items with
    | nil =>
      cases h
      exact post_delivered _ _
    | cons item items =>
      cases item with
      | message kind payload =>
        cases h
        unfold System.tell
        dsimp only
        cases hp : s.processAlive with
        | true => exact ⟨kind, payload, rfl⟩
        | false => rfl
      | close | closeWith code reason | ping payload | pong payload =>
        cases h
        exact post_delivered _ _

theorem forwardItem_effect (h : forwardItem source s = .ok t) : @Effect opts .forward s t := by
  unfold forwardItem at h
  cases hr : s.reader with
  | unborn =>
    rw [hr] at h
    cases h
  | gone =>
    rw [hr] at h
    cases h
  | alive items =>
    rw [hr] at h
    cases items with
    | nil =>
      cases h
      exact post_none _ rfl rfl rfl id
    | cons item items =>
      cases item with
      | message kind payload =>
        cases h
        unfold System.tell
        dsimp only
        cases hp : s.processAlive with
        | true => exact .sends kind payload rfl rfl rfl hp.symm rfl
        | false => exact .none rfl rfl rfl (by simp [hp])
      | close | closeWith code reason | ping payload | pong payload =>
        cases h
        exact post_none _ rfl rfl rfl id

theorem move_effect {m : Move} (h : move opts source s m = .ok t) :
    @Effect opts m s t := by
  cases m with
  | spawn =>
    simp only [move] at h
    split at h
    · cases h
      exact .none rfl rfl rfl id
    · cases h
  | act =>
    simp only [move] at h
    cases htodo : s.todo with
    | nil =>
      rw [htodo] at h
      cases h
    | cons a rest =>
      rw [htodo] at h
      dsimp only at h
      split at h
      · cases h
      · cases h
        exact perform_effect htodo
  | forward => exact forwardItem_effect h
  | arrive msg =>
    simp only [move] at h
    split at h
    · cases h
      exact post_none msg rfl rfl rfl id
    · cases h
  | processDies reason =>
    simp only [move] at h
    split at h
    · cases h
      exact post_none _ rfl rfl rfl (fun h => by cases h)
    · cases h
  | receive env =>
    simp only [move] at h
    split at h
    · next hc =>
      rw [Bool.and_eq_true_iff, List.isEmpty_iff, Option.isNone_iff_eq_none] at hc
      cases hi : s.inbox with
      | nil =>
        rw [hi] at h
        cases h
      | cons msg rest =>
        rw [hi] at h
        cases h
        exact .takes env msg hc.1 hc.2 rfl rfl rfl rfl
    · cases h
  | expire env =>
    simp only [move] at h
    split at h
    · next hc =>
      rw [Bool.and_eq_true_iff, Bool.and_eq_true_iff, List.isEmpty_iff, Option.isNone_iff_eq_none] at hc
      cases h
      exact .takes env .timeout hc.1.1 hc.1.2 rfl rfl rfl rfl
    · cases h
  | die =>
    simp only [move] at h
    cases he : s.websocket.ended with
    | none =>
      rw [he] at h
      cases h
    | some reason =>
      rw [he] at h
      dsimp only at h
      split at h
      · cases h
        exact .none rfl rfl rfl id
      · cases h

/-- The acts of a turn come after those before it. -/
theorem Turn.acts_eq {acts : List Act} {w : Websocket} (h : Turn acts w) :
    w.acts = acts ++ w.acts.drop acts.length := by
  have hnew : ∃ new, w.acts = acts ++ new := by
    cases he : w.ended with
    | none =>
      obtain ⟨-, new, ha, -⟩ := h.goes he
      exact ⟨new, ha⟩
    | some reason =>
      obtain ⟨acts₁, written, code, text, ⟨new, rfl, -⟩, ha⟩ := h.ends (by simp [he])
      exact ⟨new ++ closing written code text, by rw [ha, List.append_assoc]⟩
  obtain ⟨new, ha⟩ := hnew
  rw [ha, List.drop_left]

theorem linked_move {m : Move} (hi : Linked s) (h : move opts source s m = .ok t) : Linked t := by
  obtain ⟨done, hacts, hdone⟩ := hi.done
  cases move_effect h with
  | none hw htodo hd hp =>
    refine ⟨by rw [hw]; exact hi.turn, done, by rw [hw, htodo, hacts], fun halive => ?_⟩
    rw [hd]
    exact hdone (hp halive)
  | sends kind payload hm hw htodo hp hd =>
    refine ⟨by rw [hw]; exact hi.turn, done, by rw [hw, htodo, hacts], fun halive => ?_⟩
    rw [hd, List.filter_append, hdone (hp ▸ halive)]
    simp [Notice.isMessage]
  | acts a hw htodo hp hd =>
    refine ⟨by rw [hw]; exact hi.turn, done ++ [a], by rw [hw, hacts, htodo]; simp, fun halive => ?_⟩
    rw [hp] at halive
    rw [hd, if_pos halive, List.filter_append, List.filterMap_append, hdone halive]
    cases a <;> rfl
  | takes env msg htodo he hw ht hp hd =>
    obtain ⟨hstate, hopens⟩ := hi.turn.goes he
    have hturn := @handleMsg_turn opts env msg s.websocket he hstate
    rw [← hw] at hturn
    refine ⟨.trans hopens hturn, done, ?_, fun halive => ?_⟩
    · rw [ht, hturn.acts_eq, hacts, htodo]
      simp
    · rw [hd]
      exact hdone (hp ▸ halive)

/-- One move keeps the order just if it is timely. -/
theorem inOrder_move {m : Move} (hi : Linked s) (h : move opts source s m = .ok t) :
    InOrder t.delivered ↔ InOrder s.delivered ∧ Timely s m := by
  by_cases hm : m = .forward
  · subst hm
    have hsends := forwardItem_delivered h
    cases hr : s.readerSends with
    | false =>
      rw [hr] at hsends
      have hd : t.delivered = s.delivered := hsends
      rw [hd, Timely, hr]
      simp
    | true =>
      rw [hr] at hsends
      obtain ⟨kind, payload, hd⟩ := hsends
      have hp : s.processAlive = true := by
        unfold System.readerSends at hr
        split at hr
        · exact hr
        · cases hr
      rw [hd, inOrder_message, Timely, hi.isOpen_iff hp]
      simp [hr]
  · have htimely : Timely s m := by
      cases m with
      | forward => exact absurd rfl hm
      | spawn | act | arrive msg | processDies reason | receive env | expire env | die => trivial
    rw [and_iff_left htimely]
    cases move_effect h with
    | none hw htodo hd hp => rw [hd]
    | sends kind payload hforward hw htodo hp hd => exact absurd hforward hm
    | acts a hw htodo hp hd =>
      rw [hd]
      split
      · cases a with
        | init => exact inOrder_other rfl
        | closed code reason => exact inOrder_other rfl
        | frame opcode written => simp [Act.notice]
        | closePorts => simp [Act.notice]
      · rfl
    | takes env msg htodo he hw ht hp hd => rw [hd]

theorem linked_start (waketime : Nat) : Linked (start waketime) :=
  ⟨⟨fun _ => ⟨rfl, .refl _⟩, fun he => absurd rfl he⟩, [], rfl, fun _ => rfl⟩

/-- The order holds after a run just if it holds before and every move is timely. -/
theorem inOrder_run (ms : List Move) (hi : Linked s) (h : Reach.run (move opts source) s ms = .ok t) :
    InOrder t.delivered ↔ InOrder s.delivered ∧ Reach.Along (move opts source) Timely s ms := by
  induction ms generalizing s with
  | nil =>
    cases h
    simp [Reach.Along]
  | cons m ms ih =>
    rw [Reach.run] at h
    obtain ⟨u, hs, h⟩ := Lib.bind_ok h
    rw [ih (linked_move hi hs) h, inOrder_move hi hs, Reach.Along, hs, and_assoc]

end

/-- The owner is sent ws:init before every ws:message, and no ws:message after
ws:closed, just if the reader sends messages only between on-init and on-close. -/
theorem owner_sees_order (opts : Options) (source : Source) (waketime : Nat) (ms : List Move) (s : System)
    (h : moves opts source waketime ms = .ok s) :
    InOrder s.delivered ↔ Reach.Along (move opts source) Timely (start waketime) ms := by
  rw [inOrder_run ms (linked_start waketime) h, and_iff_right]
  intro before kind payload after he
  cases before <;> cases he

/-- A text message that the scheduler lets through after ws:init and before the close. -/
def oneText : Source := ⟨[.message .text [104, 105]], .normal⟩

def politeMoves : List Move := [.spawn, .act, .forward, .arrive (.cast .close), .receive ⟨fun _ => true, 0, 0⟩, .act, .act]

theorem owner_sees_order_polite : ∃ s, moves ⟨none, 30, 5⟩ oneText 30 politeMoves = .ok s ∧
    s.delivered = [.init, .message .text [104, 105], .closed 1000 []] ∧
    (InOrder s.delivered ↔ Reach.Along (move ⟨none, 30, 5⟩ oneText) Timely (start 30) politeMoves) :=
  ⟨_, rfl, rfl, owner_sees_order ⟨none, 30, 5⟩ oneText 30 politeMoves _ rfl⟩

/-- The unmasked frame of an empty text message. -/
def emptyText : List UInt8 := [129, 0]

theorem message_outside_session :
    (∃ ms s, moves ⟨none, 30, 5⟩ (.ofBytes 61 wholeBuffers 10 emptyText) 30 ms = .ok s ∧
      s.delivered = [.message .text [], .init]) ∧
    (∃ ms s, moves ⟨none, 30, 5⟩ (.ofBytes 61 wholeBuffers 10 emptyText) 30 ms = .ok s ∧
      s.delivered = [.init, .closed 1000 [], .message .text []]) ∧
    ¬ ∀ (ms : List Move) (s : System),
      moves ⟨none, 30, 5⟩ (.ofBytes 61 wholeBuffers 10 emptyText) 30 ms = .ok s → InOrder s.delivered := by
  have hsource : Source.ofBytes 61 wholeBuffers 10 emptyText = ⟨[.message .text []], .other 0⟩ := by decide
  rw [hsource]
  refine ⟨⟨[.spawn, .forward, .act], _, rfl, rfl⟩,
    ⟨[.spawn, .act, .arrive (.cast .close), .receive ⟨fun _ => true, 0, 0⟩, .act, .act, .forward], _, rfl, rfl⟩,
    fun h => ?_⟩
  have horder := h [.spawn, .forward, .act] _ rfl
  exact absurd (horder [] .text [] [.init] rfl).1 (by decide)

end Swish.WebSocket.Established
