import Swish.Erlang.Script

/-!
gen-server:call as a script. The tag of a request is the monitor that the call
makes, so that a reply or a DOWN message belongs to one call.
-/

set_option autoImplicit false

namespace Swish.GenServer
open Erlang Lib

/-- How the numbers that stand for messages are built and read. -/
structure Wire where
  /-- `#($gen-call #(,client ,m) ,request). -/
  genCall : Nat → Mon → Nat → Nat
  /-- The pattern #(,m ,reply), the message that gen-server:reply sends for the
  token #(,client ,m). -/
  untag : Nat → Option (Mon × Nat)
  /-- The pattern `(catch ,_ ,_). -/
  isCatch : Nat → Bool

/-- How a call ends. -/
inductive Outcome where
  | returned (reply : Nat)
  | raised (reply : Nat)
  | timeout
  | exited (err : RawReason)
  | noProcess

/-- The monitor of the call, for the specification, and how it ended. -/
abbrev CallEnd := Option Mon × Outcome

/-- The pattern #(,@m ,reply). -/
def Wire.replyOf (w : Wire) (m : Mon) : Contents → Option Nat
  | .user d =>
    match w.untag d with
    | some (n, v) => if n = m then some v else none
    | none => none
  | _ => none

def awaitReply (w : Wire) (m : Mon) (timeout : Option Nat) : Script CallEnd :=
  .receive timeout (fun x => (w.replyOf m x).isSome || x.isDown m)
    (fun x =>
      match w.replyOf m x with
      | some v => .flush m (.done (some m, if w.isCatch v then .raised v else .returned v))
      | none => .done (some m, .exited x.err))
    (.flush m (.done (some m, .timeout)))

/-- do-call once the server is known. Debug reports are left out. -/
def doCall (w : Wire) (client pid request : Nat) (timeout : Option Nat) : Script CallEnd :=
  .monitor pid fun m => .send pid (w.genCall client m request) (awaitReply w m timeout)

inductive Server where
  | pid (p : Nat)
  | name (n : Nat)

def Server.resolve (s : State) : Server → Option Nat
  | .pid p => some p
  | .name n => s.whereis n

/-- gen-server:call by the process that runs in s. -/
def call (w : Wire) (s : State) (server : Server) (request : Nat) (timeout : Option Nat) :
    Script CallEnd :=
  match server.resolve s with
  | some p => doCall w s.self p request timeout
  | none => .done (none, .noProcess)

variable {w : Wire} {s₀ s t : State} {a : Action} {m : Mon} {o : Outcome} {k : Nat}

/-- A reply with the value v for the token of the call m was sent to its client. -/
def Replied (w : Wire) (s : State) (m : Mon) (v : Nat) : Prop :=
  ∃ k d, Event.insert m.origin k ∈ s.log ∧ s.contents k = .user d ∧ w.untag d = some (m, v)

/-- What stands behind the outcome of the call m. -/
def Legit (w : Wire) (s : State) (m : Mon) : Outcome → Prop
  | .returned v => Replied w s m v ∧ w.isCatch v = false
  | .raised v => Replied w s m v ∧ w.isCatch v = true
  | .timeout => True
  | .exited err => s.Gone m.target ∧ s.exitReason m.target = err
  | .noProcess => False

/-- The client made the monitor of its server during the call. -/
structure Made (s₀ s : State) (pid : Nat) (m : Mon) : Prop where
  made : Event.monitor m ∈ s.log
  fresh : Event.monitor m ∉ s₀.log
  origin : m.origin = s₀.self
  target : m.target = pid

/-- demonitor&flush has returned for m, or its DOWN message has been taken. -/
def Settled (s : State) (m : Mon) : Prop :=
  Event.flushed m ∈ s.log ∨
    ∃ k c, Event.consume k c true ∈ s.log ∧ k < s.nextMsg ∧ (s.contents k).isDown m = true

theorem replied_step (h : Reachable s) (hs : s.step a = .ok t) {v : Nat} (hr : Replied w s m v) :
    Replied w t m v := by
  obtain ⟨k, d, h1, h2, h3⟩ := hr
  obtain ⟨⟨box, hbox⟩, _⟩ := h.mail
  have hm := h.mailing hs
  exact ⟨k, d, hm.log _ h1, by rw [hm.contents k (hbox.boxes.bound _ _ h1).1, h2], h3⟩

theorem legit_step (h : Reachable s) (hs : s.step a = .ok t) (hl : Legit w s m o) : Legit w t m o := by
  cases o with
  | returned v => exact ⟨replied_step h hs hl.1, hl.2⟩
  | raised v => exact ⟨replied_step h hs hl.1, hl.2⟩
  | timeout => trivial
  | exited err =>
    have hm := h.mailing hs
    exact ⟨hm.dead hl.1, (hm.gone _ hl.1).2.trans hl.2⟩
  | noProcess => exact hl

theorem settled_step (h : Reachable s) (hs : s.step a = .ok t) (he : Settled s m) : Settled t m := by
  have hm := h.mailing hs
  rcases he with he | ⟨k, c, h1, h2, h3⟩
  · exact .inl (hm.log _ he)
  · exact .inr ⟨k, c, hm.log _ h1, Nat.lt_of_lt_of_le h2 hm.next, by rw [hm.contents k h2]; exact h3⟩

/-- No DOWN message for the monitor of a call that is over. -/
theorem Settled.no_down (he : Settled s m) (h : Reachable s) (ha : s.alive m.origin = true)
    (hk : k ∈ s.inbox m.origin) : (s.contents k).isDown m = false := by
  rcases he with he | ⟨i, c, h1, h2, h3⟩
  · exact (h.watch.watch.flush.flushed m he).2 ha k hk
  · cases hd : (s.contents k).isDown m with
    | false => rfl
    | true =>
      obtain ⟨⟨box, hbox⟩, _⟩ := h.mail
      rw [inbox_eq hbox.boxes ha] at hk
      have hins := hbox.boxes.inserted _ k hk
      -- there is only one DOWN message, and it is the one that was taken
      have hik : k = i :=
        downs_unique h.watch.watch.mon (hbox.boxes.bound _ k hins).1 h2 hd h3
      subst hik
      obtain ⟨q, hq, hno⟩ := hbox.boxes.once k c h1
      rw [hbox.boxes.owner q m.origin k hq hins] at hno
      exact absurd hk hno

/-- The points of a call. -/
inductive CallPoint (w : Wire) (s₀ : State) (pid request : Nat) (timeout : Option Nat) (s : State) :
    Script CallEnd → Option Receive → Prop where
  | start (fr : Option Receive) : CallPoint w s₀ pid request timeout s (doCall w s₀.self pid request timeout) fr
  | send (m : Mon) (fr : Option Receive) (hm : Made s₀ s pid m) : CallPoint w s₀ pid request timeout s
      (.send pid (w.genCall s₀.self m request) (awaitReply w m timeout)) fr
  | await (m : Mon) (fr : Option Receive) (hm : Made s₀ s pid m) :
      CallPoint w s₀ pid request timeout s (awaitReply w m timeout) fr
  | flush (m : Mon) (o : Outcome) (fr : Option Receive) (hm : Made s₀ s pid m) (ho : Legit w s m o)
      (hr : ∀ r, fr = some r → r.matcher = .down m) :
      CallPoint w s₀ pid request timeout s (.flush m (.done (some m, o))) fr
  | done (m : Mon) (o : Outcome) (fr : Option Receive) (hm : Made s₀ s pid m) (ho : Legit w s m o)
      (he : Settled s m) : CallPoint w s₀ pid request timeout s (.done (some m, o)) fr

/-- In addition the history has only grown. -/
def CallOutline (w : Wire) (s₀ : State) (pid request : Nat) (timeout : Option Nat)
    (code : Script CallEnd) (fr : Option Receive) (s : State) : Prop :=
  (∀ e ∈ s₀.log, e ∈ s.log) ∧ CallPoint w s₀ pid request timeout s code fr

theorem made_step {pid : Nat} (h : Reachable s) (hs : s.step a = .ok t) (hm : Made s₀ s pid m) : Made s₀ t pid m :=
  ⟨(h.mailing hs).log _ hm.made, hm.fresh, hm.origin, hm.target⟩

/-- The monitor of a call is none that was made before. -/
theorem monitor_made {pid : Nat} (h : Reachable s) (hp : s.isPcb pid = true)
    (hs : s.step (.monitor pid) = .ok t) (hself : s.self = s₀.self) (hpast : ∀ e ∈ s₀.log, e ∈ s.log) :
    Made s₀ t pid (s.monitor pid).2 := by
  have hm : (s.monitor pid).2 = ⟨s.nextMon, s.self, pid⟩ := by
    unfold State.monitor
    dsimp only
    split <;> rfl
  rw [hm]
  refine ⟨?_, fun hold => ?_, hself, rfl⟩
  · simp only [State.step, State.userStep, hp, if_true] at hs
    split at hs
    · cases hs
      unfold State.monitor
      dsimp only
      split
      · exact List.mem_cons_self
      · exact (Mailing.send (E := fun _ _ => True) (x := 0) s.self (.inr trivial)).log _ List.mem_cons_self
    · cases hs
  · have := (h.watch.watch.mon.made _ (hpast _ hold)).1
    exact absurd this (Nat.lt_irrefl _)

theorem CallPoint.step {pid request : Nat} {timeout : Option Nat} {code : Script CallEnd}
    {fr : Option Receive} (h : Reachable s) (hs : s.step a = .ok t)
    (hp : CallPoint w s₀ pid request timeout s code fr) : CallPoint w s₀ pid request timeout t code fr := by
  cases hp with
  | start => exact .start fr
  | send m _ hm => exact .send m fr (made_step h hs hm)
  | await m _ hm => exact .await m fr (made_step h hs hm)
  | flush m o _ hm ho hr => exact .flush m o fr (made_step h hs hm) (legit_step h hs ho) hr
  | done m o _ hm ho he => exact .done m o fr (made_step h hs hm) (legit_step h hs ho) (settled_step h hs he)

theorem CallPoint.reframe {pid request : Nat} {timeout : Option Nat} {code : Script CallEnd}
    {fr fr' : Option Receive} (hp : CallPoint w s₀ pid request timeout s code fr)
    (hr : ∀ r', fr' = some r' → ∀ m, (∃ o, code = .flush m (.done (some m, o))) →
      (∀ r, fr = some r → r.matcher = .down m) → r'.matcher = .down m) :
    CallPoint w s₀ pid request timeout s code fr' := by
  cases hp with
  | start => exact .start fr'
  | send m _ hm => exact .send m fr' hm
  | await m _ hm => exact .await m fr' hm
  | flush m o _ hm ho h1 => exact .flush m o fr' hm ho fun r' h2 => hr r' h2 m ⟨o, rfl⟩ h1
  | done m o _ hm ho he => exact .done m o fr' hm ho he

/-- What the clauses of the $receive in do-call lead to. -/
theorem CallPoint.accept {pid request : Nat} {timeout : Option Nat} {r : Receive} (h : Reachable s)
    (hs : s.step (.matcher true) = .ok t) (hmem : Frame.receive r ∈ (s.pcb s₀.self).stack)
    (hk : r.cursor = .msg k) (hcons : ∃ c, Event.consume k c true ∈ t.log) (hm : Made s₀ s pid m)
    (hacc : ((w.replyOf m (s.contents k)).isSome || (s.contents k).isDown m) = true) :
    CallPoint w s₀ pid request timeout t
      (match w.replyOf m (s.contents k) with
        | some v => .flush m (.done (some m, if w.isCatch v then .raised v else .returned v))
        | none => .done (some m, .exited (s.contents k).err)) none := by
  obtain ⟨⟨box, hbox⟩, _⟩ := h.mail
  have hins : Event.insert m.origin k ∈ s.log := by
    rw [hm.origin]
    exact hbox.cursor_inserted hmem hk
  have hm' := made_step h hs hm
  cases hc : s.contents k with
  | user d =>
    rw [hc] at hacc
    simp only [Wire.replyOf, Contents.isDown, Bool.or_false] at hacc ⊢
    cases hd : w.untag d with
    | none => simp [hd] at hacc
    | some nv =>
      obtain ⟨n, v⟩ := nv
      by_cases hn : n = m
      · subst hn
        have hrep := replied_step h hs (w := w) (v := v) ⟨k, d, hins, hc, hd⟩
        simp only [if_true]
        refine .flush n _ none hm' ?_ fun r h1 => (by cases h1)
        cases hcatch : w.isCatch v with
        | true => exact ⟨hrep, hcatch⟩
        | false => exact ⟨hrep, hcatch⟩
      · simp [hd, hn] at hacc
  | down n q raw =>
    rw [hc] at hacc
    have hn : n = m := by simpa [Wire.replyOf, Contents.isDown] using hacc
    subst hn
    obtain ⟨hq, hg, hr⟩ := h.down_truthful hins hc
    subst hq
    have hlt := (hbox.boxes.bound _ _ hins).1
    obtain ⟨c, hc'⟩ := hcons
    have hl : Legit w s n (.exited raw) := ⟨hg, hr⟩
    refine .done n (.exited raw) none hm' (legit_step h hs hl) (.inr ⟨k, c, hc', ?_, ?_⟩)
    · exact Nat.lt_of_lt_of_le hlt (h.mailing hs).next
    · rw [(h.mailing hs).contents k hlt, hc]
      simp [Contents.isDown]
  | exit q raw =>
    rw [hc] at hacc
    cases hacc

theorem call_outline (w : Wire) (s₀ : State) (pid request : Nat) (timeout : Option Nat) :
    Outline s₀.self (fun _ _ _ => True) (CallOutline w s₀ pid request timeout) where
  stable code fr s a t h hs _ hA :=
    ⟨fun e he => (h.mailing hs).log e (hA.1 e he), hA.2.step h hs⟩
  calls code s a t h hself hs _ hcalls hvalid hwait hA := by
    refine ⟨fun e he => (h.mailing hs).log e (hA.1 e he), ?_⟩
    obtain ⟨hpast, hp⟩ := hA
    cases hp with
    | start =>
      cases a with
      | monitor p =>
        have hpp : p = pid := by simpa [doCall, Script.calls] using hcalls
        subst hpp
        exact .send _ none (monitor_made h hvalid hs hself hpast)
      | _ => cases hcalls
    | send m _ hm => exact .await m none (made_step h hs hm)
    | await => cases hwait
    | flush => cases hwait
    | done => cases hcalls
  begins code r s hwait hm hph hA := by
    refine ⟨hA.1, hA.2.reframe fun r' h1 m h2 _ => ?_⟩
    obtain ⟨o, ho⟩ := h2
    cases h1
    rw [hm, ho]
    rfl
  resumes code r r' s hres hA := by
    refine ⟨hA.1, hA.2.reframe fun r'' h1 m _ h3 => ?_⟩
    cases h1
    rw [hres.matcher]
    exact h3 r rfl
  offers code r k s h ha hk hA := by
    refine ⟨hA.1, hA.2.reframe fun r' h1 m _ h3 => ?_⟩
    cases h1
    exact h3 r rfl
  accepts timeout' accept clause expired r k s t h hself hs hmem hph hk hcons hacc hA := by
    refine ⟨fun e he => (h.mailing hs).log e (hA.1 e he), ?_⟩
    generalize hcode : Script.receive timeout' accept clause expired = code at hA
    cases hA.2 with
    | start | send | flush | done => cases hcode
    | await m _ hm =>
      cases hcode
      exact CallPoint.accept h hs hmem hk hcons hm hacc
  expires code r s a t h hs _ hflush hA := by
    refine ⟨fun e he => (h.mailing hs).log e (hA.1 e he), ?_⟩
    cases hA.2 with
    | start => exact .start none
    | send m _ hm => exact .send m none (made_step h hs hm)
    | await m _ hm => exact .flush m .timeout none (made_step h hs hm) trivial fun r h1 => (by cases h1)
    | flush m o _ hm ho hr =>
      exact .done m o none (made_step h hs hm) (legit_step h hs ho) (.inl (hflush m (hr r rfl)))
    | done m o _ hm ho he =>
      exact .done m o none (made_step h hs hm) (legit_step h hs ho) (settled_step h hs he)

/-- The points of gen-server:call: those of do-call, or an early end. -/
theorem call_point (w : Wire) (h₀ : Reachable s₀) (server : Server) (request : Nat) (timeout : Option Nat)
    {c : Thread CallEnd} (hr : Reach (Thread.start s₀ (call w s₀ server request timeout)) Thread.step
      (fun _ _ => True) c) :
    c.code = some (.done (none, .noProcess)) ∨
      ∃ pid, server.resolve s₀ = some pid ∧ Meets (CallOutline w s₀ pid request timeout) s₀.self c := by
  unfold call at hr
  cases hp : server.resolve s₀ with
  | some pid =>
    rw [hp] at hr
    exact .inr ⟨pid, rfl, (call_outline w s₀ pid request timeout).sound h₀ ⟨fun _ => id, .start none⟩
      (fun _ _ _ _ _ => trivial) hr⟩
  | none =>
    rw [hp] at hr
    exact .inl (hr.invariant (I := fun c => c.code = some (.done (none, .noProcess))) rfl
      fun _ _ _ h _ hd => Thread.step_done h hd)

/-- A call that is over has ended in one way: with a reply for its own monitor,
which is none that was made before the call, with a timeout or with the exit
reason of the server. From then on no DOWN message for its monitor is in the
inbox of the client. -/
theorem call_returns_own_reply (w : Wire) (h₀ : Reachable s₀) (server : Server) (request : Nat)
    (timeout : Option Nat) {c : Thread CallEnd}
    (hr : Reach (Thread.start s₀ (call w s₀ server request timeout)) Thread.step (fun _ _ => True) c)
    {n : Option Mon} (hc : c.code = some (.done (n, o))) :
    (n = none ∧ o = .noProcess) ∨ ∃ m, n = some m ∧ m.origin = s₀.self ∧
      server.resolve s₀ = some m.target ∧ Event.monitor m ∈ c.sys.log ∧ Event.monitor m ∉ s₀.log ∧ Legit w c.sys m o ∧
      ∀ d, Reach c Thread.step (fun _ _ => True) d → d.code = c.code ∧
        (d.sys.alive s₀.self = true →
          ∀ k ∈ d.sys.inbox s₀.self, (d.sys.contents k).isDown m = false) := by
  -- what holds at the end of a call, here and later on
  have hend : ∀ d, Reach (Thread.start s₀ (call w s₀ server request timeout)) Thread.step
      (fun _ _ => True) d → d.code = some (.done (n, o)) → (n = none ∧ o = .noProcess) ∨
      ∃ m pid, n = some m ∧ server.resolve s₀ = some pid ∧ Reachable d.sys ∧ Made s₀ d.sys pid m ∧
        Legit w d.sys m o ∧ Settled d.sys m := by
    intro d hd hdc
    rcases call_point w h₀ server request timeout hd with h1 | ⟨pid, hpid, h1⟩
    · rw [hdc] at h1
      cases h1
      exact .inl ⟨rfl, rfl⟩
    · obtain ⟨fr, ⟨_, hp⟩, _⟩ := h1.point _ hdc
      generalize hcode : Script.done (n, o) = code at hp
      cases hp with
      | start | send | await | flush => cases hcode
      | done m o' _ hm ho he =>
        cases hcode
        exact .inr ⟨m, pid, rfl, hpid, h1.reach, hm, ho, he⟩
  rcases hend c hr hc with h1 | ⟨m, pid, h1, hpid, h2, h3, h4, h5⟩
  · exact .inl h1
  · refine .inr ⟨m, h1, h3.origin, h3.target ▸ hpid, h3.made, h3.fresh, h4, fun d hd => ?_⟩
    have hdc : d.code = some (.done (n, o)) :=
      hd.invariant (I := fun c => c.code = some (.done (n, o))) hc
        fun _ _ _ h _ hd => Thread.step_done h hd
    refine ⟨hdc.trans hc.symm, fun ha k hk => ?_⟩
    rcases hend d (hr.trans hd) hdc with ⟨h6, _⟩ | ⟨m', _, h6, _, h7, h8, _, h9⟩
    · rw [h1] at h6
      cases h6
    · rw [h1] at h6
      cases h6
      rw [← h8.origin] at ha hk
      exact h9.no_down h7 ha hk

/-- Message 1 is the request and message 2 the reply 7 of the server 4 to the
first call of the client 1. -/
def sampleWire : Wire where
  genCall _ _ _ := 1
  untag d := if d = 2 then some (⟨0, 1, 4⟩, 7) else none
  isCatch _ := false

/-- The server answers before the client waits. -/
def sampleCall : List Action :=
  [.monitor 4, .send 4 1, .preempt 0, .preempt 0, .preempt 0, .send 1 2, .preempt 0, .receive none,
    .find true 0 0, .find true 0 0, .matcher true, .demonitorFlush ⟨0, 1, 4⟩, .find true 0 0,
    .find true 0 0]

/-- The value that a call has returned. -/
def returnedValue (c : Thread CallEnd) : Option Nat :=
  match c.code with
  | some (.done (some _, .returned v)) => some v
  | _ => none

theorem call_returns_own_reply_answered : ∃ s₀ c m, bootState.run [.spawn] = .ok s₀ ∧
    Reach.run Thread.step (Thread.start s₀ (call sampleWire s₀ (.pid 4) 0 none)) sampleCall = .ok c ∧
    c.code = some (.done (some m, .returned 7)) ∧ Replied sampleWire c.sys m 7 := by
  obtain ⟨s₀, h₀, hP⟩ : ∃ s₀, bootState.run [.spawn] = .ok s₀ ∧
      (Thread.start s₀ (call sampleWire s₀ (.pid 4) 0 none)).runsTo sampleCall
        (fun c => returnedValue c = some 7) = true :=
    exists_of_runsTo (by decide +kernel)
  obtain ⟨c, hc, hcode⟩ := Thread.exists_of_runsTo hP
  have hvalue : returnedValue c = some 7 := of_decide_eq_true hcode
  unfold returnedValue at hvalue
  split at hvalue
  · rename_i m v hdone
    cases hvalue
    have hreach := Reach.of_run _ .start (Reach.along_of_forall (fun _ _ => trivial) _ _) hc
    rcases call_returns_own_reply sampleWire ⟨_, h₀⟩ (.pid 4) 0 none hreach hdone with
      ⟨h1, _⟩ | ⟨m', h1, _, _, _, _, h2, _⟩
    · cases h1
    · cases h1
      exact ⟨s₀, c, m, h₀, hc, hdone, h2.1⟩
  · cases hvalue

end Swish.GenServer
