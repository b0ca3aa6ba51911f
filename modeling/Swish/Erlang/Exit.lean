import Swish.Erlang.Receive

/-!
Exit signals: what @kill does to the link graph. The cascade is described by the
set of processes that die, whatever the order in which it visits them.
-/

set_option autoImplicit false

namespace Swish.Erlang
open CircularList

variable {s s' t u : State} {p q : Nat}

/-- Links go both ways, no process is linked to itself, and none twice. -/
structure LinksOk (s : State) : Prop where
  symm : ∀ p q, q ∈ (s.pcb p).links → p ∈ (s.pcb q).links
  irrefl : ∀ p, p ∉ (s.pcb p).links
  nodup : ∀ p, (s.pcb p).links.Nodup

/-- The queues and the inboxes are well linked. -/
structure Sound (s : State) : Prop where
  queues : ∃ rq sq, QueueShape s rq sq
  mail : ∃ box, Boxes s box

def Killed (s s' : State) (q : Nat) : Prop := s.alive q = true ∧ s'.alive q = false

instance (s s' : State) (q : Nat) : Decidable (Killed s s' q) := inferInstanceAs (Decidable (_ ∧ _))

/-- The EXIT messages among some messages: whose exit, and the reason without
the fault conditions around it. -/
def exitsOf (s : State) (l : List Nat) : List (Nat × Reason) :=
  l.filterMap fun k =>
    match s.contents k with
    | .exit q r => some (q, r.unwrap)
    | _ => none

/-- Part of a cascade: who died, what that did to the links, and which EXIT
messages the others got. -/
structure Fade (reason : Reason) (s s' : State) (sent : Nat → Nat → Prop) : Prop where
  mono : ∀ q, s'.alive q = true → s.alive q = true
  links : ∀ q, (s'.pcb q).links =
    if Killed s s' q then [] else (s.pcb q).links.filter (¬ Killed s s' ·)
  trap : ∀ q, s'.alive q = true → (s'.flags q).trapExit = (s.flags q).trapExit
  nextMsg : s.nextMsg ≤ s'.nextMsg
  contents : ∀ k < s.nextMsg, s'.contents k = s.contents k
  exits : ∀ t, s'.alive t = true → ∃ l, s'.inbox t = s.inbox t ++ l ∧ (exitsOf s' l).Nodup ∧
    ∀ q r, (q, r) ∈ exitsOf s' l ↔ (s.flags t).trapExit = true ∧ r = reason ∧ sent q t
  dead : ∀ q, s.alive q = false → ((s.pcb q).monitors = [] → (s'.pcb q).monitors = []) ∧
    ((s.pcb q).name = none → (s'.pcb q).name = none) ∧ (s.enqueued q = false → s'.enqueued q = false)
  eventLoop : s'.eventLoop = s.eventLoop
  finalizer : s'.finalizer = s.finalizer

theorem killed_trans (h1 : ∀ q, t.alive q = true → s.alive q = true)
    (h2 : ∀ q, u.alive q = true → t.alive q = true) (q : Nat) :
    Killed s u q ↔ Killed s t q ∨ Killed t u q := by
  unfold Killed
  have h1 := h1 q
  have h2 := h2 q
  cases ha : s.alive q <;> cases hb : t.alive q <;> cases hc : u.alive q <;> simp_all

theorem exitsOf_append (s : State) (l₁ l₂ : List Nat) :
    exitsOf s (l₁ ++ l₂) = exitsOf s l₁ ++ exitsOf s l₂ := List.filterMap_append

theorem exitsOf_congr {l : List Nat} (h : ∀ k ∈ l, s'.contents k = s.contents k) :
    exitsOf s' l = exitsOf s l := by
  unfold exitsOf
  exact List.filterMap_congr fun k hk => by rw [h k hk]

theorem Sound.inbox_lt (h : Sound s) (ha : s.alive p = true) {k : Nat} (hk : k ∈ s.inbox p) :
    k < s.nextMsg := by
  obtain ⟨box, hb⟩ := h.mail
  rw [inbox_eq hb ha] at hk
  exact (hb.bound p k (hb.inserted p k hk)).1

namespace Fade

variable {reason : Reason} {sent sent₁ sent₂ : Nat → Nat → Prop}

theorem trans (ht : Sound t) (h₁ : Fade reason s t sent₁) (h₂ : Fade reason t u sent₂)
    (hd : ∀ q x, u.alive x = true → sent₁ q x → ¬ sent₂ q x) :
    Fade reason s u fun q x => sent₁ q x ∨ sent₂ q x := by
  have hk := killed_trans h₁.mono h₂.mono
  refine ⟨fun q hq => h₁.mono q (h₂.mono q hq), fun q => ?_, fun q hq => ?_,
    Nat.le_trans h₁.nextMsg h₂.nextMsg, fun k hlt => ?_, fun x hx => ?_, fun q hq => ?_,
    h₂.eventLoop.trans h₁.eventLoop, h₂.finalizer.trans h₁.finalizer⟩
  · rw [h₂.links q, h₁.links q]
    by_cases h2 : Killed t u q
    · simp [h2, (hk q).mpr (.inr h2)]
    · by_cases h1 : Killed s t q
      · simp [h1, h2, (hk q).mpr (.inl h1)]
      · have h3 : ¬ Killed s u q := by
          rw [hk q]
          simp [h1, h2]
        simp only [h1, h2, h3, if_false, List.filter_filter]
        refine List.filter_congr fun y _ => ?_
        simp [hk y, Bool.and_comm]
  · rw [h₂.trap q hq, h₁.trap q (h₂.mono q hq)]
  · rw [h₂.contents k (Nat.lt_of_lt_of_le hlt h₁.nextMsg), h₁.contents k hlt]
  · have hx1 := h₂.mono x hx
    obtain ⟨l₁, ha1, hb1, hc1⟩ := h₁.exits x hx1
    obtain ⟨l₂, ha2, hb2, hc2⟩ := h₂.exits x hx
    have hold : exitsOf u l₁ = exitsOf t l₁ := by
      refine exitsOf_congr fun k hk => h₂.contents k (ht.inbox_lt hx1 ?_)
      rw [ha1]
      exact List.mem_append_right _ hk
    refine ⟨l₁ ++ l₂, by rw [ha2, ha1, List.append_assoc], ?_, fun q r => ?_⟩
    · rw [exitsOf_append, hold, List.nodup_append]
      refine ⟨hb1, hb2, fun a ha b hb he => ?_⟩
      subst he
      obtain ⟨q, r⟩ := a
      exact hd q x hx ((hc1 q r).mp ha).2.2 ((hc2 q r).mp hb).2.2
    · rw [exitsOf_append, hold, List.mem_append, hc1 q r, hc2 q r, h₁.trap x hx1]
      tauto
  · obtain ⟨a1, b1, c1⟩ := h₁.dead q hq
    have hq1 : t.alive q = false := by
      cases hta : t.alive q with
      | false => rfl
      | true =>
        have := h₁.mono q hta
        rw [hq] at this
        cases this
    obtain ⟨a2, b2, c2⟩ := h₂.dead q hq1
    exact ⟨fun h => a2 (a1 h), fun h => b2 (b1 h), fun h => c2 (c1 h)⟩

theorem congr (h : Fade reason s s' sent)
    (he : ∀ q x, s'.alive x = true → (s.flags x).trapExit = true → (sent q x ↔ sent₁ q x)) :
    Fade reason s s' sent₁ := by
  refine { h with exits := fun x hx => ?_ }
  obtain ⟨l, h1, h2, h3⟩ := h.exits x hx
  refine ⟨l, h1, h2, fun q r => ?_⟩
  rw [h3 q r]
  constructor
  · rintro ⟨a, b, c⟩
    exact ⟨a, b, (he q x hx a).mp c⟩
  · rintro ⟨a, b, c⟩
    exact ⟨a, b, (he q x hx a).mpr c⟩

end Fade

theorem wake_shape {rq sq : List Nat} (h : QueueShape s rq sq) (ha : s.alive p = true) :
    ∃ rq' sq', QueueShape (s.wake p) rq' sq' ∧
      ∀ q, q ≠ p → (q ∈ rq' ∨ q ∈ sq' ↔ q ∈ rq ∨ q ∈ sq) := by
  have hlast := le_last_of_alive ha
  have hmem : ∀ q, q ≠ p → (q ∈ rq.filter (· ≠ p) ++ [p] ∨ q ∈ sq.filter (· ≠ p) ↔
      q ∈ rq ∨ q ∈ sq) := by
    intro q hq
    simp [hq]
  unfold State.wake
  split
  · have h1 : QueueShape (s.setFlags p fun f => { f with sleeping := false }) rq sq := by
      refine h.congr rfl (Nat.le_max_left _ _) (fun q _ => ?_) fun _ => rfl
      by_cases hq : q = p <;> simp [hq]
    exact ⟨_, _, h1.enqueue_run (Nat.le_trans hlast (Nat.le_max_left _ _)), hmem⟩
  · split
    · exact ⟨rq, sq, h, fun _ _ => Iff.rfl⟩
    · split
      · exact ⟨rq, sq, h, fun _ _ => Iff.rfl⟩
      · exact ⟨_, _, h.enqueue_run hlast, hmem⟩

namespace Sound

theorem send (h : Sound s) (p : Nat) (x : Contents) : Sound (s.send p x) := by
  unfold State.send
  split
  · rename_i ha
    obtain ⟨rq, sq, hq⟩ := h.queues
    obtain ⟨box, hb⟩ := h.mail
    have h1 : QueueShape (s.insertMsg p x) rq sq :=
      hq.congr rfl (Nat.le_refl _) (fun _ _ => rfl) fun q => by simp [State.insertMsg, stamp]
    obtain ⟨rq', sq', h2, _⟩ := wake_shape h1 ha
    have hc := Calm.sched (SchedOnly.wake (s.insertMsg p x) p)
    obtain ⟨es, hlog, hes⟩ := hc.log
    exact ⟨⟨rq', sq', h2⟩, _, (hb.insert ha x).congr hc.mail hc.nextMsg hc.last hc.alive hlog
      fun e he => Event.relinks_of_isMail (hes e he)⟩
  · exact h

theorem send_enqueued (h : Sound s) (p : Nat) (x : Contents) (hq : s.alive q = false)
    (he : s.enqueued q = false) : (s.send p x).enqueued q = false := by
  unfold State.send
  split
  · rename_i ha
    have hqp : q ≠ p := by
      rintro rfl
      rw [hq] at ha
      cases ha
    obtain ⟨rq, sq, hqs⟩ := h.queues
    have h1 : QueueShape (s.insertMsg p x) rq sq :=
      hqs.congr rfl (Nat.le_refl _) (fun _ _ => rfl) fun q => by simp [State.insertMsg, stamp]
    obtain ⟨rq', sq', h2, h3⟩ := wake_shape h1 ha
    have hno : ¬ (q ∈ rq ∨ q ∈ sq) := by
      rw [← hqs.enqueued_iff, he]
      simp
    rw [← h3 q hqp, ← h2.enqueued_iff] at hno
    simpa using hno
  · exact he

theorem send_inbox_list (h : Sound s) (p : Nat) (x : Contents) (hp : s.alive p = true)
    (hq : s.alive q = true) :
    (s.send p x).inbox q = s.inbox q ++ if q = p then [s.nextMsg] else [] := by
  obtain ⟨box, hb⟩ := h.mail
  have hs : (s.send p x) = (s.insertMsg p x).wake p := by simp only [State.send, hp, if_true]
  have hc := Calm.sched (SchedOnly.wake (s.insertMsg p x) p)
  obtain ⟨es, hlog, hes⟩ := hc.log
  have hb' : Boxes (s.send p x) (addMsg box p s.nextMsg) := by
    rw [hs]
    exact (hb.insert hp x).congr hc.mail hc.nextMsg hc.last hc.alive hlog
      fun e he => Event.relinks_of_isMail (hes e he)
  have hq' : (s.send p x).alive q = true := by
    rw [State.alive, send_inbox]; exact hq
  rw [inbox_eq hb' hq', inbox_eq hb hq, addMsg]
  split <;> simp

end Sound

theorem send_contents {x : Contents} (hp : s.alive p = true) :
    (s.send p x).contents = fun k => if k = s.nextMsg then x else s.contents k := by
  have hs : (s.send p x) = (s.insertMsg p x).wake p := by simp only [State.send, hp, if_true]
  rw [hs, (SchedOnly.wake (s.insertMsg p x) p).contents]
  rfl

theorem send_nextMsg {x : Contents} (hp : s.alive p = true) :
    (s.send p x).nextMsg = s.nextMsg + 1 := by
  have hs : (s.send p x) = (s.insertMsg p x).wake p := by simp only [State.send, hp, if_true]
  rw [hs, (SchedOnly.wake (s.insertMsg p x) p).nextMsg]
  rfl

/-- The pcbs after a send, scheduling data apart. -/
theorem send_core (s : State) (p : Nat) (x : Contents) (q : Nat) :
    ((s.send p x).pcb q).core = (s.pcb q).core := by
  rcases send_cases s p x with ⟨_, he⟩ | ⟨_, hs⟩
  · rw [he]
  · exact hs.core q

theorem not_killed_of_alive (ha : ∀ q, s'.alive q = s.alive q) (q : Nat) : ¬ Killed s s' q := by
  unfold Killed
  rw [ha q]
  cases s.alive q <;> simp

namespace Fade

variable {reason : Reason} {sent : Nat → Nat → Prop}

/-- A change in which nobody dies and no message comes in. -/
theorem still (hi : ∀ q, (s'.pcb q).inbox = (s.pcb q).inbox)
    (hl : ∀ q, (s'.pcb q).links = (s.pcb q).links)
    (ht : ∀ q, (s'.flags q).trapExit = (s.flags q).trapExit) (hm : s'.mail = s.mail)
    (hc : s'.contents = s.contents) (hn : s'.nextMsg = s.nextMsg)
    (hd : ∀ q, s.alive q = false → ((s.pcb q).monitors = [] → (s'.pcb q).monitors = []) ∧
      ((s.pcb q).name = none → (s'.pcb q).name = none) ∧
      (s.enqueued q = false → s'.enqueued q = false))
    (he : s'.eventLoop = s.eventLoop) (hf : s'.finalizer = s.finalizer) :
    Fade reason s s' fun _ _ => False := by
  have hk := not_killed_of_alive hi
  refine ⟨fun q hq => ?_, fun q => ?_, fun q _ => ht q, by rw [hn], fun k _ => by rw [hc],
    fun x _ => ⟨[], ?_, by simp [exitsOf], by simp [exitsOf]⟩, hd, he, hf⟩
  · rw [State.alive, ← hi]; exact hq
  · rw [hl q]
    simp [hk]
  · simp [State.inbox, hm, hn]

theorem refl (s : State) : Fade reason s s fun _ _ => False :=
  still (fun _ => rfl) (fun _ => rfl) (fun _ => rfl) rfl rfl rfl (fun _ _ => ⟨id, id, id⟩) rfl rfl

/-- A message for a live process. -/
theorem send (h : Sound s) (hp : s.alive p = true) (x : Contents)
    (hx : ∀ q r, x = .exit q r → (s.flags p).trapExit = true ∧ r.unwrap = reason) :
    Fade reason s (s.send p x) fun q y => y = p ∧ ∃ r, x = .exit q r := by
  have hcore := send_core s p x
  have hi : ∀ q, ((s.send p x).pcb q).inbox = (s.pcb q).inbox := send_inbox s p x
  have hk := not_killed_of_alive hi
  refine ⟨fun q hq => ?_, fun q => ?_, fun q _ => ?_, ?_, fun k hlt => ?_, fun y hy => ?_,
    fun q hq => ⟨fun h1 => ?_, fun h1 => ?_, fun h1 => h.send_enqueued p x hq h1⟩, ?_, ?_⟩
  · rw [State.alive, ← hi]; exact hq
  · have : ((s.send p x).pcb q).links = (s.pcb q).links := (congrArg Pcb.links (hcore q) :)
    rw [this]
    simp [hk]
  · exact (congrArg (fun x => x.flags.trapExit) (hcore q) :)
  · rw [send_nextMsg hp]; omega
  · rw [send_contents hp]
    have : k ≠ s.nextMsg := by omega
    simp [this]
  · have hy' : s.alive y = true := by rw [State.alive, ← hi]; exact hy
    refine ⟨_, h.send_inbox_list p x hp hy', ?_, fun q r => ?_⟩
    · by_cases hyp : y = p
      · simp only [hyp, if_true]
        unfold exitsOf
        simp only [send_contents hp, List.filterMap_cons, List.filterMap_nil, if_true]
        cases x <;> simp
      · simp [hyp, exitsOf]
    · by_cases hyp : y = p
      · subst hyp
        simp only [if_true, exitsOf, send_contents hp, List.filterMap_cons, List.filterMap_nil]
        cases x with
        | exit a b =>
          obtain ⟨h1, h2⟩ := hx a b rfl
          simp [h1, h2]
          tauto
        | down m a b => simp
        | user d => simp
      · simp [hyp, exitsOf]
  · have : ((s.send p x).pcb q).monitors = (s.pcb q).monitors := (congrArg Pcb.monitors (hcore q) :)
    rw [this]; exact h1
  · have : ((s.send p x).pcb q).name = (s.pcb q).name := (congrArg Pcb.name (hcore q) :)
    rw [this]; exact h1
  · rcases send_cases s p x with ⟨_, he⟩ | ⟨_, hs⟩
    · rw [he]
    · exact hs.eventLoop
  · rcases send_cases s p x with ⟨_, he⟩ | ⟨_, hs⟩
    · rw [he]
    · exact hs.finalizer

end Fade

theorem Sound.calm (h : Sound s) (hc : Calm s s') (hq : s'.queues = s.queues)
    (hp : ∀ q, (s'.pcb q).precedence = (s.pcb q).precedence) (hl : s'.log = s.log) : Sound s' := by
  obtain ⟨rq, sq, h1⟩ := h.queues
  obtain ⟨box, h2⟩ := h.mail
  exact ⟨⟨rq, sq, h1.congr hq hc.last (fun q _ => hp q) fun q => by rw [hl]⟩, box,
    h2.congr hc.mail hc.nextMsg hc.last hc.alive (by rw [hl]; rfl : s'.log = [] ++ s.log) (by simp)⟩

theorem Sound.modify (h : Sound s) (p : Nat) (f : Pcb → Pcb)
    (hi : (f (s.pcb p)).inbox = (s.pcb p).inbox) (hf : (f (s.pcb p)).stack = (s.pcb p).stack)
    (hp : (f (s.pcb p)).precedence = (s.pcb p).precedence) : Sound (s.modify p f) := by
  refine h.calm (Calm.modify p f hi hf) rfl (fun q => ?_) rfl
  by_cases hq : q = p
  · subst hq; simpa using hp
  · simp [hq]

theorem sendExit_fade {reason : Reason} (h : Sound s) {target : Nat} (ha : s.alive target = true)
    (ht : (s.flags target).trapExit = true) {raw : RawReason} (hr : raw.unwrap = reason) :
    Sound (s.sendExit target p raw) ∧
      Fade reason s (s.sendExit target p raw) fun q y => q = p ∧ y = target := by
  have hs1 : Sound (s.setFlags target fun f => { f with exit := true }) :=
    h.modify target _ rfl rfl rfl
  have hf1 : Fade reason s (s.setFlags target fun f => { f with exit := true }) fun _ _ => False := by
    refine Fade.still (fun q => ?_) (fun q => ?_) (fun q => ?_) rfl rfl rfl
      (fun q _ => ⟨fun h1 => ?_, fun h1 => ?_, id⟩) rfl rfl
    all_goals by_cases hq : q = target
    all_goals simp_all
  have ha1 : (s.setFlags target fun f => { f with exit := true }).alive target = true := by
    simpa using ha
  have hx : ∀ q r, Contents.exit p raw = .exit q r →
      ((s.setFlags target fun f => { f with exit := true }).flags target).trapExit = true ∧
        r.unwrap = reason := by
    intro q r he
    cases he
    exact ⟨by simpa using ht, hr⟩
  have hf2 := Fade.send hs1 ha1 (.exit p raw) hx
  refine ⟨hs1.send target _, (hf1.trans hs1 hf2 (by simp)).congr fun q y _ _ => ?_⟩
  simp only [false_or, Contents.exit.injEq]
  constructor
  · rintro ⟨h1, r, h2, _⟩
    exact ⟨h2.symm, h1⟩
  · rintro ⟨h1, h2⟩
    exact ⟨h2, raw, h1.symm, rfl⟩

theorem removeLinks_get (s : State) (ps : List Nat) (d q : Nat) :
    (s.removeLinks ps d).pcb q =
      { s.pcb q with links := if q ∈ ps then (s.pcb q).links.filter (· ≠ d) else (s.pcb q).links } := by
  induction ps generalizing s with
  | nil => simp [State.removeLinks]
  | cons x ps ih =>
    rw [State.removeLinks, ih]
    by_cases hq : q = x
    · subst hq
      by_cases hm : q ∈ ps <;> simp [State.removeLink, hm, List.filter_filter]
    · simp [State.removeLink, hq]

/-- Nothing but pcbs changes. -/
theorem removeLinks_rest (s : State) (ps : List Nat) (d : Nat) :
    s.removeLinks ps d = { s with procs := (s.removeLinks ps d).procs } ∧
      s.procs.last ≤ (s.removeLinks ps d).procs.last := by
  induction ps generalizing s with
  | nil => exact ⟨rfl, Nat.le_refl _⟩
  | cons x ps ih =>
    obtain ⟨h1, h2⟩ := ih (s.removeLink x d)
    refine ⟨?_, Nat.le_trans (Nat.le_max_left _ _) h2⟩
    simp only [State.removeLinks]
    rw [h1]
    rfl

theorem unlinked_get (h : LinksOk s) (p : Nat) (r : RawReason) (q : Nat) :
    (unlinked s p r).pcb q = if q = p then { (s.pcb p).dead r with links := [] }
      else { s.pcb q with links := (s.pcb q).links.filter (· ≠ p) } := by
  unfold unlinked
  rw [removeLinks_get]
  by_cases hq : q = p
  · subst hq
    simp [State.setLinks, h.irrefl q]
  · by_cases hm : q ∈ (s.pcb p).links
    · simp [State.setLinks, hq, hm]
    · have hp : p ∉ (s.pcb q).links := fun hp => hm (h.symm q p hp)
      have hf : (s.pcb q).links.filter (· ≠ p) = (s.pcb q).links :=
        QueueShape.filter_of_not_mem hp
      simp only [State.setLinks, hm, hq, if_false, State.pcb, State.modify_get, State.die_get]
      rw [State.pcb] at hf
      rw [hf]

theorem unlinked_alive (h : LinksOk s) (r : RawReason) :
    (unlinked s p r).alive q = if q = p then false else s.alive q := by
  rw [State.alive, unlinked_get h]
  split <;> rfl

theorem unlinked_killed (h : LinksOk s) (ha : s.alive p = true) (r : RawReason) :
    Killed s (unlinked s p r) q ↔ q = p := by
  unfold Killed
  rw [unlinked_alive h]
  by_cases hq : q = p
  · simp [hq, ha]
  · simp [hq]

theorem unlinked_queues (s : State) (p : Nat) (r : RawReason) :
    (unlinked s p r).queues = (s.removeQIfEnqueued p).queues ∧
      (unlinked s p r).mail = s.mail ∧ (unlinked s p r).log = s.log ∧
      (unlinked s p r).contents = s.contents ∧ (unlinked s p r).nextMsg = s.nextMsg ∧
      (unlinked s p r).eventLoop = s.eventLoop ∧ (unlinked s p r).finalizer = s.finalizer := by
  unfold unlinked
  rw [(removeLinks_rest _ _ _).1]
  exact ⟨rfl, rfl, rfl, rfl, rfl, rfl, rfl⟩

theorem unlinked_sound (h : Sound s) (hl : LinksOk s) (r : RawReason) : Sound (unlinked s p r) := by
  obtain ⟨rq, sq, h1⟩ := h.queues
  obtain ⟨box, h2⟩ := h.mail
  obtain ⟨e1, e2, e3, _, e5, _, _⟩ := unlinked_queues s p r
  have hlast : s.procs.last ≤ (unlinked s p r).procs.last := by
    have h0 := (removeLinks_rest ((s.die p r).setLinks p []) (s.pcb p).links p).2
    exact Nat.le_trans (Nat.le_trans (Nat.le_max_left _ p) (Nat.le_max_left _ p)) h0
  refine ⟨⟨_, _, (h1.remove p).congr e1 hlast (fun q hq => ?_) fun q => by rw [e3]; rfl⟩, box,
    h2.congr e2 e5 hlast (fun q hq => ?_) (by rw [e3]; rfl : _ = [] ++ s.log) (by simp)⟩
  · rw [unlinked_get hl]
    by_cases hqp : q = p <;> simp [hqp, Pcb.dead]
  · rw [unlinked_alive hl] at hq
    split at hq
    · cases hq
    · exact hq

theorem unlinked_enqueued (h : Sound s) (r : RawReason) :
    (unlinked s p r).enqueued p = false ∧
      ∀ q, s.enqueued q = false → (unlinked s p r).enqueued q = false := by
  obtain ⟨rq, sq, h1⟩ := h.queues
  have h2 := h1.remove p
  have he : ∀ q, (unlinked s p r).enqueued q = (s.removeQIfEnqueued p).enqueued q := by
    intro q
    simp only [State.enqueued, (unlinked_queues s p r).1]
  refine ⟨?_, fun q hq => ?_⟩
  · have : ¬ ((s.removeQIfEnqueued p).enqueued p = true) := by
      rw [h2.enqueued_iff]
      simp
    rw [he]
    simpa using this
  · have hno : ¬ (q ∈ rq ∨ q ∈ sq) := by
      rw [← h1.enqueued_iff, hq]
      simp
    have : ¬ ((s.removeQIfEnqueued p).enqueued q = true) := by
      rw [h2.enqueued_iff]
      intro h3
      exact hno (h3.imp (fun h => (List.mem_filter.mp h).1) fun h => (List.mem_filter.mp h).1)
    rw [he]
    simpa using this

theorem unlinked_fade {reason : Reason} (h : Sound s) (hl : LinksOk s) (ha : s.alive p = true)
    (r : RawReason) : Fade reason s (unlinked s p r) fun _ _ => False := by
  obtain ⟨e1, e2, e3, e4, e5, e6, e7⟩ := unlinked_queues s p r
  have hk : ∀ q, Killed s (unlinked s p r) q ↔ q = p := fun q => unlinked_killed hl ha r
  refine ⟨fun q hq => ?_, fun q => ?_, fun q hq => ?_, by rw [e5], fun k _ => by rw [e4],
    fun y _ => ⟨[], ?_, by simp [exitsOf], by simp [exitsOf]⟩, fun q hq => ?_, e6, e7⟩
  · rw [unlinked_alive hl] at hq
    split at hq
    · cases hq
    · exact hq
  · rw [unlinked_get hl]
    by_cases hqp : q = p <;> simp [hqp, hk]
  · rw [unlinked_alive hl] at hq
    by_cases hqp : q = p
    · simp [hqp] at hq
    · rw [State.flags, unlinked_get hl]
      simp [hqp]
  · simp [State.inbox, e2, e5]
  · have hqp : q ≠ p := by
      rintro rfl
      rw [ha] at hq
      cases hq
    rw [unlinked_get hl]
    simp only [hqp, if_false]
    exact ⟨id, id, (unlinked_enqueued h r).2 q⟩

/-- What the cascade does to the links keeps them well formed. -/
theorem Fade.linksOk {reason : Reason} {sent : Nat → Nat → Prop} (h : Fade reason s s' sent)
    (hl : LinksOk s) : LinksOk s' := by
  have hmem : ∀ p q, q ∈ (s'.pcb p).links ↔
      ¬ Killed s s' p ∧ q ∈ (s.pcb p).links ∧ ¬ Killed s s' q := by
    intro p q
    rw [h.links p]
    by_cases hp : Killed s s' p <;> simp [hp]
  refine ⟨fun p q => ?_, fun p => ?_, fun p => ?_⟩
  · rw [hmem, hmem]
    exact fun ⟨h1, h2, h3⟩ => ⟨h3, hl.symm p q h2, h1⟩
  · rw [hmem]
    exact fun h1 => hl.irrefl p h1.2.1
  · rw [h.links p]
    split
    · exact .nil
    · exact (hl.nodup p).filter _

theorem removeMonitor_fade {reason : Reason} (s : State) (m : Mon) (p : Nat) :
    Fade reason s (s.removeMonitor m p) fun _ _ => False := by
  refine Fade.still (fun q => ?_) (fun q => ?_) (fun q => ?_) rfl rfl rfl
    (fun q _ => ⟨fun h1 => ?_, fun h1 => ?_, id⟩) rfl rfl
  all_goals by_cases hq : q = p
  all_goals simp_all [State.removeMonitor]

theorem fireMonitor_fade {reason : Reason} (h : Sound s) (p : Nat) (r : RawReason) (m : Mon) :
    Sound (s.fireMonitor p r m) ∧ Fade reason s (s.fireMonitor p r m) fun _ _ => False := by
  unfold State.fireMonitor
  split
  · exact ⟨h.modify m.target _ rfl rfl rfl, removeMonitor_fade s m m.target⟩
  · have hs := h.send m.origin (.down m p r)
    refine ⟨hs.modify m.origin _ rfl rfl rfl, ?_⟩
    have h1 : Fade reason s (s.send m.origin (.down m p r)) fun _ _ => False := by
      cases ha : s.alive m.origin with
      | true => exact (Fade.send h ha (.down m p r) (by simp)).congr fun q y _ _ => by simp
      | false =>
        have he : s.send m.origin (.down m p r) = s := by
          unfold State.send
          rw [ha]
          simp
        rw [he]
        exact Fade.refl s
    exact (h1.trans hs (removeMonitor_fade _ m m.origin) (by simp)).congr fun q y _ _ => by simp

theorem fireMonitors_fade {reason : Reason} (h : Sound s) (p : Nat) (r : RawReason) (ms : List Mon) :
    Sound (s.fireMonitors p r ms) ∧ Fade reason s (s.fireMonitors p r ms) fun _ _ => False := by
  induction ms generalizing s with
  | nil => exact ⟨h, Fade.refl s⟩
  | cons m ms ih =>
    obtain ⟨h1, h2⟩ := fireMonitor_fade (s := s) h p r m
    obtain ⟨h3, h4⟩ := ih h1
    exact ⟨h3, (h2.trans h1 h4 (by simp)).congr fun q y _ _ => by simp⟩

theorem fired_fade {reason : Reason} (h : Sound s) (hp : s.alive p = false) (r : RawReason) :
    Sound (fired s p r) ∧ Fade reason s (fired s p r) (fun _ _ => False) ∧
      ((fired s p r).pcb p).monitors = [] := by
  have hs : Sound (s.setMonitors p []) := h.modify p _ rfl rfl rfl
  have h1 : Fade reason s (s.setMonitors p []) fun _ _ => False := by
    refine Fade.still (fun q => ?_) (fun q => ?_) (fun q => ?_) rfl rfl rfl
      (fun q _ => ⟨fun h1 => ?_, fun h1 => ?_, id⟩) rfl rfl
    all_goals by_cases hq : q = p
    all_goals simp_all [State.setMonitors]
  obtain ⟨h2, h3⟩ : _ ∧ Fade reason _ _ _ := fireMonitors_fade hs p r (s.pcb p).monitors
  refine ⟨h2, (h1.trans hs h3 (by simp)).congr fun q y _ _ => by simp, ?_⟩
  refine (h3.dead p ?_).1 (by simp [State.setMonitors])
  simpa [State.setMonitors] using hp

/-- Data of a pcb that neither scheduling nor monitoring touches. -/
theorem fired_keep {α : Type} (g : Pcb → α) (hm : ∀ x ms, g { x with monitors := ms } = g x)
    (hc : ∀ x y : Pcb, x.core = y.core → g x = g y) (s : State) (p : Nat) (r : RawReason) (q : Nat) :
    g ((fired s p r).pcb q) = g (s.pcb q) := by
  have hmod : ∀ (u : State) x (f : List Mon → List Mon),
      g ((u.modify x fun y => { y with monitors := f y.monitors }).pcb q) = g (u.pcb q) := by
    intro u x f
    by_cases hq : q = x
    · subst hq; simp [hm]
    · simp [hq]
  have hfire : ∀ ms (u : State), g ((u.fireMonitors p r ms).pcb q) = g (u.pcb q) := by
    intro ms
    induction ms with
    | nil => exact fun _ => rfl
    | cons m ms ih =>
      intro u
      rw [State.fireMonitors, ih]
      unfold State.fireMonitor
      split
      · exact hmod u _ _
      · exact (hmod _ _ _).trans (hc _ _ (send_core u _ _ q))
  exact (hfire _ _).trans (hmod s p fun _ => [])

theorem fired_alive (s : State) (p : Nat) (r : RawReason) (q : Nat) :
    (fired s p r).alive q = s.alive q :=
  fired_keep Pcb.inbox (fun _ _ => rfl) (fun _ _ h => (congrArg Pcb.inbox h :)) s p r q

theorem fired_links (s : State) (p : Nat) (r : RawReason) (q : Nat) :
    ((fired s p r).pcb q).links = (s.pcb q).links :=
  fired_keep Pcb.links (fun _ _ => rfl) (fun _ _ h => (congrArg Pcb.links h :)) s p r q

/-- The number of live processes below N. -/
def live (N : Nat) (s : State) : Nat := ((List.range N).filter (s.alive ·)).length

theorem live_le {N : Nat} (h : ∀ q, s'.alive q = true → s.alive q = true) : live N s' ≤ live N s := by
  unfold live
  apply List.Sublist.length_le
  exact List.monotone_filter_right _ h

theorem live_lt {N : Nat} (h : ∀ q, s'.alive q = true → s.alive q = true) (hp : Killed s s' p)
    (hN : p < N) : live N s' < live N s := by
  have hmem : p ∈ (List.range N).filter (s.alive ·) := by simp [hN, hp.1]
  have hnot : p ∉ (List.range N).filter (s'.alive ·) := by simp [hp.2]
  have hsub : List.Sublist ((List.range N).filter (s'.alive ·)) ((List.range N).filter (s.alive ·)) :=
    List.monotone_filter_right _ h
  unfold live
  refine Nat.lt_of_le_of_ne hsub.length_le fun he => hnot ?_
  rw [hsub.eq_of_length he]
  exact hmem

/-- How an exit signal travels: to a linked process that is alive and does not
trap exits. -/
def Signals (s : State) (p q : Nat) : Prop :=
  q ∈ (s.pcb p).links ∧ s.alive q = true ∧ (s.flags q).trapExit = false

theorem Fade.signals {reason : Reason} {sent : Nat → Nat → Prop} (h : Fade reason s s' sent)
    (hs : Relation.ReflTransGen (Signals s') p q) : Relation.ReflTransGen (Signals s) p q := by
  refine Relation.ReflTransGen.mono (fun x y hxy => ?_) _ _ hs
  obtain ⟨h1, h2, h3⟩ := hxy
  refine ⟨?_, h.mono y h2, by rw [← h.trap y h2]; exact h3⟩
  rw [h.links x] at h1
  split at h1
  · cases h1
  · exact (List.mem_filter.mp h1).1

/-- The processes that died are fully cleaned up. -/
def Clean (s s' : State) : Prop :=
  ∀ q, Killed s s' q →
    (s'.pcb q).monitors = [] ∧ (s'.pcb q).name = none ∧ s'.enqueued q = false

/-- Nobody survives the signal of a process that died. -/
def Closed (s s' : State) : Prop := ∀ q y, Killed s s' q → Signals s q y → Killed s s' y

theorem Clean.trans {reason : Reason} {sent : Nat → Nat → Prop}
    (hm : ∀ q, t.alive q = true → s.alive q = true) (h₁ : Clean s t) (hf : Fade reason t u sent)
    (h₂ : Clean t u) : Clean s u := by
  intro q hq
  rcases (killed_trans hm hf.mono q).mp hq with h | h
  · obtain ⟨a, b, c⟩ := h₁ q h
    obtain ⟨a', b', c'⟩ := hf.dead q h.2
    exact ⟨a' a, b' b, c' c⟩
  · exact h₂ q h

theorem Fade.mem_links {reason : Reason} {sent : Nat → Nat → Prop} (h : Fade reason s s' sent)
    (hp : ¬ Killed s s' p) (hq : ¬ Killed s s' q) :
    q ∈ (s'.pcb p).links ↔ q ∈ (s.pcb p).links := by
  rw [h.links p]
  simp [hp, hq]

theorem not_killed_of_later (h2 : ∀ q, u.alive q = true → t.alive q = true) (hq : u.alive q = true) :
    ¬ Killed s t q := by
  intro hk
  have := h2 q hq
  rw [hk.2] at this
  cases this

theorem Closed.trans {reason : Reason} {sent sent' : Nat → Nat → Prop} (hf : Fade reason s t sent)
    (h₁ : Closed s t) (hf' : Fade reason t u sent') (h₂ : Closed t u) : Closed s u := by
  have hk := killed_trans hf.mono hf'.mono
  intro q y hq hs
  rcases (hk q).mp hq with h | h
  · exact (hk y).mpr (.inl (h₁ q y h hs))
  · by_cases hy : Killed s t y
    · exact (hk y).mpr (.inl hy)
    · have hty : t.alive y = true := by
        cases hta : t.alive y with
        | true => rfl
        | false => exact absurd ⟨hs.2.1, hta⟩ hy
      have hqt : ¬ Killed s t q := fun h3 => by
        have := h.1
        rw [h3.2] at this
        cases this
      refine (hk y).mpr (.inr (h₂ q y h ⟨(hf.mem_links hqt hy).mpr hs.1, hty, ?_⟩))
      rw [hf.trap y hty]
      exact hs.2.2

/-- What @kill leaves behind. -/
structure Outcome (reason : Reason) (s s' : State) (p : Nat) : Prop where
  sound : Sound s'
  fade : Fade reason s s' fun q y => Killed s s' q ∧ y ∈ (s.pcb q).links
  root : Killed s s' p
  clean : Clean s s'
  reach : ∀ q, Killed s s' q → q = p ∨ (reason ≠ .normal ∧ Relation.ReflTransGen (Signals s) p q)
  closed : reason ≠ .normal → Closed s s'

/-- The cascade stays away from the two processes whose end is the end of the
system. -/
def Harmless (s : State) (p : Nat) : Prop :=
  ∀ q, Relation.ReflTransGen (Signals s) p q → q ≠ s.eventLoop ∧ q ≠ s.finalizer

/-- What @kill-linked leaves behind. -/
structure LinkedOutcome (reason : Reason) (s s' : State) (ls : List Nat) (p : Nat) : Prop where
  sound : Sound s'
  fade : Fade reason s s' fun q y => (Killed s s' q ∧ y ∈ (s.pcb q).links) ∨ (q = p ∧ y ∈ ls)
  clean : Clean s s'
  reach : ∀ q, Killed s s' q → reason ≠ .normal ∧ ∃ l ∈ ls, s.alive l = true ∧
    (s.flags l).trapExit = false ∧ Relation.ReflTransGen (Signals s) l q
  closed : reason ≠ .normal → Closed s s'
  hit : reason ≠ .normal → ∀ l ∈ ls, s.alive l = true → (s.flags l).trapExit = false → Killed s s' l

variable {reason : Reason}

theorem not_killed_self (s : State) (q : Nat) : ¬ Killed s s q := not_killed_of_alive (fun _ => rfl) q

/-- A process that the loop of @kill-linked passes over. -/
theorem LinkedOutcome.skip {ls : List Nat} {l : Nat} (h : LinkedOutcome reason s s' ls p)
    (hl : s.alive l = false ∨ (reason = .normal ∧ (s.flags l).trapExit = false)) :
    LinkedOutcome reason s s' (l :: ls) p := by
  refine ⟨h.sound, h.fade.congr fun q y hy ht => ?_, h.clean, fun q hq => ?_, h.closed,
    fun hn x hx ha ht => ?_⟩
  · have hyl : y ≠ l := by
      rintro rfl
      rcases hl with h1 | ⟨_, h1⟩
      · have := h.fade.mono y hy
        rw [h1] at this
        cases this
      · rw [h1] at ht
        cases ht
    simp [hyl]
  · obtain ⟨h1, x, hx, h2⟩ := h.reach q hq
    exact ⟨h1, x, by simp [hx], h2⟩
  · rcases List.mem_cons.mp hx with h1 | h1
    · subst h1
      rcases hl with h2 | ⟨h2, _⟩
      · rw [h2] at ha
        cases ha
      · exact absurd h2 hn
    · exact h.hit hn x h1 ha ht

/-- Nobody has died between the two states. -/
theorem LinkedOutcome.after {ls : List Nat} {l : Nat} (hal : ∀ q, t.alive q = s.alive q)
    (ht : Sound t) (hp : s.alive p = false) (hl : l ∉ ls)
    (hf : Fade reason s t fun q y => q = p ∧ y = l) (htr : (s.flags l).trapExit = true)
    (h : LinkedOutcome reason t u ls p) : LinkedOutcome reason s u (l :: ls) p := by
  have hno := not_killed_of_alive hal
  have hk : ∀ q, Killed s u q ↔ Killed t u q := fun q => by
    rw [killed_trans hf.mono h.fade.mono q]
    simp [hno q]
  have hpt : ¬ Killed t u p := by
    intro h1
    have := h1.1
    rw [hal, hp] at this
    cases this
  have hlinks : ∀ q y, y ∈ (t.pcb q).links ↔ y ∈ (s.pcb q).links := fun q y =>
    hf.mem_links (hno q) (hno y)
  have hsig : ∀ x y, Signals s x y → Signals t x y := by
    intro x y ⟨h1, h2, h3⟩
    have h2' : t.alive y = true := by rw [hal]; exact h2
    exact ⟨(hlinks x y).mpr h1, h2', by rw [hf.trap y h2']; exact h3⟩
  refine ⟨h.sound, ?_, ?_, fun q hq => ?_, fun hn q y hq hs => ?_, fun hn x hx ha htx => ?_⟩
  · refine (hf.trans ht h.fade fun q y hy h1 h2 => ?_).congr fun q y _ _ => ?_
    · rcases h2 with h2 | h2
      · rw [h1.1] at h2
        exact hpt h2.1
      · rw [h1.2] at h2
        exact hl h2.2
    · rw [hk q, hlinks q y, List.mem_cons]
      tauto
  · intro q hq
    exact h.clean q ((hk q).mp hq)
  · obtain ⟨h1, x, hx, h2, h3, h4⟩ := h.reach q ((hk q).mp hq)
    exact ⟨h1, x, by simp [hx], hf.mono x h2, by rw [← hf.trap x h2]; exact h3, hf.signals h4⟩
  · exact (hk y).mpr (h.closed hn q y ((hk q).mp hq) (hsig q y hs))
  · rcases List.mem_cons.mp hx with h1 | h1
    · subst h1
      rw [htr] at htx
      cases htx
    · have ha' : t.alive x = true := by rw [hal]; exact ha
      exact (hk x).mpr (h.hit hn x h1 ha' (by rw [hf.trap x ha']; exact htx))

/-- A linked process has been killed with all that hangs on it. -/
theorem LinkedOutcome.killed {ls : List Nat} {l : Nat} (hn : reason ≠ .normal)
    (hp : s.alive p = false) (hla : s.alive l = true) (hlt : (s.flags l).trapExit = false)
    (ho : Outcome reason s t l) (h : LinkedOutcome reason t u ls p) :
    LinkedOutcome reason s u (l :: ls) p := by
  have hk := killed_trans ho.fade.mono h.fade.mono
  have hps : ¬ Killed s t p := by
    intro h1
    have := h1.1
    rw [hp] at this
    cases this
  refine ⟨h.sound, ?_, ho.clean.trans ho.fade.mono h.fade h.clean, fun q hq => ⟨hn, ?_⟩,
    fun _ => Closed.trans ho.fade (ho.closed hn) h.fade (h.closed hn), fun _ x hx ha htx => ?_⟩
  · refine (ho.fade.trans ho.sound h.fade fun q y hy h1 h2 => ?_).congr fun q y hy _ => ?_
    · rcases h2 with h2 | h2
      · have := h1.1.2
        rw [h2.1.1] at this
        cases this
      · rw [h2.1] at h1
        exact hps h1.1
    · have hyt : ¬ Killed s t y := not_killed_of_later h.fade.mono hy
      have hyl : y ≠ l := by
        rintro rfl
        exact hyt ho.root
      have hlinks : Killed t u q → (y ∈ (t.pcb q).links ↔ y ∈ (s.pcb q).links) := fun h1 =>
        ho.fade.mem_links (fun h2 => by
          have := h2.2
          rw [h1.1] at this
          cases this) hyt
      rw [hk q, List.mem_cons]
      constructor
      · rintro (⟨h1, h2⟩ | ⟨h1, h2⟩ | h1)
        · exact .inl ⟨.inl h1, h2⟩
        · exact .inl ⟨.inr h1, (hlinks h1).mp h2⟩
        · exact .inr ⟨h1.1, .inr h1.2⟩
      · rintro (⟨h1 | h1, h2⟩ | ⟨h1, h2 | h2⟩)
        · exact .inl ⟨h1, h2⟩
        · exact .inr (.inl ⟨h1, (hlinks h1).mpr h2⟩)
        · exact absurd h2 hyl
        · exact .inr (.inr ⟨h1, h2⟩)
  · rcases (hk q).mp hq with h1 | h1
    · rcases ho.reach q h1 with h2 | h2
      · subst h2
        exact ⟨q, by simp, hla, hlt, .refl⟩
      · exact ⟨l, by simp, hla, hlt, h2.2⟩
    · obtain ⟨_, x, hx, h2, h3, h4⟩ := h.reach q h1
      exact ⟨x, by simp [hx], ho.fade.mono x h2, by rw [← ho.fade.trap x h2]; exact h3,
        ho.fade.signals h4⟩
  · rcases List.mem_cons.mp hx with h1 | h1
    · subst h1
      exact (hk x).mpr (.inl ho.root)
    · by_cases hxk : Killed s t x
      · exact (hk x).mpr (.inl hxk)
      · have hta : t.alive x = true := by
          cases hta : t.alive x with
          | true => rfl
          | false => exact absurd ⟨ha, hta⟩ hxk
        exact (hk x).mpr (.inr (h.hit hn x h1 hta (by rw [ho.fade.trap x hta]; exact htx)))

theorem Harmless.later {sent : Nat → Nat → Prop} (h : Harmless s p) (hf : Fade reason s t sent) :
    Harmless t p := by
  intro q hq
  rw [hf.eventLoop, hf.finalizer]
  exact h q (hf.signals hq)

def KillSpec (N n : Nat) : Prop :=
  ∀ s p raw, LinksOk s → Sound s → s.alive p = true → (∀ q, s.alive q = true → q < N) →
    live N s ≤ n → p ≠ s.eventLoop → p ≠ s.finalizer →
    (raw.unwrap ≠ .normal → Harmless s p) →
    ∃ s', State.killFuel n s p raw = .ok s' ∧ Outcome raw.unwrap s s' p

theorem killLinked_outcome {N n : Nat} (hk : KillSpec N n) {raw : RawReason} (hr : raw.unwrap = reason)
    {ls : List Nat} (hl : LinksOk s) (hs : Sound s) (hp : s.alive p = false) (hnd : ls.Nodup)
    (hN : ∀ q, s.alive q = true → q < N) (hlive : live N s ≤ n)
    (hh : reason ≠ .normal → ∀ l ∈ ls, s.alive l = true → (s.flags l).trapExit = false → Harmless s l) :
    ∃ s', s.killLinked (State.killFuel n) ls p reason raw = .ok s' ∧
      LinkedOutcome reason s s' ls p := by
  induction ls generalizing s with
  | nil =>
    have hno : ∀ q, ¬ Killed s s q := not_killed_self s
    refine ⟨s, rfl, hs, (Fade.refl s).congr fun q y _ _ => by simp [hno], fun q hq => ?_, fun q hq => ?_,
      fun _ q y hq => ?_, by simp⟩
    · exact absurd hq (hno q)
    · exact absurd hq (hno q)
    · exact absurd hq (hno q)
  | cons l ls ih =>
    obtain ⟨hlls, hnd'⟩ := List.nodup_cons.mp hnd
    have hh' : reason ≠ .normal → ∀ x ∈ ls, s.alive x = true → (s.flags x).trapExit = false →
        Harmless s x := fun hn x hx => hh hn x (by simp [hx])
    unfold State.killLinked
    cases ha : s.alive l with
    | false =>
      obtain ⟨s', h1, h2⟩ := ih hl hs hp hnd' hN hlive hh'
      exact ⟨s', by simpa using h1, h2.skip (.inl ha)⟩
    | true =>
      cases ht : (s.flags l).trapExit with
      | true =>
        obtain ⟨hs1, hf⟩ := sendExit_fade (p := p) hs ha ht hr
        have hal : ∀ q, (s.sendExit l p raw).alive q = s.alive q := by
          intro q
          rw [State.alive, State.sendExit, send_inbox]
          by_cases hq : q = l <;> simp [hq]
        obtain ⟨s', h1, h2⟩ := ih (hf.linksOk hl) hs1 (by rw [hal]; exact hp) hnd'
          (fun q hq => hN q (hf.mono q hq)) (Nat.le_trans (live_le hf.mono) hlive)
          fun hn x hx hxa hxt => (hh' hn x hx (hf.mono x hxa) (by rw [← hf.trap x hxa]; exact hxt)).later hf
        exact ⟨s', by simpa using h1, h2.after hal hs1 hp hlls hf ht⟩
      | false =>
        by_cases hn : reason = .normal
        · obtain ⟨s', h1, h2⟩ := ih hl hs hp hnd' hN hlive hh'
          exact ⟨s', by simpa [hn] using h1, h2.skip (.inr ⟨hn, ht⟩)⟩
        · have hhl := hh hn l (by simp) ha ht
          obtain ⟨t, h1, h2⟩ := hk s l raw hl hs ha hN hlive (hhl l .refl).1 (hhl l .refl).2
            fun _ => hhl
          rw [hr] at h2
          have hf := h2.fade
          have hpt : t.alive p = false := by
            cases hta : t.alive p with
            | false => rfl
            | true =>
              have := hf.mono p hta
              rw [hp] at this
              cases this
          obtain ⟨s', h3, h4⟩ := ih (hf.linksOk hl) h2.sound hpt hnd'
            (fun q hq => hN q (hf.mono q hq)) (Nat.le_trans (live_le hf.mono) hlive)
            fun hn x hx hxa hxt =>
              (hh' hn x hx (hf.mono x hxa) (by rw [← hf.trap x hxa]; exact hxt)).later hf
          refine ⟨s', ?_, h4.killed hn hp ha ht h2⟩
          simpa [hn, h1, Except.bind] using h3

theorem extendReason_unwrap (s : State) (p : Nat) (raw : RawReason) :
    (s.extendReason p raw).unwrap = raw.unwrap := by
  unfold State.extendReason
  split
  · split <;> rfl
  · rfl

theorem killFuel_eq {n : Nat} {raw : RawReason} (he : p ≠ s.eventLoop) (hf : p ≠ s.finalizer)
    (h : (unlinked s p (s.extendReason p raw)).killLinked (State.killFuel n) (s.pcb p).links p
      raw.unwrap (s.extendReason p raw) = .ok t) :
    State.killFuel (n + 1) s p raw = .ok (fired t p (s.extendReason p raw)) := by
  have hlinks : ((s.die p (s.extendReason p raw)).pcb p).links = (s.pcb p).links := by
    simp [Pcb.dead]
  unfold State.killFuel
  unfold unlinked at h
  simp only [he, hf, if_false, hlinks, h]
  rfl

theorem kill_outcome (N n : Nat) : KillSpec N n := by
  induction n with
  | zero =>
    intro s p raw _ _ ha hN hlive
    have hm : p ∈ (List.range N).filter (s.alive ·) := by simpa [ha] using hN p ha
    have := List.length_pos_of_mem hm
    unfold live at hlive
    omega
  | succ n ih =>
    intro s p raw hl hs ha hN hlive he hfin hh
    generalize hext : s.extendReason p raw = ext
    have hru : ext.unwrap = raw.unwrap := by rw [← hext]; exact extendReason_unwrap s p raw
    -- the process itself
    have hfu : Fade raw.unwrap s (unlinked s p ext) _ := unlinked_fade hs hl ha ext
    have hsu : Sound (unlinked s p ext) := unlinked_sound hs hl ext
    have hku : ∀ q, Killed s (unlinked s p ext) q ↔ q = p := fun q => unlinked_killed hl ha ext
    have hpu : (unlinked s p ext).alive p = false := ((hku p).mpr rfl).2
    have hau : ∀ q, q ≠ p → (unlinked s p ext).alive q = s.alive q := by
      intro q hq
      rw [unlinked_alive hl]
      simp [hq]
    have hlu : live N (unlinked s p ext) ≤ n := by
      have := live_lt hfu.mono ((hku p).mpr rfl) (hN p ha)
      omega
    have hlp : ∀ l ∈ (s.pcb p).links, l ≠ p := by
      rintro l hm rfl
      exact hl.irrefl l hm
    have hsig : ∀ l ∈ (s.pcb p).links, (unlinked s p ext).alive l = true →
        ((unlinked s p ext).flags l).trapExit = false → Signals s p l := fun l hm h1 h2 =>
      ⟨hm, hfu.mono l h1, by rw [← hfu.trap l h1]; exact h2⟩
    -- the processes linked to it
    obtain ⟨t, ht, hot⟩ := killLinked_outcome ih hru (hfu.linksOk hl) hsu hpu (hl.nodup p)
      (fun q hq => hN q (hfu.mono q hq)) hlu fun hn l hm h1 h2 => by
        intro q hq
        rw [hfu.eventLoop, hfu.finalizer]
        exact hh hn q (.head (hsig l hm h1 h2) (hfu.signals hq))
    have hft := hot.fade
    have hpt : t.alive p = false := by
      cases hta : t.alive p with
      | false => rfl
      | true =>
        have := hft.mono p hta
        rw [hpu] at this
        cases this
    -- its monitors
    obtain ⟨hs', hf', hmon⟩ : _ ∧ Fade raw.unwrap _ _ _ ∧ _ := fired_fade hot.sound hpt ext
    have hno : ∀ q, ¬ Killed t (fired t p ext) q := not_killed_of_alive (fired_alive t p ext)
    have hkill : ∀ q, Killed s (fired t p ext) q ↔ q = p ∨ Killed (unlinked s p ext) t q := by
      intro q
      rw [killed_trans (fun q h => hfu.mono q (hft.mono q h)) hf'.mono q,
        killed_trans hfu.mono hft.mono q, hku q]
      simp [hno q]
    have hnp : ∀ q, Killed (unlinked s p ext) t q → q ≠ p := by
      rintro q hq rfl
      have := hq.1
      rw [hpu] at this
      cases this
    subst hext
    refine ⟨_, killFuel_eq he hfin ht, hs', ?_, (hkill p).mpr (.inl rfl), fun q hq => ?_,
      fun q hq => ?_, fun hn q y hq hsg => ?_⟩
    · refine (((hfu.trans hsu hft (by simp)).trans hot.sound hf' (by simp)).congr fun q y hy _ => ?_)
      have hyt : ¬ Killed s (unlinked s p (s.extendReason p raw)) y :=
        not_killed_of_later (fun q h => hft.mono q (hf'.mono q h)) hy
      have hmem : q ≠ p → (y ∈ ((unlinked s p (s.extendReason p raw)).pcb q).links ↔
          y ∈ (s.pcb q).links) := fun hq => hfu.mem_links (fun h => hq ((hku q).mp h)) hyt
      rw [hkill q]
      simp only [false_or, or_false]
      constructor
      · rintro (⟨h1, h2⟩ | ⟨rfl, h2⟩)
        · exact ⟨.inr h1, (hmem (hnp q h1)).mp h2⟩
        · exact ⟨.inl rfl, h2⟩
      · rintro ⟨rfl | h1, h2⟩
        · exact .inr ⟨rfl, h2⟩
        · exact .inl ⟨h1, (hmem (hnp q h1)).mpr h2⟩
    · rcases (hkill q).mp hq with rfl | h1
      · obtain ⟨_, b, c⟩ := hft.dead q hpu
        obtain ⟨_, b', c'⟩ := hf'.dead q hpt
        refine ⟨hmon, b' (b ?_), c' (c (unlinked_enqueued hs _).1)⟩
        rw [unlinked_get hl]
        simp [Pcb.dead]
      · obtain ⟨a, b, c⟩ := hot.clean q h1
        obtain ⟨a', b', c'⟩ := hf'.dead q h1.2
        exact ⟨a' a, b' b, c' c⟩
    · rcases (hkill q).mp hq with h1 | h1
      · exact .inl h1
      · obtain ⟨hn, l, hm, h2, h3, h4⟩ := hot.reach q h1
        exact .inr ⟨hn, .head (hsig l hm h2 h3) (hfu.signals h4)⟩
    · rw [hkill y]
      by_cases hyp : y = p
      · exact .inl hyp
      · have hya : (unlinked s p (s.extendReason p raw)).alive y = true := by
          rw [hau y hyp]; exact hsg.2.1
        have hyt : ((unlinked s p (s.extendReason p raw)).flags y).trapExit = false := by
          rw [hfu.trap y hya]; exact hsg.2.2
        rcases (hkill q).mp hq with rfl | h1
        · exact .inr (hot.hit hn y hsg.1 hya hyt)
        · refine .inr (hot.closed hn q y h1 ⟨?_, hya, hyt⟩)
          exact (hfu.mem_links (fun h => hnp q h1 ((hku q).mp h)) fun h => hyp ((hku y).mp h)).mpr hsg.1

namespace LinksOk

theorem congr (h : LinksOk s) (hl : ∀ q, (s'.pcb q).links = (s.pcb q).links) : LinksOk s' := by
  refine ⟨fun p q => ?_, fun p => ?_, fun p => ?_⟩
  · rw [hl p, hl q]; exact h.symm p q
  · rw [hl p]; exact h.irrefl p
  · rw [hl p]; exact h.nodup p

/-- Changes to one pcb that leave its links alone. -/
theorem modify (h : LinksOk s) (p : Nat) (f : Pcb → Pcb)
    (hf : (f (s.pcb p)).links = (s.pcb p).links) : LinksOk (s.modify p f) := by
  refine h.congr fun q => ?_
  by_cases hq : q = p
  · subst hq; simpa using hf
  · simp [hq]

theorem send (h : LinksOk s) (p : Nat) (x : Contents) : LinksOk (s.send p x) :=
  h.congr fun q => (congrArg Pcb.links (send_core s p x q) :)

theorem unlinked (h : LinksOk s) (p : Nat) (r : RawReason) : LinksOk (unlinked s p r) := by
  have hmem : ∀ x y, y ∈ ((Erlang.unlinked s p r).pcb x).links ↔
      x ≠ p ∧ y ≠ p ∧ y ∈ (s.pcb x).links := by
    intro x y
    rw [unlinked_get h]
    by_cases hx : x = p
    · simp [hx]
    · simp [hx, and_comm]
  refine ⟨fun x y => ?_, fun x => ?_, fun x => ?_⟩
  · rw [hmem, hmem]
    exact fun ⟨h1, h2, h3⟩ => ⟨h2, h1, h.symm x y h3⟩
  · rw [hmem]
    exact fun h1 => h.irrefl x h1.2.2
  · rw [unlinked_get h]
    split
    · exact .nil
    · exact (h.nodup x).filter _

theorem kill {raw : RawReason} (ha : s.alive p = true) (hk : s.kill p raw = .ok s')
    (h : LinksOk s) : LinksOk s' := by
  refine kill_rule (R := fun s s' => LinksOk s → LinksOk s') (fun _ h => h)
    (fun _ _ _ h1 h2 h => h2 (h1 h)) (fun s l p r _ h => ?_) (fun s t p r _ _ h1 h => ?_) ha hk h
  · exact (h.modify l _ rfl).send _ _
  · exact (h1 (h.unlinked p r)).congr (fired_links t p r)

theorem link2 (h : LinksOk s) (hpq : p ≠ q) : LinksOk (s.link2 p q) := by
  unfold State.link2
  split
  · exact h
  · rename_i hm
    have hm' : p ∉ (s.pcb q).links := fun hx => hm (h.symm q p hx)
    have hget : ∀ x, (((s.addLink p q).addLink q p).pcb x).links =
        if x = q then p :: (s.pcb q).links else if x = p then q :: (s.pcb p).links
        else (s.pcb x).links := by
      intro x
      by_cases hx : x = q
      · subst hx; simp [State.addLink, Ne.symm hpq]
      · by_cases hx' : x = p
        · subst hx'; simp [State.addLink, hx]
        · simp [State.addLink, hx, hx']
    refine ⟨fun x y => ?_, fun x => ?_, fun x => ?_⟩
    · have hs := h.symm x y
      rw [hget, hget]
      by_cases h1 : x = q
      · by_cases h2 : y = q
        · simp_all
        · by_cases h3 : y = p <;> simp_all
      · by_cases h2 : x = p
        · by_cases h3 : y = q
          · simp_all
          · by_cases h4 : y = p <;> simp_all
        · by_cases h3 : y = q
          · simp_all
          · by_cases h4 : y = p <;> simp_all
    · have hi := h.irrefl x
      rw [hget]
      by_cases h1 : x = q
      · simp_all [Ne.symm hpq]
      · by_cases h2 : x = p <;> simp_all
    · rw [hget]
      by_cases h1 : x = q
      · simpa [h1] using ⟨hm', h.nodup q⟩
      · by_cases h2 : x = p
        · subst h2
          simpa [h1] using ⟨hm, h.nodup x⟩
        · simpa [h1, h2] using h.nodup x

theorem unlink_links (s : State) (p x : Nat) : ((s.unlink p).pcb x).links =
    (s.pcb x).links.filter fun y => ¬ (x = s.self ∧ y = p) ∧ ¬ (x = p ∧ y = s.self) := by
  have hall : ∀ l : List Nat, l = l.filter fun _ => true := fun l => (List.filter_true l).symm
  unfold State.unlink State.removeLink
  simp only [State.pcb, State.modify_get]
  by_cases h1 : x = p
  · by_cases h2 : p = s.self
    · simp only [h1, h2, if_true, List.filter_filter]
      exact List.filter_congr fun y _ => by simp
    · simp only [h1, h2, if_true, if_false]
      exact List.filter_congr fun y _ => by simp
  · by_cases h2 : x = s.self
    · simp only [h1, if_false]
      rw [if_pos h2, h2]
      exact List.filter_congr fun y _ => by simp
    · simp only [h1, h2, if_false]
      rw [hall (s.procs.get x).links, List.filter_filter]
      exact List.filter_congr fun y _ => by simp

theorem unlink (h : LinksOk s) (p : Nat) : LinksOk (s.unlink p) := by
  refine ⟨fun x y => ?_, fun x => ?_, fun x => ?_⟩
  · have hs := h.symm x y
    simp only [unlink_links, List.mem_filter, decide_eq_true_eq]
    tauto
  · rw [unlink_links]
    exact fun h1 => h.irrefl x (List.mem_filter.mp h1).1
  · rw [unlink_links]
    exact (h.nodup x).filter _

theorem make (h : LinksOk s) : LinksOk s.makeProcess.1 := by
  have hblank : s.pcb (s.procs.last + 1) = Pcb.blank := s.procs.beyond _ (by omega)
  refine h.congr fun q => ?_
  by_cases hq : q = s.procs.last + 1
  · subst hq
    rw [makeProcess_new, hblank]
    rfl
  · rw [makeProcess_get hq]

end LinksOk

theorem LinksOk.demonitor (h : LinksOk s) (m : Mon) : LinksOk (s.demonitor m) := by
  have h1 := (h.modify s.self (fun x => { x with monitors := x.monitors.filter (· ≠ m) }) rfl).modify
    m.target (fun x => { x with monitors := x.monitors.filter (· ≠ m) }) rfl
  exact h1.congr fun _ => rfl

theorem LinksOk.move (hm : Move s s') (h : LinksOk s) : LinksOk s' := by
  cases hm with
  | sched hs => exact h.congr hs.links
  | make => exact h.make
  | link p q hne => exact h.link2 hne
  | unlink p => exact h.unlink p
  | send p d => exact h.send p _
  | sendExit target p r _ => exact (h.modify target _ rfl).send _ _
  | kill ha hk => exact h.kill ha hk
  | monitor p _ _ =>
    have h1 : LinksOk { s with
        nextMon := s.nextMon + 1, log := .monitor ⟨s.nextMon, s.self, p⟩ :: s.log } :=
      h.congr fun _ => rfl
    unfold State.monitor
    dsimp only
    split
    · exact (h1.modify s.self (fun x => { x with monitors := ⟨s.nextMon, s.self, p⟩ :: x.monitors })
        rfl).modify p (fun x => { x with monitors := ⟨s.nextMon, s.self, p⟩ :: x.monitors }) rfl
    · exact h1.send _ _
  | demonitor m _ => exact h.demonitor m
  | register name p =>
    unfold State.register
    split
    · exact h
    · split
      · exact h
      · split
        · exact h
        · exact (h.modify p (fun x => { x with name := some name }) rfl).congr fun _ => rfl
  | unregister name =>
    unfold State.unregister
    split
    · exact h
    · rename_i p _
      exact (h.modify p (fun x => { x with name := none }) rfl).congr fun _ => rfl

theorem frameless_links : Frameless Pcb.links :=
  ⟨fun _ _ => rfl, fun _ _ _ => rfl, fun _ _ => rfl, fun _ _ h => (congrArg Pcb.links h :)⟩

theorem LinksOk.work (hw : Work s s') (h : LinksOk s) : LinksOk s' := by
  rcases frameless_links.work hw with ⟨m, _, _, rfl⟩ | hk
  · exact (h.demonitor m).congr (frameless_links.receive (s.demonitor m) (.down m) (some 0))
  · exact h.congr hk

theorem Reachable.linksOk (h : Reachable s) : LinksOk s := by
  refine h.invariant ?_ (fun _ _ => LinksOk.move) fun _ _ => LinksOk.work
  have hb : ∀ p, (bootState.pcb p).links = [] := by
    intro p
    match p with
    | 0 | 1 | 2 | 3 => decide
    | p+4 =>
      rw [boot_blank p]
      rfl
  refine ⟨fun p q => ?_, fun p => ?_, fun p => ?_⟩ <;> simp [hb]

theorem Reachable.sound (h : Reachable s) : Sound s := by
  obtain ⟨rq, sq, hq, _⟩ := h.settled.queues
  obtain ⟨⟨box, hm⟩, _⟩ := h.mail
  exact ⟨⟨rq, sq, hq.shape⟩, box, hm.boxes⟩

/-- Exit signals reach exactly the processes they should, and @kill returns. -/
theorem kill_exact {raw : RawReason} (hl : LinksOk s) (hs : Sound s) (ha : s.alive p = true)
    (he : p ≠ s.eventLoop) (hf : p ≠ s.finalizer) (hh : raw.unwrap ≠ .normal → Harmless s p) :
    ∃ s', s.kill p raw = .ok s' ∧
      (∀ q, s'.alive q = true → s.alive q = true) ∧
      (∀ q, Killed s s' q ↔
        q = p ∨ (raw.unwrap ≠ .normal ∧ Relation.ReflTransGen (Signals s) p q)) ∧
      (∀ t, s'.alive t = true → ∃ l, s'.inbox t = s.inbox t ++ l ∧ (exitsOf s' l).Nodup ∧
        ∀ q r, (q, r) ∈ exitsOf s' l ↔ (s.flags t).trapExit = true ∧ r = raw.unwrap ∧
          Killed s s' q ∧ t ∈ (s.pcb q).links) ∧
      (∀ q, Killed s s' q → (s'.pcb q).links = [] ∧ (s'.pcb q).monitors = [] ∧
        (s'.pcb q).name = none ∧ s'.enqueued q = false ∧ ∀ x, q ∉ (s'.pcb x).links) ∧
      LinksOk s' := by
  have hlive : live (s.procs.last + 1) s ≤ s.procs.last + 2 := by
    unfold live
    have := List.length_filter_le (s.alive ·) (List.range (s.procs.last + 1))
    rw [List.length_range] at this
    omega
  have hN : ∀ q, s.alive q = true → q < s.procs.last + 1 := fun q hq =>
    Nat.lt_succ_of_le (le_last_of_alive hq)
  obtain ⟨s', hk, ho⟩ := kill_outcome (s.procs.last + 1) (s.procs.last + 2) s p raw hl hs ha hN hlive
    he hf hh
  refine ⟨s', hk, ho.fade.mono, fun q => ⟨ho.reach q, fun hq => ?_⟩, ho.fade.exits, fun q hq => ?_,
    ho.fade.linksOk hl⟩
  · rcases hq with rfl | ⟨hn, hr⟩
    · exact ho.root
    · -- the killed processes are closed under signals
      induction hr with
      | refl => exact ho.root
      | tail _ hs ih => exact ho.closed hn _ _ ih hs
  · obtain ⟨h1, h2, h3⟩ := ho.clean q hq
    refine ⟨by rw [ho.fade.links q]; simp [hq], h1, h2, h3, fun x hx => ?_⟩
    rw [ho.fade.links x] at hx
    split at hx
    · cases hx
    · simp [hq] at hx

/-- Three processes linked in a ring, one of which traps exits. -/
theorem kill_exact_ring : ∃ s, bootState.run [.setTrapExit .on, .spawnLink, .spawnLink, .preempt 0,
      .preempt 0, .preempt 0, .link 5 0] = .ok s ∧
    ∃ s', s.kill 4 (.datum (.other 9)) = .ok s' ∧ Killed s s' 5 ∧ ¬ Killed s s' 1 ∧
      ∀ q, Killed s s' q → (s'.pcb q).links = [] := by
  obtain ⟨s, hs, hq⟩ := exists_of_runsTo
    (P := fun s => (s.pcb 4).links = [5, 1] ∧ (s.pcb 5).links = [4, 1] ∧ s.alive 4 = true ∧
      s.alive 5 = true ∧ (s.flags 1).trapExit = true ∧ (s.flags 5).trapExit = false ∧
      s.eventLoop = 2 ∧ s.finalizer = 3)
    (by decide +kernel : runsTo [.setTrapExit .on, .spawnLink, .spawnLink, .preempt 0, .preempt 0,
      .preempt 0, .link 5 0] _ = true)
  obtain ⟨h4, h5, ha4, ha5, ht1, ht5, he, hf⟩ := of_decide_eq_true hq
  -- the signal stays within the two processes that do not trap exits
  have hstay : ∀ q, Relation.ReflTransGen (Signals s) 4 q → q = 4 ∨ q = 5 := by
    intro q hr
    induction hr with
    | refl => exact .inl rfl
    | tail _ hsig ih =>
      obtain ⟨h1, _, h3⟩ := hsig
      rcases ih with rfl | rfl
      · rw [h4] at h1
        simp only [List.mem_cons, List.not_mem_nil, or_false] at h1
        rcases h1 with rfl | rfl
        · exact .inr rfl
        · rw [ht1] at h3; cases h3
      · rw [h5] at h1
        simp only [List.mem_cons, List.not_mem_nil, or_false] at h1
        rcases h1 with rfl | rfl
        · exact .inl rfl
        · rw [ht1] at h3; cases h3
  have hr : Reachable s := ⟨_, hs⟩
  have hh : (RawReason.datum (.other 9)).unwrap ≠ .normal → Harmless s 4 := by
    intro _ q hq
    rw [he, hf]
    rcases hstay q hq with rfl | rfl <;> decide
  obtain ⟨s', hk, _, hkill, _, hclean, _⟩ := kill_exact hr.linksOk hr.sound ha4
    (by rw [he]; decide) (by rw [hf]; decide) hh
  refine ⟨s, hs, s', hk, (hkill 5).mpr (.inr ⟨by simp [RawReason.unwrap], .single ⟨?_, ha5, ht5⟩⟩), ?_,
    fun q hq => (hclean q hq).1⟩
  · rw [h4]; simp
  · rw [hkill 1]
    rintro (h1 | ⟨_, h1⟩)
    · cases h1
    · rcases hstay 1 h1 with h2 | h2 <;> cases h2

end Swish.Erlang
