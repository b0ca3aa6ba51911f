import Swish.Erlang.Mailbox
import Swish.Erlang.SchedulerSafety

/-!
What $receive guarantees over whole runs: which messages it has looked at when
it gives up, and how often a message is handed over.
-/

set_option autoImplicit false

namespace Swish.Erlang
open CircularList

variable {s s' t : State} {box : Nat → List Nat} {p q k : Nat} {W : Matcher → Contents → Prop}

theorem blank_mail : MailOk W blankState fun _ => [] := by
  have hdead : ∀ p, blankState.alive p = false := fun _ => rfl
  refine ⟨⟨fun p hp => ?_, fun _ => .nil, by simp, by simp [blankState], by simp [blankState],
    fun p k hp => ?_, fun p k hp => ?_, by simp [blankState]⟩, fun p r hr => ?_⟩
  · rw [hdead p] at hp; cases hp
  · rw [hdead p] at hp; cases hp
  · rw [hdead p] at hp; cases hp
  · cases hr

theorem boot_mail : MailOk W bootState fun _ => [] := by
  have h1 : MailOk W (blankState.makeProcess.1.modify 1 fun x => { x with cont := false }) fun _ => [] :=
    blank_mail.make.modify_same 1 _ rfl rfl
  exact (h1.make.sched (SchedOnly.enqueue _ _ _ _)).make.sched (SchedOnly.enqueue _ _ _ _)

theorem inbox_eq (h : Boxes s box) (ha : s.alive p = true) : s.inbox p = box p := by
  have hlen : (box p).length ≤ s.nextMsg := by
    have hsub : box p ⊆ List.range s.nextMsg := by
      intro k hk
      exact List.mem_range.mpr (h.bound p k (h.inserted p k hk)).1
    simpa using (List.subperm_of_subset (h.nodup p) hsub).length_le
  unfold State.inbox
  rw [(h.ring p ha).toList (by simpa using hlen)]
  generalize box p = l
  induction l with
  | nil => rfl
  | cons k l ih => rw [List.map_cons, List.filterMap_cons]; simp [ih]

/-- Some $receive of p stands at a removed message from which the stale next
pointers lead to the end of the inbox. -/
def State.DanglingCursor (s : State) (p : Nat) : Prop :=
  ∃ r c, Frame.receive r ∈ (s.pcb p).stack ∧ r.cursor = .msg c ∧ Dangling s.mail c

/-- No message comes in for a process with a dangling cursor. -/
def StepSafe (s s' : State) : Prop :=
  ∀ p k, s.DanglingCursor p → Event.insert p k ∈ s'.log → Event.insert p k ∈ s.log

def SafeFrom : State → List Action → Prop
  | _, [] => True
  | s, a :: as => ∀ s', s.step a = .ok s' → StepSafe s s' ∧ SafeFrom s' as

/-- Every message must be seen. -/
def AllOf : Matcher → Contents → Prop := fun _ _ => True

/-- A chain of moves under which no message comes in for a dangling cursor. The
cursors that dangle on the way dangled at the start. -/
theorem posts_mail (h : MailOk AllOf s box) (hp : Posts s t) (hs : StepSafe s t) :
    (∃ box', MailOk AllOf t box') ∧ (∀ p, t.DanglingCursor p → s.DanglingCursor p) ∧
      s.nextMsg ≤ t.nextMsg := by
  induction hp with
  | refl => exact ⟨⟨box, h⟩, fun _ hd => hd, Nat.le_refl _⟩
  | @tail u v _ hm ih =>
    cases hm with
    | calm hc =>
      obtain ⟨es, hlog, _⟩ := hc.log
      have hu : StepSafe s u := fun p k hd hk => hs p k hd (by rw [hlog]; simp [hk])
      obtain ⟨⟨box', h1⟩, h2, h3⟩ := ih hu
      refine ⟨⟨box', h1.calm hc⟩, fun p hd => h2 p ?_, by rw [hc.nextMsg]; exact h3⟩
      obtain ⟨r, c, hr, hrc, hd⟩ := hd
      exact ⟨r, c, (hc.frames p r hr).2, hrc, by rw [← hc.mail]; exact hd⟩
    | make =>
      obtain ⟨⟨box', h1⟩, h2, h3⟩ := ih hs
      refine ⟨⟨box', h1.make⟩, fun p hd => h2 p ?_, h3⟩
      obtain ⟨r, c, hr, hrc, hd⟩ := hd
      have hp : p ≠ u.procs.last + 1 := by
        rintro rfl
        rw [makeProcess_new] at hr
        cases hr
      exact ⟨r, c, by rw [← makeProcess_get hp]; exact hr, hrc, MailOk.make_dangling hd⟩
    | insert p x ha =>
      have hu : StepSafe s u := fun p k hd hk => hs p k hd (List.mem_cons_of_mem _ hk)
      obtain ⟨⟨box', h1⟩, h2, h3⟩ := ih hu
      refine ⟨⟨_, h1.insert ha x fun r c hr hrc hd => ?_⟩, fun q hd => h2 q ?_,
        Nat.le_succ_of_le h3⟩
      · -- the new message would be an old one
        have hk := hs p u.nextMsg (h2 p ⟨r, c, hr, hrc, hd⟩) (by simp [State.insertMsg])
        have := (h.boxes.bound p _ hk).1
        omega
      · obtain ⟨r, c, hr, hrc, hd⟩ := hd
        have hr : Frame.receive r ∈ (u.pcb q).stack := hr
        exact ⟨r, c, hr, hrc, h1.boxes.insert_dangling ha hd (h1.cursor_inserted hr hrc)
          (h1.calls q r hr).1⟩

theorem works_mail (h : MailOk W s box) (hw : Works s t) : ∃ box', MailOk W t box' :=
  invariant_of_chain (I := fun t => ∃ box', MailOk W t box') (fun _ _ hw hI => hI.elim fun _ h =>
    h.work hw) hw ⟨box, h⟩

theorem safeFrom_mail {as : List Action} (h : MailOk AllOf s box) (hf : Fine (.ok s))
    (hs : SafeFrom s as) (hr : s.run as = .ok t) : ∃ box', MailOk AllOf t box' := by
  induction as generalizing s box with
  | nil => cases hr; exact ⟨box, h⟩
  | cons a as ih =>
    unfold State.run at hr
    have hf1 := hf.step a
    cases hstep : s.step a with
    | error e => rw [hstep] at hr; cases hr
    | ok u =>
      rw [hstep] at hr hf1
      obtain ⟨h1, h2⟩ := hs u hstep
      rcases step_cases hf.2 hstep with h3 | h3
      · obtain ⟨box', h4⟩ := (posts_mail h (moves_posts h3) h1).1
        exact ih h4 hf1 h2 hr
      · obtain ⟨box', h4⟩ := works_mail h h3
        exact ih h4 hf1 h2 hr

/-- At the end of the inbox $receive has tried every message in it, provided that
no message ever came in for a dangling cursor. -/
theorem receive_missed_nothing {as : List Action} (hr : bootState.run as = .ok s)
    (hs : SafeFrom bootState as) {r : Receive} {rest : List Frame}
    (hk : (s.pcb s.self).stack = .receive r :: rest)
    (hn : (s.mail r.cursor).next = some (.inbox q)) :
    ∀ i ∈ s.inbox s.self, Event.offer r.call i ∈ s.log := by
  obtain ⟨box, h⟩ := safeFrom_mail boot_mail boot_fine hs hr
  have hm : Frame.receive r ∈ (s.pcb s.self).stack := by simp [hk]
  obtain ⟨ha, hcall⟩ := h.calls s.self r hm
  intro i hi
  rw [inbox_eq h.boxes ha] at hi
  exact hcall.offered i hi (h.end_of_inbox hm hn hi trivial)

theorem leave_log (s : State) (r : Receive) (rest : List Frame) :
    ∃ es, (∀ e ∈ es, e.isMail = false) ∧ (s.leave r rest).log = es ++ s.log := by
  unfold State.leave
  cases r.matcher with
  | user => exact ⟨[], by simp, rfl⟩
  | down m => exact ⟨[.flushed m], by simp [Event.isMail], rfl⟩

/-- What work adds to the history: a message is handed over to a clause whose
matcher has returned or to the trap-exit handler, or to nobody. -/
theorem work_log (h : Work s s') : ∃ es, (∀ e ∈ es, e.isMail = false) ∧
    (s'.log = es ++ s.log ∨
      (∃ r k, Frame.receive r ∈ (s.pcb s.self).stack ∧ r.phase = .matching ∧ r.cursor = .msg k ∧
        s'.log = es ++ (s.consume k (.clause r.call)).log) ∨
      (∃ k, s.alive s.self = true ∧ s.getExitMsg (s.nextMsg + 1) (.inbox s.self) = some k ∧
        s'.log = es ++ (s.consume k (.handler s.self)).log)) := by
  cases h with
  | sched hs =>
    obtain ⟨es, he, hes⟩ := (Calm.sched hs).log
    exact ⟨es, hes, .inl he⟩
  | flags | trap | receive | restack | skip | reject => exact ⟨[], by simp, .inl rfl⟩
  | flush m => exact ⟨[.demonitor m], by simp [Event.isMail], .inl rfl⟩
  | park => exact ⟨[.park s.self], by simp [Event.isMail], .inl rfl⟩
  | offer r rest k => exact ⟨[.offer r.call k], by simp [Event.isMail], .inl rfl⟩
  | timeout r rest =>
    obtain ⟨es, h1, h2⟩ := leave_log s r rest
    exact ⟨es, h1, .inl h2⟩
  | accept r rest k hs hr hk =>
    obtain ⟨es, h1, h2⟩ := leave_log (s.consume k (.clause r.call)) r rest
    exact ⟨es, h1, .inr (.inl ⟨r, k, by simp [hs], hr, hk, h2⟩)⟩
  | take k ha hk => exact ⟨[], by simp, .inr (.inr ⟨k, ha, hk, rfl⟩)⟩

/-- The steps of $receive itself insert nothing. -/
theorem works_insert (h : Works s t) (hk : Event.insert p k ∈ t.log) : Event.insert p k ∈ s.log := by
  have hcons : ∀ (u : State) i c, Event.insert p k ∈ (u.consume i c).log → Event.insert p k ∈ u.log := by
    intro u i c h1
    rcases List.mem_cons.mp h1 with h2 | h2
    · cases h2
    · exact h2
  induction h with
  | refl => exact hk
  | tail _ hw ih =>
    obtain ⟨es, hes, hlog⟩ := work_log hw
    have hnot : Event.insert p k ∉ es := fun hm => by
      have := hes _ hm
      cases this
    refine ih ?_
    rcases hlog with hlog | ⟨r, i, _, _, _, hlog⟩ | ⟨i, _, _, hlog⟩
    · rw [hlog, List.mem_append] at hk
      exact hk.resolve_left hnot
    · rw [hlog, List.mem_append] at hk
      exact hcons _ _ _ (hk.resolve_left hnot)
    · rw [hlog, List.mem_append] at hk
      exact hcons _ _ _ (hk.resolve_left hnot)

theorem safeFrom_receive {as : List Action} (hf : Fine (.ok s))
    (h : ∀ a ∈ as, ∀ u, u.alive u.self = true → ∀ u', u.step a = .ok u' → Works u u') :
    SafeFrom s as := by
  induction as generalizing s with
  | nil => trivial
  | cons a as ih =>
    intro s' hs
    have hf1 := hf.step a
    rw [hs] at hf1
    exact ⟨fun p k _ hk => works_insert (h a (by simp) s hf.2 s' hs) hk,
      ih hf1 fun b hb => h b (by simp [hb])⟩

/-- A message comes in before $receive is called and is refused. -/
theorem receive_missed_nothing_refused : ∃ s, bootState.run
    [.send 1 7, .receive none, .find false 0 0, .find false 0 0, .matcher false] = .ok s ∧
    s.inbox 1 = [0] ∧ ∀ i ∈ s.inbox s.self, Event.offer 0 i ∈ s.log := by
  obtain ⟨s, hs, hq⟩ := exists_of_runsTo
    (P := fun s => (s.pcb s.self).stack = [.receive ⟨0, .user, none, .msg 0, .find1⟩] ∧
      (s.mail (.msg 0)).next = some (.inbox 1) ∧ s.inbox 1 = [0])
    (by decide +kernel : runsTo [.send 1 7, .receive none, .find false 0 0, .find false 0 0,
      .matcher false] _ = true)
  obtain ⟨h1, h2, h3⟩ := of_decide_eq_true hq
  refine ⟨s, hs, h3, receive_missed_nothing hs ?_ h1 h2⟩
  intro s1 hs1
  have hf1 := boot_fine.step (.send 1 7)
  rw [hs1] at hf1
  refine ⟨fun p k hd _ => ?_, safeFrom_receive hf1 fun a ha u hu u' hu' => ?_⟩
  · obtain ⟨r, c, hr, _⟩ := hd
    rw [(boot_pcb p).2.1] at hr
    cases hr
  · simp only [List.mem_cons, List.not_mem_nil, or_false] at ha
    rcases ha with rfl | rfl | rfl | rfl
    · unfold State.step at hu'
      dsimp only at hu'
      split at hu'
      · cases hu'
        exact .single (.receive u none hu)
      · cases hu'
    · exact receiveStep_works (a := .find false 0 0) hu hu'
    · exact receiveStep_works (a := .find false 0 0) hu hu'
    · exact receiveStep_works (a := .matcher false) hu hu'

/-- A matcher takes the last message itself with a nested $receive; the message
that comes in while the cursor dangles is not seen. -/
theorem receive_missed_one : ¬ ∀ s, Reachable s → ∀ r rest q,
    (s.pcb s.self).stack = .receive r :: rest → r.phase = .find1 →
    (s.mail r.cursor).next = some (.inbox q) →
    ∀ i ∈ s.inbox s.self, Event.offer r.call i ∈ s.log := by
  intro h
  obtain ⟨s, hs, hq⟩ := exists_of_runsTo
    (P := fun s => (s.pcb s.self).stack = [.receive ⟨0, .user, none, .msg 0, .find1⟩] ∧
      (s.mail (.msg 0)).next = some (.inbox 1) ∧ 1 ∈ s.inbox s.self ∧ Event.offer 0 1 ∉ s.log)
    (by decide +kernel : runsTo [.send 1 7, .receive none, .find false 0 0, .find false 0 0,
      .receive none, .find false 0 0, .find false 0 0, .matcher true, .preempt 0, .send 1 8,
      .preempt 0, .preempt 0, .matcher false] _ = true)
  obtain ⟨h1, h2, h3, h4⟩ := of_decide_eq_true hq
  exact h4 (h s ⟨_, hs⟩ _ _ _ h1 rfl h2 1 h3)

/-- The message is taken out of the inbox by whoever gets it. -/
def Event.takes (k : Nat) : Event → Bool
  | .consume k' _ taken => k' = k && taken
  | _ => false

/-- How messages were handed over. -/
structure HandedOver (es : List Event) : Prop where
  once : ∀ k, (es.filter (Event.takes k)).length ≤ 1
  late : ∀ l₁ l₂ k c, es = l₁ ++ .consume k c false :: l₂ → ∃ r l₃ c' l₄,
    c = .clause r ∧ l₂ = l₃ ++ .consume k c' true :: l₄ ∧ Event.offer r k ∈ l₄

theorem Event.takes_of_isMail {e : Event} (h : e.isMail = false) (k : Nat) : e.takes k = false := by
  cases e <;> simp_all [Event.isMail, Event.takes]

namespace HandedOver

variable {es : List Event}

theorem cons (h : HandedOver es) {e : Event} (he : e.isMail = false) : HandedOver (e :: es) := by
  refine ⟨fun k => ?_, fun l₁ l₂ k c hs => ?_⟩
  · rw [List.filter_cons, Event.takes_of_isMail he]
    simpa using h.once k
  · cases l₁ with
    | nil =>
      cases hs
      cases he
    | cons e' l₁ =>
      cases hs
      exact h.late l₁ l₂ k c rfl

theorem insert (h : HandedOver es) (p k : Nat) : HandedOver (.insert p k :: es) := by
  refine ⟨fun k => ?_, fun l₁ l₂ k c hs => ?_⟩
  · simpa [Event.takes] using h.once k
  · cases l₁ with
    | nil => cases hs
    | cons e' l₁ =>
      cases hs
      exact h.late l₁ l₂ k c rfl

theorem append (h : HandedOver es) {fs : List Event} (hf : ∀ e ∈ fs, e.isMail = false) :
    HandedOver (fs ++ es) := by
  induction fs with
  | nil => exact h
  | cons f fs ih => exact (ih fun e he => hf e (by simp [he])).cons (hf f (by simp))

theorem take (h : HandedOver es) (hk : ∀ c, Event.consume k c true ∉ es) (c : Consumer) :
    HandedOver (.consume k c true :: es) := by
  refine ⟨fun j => ?_, fun l₁ l₂ j c' hs => ?_⟩
  · rw [List.filter_cons]
    by_cases hj : k = j
    · subst hj
      have hnil : es.filter (Event.takes k) = [] := by
        rw [List.filter_eq_nil_iff]
        intro e he ht
        cases e with
        | consume k' c' taken =>
          simp only [Event.takes, Bool.and_eq_true, decide_eq_true_eq] at ht
          obtain ⟨rfl, rfl⟩ := ht
          exact hk c' he
        | _ => cases ht
      simp [hnil, Event.takes]
    · have := h.once j
      simpa [Event.takes, hj] using this
  · cases l₁ with
    | nil => cases hs
    | cons e' l₁ =>
      cases hs
      exact h.late l₁ l₂ j c' rfl

/-- A clause gets a message that somebody else took after it was offered. -/
theorem again (h : HandedOver es) {r : Nat} (ho : OfferedFirst es r k)
    (ht : ∃ c, Event.consume k c true ∈ es) : HandedOver (.consume k (.clause r) false :: es) := by
  refine ⟨fun j => ?_, fun l₁ l₂ j c' hs => ?_⟩
  · have := h.once j
    simpa [Event.takes] using this
  · cases l₁ with
    | nil =>
      cases hs
      obtain ⟨a, b, he, hb⟩ := ho
      obtain ⟨c, hc⟩ := ht
      rw [he] at hc ⊢
      have hca : Event.consume k c true ∈ a := by
        rcases List.mem_append.mp hc with h1 | h1
        · exact h1
        · rcases List.mem_cons.mp h1 with h2 | h2
          · cases h2
          · exact absurd h2 (hb c)
      obtain ⟨l₃, l₄, hl⟩ := List.append_of_mem hca
      exact ⟨r, l₃, c, l₄ ++ .offer r k :: b, rfl, by rw [hl]; simp, by simp⟩
    | cons e' l₁ =>
      cases hs
      exact h.late l₁ l₂ j c' rfl

end HandedOver

/-- No message need be seen. -/
def NoneOf : Matcher → Contents → Prop := fun _ _ => False

def MailHistory (s : State) : Prop := (∃ box, MailOk NoneOf s box) ∧ HandedOver s.log

theorem MailHistory.post (hp : Post s s') (h : MailHistory s) : MailHistory s' := by
  obtain ⟨⟨box, h⟩, hl⟩ := h
  cases hp with
  | calm hc =>
    obtain ⟨es, he, hes⟩ := hc.log
    exact ⟨⟨box, h.calm hc⟩, by rw [he]; exact hl.append hes⟩
  | make => exact ⟨⟨box, h.make⟩, hl⟩
  | insert p x ha => exact ⟨⟨_, h.insert ha x fun _ _ _ _ _ => id⟩, hl.insert p _⟩

theorem HandedOver.consume (hl : HandedOver s.log) (h : MailOk NoneOf s box) (ha : s.alive p = true)
    (hk : Event.insert p k ∈ s.log) {c : Consumer}
    (hc : (s.mail (.msg k)).prev = none → ∃ r, c = .clause r ∧ OfferedFirst s.log r k) :
    HandedOver (s.consume k c).log := by
  by_cases hp : (s.mail (.msg k)).prev = none
  · obtain ⟨r, rfl, ho⟩ := hc hp
    rw [Boxes.consume_taken hp]
    refine hl.again ho (h.boxes.taken p k ha hk fun hm => ?_)
    exact h.boxes.prev_of_mem ha hm hp
  · rw [Boxes.consume_log hp]
    refine hl.take (fun c' hc' => ?_) c
    obtain ⟨q, h1, h2⟩ := h.boxes.once k c' hc'
    have := h.boxes.owner q p k h1 hk
    subst this
    exact h2 (h.boxes.mem_of_prev ha hk hp)

theorem MailHistory.work (hw : Work s s') (h : MailHistory s) : MailHistory s' := by
  obtain ⟨⟨box, h⟩, hl⟩ := h
  refine ⟨h.work hw, ?_⟩
  obtain ⟨es, hes, hlog⟩ := work_log hw
  rcases hlog with hlog | ⟨r, k, hr, hph, hk, hlog⟩ | ⟨k, ha, hk, hlog⟩
  · rw [hlog]; exact hl.append hes
  · rw [hlog]
    obtain ⟨ha, hcall⟩ := h.calls s.self r hr
    refine (hl.consume h ha (h.cursor_inserted hr hk) fun _ => ⟨r.call, rfl, ?_⟩).append hes
    obtain ⟨k', h1, h2⟩ := hcall.matching hph
    rw [hk] at h1
    cases h1
    exact h2
  · rw [hlog]
    have hm := MailOk.getExitMsg_mem h.boxes ha (by simp) hk
    refine (hl.consume h ha (h.boxes.inserted _ k hm) fun hp => ?_).append hes
    exact absurd hp (h.boxes.prev_of_mem ha hm)

theorem Reachable.mail (h : Reachable s) : MailHistory s := by
  refine h.invariant ⟨⟨_, boot_mail⟩, ?_⟩ (fun s s' hm hs => ?_) (fun _ _ hw hs => hs.work hw)
  · have hb : ∀ e ∈ bootState.log, e.isMail = false := by decide
    have : HandedOver (bootState.log ++ []) := HandedOver.append
      ⟨by simp, fun l₁ l₂ k c he => by simp at he⟩ hb
    rwa [List.append_nil] at this
  · exact invariant_of_chain (fun _ _ hp h => MailHistory.post hp h) (move_posts hm) hs

/-- Every message is taken at most once. It can be handed over again, but only
to a clause whose matcher was called on it before it was taken. -/
theorem message_taken_once (h : Reachable s) :
    (∀ k, (s.log.filter (Event.takes k)).length ≤ 1) ∧
      ∀ l₁ l₂ k c, s.log = l₁ ++ .consume k c false :: l₂ → ∃ r l₃ c' l₄,
        c = .clause r ∧ l₂ = l₃ ++ .consume k c' true :: l₄ ∧ Event.offer r k ∈ l₄ :=
  ⟨h.mail.2.once, h.mail.2.late⟩

theorem message_taken_once_nested : ∃ s, bootState.run
    [.send 1 7, .receive none, .find false 0 0, .find false 0 0, .receive none, .find false 0 0,
      .find false 0 0, .matcher true, .matcher true] = .ok s ∧
    Event.consume 0 (.clause 1) true ∈ s.log ∧ Event.consume 0 (.clause 0) false ∈ s.log ∧
    (s.log.filter (Event.takes 0)).length ≤ 1 := by
  obtain ⟨s, hs, hq⟩ := exists_of_runsTo
    (P := fun s => Event.consume 0 (.clause 1) true ∈ s.log ∧
      Event.consume 0 (.clause 0) false ∈ s.log)
    (by decide +kernel : runsTo [.send 1 7, .receive none, .find false 0 0, .find false 0 0,
      .receive none, .find false 0 0, .find false 0 0, .matcher true, .matcher true] _ = true)
  obtain ⟨h1, h2⟩ := of_decide_eq_true hq
  exact ⟨s, hs, h1, h2, (message_taken_once ⟨_, hs⟩).1 0⟩

/-- The body of two clauses runs for one message. -/
theorem message_handed_over_twice : ¬ ∀ s, Reachable s → ∀ k c c' b b',
    Event.consume k c b ∈ s.log → Event.consume k c' b' ∈ s.log → c = c' := by
  intro h
  obtain ⟨s, hs, hq⟩ := exists_of_runsTo
    (P := fun s => Event.consume 0 (.clause 1) true ∈ s.log ∧
      Event.consume 0 (.clause 0) false ∈ s.log)
    (by decide +kernel : runsTo [.send 1 7, .receive none, .find false 0 0, .find false 0 0,
      .receive none, .find false 0 0, .find false 0 0, .matcher true, .matcher true] _ = true)
  obtain ⟨h1, h2⟩ := of_decide_eq_true hq
  exact absurd (h s ⟨_, hs⟩ 0 _ _ _ _ h1 h2) (by decide)

end Swish.Erlang
