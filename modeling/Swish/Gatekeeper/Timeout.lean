import Swish.Gatekeeper.Deadlock

/-!
Enter requests that time out. gen-server:call gives up in the caller only, so the request
stays in the inbox or in a queue of the server, and the caller may make others.
-/

set_option autoImplicit false

namespace Swish.Gatekeeper

open Swish.Lib Relation

variable {state : List Mutex} {mutex : Mutex} {p r : Nat} {w w' : World} {a : Action}

/-- A process makes a call when its calls before it are answered or have timed out. -/
def Waiting (w : World) : Action → Prop
  | .call p _ => ∀ x ∈ w.unanswered, x.1.process = p → x.1.tag ∈ w.expired
  | _ => True

instance (w : World) : (a : Action) → Decidable (Waiting w a)
  | .call p _ => inferInstanceAs (Decidable (∀ x ∈ w.unanswered, x.1.process = p → x.1.tag ∈ w.expired))
  | .handle | .die _ | .timeout _ => .isTrue trivial

/-- An enter request does not time out before the server answers it. -/
def Patient (w : World) : Action → Prop
  | .timeout tag => ∀ x ∈ w.unanswered, x.1.tag = tag → x.2.isEnter = false
  | _ => True

instance (w : World) : (a : Action) → Decidable (Patient w a)
  | .timeout tag => inferInstanceAs (Decidable (∀ x ∈ w.unanswered, x.1.tag = tag → x.2.isEnter = false))
  | .handle | .die _ | .call _ _ => .isTrue trivial

/-- The request that gets a resource. -/
def Event.handedTo : Event → Option From
  | .granted f _ _ _ => some f
  | .reentered f _ _ => some f
  | _ => none

/-- No step gives a resource to a request that has timed out, unless its process is dead. -/
def NoTrace (w : World) : Prop :=
  ∀ a w' new, w.step a = .ok w' → w'.log = new ++ w.log → ∀ e ∈ new, ∀ f, e.handedTo = some f →
    f.tag ∈ w.expired → f.process ∈ w.dead

/-- deadlock? comes to an end for every process and every mutex. -/
def Terminates (state : List Mutex) : Prop :=
  ∀ p, ∀ mutex ∈ state, ∃ n, (deadlockFuel n p mutex state).isSome

theorem mem_unanswered {x : From × Request} :
    x ∈ w.unanswered ↔ (∃ y ∈ w.state, ∃ f ∈ y.waiters, (f, .enter y.resource) = x) ∨ x ∈ calls w.inbox := by
  unfold World.unanswered
  rw [List.mem_append, List.mem_flatMap]
  simp only [List.mem_map]
  rfl

/-- Requests come from calls only. -/
theorem leaveMutex_unanswered {x : From × Request} (hm : mutex ∈ state)
    (hx : x ∈ (leaveMutex w mutex state).unanswered) :
    (∃ y ∈ state, ∃ f ∈ y.waiters, (f, .enter y.resource) = x) ∨ x ∈ calls w.inbox := by
  rw [mem_unanswered] at hx
  unfold leaveMutex at hx
  dsimp only at hx
  split at hx
  · rw [calls_demonitorFlush] at hx
    rcases hx with ⟨y, hy, h⟩ | hx
    · exact .inl ⟨y, (mem_remq.mp hy).1, h⟩
    · exact .inr hx
  · rename_i f waiters hw
    rw [calls_enterMutex, calls_demonitorFlush] at hx
    rcases hx with ⟨y, hy, g, hg, h⟩ | hx
    · rcases List.mem_cons.mp hy with rfl | hy
      · exact .inl ⟨mutex, hm, g, by simp [hw, show g ∈ waiters from hg], h⟩
      · exact .inl ⟨y, (mem_remq.mp hy).1, g, hg, h⟩
    · exact .inr hx

theorem step_unanswered (hs : w.step a = .ok w') {x : From × Request} (hx : x ∈ w'.unanswered) :
    x ∈ w.unanswered ∨ ∃ p request, a = .call p request ∧ x = (⟨p, w.nextTag⟩, request) := by
  -- a tuple that replaces another one adds no waiter
  have hreplace : ∀ {x' mutex : Mutex} {rest : List Message},
      (∃ y ∈ x' :: remq mutex w.state, ∃ f ∈ y.waiters, (f, .enter y.resource) = x) ∨ x ∈ calls rest →
      mutex ∈ w.state → x'.waiters = mutex.waiters → x'.resource = mutex.resource →
      (∀ c ∈ calls rest, c ∈ calls w.inbox) → x ∈ w.unanswered := by
    intro x' mutex rest h hm hw hr hrest
    rcases h with ⟨y, hy, f, hf, he⟩ | h
    · rcases List.mem_cons.mp hy with rfl | hy
      · exact mem_unanswered.mpr (.inl ⟨mutex, hm, f, hw ▸ hf, hr ▸ he⟩)
      · exact mem_unanswered.mpr (.inl ⟨y, (mem_remq.mp hy).1, f, hf, he⟩)
    · exact mem_unanswered.mpr (.inr (hrest x h))
  have hrest : ∀ {m : Message} {rest : List Message}, w.inbox = m :: rest → ∀ c ∈ calls rest, c ∈ calls w.inbox := by
    intro m rest hi c hc
    rw [hi, show m :: rest = [m] ++ rest from rfl, calls_append]
    exact List.mem_append_right _ hc
  cases World.steps_of_step hs with
  | call p request hp =>
    rw [mem_unanswered, calls_append, List.mem_append, ← or_assoc] at hx
    rcases hx with hx | hx
    · exact .inl (mem_unanswered.mpr hx)
    · exact .inr ⟨p, request, rfl, List.mem_singleton.mp hx⟩
  | granted f r rest hi hr =>
    left
    rw [mem_unanswered, calls_enterMutex] at hx
    rw [mem_unanswered]
    rcases hx with ⟨y, hy, g, hg, he⟩ | hx
    · rcases List.mem_cons.mp hy with rfl | hy
      · cases hg
      · exact .inl ⟨y, hy, g, hg, he⟩
    · exact .inr (hrest hi x hx)
  | reentered f mutex rest hi hm hp => exact .inl (hreplace (mem_unanswered.mp hx) hm rfl rfl (hrest hi))
  | deadlock f mutex rest hi hm hp hd =>
    exact .inl (mem_unanswered.mpr ((mem_unanswered.mp hx).imp id (hrest hi x)))
  | queued f mutex rest hi hm hp hd =>
    left
    rw [mem_unanswered] at hx ⊢
    rcases hx with ⟨y, hy, g, hg, he⟩ | hx
    · rcases List.mem_cons.mp hy with rfl | hy
      · rcases List.mem_append.mp hg with hg | hg
        · exact .inl ⟨mutex, hm, g, hg, he⟩
        · right
          rw [hi, ← he, List.mem_singleton.mp hg]
          exact List.mem_cons_self ..
      · exact .inl ⟨y, (mem_remq.mp hy).1, g, hg, he⟩
    · exact .inr (hrest hi x hx)
  | unowned f r rest hi hr => exact .inl (mem_unanswered.mpr ((mem_unanswered.mp hx).imp id (hrest hi x)))
  | left f mutex rest hi hm hp hc => exact .inl (hreplace (mem_unanswered.mp hx) hm rfl rfl (hrest hi))
  | last f mutex rest hi hm hp hc =>
    exact .inl (mem_unanswered.mpr ((leaveMutex_unanswered hm hx).imp id (hrest hi x)))
  | down mutex rest hi hm =>
    exact .inl (mem_unanswered.mpr ((leaveMutex_unanswered hm hx).imp id (hrest hi x)))
  | die p hp =>
    rw [mem_unanswered, calls_die] at hx
    exact .inl (mem_unanswered.mpr hx)
  | timeout tag ht => exact .inl hx

/-- What leave-mutex records: that the first waiter owns the mutex. -/
theorem leaveMutex_log (w : World) (mutex : Mutex) (state : List Mutex) : ∃ new, (leaveMutex w mutex state).log = new ++ w.log ∧
    ∀ e ∈ new, ∀ f, e.handedTo = some f → f ∈ mutex.waiters := by
  unfold leaveMutex
  dsimp only
  split
  · exact ⟨[], rfl, by simp⟩
  · rename_i f waiters hw
    refine ⟨[.granted f mutex.resource _ (remq mutex state)], enterMutex_log _ f waiters, fun e he g hg => ?_⟩
    rw [List.mem_singleton.mp he] at hg
    cases hg
    simp [hw]

/-- A resource goes to a request that has no answer yet. -/
theorem step_handedTo (hs : w.step a = .ok w') {new : List Event} (hl : w'.log = new ++ w.log) {e : Event}
    (he : e ∈ new) {f : From} (hf : e.handedTo = some f) : ∃ r, (f, .enter r) ∈ w.unanswered := by
  have hfirst : ∀ {g : From} {r : Nat} {rest : List Message}, w.inbox = .call g (.enter r) :: rest →
      ∃ r, (g, .enter r) ∈ w.unanswered := by
    intro g r rest hi
    exact ⟨r, mem_unanswered.mpr (.inr (by simp [hi, calls]))⟩
  have hmem : ∀ l : List Event, w'.log = l ++ w.log → e ∈ l := by
    intro l h
    exact List.append_cancel_right (hl.symm.trans h) ▸ he
  have hone : ∀ e' : Event, w'.log = e' :: w.log → e = e' := fun e' h => List.mem_singleton.mp (hmem [e'] h)
  have hnone : w'.log ≠ w.log := fun h => by cases hmem [] h
  have hwaiter : ∀ {mutex : Mutex} {g : From}, mutex ∈ w.state → g ∈ mutex.waiters →
      ∃ r, (g, .enter r) ∈ w.unanswered := by
    intro mutex g hm hg
    exact ⟨mutex.resource, mem_unanswered.mpr (.inl ⟨mutex, hm, g, hg, rfl⟩)⟩
  cases World.steps_of_step hs with
  | call p request hp => exact absurd rfl hnone
  | granted g r rest hi hr =>
    rw [hone _ (enterMutex_log _ g [])] at hf
    cases hf
    exact hfirst hi
  | reentered g mutex rest hi hm hp =>
    rw [hone _ rfl] at hf
    cases hf
    exact hfirst hi
  | deadlock g mutex rest hi hm hp hd =>
    rw [hone _ rfl] at hf
    cases hf
  | queued g mutex rest hi hm hp hd =>
    rw [hone _ rfl] at hf
    cases hf
  | unowned g r rest hi hr =>
    rw [hone _ rfl] at hf
    cases hf
  | left g mutex rest hi hm hp hc =>
    rw [hone _ rfl] at hf
    cases hf
  | last g mutex rest hi hm hp hc =>
    obtain ⟨l, hlog, hto⟩ := leaveMutex_log { w with inbox := rest, log := .left g mutex.resource :: w.log }
      mutex w.state
    have he' := hmem (l ++ [.left g mutex.resource]) (by simpa using hlog)
    rcases List.mem_append.mp he' with he' | he'
    · exact hwaiter hm (hto e he' f hf)
    · rw [List.mem_singleton.mp he'] at hf
      cases hf
  | down mutex rest hi hm =>
    obtain ⟨l, hlog, hto⟩ := leaveMutex_log { w with inbox := rest } mutex w.state
    exact hwaiter hm (hto e (hmem l hlog) f hf)
  | die p hp => exact absurd rfl hnone
  | timeout tag ht => exact absurd rfl hnone

/-- No enter request has timed out. -/
structure Unexpired (w : World) : Prop where
  enters : ∀ x ∈ w.unanswered, x.2.isEnter → x.1.tag ∉ w.expired
  tags : ∀ x ∈ w.unanswered, x.1.tag < w.nextTag
  expired : ∀ tag ∈ w.expired, tag < w.nextTag

theorem step_expired (hs : w.step a = .ok w') :
    (∀ tag ∈ w'.expired, tag ∈ w.expired ∨ a = .timeout tag) ∧
      w'.nextTag = w.nextTag + (match a with | .call _ _ => 1 | _ => 0) := by
  have henter : ∀ (v : World) (f : From) (r : Nat) (waiters : List From) (state : List Mutex),
      (enterMutex v r f waiters state).expired = v.expired ∧ (enterMutex v r f waiters state).nextTag = v.nextTag := by
    intro v f r waiters state
    unfold enterMutex World.monitor
    dsimp only
    split <;> exact ⟨rfl, rfl⟩
  have hleave : ∀ (v : World) (mutex : Mutex), (leaveMutex v mutex w.state).expired = v.expired ∧
      (leaveMutex v mutex w.state).nextTag = v.nextTag := by
    intro v mutex
    unfold leaveMutex
    dsimp only
    split
    · exact ⟨rfl, rfl⟩
    · exact henter _ _ _ _ _
  cases World.steps_of_step hs with
  | granted f r rest hi hr =>
    obtain ⟨h1, h2⟩ := henter { w with inbox := rest } f r [] w.state
    exact ⟨fun tag ht => .inl (h1 ▸ ht), h2⟩
  | last f mutex rest hi hm hp hc =>
    obtain ⟨h1, h2⟩ := hleave { w with inbox := rest, log := .left f mutex.resource :: w.log } mutex
    exact ⟨fun tag ht => .inl (h1 ▸ ht), h2⟩
  | down mutex rest hi hm =>
    obtain ⟨h1, h2⟩ := hleave { w with inbox := rest } mutex
    exact ⟨fun tag ht => .inl (h1 ▸ ht), h2⟩
  | timeout tag ht =>
    refine ⟨fun t hmem => ?_, rfl⟩
    rcases List.mem_cons.mp hmem with rfl | hmem
    · exact .inr rfl
    · exact .inl hmem
  | _ => exact ⟨fun tag ht => .inl ht, rfl⟩

theorem step_unexpired (h : Unexpired w) (ha : Patient w a) (hs : w.step a = .ok w') : Unexpired w' := by
  obtain ⟨hexp, htag⟩ := step_expired hs
  have hle : w.nextTag ≤ w'.nextTag := by omega
  refine ⟨fun x hx henter hmem => ?_, fun x hx => ?_, fun tag hmem => ?_⟩
  · rcases step_unanswered hs hx with hx | ⟨p, request, rfl, rfl⟩
    · rcases hexp _ hmem with hmem | rfl
      · exact h.enters x hx henter hmem
      · exact Bool.noConfusion (henter.symm.trans (ha x hx rfl))
    · rcases hexp _ hmem with hmem | he
      · exact absurd (h.expired _ hmem) (Nat.lt_irrefl _)
      · cases he
  · rcases step_unanswered hs hx with hx | ⟨p, request, rfl, rfl⟩
    · exact Nat.lt_of_lt_of_le (h.tags x hx) hle
    · simp [htag]
  · rcases hexp tag hmem with hmem | rfl
    · exact Nat.lt_of_lt_of_le (h.expired tag hmem) hle
    · cases World.steps_of_step hs with
      | timeout _ ht =>
        obtain ⟨x, hx, rfl, -⟩ := ht
        exact h.tags x hx

/-- A process whose requests have not timed out is blocked by them. -/
theorem Unexpired.blocked (h : Unexpired w) (ha : Waiting w a) : Blocked w a := by
  cases a with
  | call p request => exact fun x hx henter hp => h.enters x hx henter (ha x hx hp)
  | handle => trivial
  | die p => trivial
  | timeout tag => trivial

theorem reach_unexpired (h : Reach initial World.step (fun w a => Waiting w a ∧ Patient w a) w) :
    Orderly w ∧ Unexpired w := by
  refine h.invariant (I := fun w => Orderly w ∧ Unexpired w) ⟨reach_orderly .start, ⟨?_, ?_, ?_⟩⟩
    fun w a w' ⟨ho, hu⟩ ⟨hw, hp⟩ hs => ?_
  · simp [World.unanswered, initial]
  · simp [World.unanswered, initial]
  · simp [initial]
  · exact ⟨step_orderly ho (hu.blocked hw) hs, step_unexpired hu hp hs⟩

theorem no_trace_of_patient (h : Reach initial World.step (fun w a => Waiting w a ∧ Patient w a) w) :
    NoTrace w ∧ Terminates w.state := by
  obtain ⟨ho, hu⟩ := reach_unexpired h
  refine ⟨fun a w' new hs hl e he f hf hexp => ?_, fun p mutex hm => ⟨_, deadlock_isSome ho.tidy hm⟩⟩
  obtain ⟨r, hmem⟩ := step_handedTo hs hl he hf
  exact absurd hexp (hu.enters _ hmem rfl)

/-- The leave request of process 1 times out, and process 2 gets the resource. -/
def lateLeave : List Action :=
  [.call 1 (.enter 7), .handle, .call 2 (.enter 7), .handle, .call 1 (.leave 7), .timeout 2, .call 1 (.enter 8)]

theorem no_trace_of_patient_lateLeave : ∃ w, Reach.run World.step initial lateLeave = .ok w ∧ w.expired = [2] ∧
    w.inbox.length = 2 ∧ NoTrace w ∧ Terminates w.state := by
  obtain ⟨w, hw, hexp, hlen⟩ : ∃ w, Reach.run World.step initial lateLeave = .ok w ∧ w.expired = [2] ∧
      w.inbox.length = 2 := ⟨_, rfl, rfl, rfl⟩
  have h := no_trace_of_patient (.of_run lateLeave .start (by decide) hw)
  exact ⟨w, hw, hexp, hlen, h.1, h.2⟩

/-- Process 2 gives up on resource 7, and then process 1 leaves it. -/
def staleWaiter : List Action :=
  [.call 1 (.enter 7), .handle, .call 2 (.enter 7), .handle, .timeout 1, .call 1 (.leave 7)]

/-- Process 1 owns 12 and waits for 11 (given up) and 14. Process 2 owns 11 and waits for
12, process 3 owns 14, and process 4 moves 11 to the front of the state. -/
def staleCycle : List Action :=
  [.call 1 (.enter 12), .handle, .call 2 (.enter 11), .handle, .call 3 (.enter 14), .handle,
    .call 1 (.enter 11), .handle, .timeout 3, .call 1 (.enter 14), .handle, .call 2 (.enter 12), .handle,
    .call 4 (.enter 11), .handle, .call 5 (.enter 11)]

/-- Resource 7 goes to process 2, which is alive and has given up. After the other run
deadlock? has no end. -/
theorem timed_out_enter_leaves_trace :
    (∃ w w', Reach.run World.step initial staleWaiter = .ok w ∧ Reach initial World.step Waiting w ∧
      w.step .handle = .ok w' ∧ 1 ∈ w.expired ∧ 2 ∉ w.dead ∧
      w'.log = .granted ⟨2, 1⟩ 7 1 [] :: .left ⟨1, 2⟩ 7 :: w.log ∧ ¬NoTrace w) ∧
    ∃ w, Reach.run World.step initial staleCycle = .ok w ∧ Reach initial World.step Waiting w ∧
      w.step .handle = .error .hangs ∧ ¬Terminates w.state := by
  refine ⟨?_, ?_⟩
  · obtain ⟨w, w', hw, hs, hexp, hdead, hlog⟩ : ∃ w w', Reach.run World.step initial staleWaiter = .ok w ∧
        w.step .handle = .ok w' ∧ w.expired = [1] ∧ w.dead = [] ∧
        w'.log = .granted ⟨2, 1⟩ 7 1 [] :: .left ⟨1, 2⟩ 7 :: w.log := ⟨_, _, rfl, rfl, rfl, rfl, rfl⟩
    refine ⟨w, w', hw, .of_run staleWaiter .start (by decide) hw, hs, by simp [hexp], by simp [hdead], hlog, ?_⟩
    intro hno
    have hmem := hno .handle w' [.granted ⟨2, 1⟩ 7 1 [], .left ⟨1, 2⟩ 7] hs hlog _ (List.mem_cons_self ..) ⟨2, 1⟩
      rfl (by simp [hexp])
    simp [hdead] at hmem
  · obtain ⟨w, hw, hs, hst⟩ : ∃ w, Reach.run World.step initial staleCycle = .ok w ∧
        w.step .handle = .error .hangs ∧
        w.state = [⟨11, 2, 1, 1, [⟨1, 3⟩, ⟨4, 6⟩]⟩, ⟨12, 1, 0, 1, [⟨2, 5⟩]⟩, ⟨14, 3, 2, 1, [⟨1, 4⟩]⟩] :=
      ⟨_, rfl, rfl, rfl⟩
    refine ⟨w, hw, .of_run staleCycle .start (by decide) hw, hs, fun hterm => ?_⟩
    rw [hst] at hterm
    obtain ⟨n, hn⟩ := hterm 5 ⟨11, 2, 1, 1, [⟨1, 3⟩, ⟨4, 6⟩]⟩ (by simp)
    rw [(deadlock_eq_none_iff (by simp)).mp rfl n] at hn
    cases hn

end Swish.Gatekeeper
