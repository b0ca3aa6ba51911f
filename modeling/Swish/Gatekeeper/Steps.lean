import Swish.Gatekeeper.Server
import Swish.Lib.Except

/-!
What a step of the gatekeeper does, one case for each way through its callbacks.
-/

set_option autoImplicit false

namespace Swish.Gatekeeper

variable {state : List Mutex} {mutex : Mutex} {r : Nat}

theorem findResource_some (h : findResource r state = some mutex) : mutex ∈ state ∧ mutex.resource = r := by
  induction state with
  | nil => cases h
  | cons x rest ih =>
    rw [findResource] at h
    split at h
    · rename_i hx
      cases h
      exact ⟨by simp, hx⟩
    · exact ⟨by simp [(ih h).1], (ih h).2⟩

theorem findResource_none (h : findResource r state = none) : ∀ x ∈ state, x.resource ≠ r := by
  induction state with
  | nil => simp
  | cons x rest ih =>
    rw [findResource] at h
    split at h
    · cases h
    · rename_i hx
      intro y hy
      rcases List.mem_cons.mp hy with rfl | hy
      · exact hx
      · exact ih h y hy

theorem findMonitor_ok {m : Nat} (h : findMonitor m state = .ok mutex) : mutex ∈ state ∧ mutex.monitor = m := by
  induction state with
  | nil => cases h
  | cons x rest ih =>
    rw [findMonitor] at h
    split at h
    · rename_i hx
      cases h
      exact ⟨by simp, hx⟩
    · exact ⟨by simp [(ih h).1], (ih h).2⟩

theorem findMonitor_mem {m : Nat} (h : ∃ x ∈ state, x.monitor = m) : ∃ x, findMonitor m state = .ok x := by
  induction state with
  | nil => simp at h
  | cons x rest ih =>
    rw [findMonitor]
    split
    · exact ⟨x, rfl⟩
    · rename_i hx
      obtain ⟨y, hy, hm⟩ := h
      rcases List.mem_cons.mp hy with rfl | hy
      · exact absurd hm hx
      · exact ih ⟨y, hy, hm⟩

theorem mem_remq {x : Mutex} : x ∈ remq mutex state ↔ x ∈ state ∧ x ≠ mutex := by
  simp [remq]

namespace World

/-- The step function as a relation. The message that the server takes is the first of
its inbox. -/
inductive Steps (w : World) : Action → World → Prop where
  | call (p : Nat) (request : Request) (hp : p ∉ w.dead) :
      Steps w (.call p request)
        { w with nextTag := w.nextTag + 1, inbox := w.inbox ++ [.call ⟨p, w.nextTag⟩ request] }
  | granted (f : From) (r : Nat) (rest : List Message) (hi : w.inbox = .call f (.enter r) :: rest)
      (hr : ∀ x ∈ w.state, x.resource ≠ r) : Steps w .handle (enterMutex { w with inbox := rest } r f [] w.state)
  | reentered (f : From) (mutex : Mutex) (rest : List Message)
      (hi : w.inbox = .call f (.enter mutex.resource) :: rest) (hm : mutex ∈ w.state)
      (hp : mutex.process = f.process) :
      Steps w .handle
        { w with
          inbox := rest
          log := .reentered f mutex.resource w.state :: w.log
          state := { mutex with count := mutex.count + 1 } :: remq mutex w.state }
  | deadlock (f : From) (mutex : Mutex) (rest : List Message)
      (hi : w.inbox = .call f (.enter mutex.resource) :: rest) (hm : mutex ∈ w.state)
      (hp : mutex.process ≠ f.process) (hd : Gatekeeper.deadlock f.process mutex w.state = some true) :
      Steps w .handle { w with inbox := rest, log := .deadlock f mutex.resource :: w.log }
  | queued (f : From) (mutex : Mutex) (rest : List Message)
      (hi : w.inbox = .call f (.enter mutex.resource) :: rest) (hm : mutex ∈ w.state)
      (hp : mutex.process ≠ f.process) (hd : Gatekeeper.deadlock f.process mutex w.state = some false) :
      Steps w .handle
        { w with
          inbox := rest
          log := .queued f mutex.resource :: w.log
          state := { mutex with waiters := mutex.waiters ++ [f] } :: remq mutex w.state }
  | unowned (f : From) (r : Nat) (rest : List Message) (hi : w.inbox = .call f (.leave r) :: rest)
      (hr : ∀ mutex ∈ findResource r w.state, mutex.process ≠ f.process) :
      Steps w .handle { w with inbox := rest, log := .unowned f r :: w.log }
  | left (f : From) (mutex : Mutex) (rest : List Message)
      (hi : w.inbox = .call f (.leave mutex.resource) :: rest) (hm : mutex ∈ w.state)
      (hp : mutex.process = f.process) (hc : 1 < mutex.count) :
      Steps w .handle
        { w with
          inbox := rest
          log := .left f mutex.resource :: w.log
          state := { mutex with count := mutex.count - 1 } :: remq mutex w.state }
  | last (f : From) (mutex : Mutex) (rest : List Message)
      (hi : w.inbox = .call f (.leave mutex.resource) :: rest) (hm : mutex ∈ w.state)
      (hp : mutex.process = f.process) (hc : mutex.count ≤ 1) :
      Steps w .handle
        (leaveMutex { w with inbox := rest, log := .left f mutex.resource :: w.log } mutex w.state)
  | down (mutex : Mutex) (rest : List Message) (hi : w.inbox = .down mutex.monitor :: rest)
      (hm : mutex ∈ w.state) : Steps w .handle (leaveMutex { w with inbox := rest } mutex w.state)
  | die (p : Nat) (hp : p ∉ w.dead) : Steps w (.die p) (w.die p)
  | timeout (tag : Nat) (ht : ∃ x ∈ w.unanswered, x.1.tag = tag ∧ x.1.process ∉ w.dead) :
      Steps w (.timeout tag) { w with expired := tag :: w.expired }

theorem handleCall_enter {w w' : World} {f : From} {rest : List Message} (hi : w.inbox = .call f (.enter r) :: rest)
    (h : handleCall { w with inbox := rest } (.enter r) f w.state = .ok w') : Steps w .handle w' := by
  unfold handleCall at h
  cases hr : findResource r w.state with
  | none =>
    simp only [hr] at h
    cases h
    exact .granted f r rest hi (findResource_none hr)
  | some mutex =>
    obtain ⟨hm, rfl⟩ := findResource_some hr
    simp only [hr] at h
    split at h
    · rename_i hp
      cases h
      exact .reentered f mutex rest hi hm hp
    · rename_i hp
      split at h
      · cases h
      · rename_i hd
        cases h
        exact .deadlock f mutex rest hi hm hp hd
      · rename_i hd
        cases h
        exact .queued f mutex rest hi hm hp hd

theorem handleCall_leave {w w' : World} {f : From} {rest : List Message} (hi : w.inbox = .call f (.leave r) :: rest)
    (h : handleCall { w with inbox := rest } (.leave r) f w.state = .ok w') : Steps w .handle w' := by
  unfold handleCall at h
  cases hr : findResource r w.state with
  | none =>
    simp only [hr] at h
    cases h
    exact .unowned f r rest hi (by simp [hr])
  | some mutex =>
    simp only [hr] at h
    split at h
    · rename_i hp
      cases h
      exact .unowned f r rest hi (by simpa [hr] using hp)
    · rename_i hp
      obtain ⟨hm, rfl⟩ := findResource_some hr
      split at h
      · rename_i hc
        cases h
        exact .left f mutex rest hi hm (not_not.mp hp) hc
      · rename_i hc
        cases h
        exact .last f mutex rest hi hm (not_not.mp hp) (Nat.le_of_not_lt hc)

theorem steps_of_step {w w' : World} {a : Action} (h : w.step a = .ok w') : Steps w a w' := by
  unfold step at h
  split at h
  · rename_i p request
    split at h
    · cases h
    · rename_i hp
      cases h
      exact .call p request hp
  · split at h
    · cases h
    · rename_i f request rest hi
      cases request with
      | enter r => exact handleCall_enter hi h
      | leave r => exact handleCall_leave hi h
    · rename_i m rest hi
      unfold handleInfo at h
      obtain ⟨mutex, hf, h⟩ := Lib.bind_ok h
      cases h
      obtain ⟨hm, rfl⟩ := findMonitor_ok hf
      exact .down mutex rest hi hm
  · rename_i p
    split at h
    · cases h
    · rename_i hp
      cases h
      exact .die p hp
  · rename_i tag
    split at h
    · rename_i ht
      cases h
      exact .timeout tag (by simpa [List.any_eq_true] using ht)
    · cases h

end World

end Swish.Gatekeeper
