import Mathlib.Data.List.Nodup
import Swish.Gatekeeper.Steps

/-!
Mutual exclusion. The state is compared with the history of the server: the history
tells how often the owner of a resource has entered and left it, and who waits for it in
which order.
-/

set_option autoImplicit false

namespace Swish.Gatekeeper

open Swish.Lib

variable {state : List Mutex} {log : List Event} {mutex : Mutex} {r : Nat}

/-- The requests that wait for a resource, the oldest first, read off the history. -/
def queueOf (r : Nat) : List Event → List From
  | [] => []
  | .queued f r' :: log => if r' = r then queueOf r log ++ [f] else queueOf r log
  | .granted _ r' _ _ :: log => if r' = r then (queueOf r log).tail else queueOf r log
  | _ :: log => queueOf r log

/-- The events after the grant that made a monitor. -/
def since (m : Nat) (log : List Event) : List Event :=
  log.takeWhile fun
    | .granted _ _ m' _ => m' ≠ m
    | _ => true

/-- Replies ok to enter requests of the owner, with the one that made it the owner. -/
def oks (x : Mutex) (log : List Event) : Nat :=
  1 + (since x.monitor log).countP fun
    | .reentered f r _ => f.process = x.process ∧ r = x.resource
    | _ => false

/-- Leave requests of the owner that succeeded. -/
def leaves (x : Mutex) (log : List Event) : Nat :=
  (since x.monitor log).countP fun
    | .left f r => f.process = x.process ∧ r = x.resource
    | _ => false

/-- When ok is sent for an enter request, no other process owns the resource. -/
def Event.Alone : Event → Prop
  | .granted _ r _ state => ∀ x ∈ state, x.resource ≠ r
  | .reentered f r state => ∀ x ∈ state, x.resource = r → x.process = f.process
  | _ => True

/-- No two tuples have the same resource. -/
def Distinct (state : List Mutex) : Prop := (state.map Mutex.resource).Nodup

theorem Distinct.eq (h : Distinct state) {x y : Mutex} (hx : x ∈ state) (hy : y ∈ state)
    (he : x.resource = y.resource) : x = y := List.inj_on_of_nodup_map h hx hy he

theorem Distinct.remq (h : Distinct state) : Distinct (remq mutex state) :=
  List.Nodup.sublist (List.Sublist.map _ List.filter_sublist) h

/-- The tuples that are left have other resources. -/
theorem Distinct.ne_of_mem_remq (h : Distinct state) (hm : mutex ∈ state) {x : Mutex}
    (hx : x ∈ Gatekeeper.remq mutex state) : x.resource ≠ mutex.resource := by
  obtain ⟨h1, h2⟩ := mem_remq.mp hx
  exact fun he => h2 (h.eq h1 hm he)

theorem Distinct.cons (h : Distinct state) {x : Mutex} (hx : ∀ y ∈ state, y.resource ≠ x.resource) :
    Distinct (x :: state) := by
  refine List.nodup_cons.mpr ⟨fun hmem => ?_, h⟩
  obtain ⟨y, hy, he⟩ := List.mem_map.mp hmem
  exact hx y hy he

/-- The state against the history. -/
structure Book (state : List Mutex) (log : List Event) : Prop where
  distinct : Distinct state
  waiters : ∀ x ∈ state, x.waiters = queueOf x.resource log
  free : ∀ r, (∀ x ∈ state, x.resource ≠ r) → queueOf r log = []
  count : ∀ x ∈ state, 1 ≤ x.count ∧ x.count + leaves x log = oks x log
  alone : ∀ e ∈ log, e.Alone

namespace Book

theorem cons_alone {e : Event} (h : Book state log) (he : e.Alone) : ∀ x ∈ e :: log, x.Alone := by
  intro x hx
  rcases List.mem_cons.mp hx with rfl | hx
  · exact he
  · exact h.alone x hx

/-- A refusal. -/
theorem refused {e : Event} (h : Book state log) (f : From) (r : Nat)
    (he : e = .deadlock f r ∨ e = .unowned f r) : Book state (e :: log) := by
  rcases he with rfl | rfl
  · exact ⟨h.distinct, h.waiters, h.free, h.count, h.cons_alone trivial⟩
  · exact ⟨h.distinct, h.waiters, h.free, h.count, h.cons_alone trivial⟩

theorem replace {x' : Mutex} {e : Event} (h : Book state log) (hm : mutex ∈ state)
    (hr : x'.resource = mutex.resource) (he : e.Alone) (hw : x'.waiters = queueOf x'.resource (e :: log))
    (hq : ∀ r, r ≠ mutex.resource → queueOf r (e :: log) = queueOf r log)
    (hc : 1 ≤ x'.count ∧ x'.count + leaves x' (e :: log) = oks x' (e :: log))
    (ho : ∀ x, x.resource ≠ mutex.resource → leaves x (e :: log) = leaves x log ∧ oks x (e :: log) = oks x log) :
    Book (x' :: remq mutex state) (e :: log) := by
  have hne : ∀ x ∈ remq mutex state, x.resource ≠ mutex.resource := fun x hx => h.distinct.ne_of_mem_remq hm hx
  refine ⟨h.distinct.remq.cons fun y hy => hr ▸ hne y hy, fun x hx => ?_, fun r hx => ?_, fun x hx => ?_,
    h.cons_alone he⟩
  · rcases List.mem_cons.mp hx with rfl | hx
    · exact hw
    · rw [hq _ (hne x hx)]
      exact h.waiters x (mem_remq.mp hx).1
  · have hrr : r ≠ mutex.resource := fun he' => hx x' (by simp) (hr.trans he'.symm)
    rw [hq r hrr]
    refine h.free r fun y hy hyr => ?_
    by_cases hym : y = mutex
    · exact hrr (hym ▸ hyr.symm)
    · exact hx y (by simp [mem_remq.mpr ⟨hy, hym⟩]) hyr
  · rcases List.mem_cons.mp hx with rfl | hx
    · exact hc
    · obtain ⟨h1, h2⟩ := ho x (hne x hx)
      rw [h1, h2]
      exact h.count x (mem_remq.mp hx).1

theorem reenter {f : From} (h : Book state log) (hm : mutex ∈ state) (hp : mutex.process = f.process) :
    Book ({ mutex with count := mutex.count + 1 } :: remq mutex state)
      (.reentered f mutex.resource state :: log) := by
  have hc := h.count mutex hm
  refine h.replace hm rfl (fun x hx hr => ?_) (h.waiters mutex hm) (fun r hr => rfl) ⟨by simp, ?_⟩ fun x hx => ?_
  · rw [h.distinct.eq hx hm hr, hp]
  · simp [leaves, oks, since, hp] at hc ⊢
    omega
  · simp [leaves, oks, since, Ne.symm hx]

theorem queue {f : From} (h : Book state log) (hm : mutex ∈ state) :
    Book ({ mutex with waiters := mutex.waiters ++ [f] } :: remq mutex state)
      (.queued f mutex.resource :: log) := by
  refine h.replace hm rfl trivial ?_ (fun r hr => ?_) ?_ fun x hx => ?_
  · simp [queueOf, h.waiters mutex hm]
  · rw [queueOf, if_neg hr.symm]
  · simpa [leaves, oks, since] using h.count mutex hm
  · simp [leaves, oks, since]

theorem leaveOne {f : From} (h : Book state log) (hm : mutex ∈ state) (hp : mutex.process = f.process)
    (h1 : 1 < mutex.count) :
    Book ({ mutex with count := mutex.count - 1 } :: remq mutex state) (.left f mutex.resource :: log) := by
  have hc := h.count mutex hm
  refine h.replace hm rfl trivial (h.waiters mutex hm) (fun r hr => rfl) ⟨by simp; omega, ?_⟩ fun x hx => ?_
  · simp [leaves, oks, since, hp] at hc ⊢
    omega
  · simp [leaves, oks, since, Ne.symm hx]

end Book

/-- A state against the history while a resource has no owner. -/
structure Open (r : Nat) (state : List Mutex) (log : List Event) : Prop where
  distinct : Distinct state
  absent : ∀ x ∈ state, x.resource ≠ r
  waiters : ∀ x ∈ state, x.waiters = queueOf x.resource log
  free : ∀ r', r' ≠ r → (∀ x ∈ state, x.resource ≠ r') → queueOf r' log = []
  count : ∀ x ∈ state, 1 ≤ x.count ∧ x.count + leaves x log = oks x log
  alone : ∀ e ∈ log, e.Alone

theorem Book.unowned (h : Book state log) (hr : ∀ x ∈ state, x.resource ≠ r) : Open r state log :=
  ⟨h.distinct, hr, h.waiters, fun r' _ => h.free r', h.count, h.alone⟩

theorem Book.take (h : Book state log) (hm : mutex ∈ state) : Open mutex.resource (remq mutex state) log := by
  refine ⟨h.distinct.remq, fun x hx => h.distinct.ne_of_mem_remq hm hx,
    fun x hx => h.waiters x (mem_remq.mp hx).1, fun r' hr' hx => ?_, fun x hx => h.count x (mem_remq.mp hx).1,
    h.alone⟩
  refine h.free r' fun y hy hyr => ?_
  by_cases hym : y = mutex
  · exact hr' (hym ▸ hyr.symm)
  · exact hx y (mem_remq.mpr ⟨hy, hym⟩) hyr

namespace Open

theorem left {f : From} (h : Open r state log) : Open r state (.left f r :: log) := by
  refine ⟨h.distinct, h.absent, h.waiters, h.free, fun x hx => ?_, fun e he => ?_⟩
  · simpa [leaves, oks, since, (h.absent x hx).symm] using h.count x hx
  · rcases List.mem_cons.mp he with rfl | he
    · trivial
    · exact h.alone e he

theorem close (h : Open r state log) (hq : queueOf r log = []) : Book state log := by
  refine ⟨h.distinct, h.waiters, fun r' hr' => ?_, h.count, h.alone⟩
  by_cases he : r' = r
  · exact he ▸ hq
  · exact h.free r' he hr'

/-- A new owner, the first that waits if any does. -/
theorem grant {f : From} {m : Nat} {waiters : List From} (h : Open r state log)
    (hm : ∀ x ∈ state, x.monitor ≠ m) (hq : (queueOf r log).tail = waiters) :
    Book (⟨r, f.process, m, 1, waiters⟩ :: state) (.granted f r m state :: log) := by
  refine ⟨h.distinct.cons h.absent, fun x hx => ?_, fun r' hr' => ?_, fun x hx => ?_, fun e he => ?_⟩
  · rcases List.mem_cons.mp hx with rfl | hx
    · simp [queueOf, hq]
    · rw [queueOf, if_neg (h.absent x hx).symm]
      exact h.waiters x hx
  · have hne : r' ≠ r := fun he => hr' _ (List.mem_cons_self ..) he.symm
    rw [queueOf, if_neg hne.symm]
    exact h.free r' hne fun x hx => hr' x (by simp [hx])
  · rcases List.mem_cons.mp hx with rfl | hx
    · simp [leaves, oks, since]
    · have hsince : since x.monitor (.granted f r m state :: log) =
          .granted f r m state :: since x.monitor log := by
        simp [since, (hm x hx).symm]
      have hcx := h.count x hx
      unfold leaves oks at hcx ⊢
      rw [hsince]
      simpa using hcx
  · rcases List.mem_cons.mp he with rfl | he
    · exact h.absent
    · exact h.alone e he

end Open

/-- The owners against the monitors of the server. -/
structure Watch (state : List Mutex) (w : World) : Prop where
  fresh : ∀ x ∈ state, x.monitor < w.nextMonitor
  unique : ∀ x ∈ state, ∀ y ∈ state, x.monitor = y.monitor → x = y
  owned : ∀ m p, (m, p) ∈ w.monitors → p ∉ w.dead ∧ ∃ x ∈ state, x.monitor = m ∧ x.process = p
  down : ∀ m, .down m ∈ w.inbox → ∃ x ∈ state, x.monitor = m ∧ x.process ∈ w.dead
  watched : ∀ x ∈ state, (x.monitor, x.process) ∈ w.monitors ∨ .down x.monitor ∈ w.inbox

namespace Watch

variable {w : World}

theorem congr {w' : World} (h : Watch state w) (hi : ∀ m, .down m ∈ w'.inbox ↔ .down m ∈ w.inbox)
    (hm : w'.monitors = w.monitors) (hn : w'.nextMonitor = w.nextMonitor) (hd : w'.dead = w.dead) :
    Watch state w' := by
  refine ⟨fun x hx => hn ▸ h.fresh x hx, h.unique, fun m p hmp => ?_, fun m hmi => ?_, fun x hx => ?_⟩
  · rw [hd]
    exact h.owned m p (hm ▸ hmp)
  · rw [hd]
    exact h.down m ((hi m).mp hmi)
  · rw [hm, hi]
    exact h.watched x hx

theorem replace {x' : Mutex} (h : Watch state w) (hmem : mutex ∈ state) (hm : x'.monitor = mutex.monitor)
    (hp : x'.process = mutex.process) : Watch (x' :: remq mutex state) w := by
  -- a tuple of the old state stands for one of the new state with the same owner
  have hold : ∀ x ∈ state, ∃ y ∈ x' :: remq mutex state, y.monitor = x.monitor ∧ y.process = x.process := by
    intro x hx
    by_cases hxm : x = mutex
    · exact ⟨x', by simp, hxm ▸ hm, hxm ▸ hp⟩
    · exact ⟨x, by simp [mem_remq.mpr ⟨hx, hxm⟩], rfl, rfl⟩
  refine ⟨fun x hx => ?_, fun x hx y hy he => ?_, fun m p hmp => ?_, fun m hmi => ?_, fun x hx => ?_⟩
  · rcases List.mem_cons.mp hx with rfl | hx
    · exact hm ▸ h.fresh mutex hmem
    · exact h.fresh x (mem_remq.mp hx).1
  · rcases List.mem_cons.mp hx with rfl | hx
    · rcases List.mem_cons.mp hy with rfl | hy
      · rfl
      · obtain ⟨hy, hne⟩ := mem_remq.mp hy
        exact absurd (h.unique y hy mutex hmem (he.symm.trans hm)) hne
    · obtain ⟨hxs, hne⟩ := mem_remq.mp hx
      rcases List.mem_cons.mp hy with rfl | hy
      · exact absurd (h.unique x hxs mutex hmem (he.trans hm)) hne
      · exact h.unique x hxs y (mem_remq.mp hy).1 he
  · obtain ⟨hd, x, hx, h1, h2⟩ := h.owned m p hmp
    obtain ⟨y, hy, h3, h4⟩ := hold x hx
    exact ⟨hd, y, hy, h3.trans h1, h4.trans h2⟩
  · obtain ⟨x, hx, h1, h2⟩ := h.down m hmi
    obtain ⟨y, hy, h3, h4⟩ := hold x hx
    exact ⟨y, hy, h3.trans h1, h4 ▸ h2⟩
  · rcases List.mem_cons.mp hx with rfl | hx
    · rw [hm, hp]
      exact h.watched mutex hmem
    · exact h.watched x (mem_remq.mp hx).1

theorem take (h : Watch state w) (hmem : mutex ∈ state) :
    Watch (remq mutex state) (w.demonitorFlush mutex.monitor) := by
  refine ⟨fun x hx => h.fresh x (mem_remq.mp hx).1,
    fun x hx y hy => h.unique x (mem_remq.mp hx).1 y (mem_remq.mp hy).1, fun m p hmp => ?_, fun m hmi => ?_,
    fun x hx => ?_⟩
  · obtain ⟨hmp, hne⟩ := List.mem_filter.mp hmp
    obtain ⟨hd, x, hx, h1, h2⟩ := h.owned m p hmp
    have hxm : x ≠ mutex := fun he => by simp [← h1, he] at hne
    exact ⟨hd, x, mem_remq.mpr ⟨hx, hxm⟩, h1, h2⟩
  · obtain ⟨hmi, hne⟩ := List.mem_filter.mp hmi
    obtain ⟨x, hx, h1, h2⟩ := h.down m hmi
    have hxm : x ≠ mutex := fun he => by simp [← h1, he] at hne
    exact ⟨x, mem_remq.mpr ⟨hx, hxm⟩, h1, h2⟩
  · obtain ⟨hx, hne⟩ := mem_remq.mp hx
    have hm : x.monitor ≠ mutex.monitor := fun he => hne (h.unique x hx mutex hmem he)
    rcases h.watched x hx with hw | hw
    · exact .inl (List.mem_filter.mpr ⟨hw, by simpa using hm⟩)
    · exact .inr (List.mem_filter.mpr ⟨hw, by simpa using hm⟩)

theorem enter {p : Nat} {waiters : List From} (h : Watch state w) :
    Watch (⟨r, p, w.nextMonitor, 1, waiters⟩ :: state) (w.monitor p) := by
  have hnew : ∀ x ∈ state, x.monitor ≠ w.nextMonitor := fun x hx => Nat.ne_of_lt (h.fresh x hx)
  have hnext : (w.monitor p).nextMonitor = w.nextMonitor + 1 := by
    unfold World.monitor
    split <;> rfl
  have hdead : (w.monitor p).dead = w.dead := by
    unfold World.monitor
    split <;> rfl
  refine ⟨fun x hx => ?_, fun x hx y hy he => ?_, fun m q hmp => ?_, fun m hmi => ?_, fun x hx => ?_⟩
  · rw [hnext]
    rcases List.mem_cons.mp hx with rfl | hx
    · simp
    · exact Nat.lt_succ_of_lt (h.fresh x hx)
  · rcases List.mem_cons.mp hx with rfl | hx
    · rcases List.mem_cons.mp hy with rfl | hy
      · rfl
      · exact absurd he.symm (hnew y hy)
    · rcases List.mem_cons.mp hy with rfl | hy
      · exact absurd he (hnew x hx)
      · exact h.unique x hx y hy he
  · rw [hdead]
    have hcase : (m, q) ∈ w.monitors ∨ (m = w.nextMonitor ∧ q = p ∧ p ∉ w.dead) := by
      unfold World.monitor at hmp
      split at hmp
      · exact .inl hmp
      · rename_i hp
        rcases List.mem_cons.mp hmp with he | hmp
        · cases he
          exact .inr ⟨rfl, rfl, hp⟩
        · exact .inl hmp
    rcases hcase with hmp | ⟨rfl, rfl, hp⟩
    · obtain ⟨hd, x, hx, h1⟩ := h.owned m q hmp
      exact ⟨hd, x, by simp [hx], h1⟩
    · exact ⟨hp, _, List.mem_cons_self .., rfl, rfl⟩
  · rw [hdead]
    have hcase : .down m ∈ w.inbox ∨ (m = w.nextMonitor ∧ p ∈ w.dead) := by
      unfold World.monitor at hmi
      split at hmi
      · rename_i hp
        rcases List.mem_append.mp hmi with hmi | hmi
        · exact .inl hmi
        · simp only [List.mem_singleton, Message.down.injEq] at hmi
          exact .inr ⟨hmi, hp⟩
      · exact .inl hmi
    rcases hcase with hmi | ⟨rfl, hp⟩
    · obtain ⟨x, hx, h1⟩ := h.down m hmi
      exact ⟨x, by simp [hx], h1⟩
    · exact ⟨_, List.mem_cons_self .., rfl, hp⟩
  · unfold World.monitor
    rcases List.mem_cons.mp hx with rfl | hx
    · split <;> simp
    · split
      · rcases h.watched x hx with hw | hw
        · exact .inl hw
        · exact .inr (by simp [hw])
      · rcases h.watched x hx with hw | hw
        · exact .inl (by simp [hw])
        · exact .inr hw

theorem die {p : Nat} (h : Watch state w) : Watch state (w.die p) := by
  refine ⟨h.fresh, h.unique, fun m q hmp => ?_, fun m hmi => ?_, fun x hx => ?_⟩
  · obtain ⟨hmp, hne⟩ := List.mem_filter.mp hmp
    obtain ⟨hd, hx⟩ := h.owned m q hmp
    have hq : q ≠ p := by simpa using hne
    exact ⟨by simp [World.die, hd, hq], hx⟩
  · rcases List.mem_append.mp hmi with hmi | hmi
    · obtain ⟨x, hx, h1, h2⟩ := h.down m hmi
      exact ⟨x, hx, h1, by simp [World.die, h2]⟩
    · obtain ⟨⟨m', q⟩, hmp, he⟩ := List.mem_map.mp hmi
      obtain ⟨hmp, hq⟩ := List.mem_filter.mp hmp
      cases he
      obtain ⟨-, x, hx, h1, h2⟩ := h.owned _ _ hmp
      have hqp : q = p := by simpa using hq
      exact ⟨x, hx, h1, by simp [World.die, h2, hqp]⟩
  · rcases h.watched x hx with hw | hw
    · by_cases hp : x.process = p
      · exact .inr (List.mem_append_right _ (List.mem_map.mpr ⟨_, List.mem_filter.mpr ⟨hw, by simpa using hp⟩, rfl⟩))
      · exact .inl (List.mem_filter.mpr ⟨hw, by simpa using hp⟩)
    · exact .inr (List.mem_append_left _ hw)

end Watch

structure Inv (w : World) : Prop where
  book : Book w.state w.log
  watch : Watch w.state w

theorem enterMutex_log (w : World) (f : From) (waiters : List From) :
    (enterMutex w r f waiters state).log = .granted f r w.nextMonitor state :: w.log := by
  unfold enterMutex World.monitor
  dsimp only
  split <;> rfl

/-- A monitor is taken for a new owner after its grant is recorded. -/
theorem enterMutex_inv {w : World} {f : From} {waiters : List From} (hb : Open r state w.log) (hw : Watch state w)
    (hq : (queueOf r w.log).tail = waiters) : Inv (enterMutex w r f waiters state) := by
  refine ⟨?_, ?_⟩
  · rw [enterMutex_log]
    exact hb.grant (fun x hx => Nat.ne_of_lt (hw.fresh x hx)) hq
  · exact (Watch.enter (w := w.record _) (hw.congr (fun m => Iff.rfl) rfl rfl rfl)).congr (fun m => Iff.rfl) rfl rfl rfl

theorem leaveMutex_inv {w : World} (hb : Open mutex.resource (remq mutex state) w.log)
    (hw : Watch (remq mutex state) (w.demonitorFlush mutex.monitor))
    (hq : queueOf mutex.resource w.log = mutex.waiters) : Inv (leaveMutex w mutex state) := by
  unfold leaveMutex
  dsimp only
  split
  · rename_i he
    exact ⟨hb.close (hq.trans he), hw.congr (fun m => Iff.rfl) rfl rfl rfl⟩
  · rename_i f waiters he
    exact enterMutex_inv (w := w.demonitorFlush mutex.monitor) hb hw (by simp [World.demonitorFlush, hq, he])

theorem step_inv {w w' : World} {a : Action} (h : Inv w) (hs : w.step a = .ok w') : Inv w' := by
  obtain ⟨hb, hw⟩ := h
  -- the first message of the inbox is a call, so the monitors that have fired stay
  have hcall : ∀ {f : From} {request : Request} {rest : List Message} {log : List Event} {state : List Mutex},
      w.inbox = .call f request :: rest →
        Watch w.state { w with inbox := rest, log := log, state := state } := by
    intro f request rest log state hi
    exact hw.congr (fun m => by simp [hi]) rfl rfl rfl
  cases World.steps_of_step hs with
  | call p request hp => exact ⟨hb, hw.congr (fun m => by simp) rfl rfl rfl⟩
  | granted f r rest hi hr =>
    exact enterMutex_inv (hb.unowned hr) (hcall hi) (by simp [hb.free r hr])
  | reentered f mutex rest hi hm hp => exact ⟨hb.reenter hm hp, (hcall hi).replace hm rfl rfl⟩
  | deadlock f mutex rest hi hm hp hd => exact ⟨hb.refused _ _ (.inl rfl), hcall hi⟩
  | queued f mutex rest hi hm hp hd => exact ⟨hb.queue hm, (hcall hi).replace hm rfl rfl⟩
  | unowned f r rest hi hr => exact ⟨hb.refused _ _ (.inr rfl), hcall hi⟩
  | left f mutex rest hi hm hp hc => exact ⟨hb.leaveOne hm hp hc, (hcall hi).replace hm rfl rfl⟩
  | last f mutex rest hi hm hp hc =>
    exact leaveMutex_inv (hb.take hm).left ((hcall hi).take hm) (hb.waiters mutex hm).symm
  | down mutex rest hi hm =>
    have hflush : ({ w with inbox := rest } : World).demonitorFlush mutex.monitor =
        w.demonitorFlush mutex.monitor := by
      simp [World.demonitorFlush, hi]
    refine leaveMutex_inv (hb.take hm) ?_ (hb.waiters mutex hm).symm
    rw [hflush]
    exact hw.take hm
  | die p hp => exact ⟨hb, hw.die⟩
  | timeout tag ht => exact ⟨hb, hw.congr (fun m => Iff.rfl) rfl rfl rfl⟩

theorem initial_inv : Inv initial := by
  refine ⟨⟨List.nodup_nil, ?_, fun r _ => rfl, ?_, ?_⟩, ⟨?_, ?_, ?_, ?_, ?_⟩⟩ <;> simp [initial]

theorem reach_inv {allowed : World → Action → Prop} {w : World} (h : Reach initial World.step allowed w) : Inv w :=
  h.invariant initial_inv fun _ _ _ hi _ hs => step_inv hi hs

/-- A tuple for the same resource with the same owner. -/
def Kept (mutex : Mutex) (state : List Mutex) : Prop :=
  ∃ x ∈ state, x.resource = mutex.resource ∧ x.process = mutex.process ∧ x.monitor = mutex.monitor

/-- The step is the last leave of the owner, or its death noticed. -/
def Released (w : World) (mutex : Mutex) : Prop :=
  (∃ f rest, w.inbox = .call f (.leave mutex.resource) :: rest ∧ f.process = mutex.process ∧ mutex.count = 1) ∨
    ∃ rest, w.inbox = .down mutex.monitor :: rest ∧ mutex.process ∈ w.dead

/-- The first waiter owns the resource, or nobody does when there is none. -/
def HandedOver (mutex : Mutex) (state : List Mutex) : Prop :=
  match mutex.waiters with
  | [] => ∀ x ∈ state, x.resource ≠ mutex.resource
  | f :: waiters => ∃ m, ⟨mutex.resource, f.process, m, 1, waiters⟩ ∈ state

theorem leaveMutex_handedOver (w : World) (hd : Distinct state) (hm : mutex ∈ state) :
    HandedOver mutex (leaveMutex w mutex state).state := by
  unfold HandedOver leaveMutex
  cases hw : mutex.waiters with
  | nil => exact fun x hx => hd.ne_of_mem_remq hm hx
  | cons f waiters => exact ⟨_, List.mem_cons_self ..⟩

theorem leaveMutex_state (w : World) : ∀ x ∈ remq mutex state, x ∈ (leaveMutex w mutex state).state := by
  intro x hx
  unfold leaveMutex
  dsimp only
  split
  · exact hx
  · exact List.mem_cons_of_mem _ hx

theorem kept_of_mem {x : Mutex} (h : x ∈ state) : Kept x state := ⟨x, h, rfl, rfl, rfl⟩

theorem kept_replace {x x' : Mutex} (hx : x ∈ state) (hr : x'.resource = mutex.resource)
    (hp : x'.process = mutex.process) (hm : x'.monitor = mutex.monitor) : Kept x (x' :: remq mutex state) := by
  by_cases hxm : x = mutex
  · exact ⟨x', by simp, hxm ▸ hr, hxm ▸ hp, hxm ▸ hm⟩
  · exact kept_of_mem (by simp [mem_remq.mpr ⟨hx, hxm⟩])

theorem leaveMutex_passes {w : World} (w' : World) (hd : Distinct state) (hm : mutex ∈ state)
    (hr : Released w mutex) : ∀ x ∈ state, Kept x (leaveMutex w' mutex state).state ∨
      Released w x ∧ HandedOver x (leaveMutex w' mutex state).state := by
  intro x hx
  by_cases hxm : x = mutex
  · subst hxm
    exact .inr ⟨hr, leaveMutex_handedOver w' hd hm⟩
  · exact .inl (kept_of_mem (leaveMutex_state w' x (mem_remq.mpr ⟨hx, hxm⟩)))

/-- An owner keeps its resource until it leaves for the last time or dies. -/
theorem step_passes {w w' : World} {a : Action} (h : Inv w) (hs : w.step a = .ok w') :
    ∀ x ∈ w.state, Kept x w'.state ∨ Released w x ∧ HandedOver x w'.state := by
  intro x hx
  cases World.steps_of_step hs with
  | call p request hp => exact .inl (kept_of_mem hx)
  | granted f r rest hi hr => exact .inl (kept_of_mem (List.mem_cons_of_mem _ hx))
  | reentered f mutex rest hi hm hp => exact .inl (kept_replace hx rfl rfl rfl)
  | deadlock f mutex rest hi hm hp hd => exact .inl (kept_of_mem hx)
  | queued f mutex rest hi hm hp hd => exact .inl (kept_replace hx rfl rfl rfl)
  | unowned f r rest hi hr => exact .inl (kept_of_mem hx)
  | left f mutex rest hi hm hp hc => exact .inl (kept_replace hx rfl rfl rfl)
  | last f mutex rest hi hm hp hc =>
    have h1 : mutex.count = 1 := Nat.le_antisymm hc (h.book.count mutex hm).1
    exact leaveMutex_passes _ h.book.distinct hm (.inl ⟨f, rest, hi, hp.symm, h1⟩) x hx
  | down mutex rest hi hm =>
    obtain ⟨y, hy, h1, h2⟩ := h.watch.down mutex.monitor (by simp [hi])
    have hdead : mutex.process ∈ w.dead := h.watch.unique y hy mutex hm h1 ▸ h2
    exact leaveMutex_passes _ h.book.distinct hm (.inr ⟨rest, hi, hdead⟩) x hx
  | die p hp => exact .inl (kept_of_mem hx)
  | timeout tag ht => exact .inl (kept_of_mem hx)

/-- A leave of a process that does not own the resource changes no tuple and no monitor. -/
theorem leave_unowned {w : World} {f : From} {rest : List Message} (hi : w.inbox = .call f (.leave r) :: rest)
    (hr : ∀ x ∈ w.state, x.resource = r → x.process ≠ f.process) :
    w.step .handle = .ok { w with inbox := rest, log := .unowned f r :: w.log } := by
  simp only [World.step, hi, handleCall]
  cases hf : findResource r w.state with
  | none => rfl
  | some mutex =>
    obtain ⟨hm, he⟩ := findResource_some hf
    simp only [ne_eq, hr mutex hm he, not_false_eq_true, if_true]
    rfl

/-- A monitor that has fired belongs to a tuple, so the lookup in handle-info succeeds. -/
theorem handle_ne_badMatch {w : World} (h : Inv w) : w.step .handle ≠ .error .badMatch := by
  intro hs
  simp only [World.step] at hs
  split at hs
  · cases hs
  · rename_i f request rest hi
    unfold handleCall at hs
    repeat' split at hs
    all_goals cases hs
  · rename_i m rest hi
    obtain ⟨x, hx, hm, -⟩ := h.watch.down m (by simp [hi])
    obtain ⟨y, hy⟩ := findMonitor_mem ⟨x, hx, hm⟩
    rw [handleInfo, hy] at hs
    cases hs

theorem gatekeeper_mutual_exclusion {w : World} (h : Reach initial World.step (fun _ _ => True) w) :
    (w.state.map Mutex.resource).Nodup ∧
    (∀ e ∈ w.log, e.Alone) ∧
    (∀ x ∈ w.state, 1 ≤ x.count ∧ x.count + leaves x w.log = oks x w.log) ∧
    (∀ x ∈ w.state, x.waiters = queueOf x.resource w.log) ∧
    (∀ a w', w.step a = .ok w' → ∀ x ∈ w.state, Kept x w'.state ∨ Released w x ∧ HandedOver x w'.state) ∧
    (∀ f r rest, w.inbox = .call f (.leave r) :: rest →
      (∀ x ∈ w.state, x.resource = r → x.process ≠ f.process) →
      w.step .handle = .ok { w with inbox := rest, log := .unowned f r :: w.log }) ∧
    w.step .handle ≠ .error .badMatch := by
  have hi := reach_inv h
  exact ⟨hi.book.distinct, hi.book.alone, hi.book.count, hi.book.waiters, fun a w' hs => step_passes hi hs,
    fun f r rest hin hr => leave_unowned hin hr, handle_ne_badMatch hi⟩

/-- Process 2 dies while it waits behind process 1, which has entered twice. -/
def deadWaiter : List Action :=
  [.call 1 (.enter 7), .handle, .call 2 (.enter 7), .handle, .call 3 (.enter 7), .handle,
    .call 1 (.enter 7), .handle, .die 2, .call 1 (.leave 7), .handle, .call 1 (.leave 7), .handle]

theorem gatekeeper_mutual_exclusion_deadWaiter :
    ∃ w, Reach.run World.step initial deadWaiter = .ok w ∧
      w.state = [⟨7, 2, 1, 1, [⟨3, 2⟩]⟩] ∧ w.inbox = [.down 1] ∧
      (∀ e ∈ w.log, e.Alone) ∧ w.step .handle ≠ .error .badMatch := by
  obtain ⟨w, hw, hst, hin⟩ : ∃ w, Reach.run World.step initial deadWaiter = .ok w ∧
      w.state = [⟨7, 2, 1, 1, [⟨3, 2⟩]⟩] ∧ w.inbox = [.down 1] := ⟨_, rfl, rfl, rfl⟩
  have h := gatekeeper_mutual_exclusion (.of_run deadWaiter .start (by decide) hw)
  exact ⟨w, hw, hst, hin, h.2.1, h.2.2.2.2.2.2⟩

end Swish.Gatekeeper
