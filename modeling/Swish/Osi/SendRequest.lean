import Mathlib.Algebra.Order.BigOperators.Group.Finset
import Swish.Lib.Settles

/-!
osi_send_request: other threads have a function called on the Scheme thread. The
request goes through one shared slot, guarded by a mutex, with a condition for the
threads that wait their turn and one for the thread whose request is in the slot.
-/

set_option autoImplicit false

namespace Swish.Osi

open Swish.Lib

/-- Where a thread is in osi_send_request. -/
inductive Pc where
  | out
  /-- At uv_mutex_lock. -/
  | lock
  /-- At the test of the first loop, with the mutex. -/
  | turn
  /-- In uv_cond_wait of the first loop, before and after it is woken up. -/
  | turnWait
  | turnWoken
  /-- At the test of the second loop, with the mutex. -/
  | own
  /-- In uv_cond_wait of the second loop, before and after it is woken up. -/
  | ownWait
  | ownWoken
  deriving DecidableEq

/-- Where the Scheme thread is in send_request_async_cb. -/
inductive LoopPc where
  | away
  | lock
  | run
  deriving DecidableEq

/-- What is left to do for one thread. -/
def Pc.work (finishing : Bool) : Pc → Nat
  | .out => 0
  | .lock => 11
  | .turnWoken => 11
  | .turn => 10
  | .turnWait => 9
  | .ownWoken => if finishing then 4 else 7
  | .own => if finishing then 3 else 6
  | .ownWait => 5

def LoopPc.work (pending : Bool) : LoopPc → Nat
  | .away => if pending then 3 else 0
  | .lock => 2
  | .run => 1

theorem Pc.work_le (finishing : Bool) (p : Pc) : p.work finishing ≤ 11 := by
  cases p <;> cases finishing <;> decide

theorem LoopPc.work_le (pending : Bool) (p : LoopPc) : p.work pending ≤ 3 := by
  cases p <;> cases pending <;> decide

inductive Holder (n : Nat) where
  | thread (i : Fin n)
  | scheme
  deriving DecidableEq

/-- The slot g_send_request, the threads, and what has happened: the payloads that were passed to the code, those of the
calls that returned 0, and those of the calls that returned an error of uv_async_send. -/
structure Shared (n : Nat) (π : Type) where
  holder : Option (Holder n)
  sender : Option (Fin n)
  code : Option π
  /-- uv_async_send has been called. -/
  pending : Bool
  loop : LoopPc
  pc : Fin n → Pc
  payload : Fin n → π
  ran : List π
  done : List π
  refused : List (π × Int)

inductive Act (n : Nat) (π : Type) where
  | call (i : Fin n) (p : π)
  | lock (i : Fin n)
  | turn (i : Fin n) (rc : Int)
  | own (i : Fin n) (woken : Option (Fin n))
  | wake (i : Fin n)
  | spurious (i : Fin n)
  | callback
  | loopLock
  | loopRun

/-- A step that is not possible, and the call of a null pointer. -/
inductive Fault where
  | disabled
  | nullPointer
  deriving DecidableEq

namespace Shared

variable {n : Nat} {π : Type}

def goto (s : Shared n π) (i : Fin n) (p : Pc) : Shared n π := { s with pc := Function.update s.pc i p }

/-- uv_cond_signal on cond: a thread that waits there is woken up, if there is one. -/
def signal (s : Shared n π) : Option (Fin n) → Except Fault (Shared n π)
  | some j => if s.pc j = .turnWait then .ok (s.goto j .turnWoken) else .error .disabled
  | none => if ∃ j, s.pc j = .turnWait then .error .disabled else .ok s

/-- uv_cond_signal on the condition of a sender. -/
def signalSender (s : Shared n π) (i : Fin n) : Shared n π :=
  if s.pc i = .ownWait then s.goto i .ownWoken else s

def step (s : Shared n π) : Act n π → Except Fault (Shared n π)
  | .call i p =>
    if s.pc i = .out then .ok { s.goto i .lock with payload := Function.update s.payload i p } else .error .disabled
  | .lock i =>
    if s.pc i = .lock ∧ s.holder = none then .ok { s.goto i .turn with holder := some (.thread i) } else .error .disabled
  | .turn i rc =>
    if s.pc i = .turn then
      if s.sender ≠ none then .ok { s.goto i .turnWait with holder := none }
      else if rc ≠ 0 then .ok { s.goto i .out with holder := none, refused := s.refused ++ [(s.payload i, rc)] }
      else .ok { s.goto i .own with pending := true, code := some (s.payload i), sender := some i }
    else .error .disabled
  | .own i woken =>
    if s.pc i = .own then
      if s.sender = some i then .ok { s.goto i .ownWait with holder := none }
      else (s.signal woken).map fun s => { s.goto i .out with holder := none, done := s.done ++ [s.payload i] }
    else .error .disabled
  | .wake i =>
    if s.holder = none then
      if s.pc i = .turnWoken then .ok { s.goto i .turn with holder := some (.thread i) }
      else if s.pc i = .ownWoken then .ok { s.goto i .own with holder := some (.thread i) }
      else .error .disabled
    else .error .disabled
  | .spurious i =>
    if s.pc i = .turnWait then .ok (s.goto i .turnWoken)
    else if s.pc i = .ownWait then .ok (s.goto i .ownWoken)
    else .error .disabled
  | .callback =>
    if s.loop = .away ∧ s.pending = true then .ok { s with pending := false, loop := .lock } else .error .disabled
  | .loopLock =>
    if s.loop = .lock ∧ s.holder = none then .ok { s with loop := .run, holder := some .scheme } else .error .disabled
  | .loopRun =>
    if s.loop = .run then
      match s.code, s.sender with
      | some p, some i =>
        .ok { s.signalSender i with code := none, sender := none, holder := none, loop := .away, ran := s.ran ++ [p] }
      | _, _ => .error .nullPointer
    else .error .disabled

/-- Before the first call. -/
def initial (payload : Fin n → π) : Shared n π := ⟨none, none, none, false, .away, fun _ => .out, payload, [], [], []⟩

/-- The request of thread i has been run, and the call is about to return. -/
def Finishing (s : Shared n π) (i : Fin n) : Prop := (s.pc i = .own ∨ s.pc i = .ownWoken) ∧ s.sender ≠ some i

instance (s : Shared n π) (i : Fin n) : Decidable (s.Finishing i) := inferInstanceAs (Decidable (_ ∧ _))

/-- The request of the sender is on its way. -/
def Underway (s : Shared n π) : Prop :=
  (s.pending = true ∧ s.loop = .away) ∨ (s.pending = false ∧ s.loop ≠ .away)

/-- What holds at all times about the slot and the mutex. -/
structure Sound (s : Shared n π) : Prop where
  held : ∀ i, s.holder = some (.thread i) ↔ s.pc i = .turn ∨ s.pc i = .own
  loopHeld : s.holder = some .scheme ↔ s.loop = .run
  free : s.sender = none → s.code = none ∧ s.pending = false ∧ s.loop = .away
  taken : ∀ i, s.sender = some i →
    (s.pc i = .own ∨ s.pc i = .ownWait ∨ s.pc i = .ownWoken) ∧ s.code = some (s.payload i) ∧ s.Underway
  waiting : ∀ i, s.pc i = .ownWait → s.sender = some i

/-- What a step can do. -/
inductive Moves (s : Shared n π) : Act n π → Shared n π → Prop where
  | call (i : Fin n) (p : π) (hpc : s.pc i = .out) :
    Moves s (.call i p) { s with pc := Function.update s.pc i .lock, payload := Function.update s.payload i p }
  | lock (i : Fin n) (hpc : s.pc i = .lock) (hfree : s.holder = none) :
    Moves s (.lock i) { s with pc := Function.update s.pc i .turn, holder := some (.thread i) }
  | turnWait (i : Fin n) (rc : Int) (hpc : s.pc i = .turn) (hs : s.sender ≠ none) :
    Moves s (.turn i rc) { s with pc := Function.update s.pc i .turnWait, holder := none }
  | refused (i : Fin n) (rc : Int) (hpc : s.pc i = .turn) (hs : s.sender = none) (hrc : rc ≠ 0) :
    Moves s (.turn i rc)
      { s with pc := Function.update s.pc i .out, holder := none, refused := s.refused ++ [(s.payload i, rc)] }
  | taken (i : Fin n) (hpc : s.pc i = .turn) (hs : s.sender = none) :
    Moves s (.turn i 0)
      { s with pc := Function.update s.pc i .own, pending := true, code := some (s.payload i), sender := some i }
  | ownWait (i : Fin n) (woken : Option (Fin n)) (hpc : s.pc i = .own) (hs : s.sender = some i) :
    Moves s (.own i woken) { s with pc := Function.update s.pc i .ownWait, holder := none }
  | finish (i j : Fin n) (hpc : s.pc i = .own) (hs : s.sender ≠ some i) (hj : s.pc j = .turnWait) :
    Moves s (.own i (some j))
      { s with pc := Function.update (Function.update s.pc j .turnWoken) i .out, holder := none,
               done := s.done ++ [s.payload i] }
  | finishLast (i : Fin n) (hpc : s.pc i = .own) (hs : s.sender ≠ some i) (hno : ∀ j, s.pc j ≠ .turnWait) :
    Moves s (.own i none)
      { s with pc := Function.update s.pc i .out, holder := none, done := s.done ++ [s.payload i] }
  | wakeTurn (i : Fin n) (hpc : s.pc i = .turnWoken) (hfree : s.holder = none) :
    Moves s (.wake i) { s with pc := Function.update s.pc i .turn, holder := some (.thread i) }
  | wakeOwn (i : Fin n) (hpc : s.pc i = .ownWoken) (hfree : s.holder = none) :
    Moves s (.wake i) { s with pc := Function.update s.pc i .own, holder := some (.thread i) }
  | spuriousTurn (i : Fin n) (hpc : s.pc i = .turnWait) :
    Moves s (.spurious i) { s with pc := Function.update s.pc i .turnWoken }
  | spuriousOwn (i : Fin n) (hpc : s.pc i = .ownWait) :
    Moves s (.spurious i) { s with pc := Function.update s.pc i .ownWoken }
  | callback (hloop : s.loop = .away) (hpending : s.pending = true) :
    Moves s .callback { s with pending := false, loop := .lock }
  | loopLock (hloop : s.loop = .lock) (hfree : s.holder = none) :
    Moves s .loopLock { s with loop := .run, holder := some .scheme }
  | loopRun (i : Fin n) (p : π) (hloop : s.loop = .run) (hs : s.sender = some i) (hcode : s.code = some p) :
    Moves s .loopRun
      { s with pc := Function.update s.pc i (if s.pc i = .ownWait then .ownWoken else s.pc i), code := none,
               sender := none, holder := none, loop := .away, ran := s.ran ++ [p] }

theorem moves_of_step {s t : Shared n π} {a : Act n π} (h : s.step a = .ok t) : s.Moves a t := by
  cases a with
  | call i p =>
    simp only [step] at h
    split at h <;> cases h
    exact .call i p ‹_›
  | lock i =>
    simp only [step] at h
    split at h <;> cases h
    rename_i hc
    exact .lock i hc.1 hc.2
  | turn i rc =>
    simp only [step] at h
    split at h
    · rename_i hpc
      split at h
      · cases h
        exact .turnWait i rc hpc ‹_›
      · rename_i hs
        have hs := Decidable.not_not.mp hs
        split at h
        · cases h
          exact .refused i rc hpc hs ‹_›
        · rename_i hrc
          cases h
          rw [Decidable.not_not.mp hrc]
          exact .taken i hpc hs
    · cases h
  | own i woken =>
    simp only [step] at h
    split at h
    · rename_i hpc
      split at h
      · cases h
        exact .ownWait i woken hpc ‹_›
      · rename_i hs
        cases woken with
        | some j =>
          simp only [signal] at h
          split at h <;> cases h
          exact .finish i j hpc hs ‹_›
        | none =>
          simp only [signal] at h
          split at h <;> cases h
          rename_i hno
          exact .finishLast i hpc hs fun j hj => hno ⟨j, hj⟩
    · cases h
  | wake i =>
    simp only [step] at h
    split at h
    · rename_i hfree
      split at h
      · cases h
        exact .wakeTurn i ‹_› hfree
      · split at h <;> cases h
        exact .wakeOwn i ‹_› hfree
    · cases h
  | spurious i =>
    simp only [step] at h
    split at h
    · cases h
      exact .spuriousTurn i ‹_›
    · split at h <;> cases h
      exact .spuriousOwn i ‹_›
  | callback =>
    simp only [step] at h
    split at h <;> cases h
    rename_i hc
    exact .callback hc.1 hc.2
  | loopLock =>
    simp only [step] at h
    split at h <;> cases h
    rename_i hc
    exact .loopLock hc.1 hc.2
  | loopRun =>
    simp only [step] at h
    split at h
    · rename_i hloop
      split at h <;> cases h
      rename_i p i hcode hs
      have hm := Moves.loopRun i p hloop hs hcode
      unfold signalSender
      split
      · rename_i hpc
        rwa [if_pos hpc] at hm
      · rename_i hpc
        rwa [if_neg hpc, Function.update_eq_self] at hm
    · cases h

variable {s t : Shared n π} {a : Act n π}

theorem Sound.initial (payload : Fin n → π) : (initial payload : Shared n π).Sound := by
  constructor <;> simp [Shared.initial]

theorem held_step (h : s.Sound) (ht : s.Moves a t) (i : Fin n) :
    t.holder = some (.thread i) ↔ t.pc i = .turn ∨ t.pc i = .own := by
  have hi := h.held i
  have hall := h.held
  have hloop := h.loopHeld
  cases ht <;> simp only [Function.update_apply] <;> grind

theorem loopHeld_step (h : s.Sound) (ht : s.Moves a t) : t.holder = some .scheme ↔ t.loop = .run := by
  have hall := h.held
  have hloop := h.loopHeld
  cases ht <;> grind

theorem free_step (h : s.Sound) (ht : s.Moves a t) (hfree : t.sender = none) :
    t.code = none ∧ t.pending = false ∧ t.loop = .away := by
  have hf := h.free
  have htaken := h.taken
  cases ht with
  | taken => cases hfree
  | loopRun i p hloop hs =>
    obtain ⟨-, -, ⟨-, haway⟩ | ⟨hpending, -⟩⟩ := htaken i hs
    · rw [hloop] at haway
      cases haway
    · exact ⟨rfl, hpending, rfl⟩
  | _ => simp_all

theorem taken_step (h : s.Sound) (ht : s.Moves a t) (i : Fin n) (hi : t.sender = some i) :
    (t.pc i = .own ∨ t.pc i = .ownWait ∨ t.pc i = .ownWoken) ∧ t.code = some (t.payload i) ∧ t.Underway := by
  have hf := h.free
  have htaken := h.taken i
  unfold Underway at htaken ⊢
  cases ht <;> simp only [Function.update_apply] <;> grind

theorem waiting_step (h : s.Sound) (ht : s.Moves a t) (i : Fin n) (hi : t.pc i = .ownWait) : t.sender = some i := by
  have hw := h.waiting
  cases ht <;> simp only [Function.update_apply] at hi <;> grind

theorem Sound.step (h : s.Sound) (ht : s.Moves a t) : t.Sound :=
  ⟨held_step h ht, loopHeld_step h ht, free_step h ht, taken_step h ht, waiting_step h ht⟩

/-! Each request is run once. -/

/-- How many threads are about to return with the payload p. -/
def finishing [DecidableEq π] (s : Shared n π) (p : π) : Nat :=
  ∑ i, if s.Finishing i ∧ s.payload i = p then 1 else 0

/-- What has been run has returned, or is about to. -/
def Once [DecidableEq π] (s : Shared n π) : Prop := ∀ p, s.ran.count p = s.done.count p + s.finishing p

/-- A thread starts to finish or leaves. -/
theorem finishing_change [DecidableEq π] {p : π} (i : Fin n)
    (h : ∀ k, k ≠ i → ((t.Finishing k ∧ t.payload k = p) ↔ (s.Finishing k ∧ s.payload k = p))) :
    t.finishing p + (if s.Finishing i ∧ s.payload i = p then 1 else 0) =
      s.finishing p + if t.Finishing i ∧ t.payload i = p then 1 else 0 :=
  @sum_change (Fin n) _ _ (fun k => if t.Finishing k ∧ t.payload k = p then 1 else 0)
    (fun k => if s.Finishing k ∧ s.payload k = p then 1 else 0) i fun k hk => by simp only [h k hk]

theorem Once.same [DecidableEq π] (ho : s.Once) (hran : t.ran = s.ran) (hdone : t.done = s.done)
    (h : ∀ k p, (t.Finishing k ∧ t.payload k = p) ↔ (s.Finishing k ∧ s.payload k = p)) : t.Once := by
  intro p
  have hsum : t.finishing p = s.finishing p := Finset.sum_congr rfl fun i _ => by simp only [h i p]
  rw [hran, hdone, hsum, ho p]

/-- A call returns. -/
theorem Once.leaves [DecidableEq π] (ho : s.Once) {i : Fin n} (hs : s.Finishing i) (ht : ¬ t.Finishing i)
    (hran : t.ran = s.ran) (hdone : t.done = s.done ++ [s.payload i])
    (h : ∀ k p, k ≠ i → ((t.Finishing k ∧ t.payload k = p) ↔ (s.Finishing k ∧ s.payload k = p))) : t.Once := by
  intro p
  have hchange := finishing_change i fun k hk => h k p hk
  have hp := ho p
  simp only [hs, ht, true_and, false_and, if_false] at hchange
  rw [hran, hdone, List.count_append, List.count_singleton]
  grind

/-- A request is run. -/
theorem Once.starts [DecidableEq π] (ho : s.Once) {i : Fin n} (hs : ¬ s.Finishing i) (ht : t.Finishing i)
    (hran : t.ran = s.ran ++ [t.payload i]) (hdone : t.done = s.done)
    (h : ∀ k p, k ≠ i → ((t.Finishing k ∧ t.payload k = p) ↔ (s.Finishing k ∧ s.payload k = p))) : t.Once := by
  intro p
  have hchange := finishing_change i fun k hk => h k p hk
  have hp := ho p
  simp only [hs, ht, true_and, false_and, if_false] at hchange
  rw [hran, hdone, List.count_append, List.count_singleton]
  grind

theorem Once.step [DecidableEq π] (h : s.Sound) (ho : s.Once) (ht : s.Moves a t) : t.Once := by
  have hw := h.waiting
  cases ht with
  | finish i j hpc hs hj =>
    refine ho.leaves ⟨.inl hpc, hs⟩ (by simp [Finishing]) rfl rfl fun k p hk => ?_
    simp only [Finishing, Function.update_apply]
    grind
  | finishLast i hpc hs hno =>
    refine ho.leaves ⟨.inl hpc, hs⟩ (by simp [Finishing]) rfl rfl fun k p hk => ?_
    simp only [Finishing, Function.update_apply]
    grind
  | loopRun i p hloop hs hcode =>
    obtain ⟨hpc, hpayload, -⟩ := h.taken i hs
    -- the sender does not hold the mutex, so that it waits
    have hrun := h.loopHeld.mpr hloop
    have hheld := h.held i
    refine ho.starts (i := i) (fun hi => hi.2 hs) ?_ ?_ rfl fun k q hk => ?_
    · simp only [Finishing, Function.update_self]
      grind
    · rw [hcode] at hpayload
      rw [Option.some.inj hpayload]
    · simp only [Finishing, Function.update_apply]
      grind
  | _ =>
    refine ho.same rfl rfl fun k p => ?_
    simp only [Finishing, Function.update_apply] <;> grind

/-! Every call returns. -/

/-- Some thread will take its turn or signal cond, if a thread waits there. -/
def Attended (s : Shared n π) : Prop :=
  ∀ j, s.pc j = .turnWait → s.sender ≠ none ∨
    ∃ k, s.pc k = .turnWoken ∨ s.pc k = .turn ∨ s.pc k = .own ∨ s.pc k = .ownWoken

/-- A call that uv_async_send refuses signals nobody; all others do. -/
theorem Attended.step (h : s.Sound) (ha : s.refused = [] → s.Attended) (ht : s.Moves a t) :
    t.refused = [] → t.Attended := by
  intro hrefused j hj
  cases ht with
  | refused => simp at hrefused
  | turnWait i rc hpc hs => exact .inl hs
  | taken | ownWait => simp_all
  | finish i k hpc hs hk =>
    refine .inr ⟨k, .inl ?_⟩
    simp only [Function.update_apply]
    grind
  | finishLast i hpc hs hno =>
    simp only [Function.update_apply] at hj
    grind
  | loopRun i p hloop hs hcode =>
    refine .inr ⟨i, ?_⟩
    have htaken := (h.taken i hs).1
    simp only [Function.update_apply]
    grind
  | _ =>
    have hs := ha hrefused j
    simp only [Function.update_apply] at hj ⊢
    grind

/-- No new calls, no spurious wake-up, and no error of uv_async_send. -/
def Quiet (_s : Shared n π) : Act n π → Prop
  | .call _ _ => False
  | .spurious _ => False
  | .turn _ rc => rc = 0
  | _ => True

instance (s : Shared n π) (a : Act n π) : Decidable (s.Quiet a) := by
  cases a <;> unfold Quiet <;> infer_instance

def threadWork (s : Shared n π) (i : Fin n) : Nat := (s.pc i).work (decide (s.sender ≠ some i))

def work (s : Shared n π) : Nat := ∑ i, s.threadWork i + s.loop.work s.pending

theorem work_of_one {i : Fin n} (h : ∀ k, k ≠ i → t.threadWork k = s.threadWork k)
    (hi : t.threadWork i + t.loop.work t.pending < s.threadWork i + s.loop.work s.pending) : t.work < s.work := by
  have hchange := sum_change i h
  unfold work
  omega

theorem work_of_two {i j : Fin n} (hij : i ≠ j) (h : ∀ k, k ≠ i → k ≠ j → t.threadWork k = s.threadWork k)
    (hi : t.threadWork i + t.threadWork j + t.loop.work t.pending <
      s.threadWork i + s.threadWork j + s.loop.work s.pending) : t.work < s.work := by
  have hchange := sum_change_two hij h
  unfold work
  omega

theorem work_falls (h : s.Sound) (ha : s.Quiet a) (ht : s.Moves a t) : t.work < s.work := by
  cases ht with
  | call | spuriousTurn | spuriousOwn => exact ha.elim
  | refused i rc hpc hs hrc => exact absurd ha hrc
  | callback hloop hpending =>
    simp [work, threadWork, hloop, hpending, LoopPc.work]
  | loopLock hloop hfree =>
    simp [work, threadWork, hloop, LoopPc.work]
  | finish i j hpc hs hj =>
    have hij : j ≠ i := fun he => by simp [he, hpc] at hj
    refine work_of_two hij (fun k hk hki => ?_) ?_
    · simp [threadWork, hk, hki]
    · simp [threadWork, hij, hpc, hs, hj, Pc.work]
  | loopRun i p hloop hs hcode =>
    obtain ⟨htaken, -, hunder⟩ := h.taken i hs
    have hpending : s.pending = false := by simpa [Underway, hloop] using hunder
    have hrun := h.loopHeld.mpr hloop
    have hheld := h.held i
    refine work_of_one (i := i) (fun k hk => ?_) ?_
    · simp [threadWork, hs, hk, Ne.symm hk]
    · simp only [threadWork, Function.update_self, hs, hloop, hpending]
      grind [Pc.work, LoopPc.work]
  | taken i hpc hs =>
    obtain ⟨-, hpending, haway⟩ := h.free hs
    refine work_of_one (i := i) (fun k hk => ?_) ?_
    · simp [threadWork, hs, hk, Ne.symm hk]
    · simp [threadWork, hpc, hpending, haway, Pc.work, LoopPc.work]
  | lock i | turnWait i | ownWait i | finishLast i | wakeTurn i | wakeOwn i =>
    refine work_of_one (i := i) (fun k hk => ?_) ?_
    · simp only [threadWork, Function.update_apply]
      grind
    · simp only [threadWork, Function.update_self]
      grind [Pc.work, LoopPc.work]

/-- A quiet step is possible. -/
def Goes (s : Shared n π) : Prop := ∃ a t, s.Quiet a ∧ s.step a = .ok t

theorem goes_turn {i : Fin n} (hpc : s.pc i = .turn) : s.Goes := by
  by_cases hs : s.sender = none
  · exact ⟨.turn i 0, _, rfl, by rw [Shared.step, if_pos hpc, if_neg (by simp [hs]), if_neg (by simp)]⟩
  · exact ⟨.turn i 0, _, rfl, by rw [Shared.step, if_pos hpc, if_pos hs]⟩

theorem goes_own {i : Fin n} (hpc : s.pc i = .own) : s.Goes := by
  by_cases hs : s.sender = some i
  · exact ⟨.own i none, _, trivial, by rw [Shared.step, if_pos hpc, if_pos hs]⟩
  · by_cases hj : ∃ j, s.pc j = .turnWait
    · obtain ⟨j, hj⟩ := hj
      exact ⟨.own i (some j), _, trivial, by rw [Shared.step, if_pos hpc, if_neg hs, signal, if_pos hj]; rfl⟩
    · exact ⟨.own i none, _, trivial, by rw [Shared.step, if_pos hpc, if_neg hs, signal, if_neg hj]; rfl⟩

theorem goes_wake {i : Fin n} (hfree : s.holder = none) (hpc : s.pc i = .turnWoken ∨ s.pc i = .ownWoken) : s.Goes := by
  rcases hpc with hpc | hpc
  · exact ⟨.wake i, _, trivial, by rw [Shared.step, if_pos hfree, if_pos hpc]⟩
  · exact ⟨.wake i, _, trivial, by rw [Shared.step, if_pos hfree, if_neg (by simp [hpc]), if_pos hpc]⟩

theorem goes_run (h : s.Sound) (hloop : s.loop = .run) : s.Goes := by
  cases hs : s.sender with
  | none => simp [(h.free hs).2.2] at hloop
  | some i =>
    have hcode := (h.taken i hs).2.1
    exact ⟨.loopRun, _, trivial, by rw [Shared.step, if_pos hloop, hcode, hs]⟩

/-- The request in the slot makes its way. -/
theorem goes_sender (h : s.Sound) {i : Fin n} (hs : s.sender = some i) (hfree : s.holder = none) : s.Goes := by
  rcases (h.taken i hs).2.2 with ⟨hpending, haway⟩ | ⟨-, haway⟩
  · exact ⟨.callback, _, trivial, by rw [Shared.step, if_pos ⟨haway, hpending⟩]⟩
  · cases hloop : s.loop with
    | away => exact absurd hloop haway
    | lock => exact ⟨.loopLock, _, trivial, by rw [Shared.step, if_pos ⟨hloop, hfree⟩]⟩
    | run => exact goes_run h hloop

/-- As long as a thread is in a call, something goes on. -/
theorem goes_on (h : s.Sound) (ha : s.Attended) {i : Fin n} (hi : s.pc i ≠ .out) : s.Goes := by
  cases hh : s.holder with
  | some holder =>
    cases holder with
    | thread k => exact ((h.held k).mp hh).elim goes_turn goes_own
    | scheme => exact goes_run h (h.loopHeld.mp hh)
  | none =>
    cases hpc : s.pc i with
    | out => exact absurd hpc hi
    | lock => exact ⟨.lock i, _, trivial, by rw [Shared.step, if_pos ⟨hpc, hh⟩]⟩
    | turn => exact goes_turn hpc
    | turnWoken => exact goes_wake hh (.inl hpc)
    | own => exact goes_own hpc
    | ownWait => exact goes_sender h (h.waiting i hpc) hh
    | ownWoken => exact goes_wake hh (.inr hpc)
    | turnWait =>
      rcases ha i hpc with hs | ⟨k, hk | hk | hk | hk⟩
      · obtain ⟨k, hk⟩ := Option.ne_none_iff_exists'.mp hs
        exact goes_sender h hk hh
      · exact goes_wake hh (.inl hk)
      · exact goes_turn hk
      · exact goes_own hk
      · exact goes_wake hh (.inr hk)

/-- The states that the calls of any threads lead to. -/
def Reachable (payload : Fin n → π) : Shared n π → Prop := Reach (initial payload) step fun _ _ => True

theorem refused_grows (ht : s.Moves a t) (hrefused : t.refused = []) : s.refused = [] := by
  cases ht <;> simp_all

theorem Reachable.sound {payload : Fin n → π} (h : Reachable payload s) :
    s.Sound ∧ (s.refused = [] → s.Attended) := by
  refine Reach.invariant (I := fun s => s.Sound ∧ (s.refused = [] → s.Attended)) ⟨.initial payload, ?_⟩ ?_ h
  · intro _ j hj
    cases hj
  · rintro s a t ⟨hsound, hattended⟩ - ht
    exact ⟨hsound.step (moves_of_step ht), Attended.step hsound hattended (moves_of_step ht)⟩

theorem Reachable.once [DecidableEq π] {payload : Fin n → π} (h : Reachable payload s) : s.Once := by
  have hboth : s.Sound ∧ s.Once := by
    refine Reach.invariant (I := fun s => s.Sound ∧ s.Once) ⟨.initial payload, fun p => ?_⟩ ?_ h
    · simp [finishing, Finishing, initial]
    · rintro s a t ⟨hsound, honce⟩ - ht
      exact ⟨hsound.step (moves_of_step ht), honce.step hsound (moves_of_step ht)⟩
  exact hboth.2

theorem settles : Settles (step : Shared n π → Act n π → Except Fault (Shared n π))
    (fun s => s.Sound ∧ (s.refused = [] → s.Attended) ∧ s.refused = []) Quiet work fun s => ∀ i, s.pc i = .out where
  keeps := by
    rintro s t a ⟨hsound, hattended, hrefused⟩ ha ht
    have hm := moves_of_step ht
    refine ⟨hsound.step hm, Attended.step hsound hattended hm, ?_⟩
    cases hm with
    | refused i rc hpc hs hrc => exact absurd ha hrc
    | _ => exact hrefused
  falls := by
    rintro s t a ⟨hsound, -⟩ ha ht
    exact work_falls hsound ha (moves_of_step ht)
  goes := by
    rintro s ⟨hsound, hattended, hrefused⟩ hs
    obtain ⟨i, hi⟩ := not_forall.mp hs
    exact goes_on hsound (hattended hrefused) hi

theorem work_le (s : Shared n π) : s.work ≤ 11 * n + 3 := by
  have hthreads : ∑ i, s.threadWork i ≤ ∑ _i : Fin n, 11 :=
    Finset.sum_le_sum fun i _ => (s.pc i).work_le _
  have hloop : s.loop.work s.pending ≤ 3 := s.loop.work_le s.pending
  simp only [Finset.sum_const, Finset.card_univ, Fintype.card_fin, smul_eq_mul] at hthreads
  unfold work
  omega

theorem no_null_pointer (h : s.Sound) (a : Act n π) : s.step a ≠ .error .nullPointer := by
  intro hstep
  cases a with
  | loopRun =>
    simp only [Shared.step] at hstep
    split at hstep
    · rename_i hloop
      split at hstep
      · cases hstep
      · rename_i hcase
        cases hs : s.sender with
        | none => simp [(h.free hs).2.2] at hloop
        | some i => exact hcase (s.payload i) i (h.taken i hs).2.1 hs
    · cases hstep
  | own i woken =>
    cases woken <;> simp only [Shared.step, signal] at hstep <;> split_ifs at hstep <;> cases hstep
  | _ =>
    simp only [Shared.step] at hstep
    split_ifs at hstep <;> cases hstep

/-- The code is never called through a null pointer, and always with the payload of a thread that waits in its call;
what it has been called with are the payloads of the calls that have returned 0, each once, and of those that are
about to. -/
theorem requests_run_once [DecidableEq π] (payload : Fin n → π) (h : Reachable payload s) :
    (∀ a, s.step a ≠ .error .nullPointer) ∧
      (∀ t, s.step .loopRun = .ok t → ∃ i, s.sender = some i ∧ (s.pc i = .ownWait ∨ s.pc i = .ownWoken) ∧
        t.ran = s.ran ++ [s.payload i]) ∧
      ∀ p, s.ran.count p = s.done.count p + (Finset.univ.filter fun i => s.Finishing i ∧ s.payload i = p).card := by
  have hsound := h.sound.1
  refine ⟨no_null_pointer hsound, fun t ht => ?_, fun p => ?_⟩
  · cases moves_of_step ht with
    | loopRun i p hloop hs hcode =>
      obtain ⟨hpc, hpayload, -⟩ := hsound.taken i hs
      have hrun := hsound.loopHeld.mpr hloop
      have hheld := hsound.held i
      refine ⟨i, hs, by grind, ?_⟩
      rw [hcode] at hpayload
      rw [Option.some.inj hpayload]
  · rw [h.once p, finishing, Finset.card_filter]

/-- One call, from its first step to its last. -/
def oneCall : List (Act 1 Nat) :=
  [.call 0 7, .lock 0, .turn 0 0, .own 0 none, .callback, .loopLock, .loopRun, .wake 0, .own 0 none]

theorem requests_run_once_one : ∃ s : Shared 1 Nat, s.done = [7] ∧
    s.ran.count 7 = s.done.count 7 + (Finset.univ.filter fun i => s.Finishing i ∧ s.payload i = 7).card := by
  obtain ⟨s, hs, hdone⟩ : ∃ s, Reach.run step (initial fun _ : Fin 1 => 0) oneCall = .ok s ∧ s.done = [7] := ⟨_, rfl, rfl⟩
  have hreach : Reachable (fun _ => 0) s := .of_run oneCall .start (Reach.along_of_forall (fun _ _ => trivial) _ _) hs
  exact ⟨s, hdone, (requests_run_once _ hreach).2.2 7⟩

/-- Without new calls, spurious wake-ups and errors of uv_async_send, all calls return: no more than 11 steps for each
thread and 3 for the Scheme thread are left, and where no step is left no thread is in a call. -/
theorem requests_return (payload : Fin n → π) (h : Reachable payload s) (hrefused : s.refused = []) (as : List (Act n π))
    (hquiet : Reach.Along step Quiet s as) (hrun : Reach.run step s as = .ok t) :
    as.length ≤ 11 * n + 3 ∧ ((∀ a u, t.Quiet a → t.step a ≠ .ok u) → ∀ i, t.pc i = .out) := by
  obtain ⟨hlength, hinv⟩ := settles.run_length as ⟨h.sound.1, h.sound.2, hrefused⟩ hquiet hrun
  have hwork := s.work_le
  exact ⟨by omega, settles.good_of_stuck hinv⟩

theorem requests_return_one : ∃ t : Shared 1 Nat, t.done = [7] ∧ oneCall.tail.length ≤ 11 * 1 + 3 ∧
    ((∀ a u, t.Quiet a → t.step a ≠ .ok u) → ∀ i, t.pc i = .out) := by
  obtain ⟨s, hs, hrefused, t, ht, hdone⟩ : ∃ s, Reach.run step (initial fun _ : Fin 1 => 0) [.call 0 7] = .ok s ∧
      s.refused = [] ∧ ∃ t, Reach.run step s oneCall.tail = .ok t ∧ t.done = [7] := ⟨_, rfl, rfl, _, rfl, rfl⟩
  have hreach : Reachable (fun _ => 0) s := .of_run [.call 0 7] .start (Reach.along_of_forall (fun _ _ => trivial) _ _) hs
  exact ⟨t, hdone, requests_return _ hreach hrefused oneCall.tail
    (along_of_mem _ (by simp [oneCall, Quiet]) s) ht⟩

/-- Threads 1 and 2 wait for their turn while thread 0 is served, and the turn of thread 1 ends with an error. -/
def refusedTurn : List (Act 3 Nat) :=
  [.call 0 7, .lock 0, .turn 0 0, .own 0 none, .call 1 8, .lock 1, .turn 1 0, .call 2 9, .lock 2, .turn 2 0, .callback,
    .loopLock, .loopRun, .wake 0, .own 0 (some 1), .wake 1, .turn 1 (-4)]

/-- A call that uv_async_send refuses leaves without a signal, so that a thread may wait for its turn for ever. -/
theorem refused_strands : ∃ s : Shared 3 Nat, Reachable (fun _ => 0) s ∧ s.pc 2 = .turnWait ∧ ¬ s.Goes := by
  obtain ⟨s, hs, h0, h1, h2, hholder, hloop, hpending⟩ : ∃ s, Reach.run step (initial fun _ : Fin 3 => 0) refusedTurn = .ok s ∧
      s.pc 0 = .out ∧ s.pc 1 = .out ∧ s.pc 2 = .turnWait ∧ s.holder = none ∧ s.loop = .away ∧ s.pending = false :=
    ⟨_, rfl, rfl, rfl, rfl, rfl, rfl, rfl⟩
  have hpc : ∀ i, s.pc i = .out ∨ s.pc i = .turnWait := by
    intro i
    match i with
    | 0 => exact .inl h0
    | 1 => exact .inl h1
    | 2 => exact .inr h2
  refine ⟨s, .of_run refusedTurn .start (Reach.along_of_forall (fun _ _ => trivial) _ _) hs, h2, ?_⟩
  rintro ⟨a, t, hquiet, ht⟩
  cases moves_of_step ht with
  | call | spuriousTurn | spuriousOwn => exact hquiet
  | callback => simp_all
  | loopLock => simp_all
  | loopRun => simp_all
  | lock i | turnWait i | refused i | taken i | ownWait i | finish i | finishLast i | wakeTurn i | wakeOwn i =>
    have := hpc i
    simp_all

end Shared

end Swish.Osi
