import Swish.Parallel.Table

/-!
The end of a failed call. Cleanup kills the workers of the table and waits until
the table is empty, so no worker outlives the exception.
-/

set_option autoImplicit false

namespace Swish.Parallel

open Swish.GenServer.Loop
open Swish.Lib

variable {o : Options} {w w' : World} {input : List Datum}

/-- An abnormal exit of a worker, the timeout, or any exit of the parent. -/
def Received.isFailure : Received → Bool
  | .timeout => true
  | .exit ⟨.parent, _⟩ => true
  | .exit ⟨.worker _, raw⟩ => !isNormal raw.reason
  | .exit ⟨.other _, _⟩ => false

/-- What wait-for-any raises. -/
def Received.error : Received → Datum
  | .timeout => .fault true (.symbol .timeout)
  | .exit x => x.raw.err

def Phase.error : Phase → Option Datum
  | .caught err => some err
  | .killing err _ _ => some err
  | .draining err _ => some err
  | .done (.raised err) => some err
  | _ => none

def Phase.isSg : Phase → Bool
  | .sg => true
  | _ => false

/-- If sg is at its end, its vector does not match catch: it has not just two elements with the symbol
EXIT as the first. -/
def readsResult (w : World) : Action → Bool
  | .kernel => !(w.phase.isSg && w.started == w.vec.length && w.pidHt.isEmpty && (Datum.vector w.vec).isCatch)
  | _ => true

structure Failing (w : World) : Prop where
  before : w.phase = .sg ∨ w.phase = .waiting → w.received.find? Received.isFailure = none
  since : ∀ err, w.phase.error = some err →
    ∃ x, w.received.find? Received.isFailure = some x ∧ err = raisedErr x.error
  ended : ∀ r, w.phase = .done r → w.pidHt = []

namespace Failing

theorem initial (rnd : Random) (now : Nat) : Failing (World.initial o rnd now input) where
  before := fun _ => rfl
  since := by simp [World.initial, Phase.error]
  ended := by simp [World.initial]

theorem frame (h : Failing w) (h1 : w'.phase = w.phase) (h2 : w'.received = w.received) (h3 : w'.pidHt = w.pidHt) :
    Failing w' := by
  refine ⟨?_, ?_, ?_⟩
  · rw [h1, h2]
    exact h.before
  · rw [h1, h2]
    exact h.since
  · rw [h1, h3]
    exact h.ended

/-- The kernel is still in sg and has met one more thing that is no failure. -/
theorem goOn (h : Failing w) (hp : w.phase = .sg ∨ w.phase = .waiting) (h1 : w'.phase = .sg ∨ w'.phase = .waiting)
    (xs : List Received) (hxs : xs.find? Received.isFailure = none) (h2 : w'.received = w.received ++ xs) :
    Failing w' := by
  refine ⟨fun _ => ?_, ?_, ?_⟩
  · rw [h2, List.find?_append, h.before hp, hxs]
    rfl
  · intro err he
    rcases h1 with h1 | h1
    · rw [h1] at he
      cases he
    · rw [h1] at he
      cases he
  · intro r hr
    rcases h1 with h1 | h1
    · exact absurd (h1.symm.trans hr) (by simp)
    · exact absurd (h1.symm.trans hr) (by simp)

/-- The kernel meets its first failure. -/
theorem fail (h : Failing w) (hp : w.phase = .waiting) {x : Received} (hx : x.isFailure = true)
    (h1 : w'.phase = .caught (raisedErr x.error)) (h2 : w'.received = w.received ++ [x]) : Failing w' := by
  refine ⟨?_, ?_, ?_⟩
  · rw [h1]
    simp
  · intro err he
    rw [h1] at he
    cases he
    refine ⟨x, ?_, rfl⟩
    rw [h2, List.find?_append, h.before (.inr hp), List.find?_cons_of_pos hx]
    rfl
  · rw [h1]
    simp

/-- Cleanup goes on. What it meets now is no first failure any more. -/
theorem late (h : Failing w) {err : Datum} (hp : w.phase.error = some err) (h1 : w'.phase.error = some err)
    {xs : List Received} (h2 : w'.received = w.received ++ xs) (h3 : ∀ r, w'.phase = .done r → w'.pidHt = []) :
    Failing w' := by
  obtain ⟨x, hx, hex⟩ := h.since err hp
  refine ⟨?_, ?_, h3⟩
  · intro hsg
    rcases hsg with hsg | hsg
    · rw [hsg] at h1
      cases h1
    · rw [hsg] at h1
      cases h1
  · intro err' he
    rw [h1] at he
    cases he
    refine ⟨x, ?_, hex⟩
    rw [h2, List.find?_append, hx]
    rfl

theorem die (h : Failing w) (k : Nat) (raw : Datum) : Failing (w.die k raw) :=
  h.frame rfl rfl rfl

theorem step (h : Failing w) (haw : Awaited o w) (htr : Tracked w) {a : Action} (ha : readsResult w a = true)
    (ht : w.step o a = .ok w') : Failing w' := by
  cases step_move ht with
  | finished hp hs hpids hc => exact ⟨by simp, by simp [Phase.error], fun _ _ => hpids⟩
  | misread hp hs hpids hc => simp [readsResult, Phase.isSg, hp, hs, hpids, hc] at ha
  | start hp hs hl => exact h.goOn (.inl hp) (.inl hp) [] rfl (List.append_nil _).symm
  | wait hp hne hge => exact h.goOn (.inl hp) (.inr rfl) [] rfl (List.append_nil _).symm
  | parentExit x inbox hp hi hx =>
    obtain ⟨p, raw⟩ := x
    cases hx
    exact h.fail hp (x := .exit ⟨.parent, raw⟩) rfl rfl rfl
  | workerExit x inbox k hp hi hx hk hn =>
    obtain ⟨p, raw⟩ := x
    cases hx
    exact h.goOn (.inr hp) (.inl rfl) [.exit ⟨.worker k, raw⟩] (by simpa [Received.isFailure] using hn) rfl
  | workerFailed x inbox k hp hi hx hk hn =>
    obtain ⟨p, raw⟩ := x
    cases hx
    exact h.fail hp (x := .exit ⟨.worker k, raw⟩) (by simpa [Received.isFailure] using hn) rfl rfl
  | ignored x inbox hp hi hx hk =>
    obtain ⟨p, raw⟩ := x
    have hnone : [Received.exit ⟨p, raw⟩].find? Received.isFailure = none := by
      cases p with
      | parent => exact absurd rfl hx
      | other n => rfl
      | worker k =>
        -- the worker is in the table
        refine absurd rfl (hk k (htr.mem_iff.mpr ?_))
        rw [hi]
        exact List.mem_append_right _ List.mem_cons_self
    exact h.goOn (.inr hp) (.inr hp) _ hnone rfl
  | clean err hp hpids => exact h.late (by rw [hp]; rfl) rfl (List.append_nil _).symm (by simp)
  | failed err hp hpids => exact h.late (by rw [hp]; rfl) rfl (List.append_nil _).symm fun _ _ => hpids
  | killing err k pids n hp =>
    have hk : Failing { w with phase := .killing err pids n } :=
      h.late (by rw [hp]; rfl) rfl (List.append_nil _).symm (by simp)
    exact kill_rec err hk fun _ raw _ _ => hk.die k raw
  | drain err n hp => exact h.late (by rw [hp]; rfl) rfl (List.append_nil _).symm (by simp)
  | drained err hp =>
    have hc : 0 = w.pidHt.length := haw.count 0 (by rw [hp]; rfl)
    exact h.late (by rw [hp]; rfl) rfl (List.append_nil _).symm fun _ _ => List.eq_nil_of_length_eq_zero hc.symm
  | reaped err n x inbox k hp hi hx hk => exact h.late (by rw [hp]; rfl) rfl rfl (by simp)
  | skipped err n x inbox hp hi hk =>
    have hph : (w.take x inbox).phase = .draining err (n + 1) := hp
    exact h.late (by rw [hp]; rfl) (by rw [hph]; rfl) rfl (by rw [hph]; simp)
  | expire hp hi => exact h.fail hp (x := .timeout) rfl rfl rfl
  | kill k raw => exact kill_rec raw h fun _ raw _ _ => h.die k raw
  | linked k raw => exact linked_rec raw h fun _ raw _ _ => h.die k raw
  | _ => exact h.frame rfl rfl rfl

end Failing

/-- Once $scatter/gather! is over and the workers are dead, nothing starts any more. -/
structure Over (r : Result) (starts : List Nat) (w : World) : Prop where
  phase : w.phase = .done r
  starts : w.starts = starts
  dead : w.workers = []

theorem Over.find {r : Result} {starts : List Nat} (h : Over r starts w) (k : Nat) : w.find k = none := by
  unfold World.find
  rw [h.dead]
  rfl

theorem Over.step {r : Result} {starts : List Nat} (h : Over r starts w) {a : Action} (ht : w.step o a = .ok w') :
    Over r starts w' := by
  have hnone := h.find
  have hph := h.phase
  cases step_move ht with
  | tick elapsed => exact ⟨h.phase, h.starts, h.dead⟩
  | store k y x hf hs => rw [hnone k] at hf; cases hf
  | finish k x hf hs => rw [hnone k] at hf; cases hf
  | raise k raw x hf hs => rw [hnone k] at hf; cases hf
  | kill k raw => exact kill_rec raw h fun _ _ hf _ => by rw [hnone k] at hf; cases hf
  | linked k raw => exact linked_rec raw h fun _ _ hf _ => by rw [hnone k] at hf; cases hf
  | trapExit k on => exact ⟨h.phase, h.starts, by simp [h.dead]⟩
  | signal p raw => exact ⟨h.phase, h.starts, h.dead⟩
  | _ => simp_all

/-- No worker survives a failed call, the error is the first failure that the kernel met, and cleanup
waits once for every worker in the table. -/
theorem no_worker_survives_failure (o : Options) (rnd : Random) (now : Nat) (input : List Datum) (w : World)
    (h : Reach (World.initial o rnd now input) (World.step o)
      (fun w a => unforged a = true ∧ readsResult w a = true) w) :
    (∀ e, w.phase = .done (.raised e) →
      w.workers = [] ∧
      (∀ u, Reach w (World.step o) (fun _ _ => True) u → u.phase = w.phase ∧ u.starts = w.starts ∧ u.workers = []) ∧
      ∃ x, w.received.find? Received.isFailure = some x ∧ e = raisedErr x.error) ∧
    ∀ n, w.phase.remaining = some n →
      n = w.pidHt.length ∧ w.pidHt.Nodup ∧ w.pidHt.Perm (w.workers.map (·.no) ++ exits w.inbox) := by
  have haw := reach_awaited h
  have htr := reach_tracked (fun _ _ ha => ha.1) h
  have hf : Failing w := by
    have hboth : (Placed input w ∧ Awaited o w ∧ Tracked w) ∧ Failing w := by
      refine h.invariant (I := fun w => (Placed input w ∧ Awaited o w ∧ Tracked w) ∧ Failing w)
        ⟨⟨Placed.initial rnd now, Awaited.initial rnd now, Tracked.initial rnd now⟩, Failing.initial rnd now⟩
        fun s a t hs ha ht => ?_
      obtain ⟨⟨hpl, haw, htr⟩, hf⟩ := hs
      have hle : s.started ≤ s.vec.length := by
        rw [hpl.length]
        exact hpl.le
      exact ⟨⟨hpl.step ht, haw.step hle ht, htr.step hpl.nodup ha.1 ht⟩, hf.step haw htr ha.2 ht⟩
    exact hboth.2
  refine ⟨fun e he => ?_, fun n hn => ⟨haw.count n hn, haw.nodup, htr⟩⟩
  have hdead := htr.workers_nil (hf.ended _ he)
  refine ⟨hdead, fun u hu => ?_, hf.since e (by rw [he]; rfl)⟩
  have hover : Over (.raised e) w.starts u :=
    hu.invariant (I := fun u => Over (.raised e) w.starts u) ⟨he, rfl, hdead⟩ fun _ _ _ hs _ ht => hs.step ht
  exact ⟨hover.phase.trans he.symm, hover.starts, hover.dead⟩

/-- Two workers at a time, for a second. -/
def twoForASecond : Options := ⟨2, Nat.two_pos, .left, some 1000⟩

/-- The first worker fails, and the second one ends only when it likes. -/
theorem no_worker_survives_failure_trapping :
    ∃ w : World, w.phase = .done (.raised (.other 7)) ∧ w.starts = [0, 1] ∧ w.workers = [] := by
  let as : List Action :=
    [.kernel, .kernel, .kernel, .trapExit 1 true, .raise 0 (.other 7), .kernel, .kernel, .kernel, .kernel,
      .signal (.other 3) normal, .store 1 (.integer 20), .signal .parent shutdown, .finish 1, .kernel, .kernel, .kernel,
      .kernel]
  have hrun : Reach (World.initial twoForASecond lowest 0 [.integer 1, .integer 2, .integer 3])
      (World.step twoForASecond) (fun w a => unforged a = true ∧ readsResult w a = true) _ :=
    Reach.of_run as .start (by decide) rfl
  have hend := (no_worker_survives_failure twoForASecond _ 0 _ _ hrun).1 (.other 7) rfl
  exact ⟨_, rfl, rfl, hend.1⟩

/-- The call (parallel:map (lambda (x) x) '(EXIT 1)) raises 1, and nothing has failed. -/
theorem result_read_as_exception :
    ∃ w, Reach (World.initial defaultOptions lowest 0 [.symbol .exit, .integer 1])
        (World.step defaultOptions) (fun _ a => unforged a = true) w ∧
      w.phase = .done (.raised (.integer 1)) ∧ w.received.find? Received.isFailure = none := by
  let as : List Action :=
    [.kernel, .kernel, .kernel, .store 0 (.integer 1), .store 1 (.symbol .exit), .finish 0, .finish 1, .kernel, .kernel,
      .kernel, .kernel, .kernel]
  have hrun : Reach (World.initial defaultOptions lowest 0 [.symbol .exit, .integer 1])
      (World.step defaultOptions) (fun _ a => unforged a = true) _ := Reach.of_run as .start (by decide) rfl
  exact ⟨_, hrun, rfl, rfl⟩

end Swish.Parallel
