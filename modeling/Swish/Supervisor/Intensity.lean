import Swish.Supervisor.Truth
import Swish.Lib.Window

/-!
The restart intensity. The restarts of a supervisor are the recent readings of its clock, and it
stops with the first restart that is one too many.
-/

set_option autoImplicit false

namespace Swish.Supervisor

open Swish.Lib

variable {env : Env} {child : Child} {state st : State} {w w' : World} {i p : Int} {ticks : Nat}

/-- More than i of the readings up to the one of number k are in the period that ends with it. -/
def Exceeded (env : Env) (i p : Int) (k : Nat) : Prop := i < countRecent env.now p k

/-- The restarts of a supervisor with intensity i and period p that has called add-restart so many times. -/
structure Counted (env : Env) (i p : Int) (state : State) (ticks : Nat) : Prop where
  intensity : state.intensity = i
  period : state.period = p
  restarts : state.restarts = recent env.now p ticks

def MonotoneClock (env : Env) : Prop := ∀ j k, j ≤ k → env.now j ≤ env.now k

theorem pruneRestarts_eq (restarts : List Int) (now period : Int) :
    pruneRestarts restarts now period = restarts.takeWhile fun r => now - r ≤ period := by
  induction restarts with
  | nil => rfl
  | cons r restarts ih =>
    rw [pruneRestarts, List.takeWhile_cons, ih]
    by_cases h : now - r ≤ period
    · rw [if_pos h, if_pos (decide_eq_true h)]
    · rw [if_neg h, if_neg (fun hd => h (of_decide_eq_true hd))]

theorem Counted.children (h : Counted env i p state ticks) (cs : List Child) :
    Counted env i p { state with children := cs } ticks := ⟨h.intensity, h.period, h.restarts⟩

/-- The state after a call of add-restart, whatever it answers. -/
def State.counted (env : Env) (state : State) (w : World) : State :=
  { state with restarts := pruneRestarts (env.now w.ticks :: state.restarts) (env.now w.ticks) state.period }

theorem Counted.counted (h : Counted env i p state w.ticks) : Counted env i p (state.counted env w) (w.ticks + 1) := by
  refine ⟨h.intensity, h.period, ?_⟩
  rw [State.counted, pruneRestarts_eq, h.period, h.restarts]
  rfl

theorem addRestart_eq (env : Env) (state : State) (w : World) :
    addRestart env state w =
      (if (state.counted env w).restarts.length ≤ state.intensity then .ok (state.counted env w)
        else .terminate (state.counted env w), { w with ticks := w.ticks + 1 }) := rfl

/-- add-restart answers terminate if there are too many restarts, and only then. -/
theorem Counted.addRestart (hclock : MonotoneClock env) (h : Counted env i p state w.ticks) :
    (Exceeded env i p w.ticks →
      addRestart env state w = (.terminate (state.counted env w), { w with ticks := w.ticks + 1 })) ∧
    (¬Exceeded env i p w.ticks →
      Supervisor.addRestart env state w = (.ok (state.counted env w), { w with ticks := w.ticks + 1 })) := by
  have hlen : (state.counted env w).restarts.length = countRecent env.now p w.ticks := by
    rw [h.counted.restarts, length_recent hclock]
  rw [addRestart_eq, hlen, h.intensity]
  refine ⟨?_, ?_⟩
  · intro hex
    rw [if_neg (Int.not_le.mpr hex)]
  · intro hex
    rw [if_pos (Int.not_lt.mp hex)]

theorem ticks_doStartChild (env : Env) (child : Child) (children : List Child) (w : World) :
    (doStartChild env child children w).2.ticks = w.ticks := by
  cases doStartChild_cases env child children w with
  | inl h =>
    obtain ⟨_, _, h⟩ := h
    rw [h]
    rfl
  | inr h =>
    cases h with
    | inl h =>
      rw [h.2]
      rfl
    | inr h =>
      obtain ⟨_, h⟩ := h
      rw [h]
      rfl

theorem ticks_startChildrenLoop (env : Env) (rest new : List Child) (w : World) :
    (startChildrenLoop env rest new w).2.ticks = w.ticks := by
  induction rest generalizing new w with
  | nil => rfl
  | cons child rest ih =>
    have hticks := ticks_doStartChild env child new w
    rw [startChildrenLoop]
    split
    · rename_i hd
      rw [hd] at hticks
      rw [ih, hticks]
    · rename_i hd
      rw [hd] at hticks
      exact hticks

theorem ticks_terminateChildren (cs : List Child) (w : World) : (terminateChildren cs w).2.ticks = w.ticks := by
  rw [terminateChildren_eq]

theorem replaceChild_total {cs : List Child} (h : child.name ∈ names cs) : ∃ cs', replaceChild child cs = .ok cs' := by
  induction cs with
  | nil => cases h
  | cons c cs ih =>
    rw [replaceChild]
    by_cases he : c.name = child.name
    · rw [if_pos he]
      exact ⟨_, rfl⟩
    · rw [if_neg he]
      obtain ⟨cs', hcs⟩ := ih ((List.mem_cons.mp h).resolve_left fun hn => he hn.symm)
      rw [hcs]
      exact ⟨_, rfl⟩

/-- What strategic-restart passes to the next call of restart, if there is one. -/
def nextRound (env : Env) (child : Child) (state : State) (w : World) : Option (State × World) :=
  match state.strategy with
  | .oneForOne =>
    match doStartChild env child state.children w with
    | (.ok _, _) => none
    | (.error _, w) => some (state, w)
  | .oneForAll =>
    let (children, w) := terminateChildren (markChildDead (.pid child.pid) state.children) w
    match startChildren env children w with
    | (.ok _, _) => none
    | (.error newChildren, w) => some ({ state with children := newChildren }, w)

/-- A round of one-for-all does not look at the clock. -/
theorem ticks_round (env : Env) (cs : List Child) (w : World) :
    (startChildren env (terminateChildren cs w).1 (terminateChildren cs w).2).2.ticks = w.ticks :=
  (ticks_startChildrenLoop env (terminateChildren cs w).1 [] (terminateChildren cs w).2).trans
    (ticks_terminateChildren cs w)

/-- The child can be replaced, or there is no need to. -/
def Replaceable (child : Child) (state : State) : Prop :=
  state.strategy = .oneForOne → child.name ∈ names state.children

theorem strategicRestart_next (again : Child → State → World → Except Halt (Verdict × World))
    (hc : Counted env i p state ticks) (hr : Replaceable child state)
    (h : nextRound env child state w = some (st, w')) :
    strategicRestart env again child state w = again child st w' ∧ Counted env i p st ticks ∧
      Replaceable child st ∧ w'.ticks = w.ticks := by
  unfold nextRound at h
  unfold strategicRestart
  cases hs : state.strategy with
  | oneForOne =>
    simp only [hs] at h
    have hticks := ticks_doStartChild env child state.children w
    split at h
    · cases h
    · rename_i hd
      rw [hd] at hticks
      cases h
      simp only [hd]
      exact ⟨trivial, hc, hr, hticks⟩
  | oneForAll =>
    simp only [hs] at h
    have hticks := ticks_round env (markChildDead (.pid child.pid) state.children) w
    split at h
    · cases h
    · rename_i hd
      rw [hd] at hticks
      cases h
      simp only [hd]
      refine ⟨trivial, ⟨hc.intensity, hc.period, hc.restarts⟩, ?_, hticks⟩
      intro hone
      cases hone

theorem strategicRestart_done (again : Child → State → World → Except Halt (Verdict × World))
    (hc : Counted env i p state ticks) (hr : Replaceable child state)
    (h : nextRound env child state w = none) :
    ∃ st w', strategicRestart env again child state w = .ok (.ok st, w') ∧ Counted env i p st ticks ∧
      w'.ticks = w.ticks := by
  unfold nextRound at h
  unfold strategicRestart
  cases hs : state.strategy with
  | oneForOne =>
    simp only [hs] at h
    have hticks := ticks_doStartChild env child state.children w
    have hname : ∀ c w', (doStartChild env child state.children w) = (.ok c, w') → c.2.name = child.name := by
      intro c w' hd
      cases doStartChild_cases env child state.children w with
      | inl hcase =>
        obtain ⟨q, _, hd'⟩ := hcase
        rw [hd'] at hd
        cases hd
        rfl
      | inr hcase =>
        cases hcase with
        | inl hcase =>
          rw [hcase.2] at hd
          cases hd
          rfl
        | inr hcase =>
          obtain ⟨e, hd'⟩ := hcase
          rw [hd'] at hd
          cases hd
    split at h
    · rename_i c w1 hd
      rw [hd] at hticks
      have hc' : c.2.name ∈ names state.children := by
        rw [hname c w1 hd]
        exact hr hs
      obtain ⟨cs, hcs⟩ := replaceChild_total hc'
      simp only [hd, stateReplaceChild, hcs]
      exact ⟨_, w1, rfl, hc.children cs, hticks⟩
    · cases h
  | oneForAll =>
    simp only [hs] at h
    have hticks := ticks_round env (markChildDead (.pid child.pid) state.children) w
    split at h
    · rename_i new w2 hd
      rw [hd] at hticks
      simp only [hd]
      exact ⟨_, w2, rfl, ⟨hc.intensity, hc.period, hc.restarts⟩, hticks⟩
    · cases h

/-- The calls of restart, and so of add-restart, that one call leads to. -/
inductive Calls (env : Env) (child : Child) (state : State) (w : World) : State → World → Prop where
  | first : Calls env child state w state w
  | next {st1 st2 st3 : State} {w1 w2 w3 : World} (h : Calls env child state w st1 w1)
      (ha : addRestart env st1 w1 = (.ok st2, w2)) (hn : nextRound env child st2 w2 = some (st3, w3)) :
      Calls env child state w st3 w3

theorem addRestart_ok (h : Counted env i p state w.ticks) (ha : addRestart env state w = (.ok st, w')) :
    Counted env i p st w'.ticks ∧ st.strategy = state.strategy ∧ st.children = state.children := by
  rw [addRestart_eq] at ha
  split at ha
  · cases ha
    exact ⟨h.counted, rfl, rfl⟩
  · cases ha

theorem nextRound_counted (hc : Counted env i p state w.ticks) (h : nextRound env child state w = some (st, w')) :
    Counted env i p st w'.ticks := by
  unfold nextRound at h
  split at h
  · have hticks := ticks_doStartChild env child state.children w
    split at h
    · cases h
    · rename_i hd
      rw [hd] at hticks
      cases h
      rw [hticks]
      exact hc
  · have hticks := ticks_round env (markChildDead (.pid child.pid) state.children) w
    dsimp only at h
    split at h
    · cases h
    · rename_i hd
      rw [hd] at hticks
      cases h
      rw [hticks]
      exact hc.children _

theorem Calls.counted (h : Calls env child state w st w') (hc : Counted env i p state w.ticks) :
    Counted env i p st w'.ticks := by
  induction h with
  | first => exact hc
  | next _ ha hn ih => exact nextRound_counted (addRestart_ok ih ha).1 hn

/-- What has become of the restarts since w: none was one too many, or the last one was. -/
def Answered (env : Env) (i p : Int) (w w' : World) : Verdict → Prop
  | .ok st => Counted env i p st w'.ticks ∧ w.ticks ≤ w'.ticks ∧
      ∀ k, w.ticks ≤ k → k < w'.ticks → ¬Exceeded env i p k
  | .shutdown st => Counted env i p st w'.ticks ∧ ∃ k, w'.ticks = k + 1 ∧ w.ticks ≤ k ∧ Exceeded env i p k ∧
      ∀ j, w.ticks ≤ j → j < k → ¬Exceeded env i p j

theorem Answered.after {w1 : World} {v : Verdict} (hno : ¬Exceeded env i p w.ticks)
    (hticks : w1.ticks = w.ticks + 1) (h : Answered env i p w1 w' v) : Answered env i p w w' v := by
  have hone : ∀ j, w.ticks ≤ j → ¬w1.ticks ≤ j → ¬Exceeded env i p j := by
    intro j hj hw
    have he : j = w.ticks := by omega
    rw [he]
    exact hno
  cases v with
  | ok st =>
    obtain ⟨hc, hle, hall⟩ := h
    refine ⟨hc, by omega, ?_⟩
    intro k hk hkw
    by_cases hw : w1.ticks ≤ k
    · exact hall k hw hkw
    · exact hone k hk hw
  | shutdown st =>
    obtain ⟨hc, k, hk, hle, hex, hall⟩ := h
    refine ⟨hc, k, hk, by omega, hex, ?_⟩
    intro j hj hjk
    by_cases hw : w1.ticks ≤ j
    · exact hall j hw hjk
    · exact hone j hj hw

theorem restart_answered (hclock : MonotoneClock env) {n : Nat} {v : Verdict} (hc : Counted env i p state w.ticks)
    (hr : Replaceable child state) (h : restart env n child state w = .ok (v, w')) : Answered env i p w w' v := by
  induction n generalizing state w with
  | zero => cases h
  | succ n ih =>
    rw [restart] at h
    by_cases hex : Exceeded env i p w.ticks
    · rw [(hc.addRestart hclock).1 hex] at h
      cases h
      refine ⟨(hc.counted).children _, w.ticks, rfl, Nat.le_refl _, hex, ?_⟩
      intro j hj hjk
      omega
    · rw [(hc.addRestart hclock).2 hex] at h
      dsimp only at h
      cases hn : nextRound env child (state.counted env w) { w with ticks := w.ticks + 1 } with
      | none =>
        obtain ⟨st, w1, hd, hst, hticks⟩ := strategicRestart_done (restart env n) hc.counted hr hn
        rw [hd] at h
        cases h
        have hlast : Answered env i p { w with ticks := w.ticks + 1 } w' (.ok st) := by
          refine ⟨hticks ▸ hst, Nat.le_of_eq hticks.symm, ?_⟩
          intro k hk hkw
          omega
        exact hlast.after hex rfl
      | some x =>
        obtain ⟨st, w1⟩ := x
        obtain ⟨hd, hst, hst', hticks⟩ := strategicRestart_next (restart env n) hc.counted hr hn
        rw [hd] at h
        exact (ih (hticks ▸ hst) hst' h).after hex hticks

/-- In a period without a pause there are no more restarts than the intensity, and one more. -/
theorem restart_ends (hclock : MonotoneClock env) {first n m : Nat} (hc : Counted env m p state w.ticks)
    (hr : Replaceable child state) (hle : first ≤ w.ticks) (hlast : w.ticks ≤ first + m)
    (hn : first + m < w.ticks + n) (hperiod : ∀ k, k ≤ m → env.now (first + k) - env.now first ≤ p) :
    ∃ v w', restart env n child state w = .ok (v, w') ∧ w'.ticks ≤ first + m + 1 := by
  induction n generalizing state w with
  | zero => omega
  | succ n ih =>
    rw [restart]
    by_cases hex : Exceeded env m p w.ticks
    · rw [(hc.addRestart hclock).1 hex]
      exact ⟨_, _, rfl, Nat.succ_le_succ hlast⟩
    · -- another restart is possible only while there have been fewer than the intensity
      have hlt : w.ticks < first + m := by
        obtain ⟨k, hk⟩ := Nat.exists_eq_add_of_le hle
        have hcount := lt_countRecent hclock first k (hperiod k (by omega))
        rw [← hk] at hcount
        rw [Exceeded] at hex
        omega
      rw [(hc.addRestart hclock).2 hex]
      dsimp only
      cases hnext : nextRound env child (state.counted env w) { w with ticks := w.ticks + 1 } with
      | none =>
        obtain ⟨st, w1, hd, _, hticks⟩ := strategicRestart_done (restart env n) hc.counted hr hnext
        have hw1 : w1.ticks = w.ticks + 1 := hticks
        exact ⟨.ok st, w1, hd, by omega⟩
      | some x =>
        obtain ⟨st, w1⟩ := x
        obtain ⟨hd, hst, hst', hticks⟩ := strategicRestart_next (restart env n) hc.counted hr hnext
        have hw1 : w1.ticks = w.ticks + 1 := hticks
        rw [hd]
        exact ih (hticks ▸ hst) hst' (by omega) (by omega) (by omega)

theorem handleStartChild_counted (hc : Counted env i p state w.ticks) :
    Counted env i p (handleStartChild env child state w).2.1 w.ticks ∧
      (handleStartChild env child state w).2.2.ticks = w.ticks := by
  unfold handleStartChild
  split
  · have hticks := ticks_doStartChild env child state.children w
    split
    · rename_i hd
      rw [hd] at hticks
      exact ⟨hc.children _, hticks⟩
    · rename_i hd
      rw [hd] at hticks
      exact ⟨hc, hticks⟩
  · split
    · exact ⟨hc, rfl⟩
    · exact ⟨hc, rfl⟩

theorem doTerminate_ticks (child : Child) (w : World) : (doTerminate child w).2.ticks = w.ticks := by
  unfold doTerminate
  split
  · rfl
  · rfl

theorem stateReplaceChild_counted (hc : Counted env i p state ticks) (h : stateReplaceChild child state = .ok st) :
    Counted env i p st ticks := by
  obtain ⟨cs, _, he⟩ := stateReplaceChild_ok h
  rw [he]
  exact hc.children cs

/-- A call neither counts as a restart nor changes the list of them. -/
theorem handleCall_counted {request : Request} {x : Reply × State × World} (hc : Counted env i p state w.ticks)
    (h : handleCall env request state w = .ok x) : Counted env i p x.2.1 w.ticks ∧ x.2.2.ticks = w.ticks := by
  cases request with
  | startChild spec =>
    rw [handleCall] at h
    split at h
    · cases h
      exact handleStartChild_counted hc
    · cases h
      exact ⟨hc, rfl⟩
  | restartChild name =>
    rw [handleCall] at h
    split at h
    · rename_i c _
      split at h
      · have hticks := ticks_doStartChild env c state.children w
        split at h
        · rename_i hd
          rw [hd] at hticks
          obtain ⟨st, hst, he⟩ := map_ok h
          rw [he]
          exact ⟨stateReplaceChild_counted hc hst, hticks⟩
        · rename_i hd
          rw [hd] at hticks
          cases h
          exact ⟨hc, hticks⟩
      · cases h
        exact ⟨hc, rfl⟩
    · cases h
      exact ⟨hc, rfl⟩
  | deleteChild name =>
    rw [handleCall] at h
    split at h
    · split at h
      · cases h
        exact ⟨hc.children _, rfl⟩
      · cases h
        exact ⟨hc, rfl⟩
    · cases h
      exact ⟨hc, rfl⟩
  | terminateChild name =>
    rw [handleCall] at h
    split at h
    · rename_i c _
      obtain ⟨st, hst, he⟩ := map_ok h
      rw [he]
      exact ⟨stateReplaceChild_counted hc hst, doTerminate_ticks c w⟩
    · cases h
      exact ⟨hc, rfl⟩
  | getChildren =>
    rw [handleCall] at h
    cases h
    exact ⟨hc, rfl⟩

theorem replaceable_of_findPid {q : Nat} (h : stateFindPid q state = some child) : Replaceable child state :=
  fun _ => List.mem_map_of_mem (findPid_some h).1

theorem restartChild_answered (hclock : MonotoneClock env) {rounds q : Nat} {reason : Datum} {v : Verdict}
    (hc : Counted env i p state w.ticks) (h : restartChild env rounds q reason state w = .ok (v, w')) :
    Answered env i p w w' v := by
  have hnone : ∀ k, w.ticks ≤ k → k < w.ticks → ¬Exceeded env i p k := fun k hk hkw => absurd hk (Nat.not_le.mpr hkw)
  cases restartChild_cases h with
  | inl h =>
    obtain ⟨_, hv, hw⟩ := h
    subst hv hw
    exact ⟨hc, Nat.le_refl _, hnone⟩
  | inr h =>
    obtain ⟨c, hf, h⟩ := h
    cases h with
    | inl h =>
      obtain ⟨hv, hw⟩ := h
      subst hv hw
      exact ⟨hc.children _, Nat.le_refl _, hnone⟩
    | inr h =>
      cases h with
      | inl h =>
        obtain ⟨hv, hw⟩ := h
        subst hv hw
        exact ⟨hc.children _, Nat.le_refl _, hnone⟩
      | inr h => exact restart_answered hclock hc (replaceable_of_findPid hf) h.2

variable {s s' : Server} {a : Action}

/-- The last call of add-restart, which has stopped the server, is the first that finds too many. -/
def StoppedBy (env : Env) (i p : Int) (s s' : Server) (k : Nat) : Prop :=
  s'.world.ticks = k + 1 ∧ s.world.ticks ≤ k ∧ Exceeded env i p k

theorem step_counted (hclock : MonotoneClock env) (hc : Counted env i p s.state s.world.ticks)
    (h : step env s a = .ok s') :
    Counted env i p s'.state s'.world.ticks ∧
    (s'.running = true → ∀ k, s.world.ticks ≤ k → k < s'.world.ticks → ¬Exceeded env i p k) ∧
    (s'.running = false → (a = .stop ∧ s'.world.ticks = s.world.ticks) ∨ ∃ k, StoppedBy env i p s s' k ∧
      ∀ j, s.world.ticks ≤ j → j < k → ¬Exceeded env i p j) := by
  obtain ⟨_, h⟩ := step_cases h
  have hterm : ∀ (st : State) (w : World), (Supervisor.terminate st w).world.ticks = w.ticks :=
    fun st w => ticks_terminateChildren st.children w
  rcases h with ⟨request, x, _, hx, he⟩ | ⟨q, reason, rounds, st, w, _, hx, he⟩ |
    ⟨q, reason, rounds, st, w, _, hx, he⟩ | ⟨ha, he⟩
  · obtain ⟨hst, hticks⟩ := handleCall_counted hc hx
    subst he
    refine ⟨hticks ▸ hst, ?_, fun hr => (by cases hr)⟩
    intro _ k hk hkw
    exact absurd (Nat.lt_of_lt_of_le hkw (Nat.le_of_eq hticks)) (Nat.not_lt.mpr hk)
  · have hexit : Counted env i p s.state (s.world.record (.exit q)).ticks := hc
    obtain ⟨hst, _, hall⟩ := restartChild_answered hclock hexit hx
    subst he
    exact ⟨hst, fun _ => hall, fun hr => (by cases hr)⟩
  · have hexit : Counted env i p s.state (s.world.record (.exit q)).ticks := hc
    obtain ⟨hst, k, hk, hle, hex, hall⟩ := restartChild_answered hclock hexit hx
    subst he
    refine ⟨(hterm st w).symm ▸ hst, fun hr => (by cases hr), ?_⟩
    intro _
    exact .inr ⟨k, ⟨(hterm st w).trans hk, hle, hex⟩, hall⟩
  · subst he
    refine ⟨(hterm s.state s.world).symm ▸ hc, fun hr => (by cases hr), ?_⟩
    intro _
    exact .inl ⟨ha, hterm s.state s.world⟩

theorem init_counted {strategy intensity period : Datum} {specs : List Spec} {st : State}
    (h : init env strategy intensity period specs .start = (.ok st, w)) :
    w.ticks = 0 ∧ Counted env st.intensity st.period st w.ticks ∧ 0 ≤ st.intensity := by
  obtain ⟨cs, -, -, -, hstart⟩ := init_starts h
  have hticks : w.ticks = 0 := by
    have hloop := ticks_startChildrenLoop env cs [] .start
    rw [← startChildren, hstart] at hloop
    exact hloop
  have hst : st.restarts = [] ∧ 0 ≤ st.intensity := by
    unfold init at h
    repeat' split at h
    all_goals cases h
    exact ⟨rfl, Int.not_lt.mp (by assumption)⟩
  refine ⟨hticks, ⟨rfl, rfl, ?_⟩, hst.2⟩
  rw [hticks]
  exact hst.1

/-- The restarts of the server so far: its list, and at most the last one has been one too many. -/
def Server.Counted (env : Env) (i p : Int) (s : Server) : Prop :=
  Supervisor.Counted env i p s.state s.world.ticks ∧
  ∀ k, k < s.world.ticks → Exceeded env i p k → s.running = false ∧ s.world.ticks = k + 1

theorem Server.Counted.step (hclock : MonotoneClock env) (hc : s.Counted env i p) (h : Supervisor.step env s a = .ok s') :
    s'.Counted env i p := by
  obtain ⟨hst, hbefore⟩ := hc
  obtain ⟨hst', hrun, hstop⟩ := step_counted hclock hst h
  refine ⟨hst', ?_⟩
  intro k hk hex
  by_cases hold : k < s.world.ticks
  · have hr := (hbefore k hold hex).1
    rw [(step_cases h).1] at hr
    cases hr
  · cases hr : s'.running with
    | true => exact absurd hex (hrun hr k (Nat.not_lt.mp hold) hk)
    | false =>
      refine ⟨rfl, ?_⟩
      cases hstop hr with
      | inl h => omega
      | inr h =>
        obtain ⟨m, ⟨hm, _, _⟩, hall⟩ := h
        by_cases hkm : k < m
        · exact absurd hex (hall k (Nat.not_lt.mp hold) hkm)
        · omega

theorem reach_counted {strategy intensity period : Datum} {specs : List Spec} {st : State} (hclock : MonotoneClock env)
    (h0 : init env strategy intensity period specs .start = (.ok st, w))
    (h : Reach ⟨st, w, true⟩ (step env) (fun _ _ => True) s) : s.Counted env st.intensity st.period := by
  obtain ⟨hticks, hc, _⟩ := init_counted h0
  have hstart : Server.Counted env st.intensity st.period ⟨st, w, true⟩ := by
    refine ⟨hc, ?_⟩
    intro k hk _
    rw [show (⟨st, w, true⟩ : Server).world.ticks = 0 from hticks] at hk
    cases hk
  exact h.invariant (I := fun s => s.Counted env st.intensity st.period) hstart
    fun s a s' hs _ hstep => hs.step hclock hstep

theorem exit_ends (hclock : MonotoneClock env) {m q rounds : Nat} {reason : Datum} (hrun : s.running = true)
    (hc : Counted env m p s.state s.world.ticks) (hrounds : m < rounds)
    (hperiod : ∀ k, k ≤ m → env.now (s.world.ticks + k) - env.now s.world.ticks ≤ p) :
    ∃ s', step env s (.exit q reason rounds) = .ok s' ∧ s'.world.ticks ≤ s.world.ticks + m + 1 := by
  have hends : ∃ v w', restartChild env rounds q reason s.state (s.world.record (.exit q)) = .ok (v, w') ∧
      w'.ticks ≤ s.world.ticks + m + 1 := by
    have hnone : s.world.ticks ≤ s.world.ticks + m + 1 := by omega
    unfold restartChild
    cases hf : stateFindPid q s.state with
    | none => exact ⟨_, _, rfl, hnone⟩
    | some c =>
      have hrestart := @restart_ends env c s.state (s.world.record (.exit q)) p hclock s.world.ticks rounds m hc
        (replaceable_of_findPid hf) (Nat.le_refl _) (Nat.le_add_right _ _) (Nat.add_lt_add_left hrounds _) hperiod
      dsimp only
      unfold doRestart
      cases c.restartType with
      | permanent => exact hrestart
      | temporary => exact ⟨_, _, rfl, hnone⟩
      | transient =>
        dsimp only
        split
        · exact ⟨_, _, rfl, hnone⟩
        · exact hrestart
      | watchOnly => exact ⟨_, _, rfl, hnone⟩
  obtain ⟨v, w', hv, hle⟩ := hends
  have hstep : ∃ s', step env s (.exit q reason rounds) = .ok s' ∧ s'.world.ticks = w'.ticks := by
    unfold step
    rw [if_pos hrun]
    dsimp only
    rw [hv]
    cases v with
    | ok st => exact ⟨_, rfl, rfl⟩
    | shutdown st => exact ⟨_, rfl, ticks_terminateChildren st.children w'⟩
  obtain ⟨s', hs, he⟩ := hstep
  exact ⟨s', hs, he ▸ hle⟩

/-- A call of add-restart answers terminate if more than intensity of the calls so far were at most a
period ago, the server stops then, and the restarts for one EXIT come to an end. -/
theorem restart_intensity_is_exact {strategy intensity period : Datum} {specs : List Spec} {st : State}
    (hclock : MonotoneClock env) (h0 : init env strategy intensity period specs .start = (.ok st, w))
    (h : Reach ⟨st, w, true⟩ (step env) (fun _ _ => True) s) :
    (∀ child q st' w', Calls env child s.state (s.world.record (.exit q)) st' w' →
      ((∃ st'', (addRestart env st' w').1 = .terminate st'') ↔ Exceeded env st.intensity st.period w'.ticks)) ∧
    (∀ k, k < s.world.ticks → Exceeded env st.intensity st.period k → s.running = false ∧ s.world.ticks = k + 1) ∧
    (∀ q reason rounds s', step env s (.exit q reason rounds) = .ok s' →
      (s'.running = false ↔ ∃ k, StoppedBy env st.intensity st.period s s' k)) ∧
    (∀ q reason rounds, s.running = true → st.intensity.toNat < rounds →
      (∀ k, k ≤ st.intensity.toNat → env.now (s.world.ticks + k) - env.now s.world.ticks ≤ st.period) →
      ∃ s', step env s (.exit q reason rounds) = .ok s' ∧
        s'.world.ticks ≤ s.world.ticks + st.intensity.toNat + 1) := by
  obtain ⟨hc, hbefore⟩ := reach_counted hclock h0 h
  refine ⟨?_, hbefore, ?_, ?_⟩
  · intro child q st' w' hcalls
    have hcount := hcalls.counted hc
    obtain ⟨hyes, hno⟩ := hcount.addRestart hclock
    refine ⟨?_, ?_⟩
    · intro hterm
      obtain ⟨st'', hterm⟩ := hterm
      by_cases hex : Exceeded env st.intensity st.period w'.ticks
      · exact hex
      · rw [hno hex] at hterm
        cases hterm
    · intro hex
      rw [hyes hex]
      exact ⟨_, rfl⟩
  · intro q reason rounds s' hs
    obtain ⟨_, hrun, hstop⟩ := step_counted hclock hc hs
    refine ⟨?_, ?_⟩
    · intro hr
      cases hstop hr with
      | inl h => cases h.1
      | inr h =>
        obtain ⟨k, hk, _⟩ := h
        exact ⟨k, hk⟩
    · intro hk
      obtain ⟨k, hk, hle, hex⟩ := hk
      cases hr : s'.running with
      | false => rfl
      | true => exact absurd hex (hrun hr k hle (by omega))
  · intro q reason rounds hrun hrounds hperiod
    have hnat : (st.intensity.toNat : Int) = st.intensity := Int.toNat_of_nonneg (init_counted h0).2.2
    exact exit_ends hclock hrun (hnat ▸ hc) hrounds hperiod

/-- The second of two restarts at once is one too many. -/
theorem restart_intensity_is_exact_one : ∃ st w s s',
    init freshEnv (.symbol "one-for-one") (.fixnum 1) (.fixnum 1) [permanentSpec "a" 0] .start = (.ok st, w) ∧
    Reach ⟨st, w, true⟩ (step freshEnv) (fun _ _ => True) s ∧
    step freshEnv s (.exit 8 (.symbol "died") 2) = .ok s' ∧ s'.running = false ∧
    ∃ k, StoppedBy freshEnv st.intensity st.period s s' k := by
  obtain ⟨st, w, s, s', h0, hrun, hstep, hr⟩ : ∃ st w s s',
      init freshEnv (.symbol "one-for-one") (.fixnum 1) (.fixnum 1) [permanentSpec "a" 0] .start = (.ok st, w) ∧
      Reach.run (step freshEnv) ⟨st, w, true⟩ [.exit 7 (.symbol "died") 2] = .ok s ∧
      step freshEnv s (.exit 8 (.symbol "died") 2) = .ok s' ∧ s'.running = false := ⟨_, _, _, _, rfl, rfl, rfl, rfl⟩
  have hreach : Reach ⟨st, w, true⟩ (step freshEnv) (fun _ _ => True) s :=
    .of_run [.exit 7 (.symbol "died") 2] .start (Reach.along_of_forall (fun _ _ => trivial) _ _) hrun
  have hclock : MonotoneClock freshEnv := fun _ _ _ => Int.le_refl 0
  have hexit := (restart_intensity_is_exact hclock h0 hreach).2.2.1 8 (.symbol "died") 2 s' hstep
  exact ⟨st, w, s, s', h0, hreach, hstep, hr, hexit.mp hr⟩

end Swish.Supervisor
