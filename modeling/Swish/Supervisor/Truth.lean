import Swish.Supervisor.Table

/-!
The child table against the processes of the supervisor.
-/

set_option autoImplicit false

namespace Swish.Supervisor

open Swish.Lib

variable {env : Env} {children : List Child} {child : Child} {w w' : World} {log : List Event} {state : State}

/-- What an event does to the processes that are linked and whose EXIT message is still
to come. -/
def note (known : List Nat) : Event → List Nat
  | .attempt _ => known
  | .linked _ p => p :: known
  | .exit p => known.filter fun q => q ≠ p
  | .terminated p => known.filter fun q => q ≠ p

/-- The processes started and linked whose EXIT message has not been taken since. -/
def unprocessed (log : List Event) : List Nat := log.foldl note []

@[simp] theorem unprocessed_append (log : List Event) (e : Event) :
    unprocessed (log ++ [e]) = note (unprocessed log) e := by
  simp [unprocessed]

/-- Names and processes are distinct, and the processes are known to the supervisor,
except one that may have been spared. -/
structure Truthful (spared : Option Nat) (children : List Child) (log : List Event) : Prop where
  distinctNames : (names children).Nodup
  distinctPids : (pids children).Nodup
  known : ∀ p ∈ pids children, spared ≠ some p → p ∈ unprocessed log

namespace Truthful

variable {spared : Option Nat} {l r : List Child} {c d : Child} {log' : List Event}

theorem nil : Truthful none [] log := ⟨List.nodup_nil, List.nodup_nil, by simp⟩

theorem spare (h : Truthful none children log) : Truthful spared children log :=
  ⟨h.distinctNames, h.distinctPids, fun p hp _ => h.known p hp (by simp)⟩

theorem attempt {n : String} (h : Truthful spared children log) : Truthful spared children (log ++ [.attempt n]) :=
  ⟨h.distinctNames, h.distinctPids, fun p hp hs => by simpa [note] using h.known p hp hs⟩

/-- An EXIT message spares its process. -/
theorem exit {p : Nat} (h : Truthful none children log) : Truthful (some p) children (log ++ [.exit p]) := by
  refine ⟨h.distinctNames, h.distinctPids, fun q hq hs => ?_⟩
  have hqp : q ≠ p := fun he => hs (by rw [he])
  simpa [note, hqp] using h.known q hq (by simp)

theorem sublist {cs : List Child} (h : Truthful spared children log) (hn : (names cs).Sublist (names children))
    (hp : (pids cs).Sublist (pids children)) : Truthful spared cs log :=
  ⟨h.distinctNames.sublist hn, h.distinctPids.sublist hp, fun p hm => h.known p (hp.subset hm)⟩

theorem remove (h : Truthful spared children log) (c : Child) :
    Truthful spared (children.filter fun x => x.name ≠ c.name) log :=
  h.sublist (List.filter_sublist.map _) (List.filter_sublist.filterMap _)

theorem consDead (h : Truthful spared children log) (hn : c.name ∉ names children) (hp : c.pid = none) :
    Truthful spared (c :: children) log :=
  ⟨List.nodup_cons.mpr ⟨hn, h.distinctNames⟩, by simpa [hp] using h.distinctPids,
    fun p hm => h.known p (by simpa [hp] using hm)⟩

/-- The spared process is gone from the table. -/
theorem unspare {p : Nat} (h : Truthful (some p) children log) (hp : p ∉ pids children) :
    Truthful none children log := by
  refine ⟨h.distinctNames, h.distinctPids, fun q hq _ => h.known q hq fun he => ?_⟩
  exact hp (Option.some.inj he ▸ hq)

theorem markDead {p : Nat} (h : Truthful (some p) children log) :
    Truthful none (markChildDead (.pid (some p)) children) log := by
  have hs : Truthful (some p) (markChildDead (.pid (some p)) children) log :=
    h.sublist (by rw [names_markChildDead]) (pids_markChildDead _ _)
  exact hs.unspare (markChildDead_pid h.distinctPids)

/-- The rest of the table when one child is left out. -/
theorem rest (h : Truthful spared (l ++ c :: r) log) : Truthful spared (l ++ r) log := by
  refine h.sublist ?_ ?_
  · simp
  · simp

/-- A child without a process in the place of another one. -/
theorem putDead (h : Truthful spared (l ++ c :: r) log) (hn : d.name = c.name) (hp : d.pid = none) :
    Truthful spared (l ++ d :: r) log := by
  have hrest := h.rest
  refine ⟨by simpa [hn] using h.distinctNames, by simpa [hp] using hrest.distinctPids, fun p hm => ?_⟩
  exact hrest.known p (by simpa [hp] using hm)

/-- A child with a new process in the place of another one. -/
theorem putStarted {p : Nat} {n m : String} (h : Truthful spared (l ++ c :: r) log) (hn : d.name = c.name)
    (hp : d.pid = some p) (hnew : p ∉ pids (l ++ r)) (hs : ∀ q, spared = some q → q ∉ pids (l ++ r)) :
    Truthful none (l ++ d :: r) (log ++ [.attempt n] ++ [.linked m p]) := by
  have hrest := h.rest
  have hlog : unprocessed (log ++ [.attempt n] ++ [.linked m p]) = p :: unprocessed log := by
    rw [unprocessed_append, unprocessed_append]
    rfl
  refine ⟨by simpa [hn] using h.distinctNames, ?_, fun q hq _ => ?_⟩
  · have hperm : (pids (l ++ d :: r)).Perm (p :: pids (l ++ r)) := by
      simp only [pids_append, pids_cons, hp, Option.toList, List.singleton_append]
      exact List.perm_middle
    exact hperm.nodup_iff.mpr (List.nodup_cons.mpr ⟨hnew, hrest.distinctPids⟩)
  · rw [hlog]
    simp only [pids_append, pids_cons, hp, Option.toList, List.mem_append, List.singleton_append,
      List.mem_cons] at hq
    by_cases hqp : q = p
    · simp [hqp]
    · have hqr : q ∈ pids (l ++ r) := by
        simp only [pids_append, List.mem_append]
        rcases hq with hq | hq | hq
        · exact .inl hq
        · exact absurd hq hqp
        · exact .inr hq
      exact List.mem_cons_of_mem _ (hrest.known q hqr fun he => hs q he hqr)

/-- A child is terminated in its place. -/
theorem terminated {p : Nat} (h : Truthful none (l ++ c :: r) log) (hp : c.pid = some p) :
    Truthful none (l ++ c.dead :: r) (log ++ [.terminated p]) := by
  have hd := h.putDead (d := c.dead) rfl rfl
  refine ⟨hd.distinctNames, hd.distinctPids, fun q hq _ => ?_⟩
  have hqp : q ≠ p := by
    intro he
    have hperm : (pids (l ++ c :: r)).Perm (p :: pids (l ++ r)) := by
      simp only [pids_append, pids_cons, hp, Option.toList, List.singleton_append]
      exact List.perm_middle
    have hnot := (List.nodup_cons.mp (hperm.nodup_iff.mp h.distinctPids)).1
    rw [he] at hq
    exact hnot (by simpa [Child.dead] using hq)
  simpa [note, hqp] using hd.known q hq (by simp)

end Truthful

/-- A start from the oldest child on. The list keeps its names, whether all children start
or not. -/
theorem startChildrenLoop_truthful {rest new cs : List Child} (hrest : pids rest = [])
    (hn : (names (rest.reverse ++ new)).Nodup) (h : Truthful none new w.log)
    (hs : startChildrenLoop env rest new w = (.ok cs, w') ∨ startChildrenLoop env rest new w = (.error cs, w')) :
    names cs = names (rest.reverse ++ new) ∧ Truthful none cs w'.log := by
  induction rest generalizing new w with
  | nil =>
    rcases hs with hs | hs
    · cases hs
      exact ⟨rfl, h⟩
    · cases hs
  | cons c rest ih =>
    rw [pids_cons, List.append_eq_nil_iff] at hrest
    have hpid : c.pid = none := by simpa using hrest.1
    have hcn : (names (c :: new)).Nodup := by
      refine hn.sublist ?_
      simp
    have hc : Truthful none ([] ++ c :: new) w.log := h.consDead (List.nodup_cons.mp hcn).1 hpid
    rw [startChildrenLoop] at hs
    rcases doStartChild_cases env c new w with ⟨p, hp, hd⟩ | ⟨-, hd⟩ | ⟨e, hd⟩
    · rw [hd] at hs
      have hput := hc.putStarted (n := c.name) (m := c.name) (d := { c with pid := some p }) rfl rfl hp (by simp)
      have hi := ih hrest.2 (by simpa using hn) hput hs
      simpa using hi
    · rw [hd] at hs
      have hi := ih hrest.2 (by simpa using hn) hc.attempt hs
      simpa using hi
    · rw [hd] at hs
      rcases hs with hs | hs
      · cases hs
      · cases hs
        have hpids : pids (rest.reverse ++ c :: new) = pids new := by simp [hrest.2, hpid]
        refine ⟨by simp, ⟨by simpa using hn, hpids ▸ h.distinctPids, fun p hp hne => ?_⟩⟩
        exact h.attempt.known p (hpids ▸ hp) hne

/-- All children are terminated and started again. -/
theorem restartAll_truthful {cs new : List Child} (hn : (names cs).Nodup)
    (hs : startChildren env (terminateChildren cs w).1 (terminateChildren cs w).2 = (.ok new, w') ∨
      startChildren env (terminateChildren cs w).1 (terminateChildren cs w).2 = (.error new, w')) :
    names new = names cs ∧ Truthful none new w'.log := by
  rw [terminateChildren_eq] at hs
  have hdead : pids (cs.map Child.dead) = [] := by
    simp [pids, Child.dead, List.filterMap_map, Function.comp_def]
  have h := startChildrenLoop_truthful (by simp [hdead]) (by simpa using hn) .nil hs
  simpa using h

/-- The EXIT message of a child makes the strategy one-for-one call a thunk that returns
ignore. -/
def Ignored (env : Env) (s : Server) : Action → Bool
  | .exit pid reason rounds =>
    match s.state.strategy, stateFindPid pid s.state with
    | .oneForOne, some child =>
      needsRestart child.restartType reason && ignores env rounds child s.state (s.world.record (.exit pid))
    | _, _ => false
  | .call _ | .stop => false

/-- A table with a new process for a child, whose old process is spared. -/
theorem replaceChild_truthful {p q : Nat} {cs : List Child} (hp : child.pid = some p) (hc : child ∈ children)
    (h : Truthful (some p) children log) (hq : q ∉ pids children)
    (hr : replaceChild { child with pid := some q } children = .ok cs) :
    Truthful none cs (log ++ [.attempt child.name] ++ [.linked child.name q]) := by
  obtain ⟨l, r, hsplit, hrep⟩ := replaceChild_split h.distinctNames hc
  rw [hrep { child with pid := some q } rfl] at hr
  cases hr
  rw [hsplit] at h hq
  have hpd := h.distinctPids
  simp only [pids_append, pids_cons, hp, Option.toList, List.singleton_append] at hpd hq
  have hnew : q ∉ pids (l ++ r) := fun hmem => hq (by
    rw [pids_append, List.mem_append] at hmem
    rw [List.mem_append, List.mem_cons]
    exact hmem.imp id .inr)
  refine h.putStarted rfl rfl hnew fun q' he => ?_
  cases he
  simpa using (List.nodup_cons.mp (List.nodup_middle.mp hpd)).1

theorem Restarts.truthful {p : Nat} {ig : Bool} {st : State} {v : Verdict} (hr : Restarts env child ig state w v w')
    (hv : v = .ok st) (hi : ig = false) (hp : child.pid = some p)
    (hmem : state.strategy = .oneForOne → child ∈ state.children) (h : Truthful (some p) state.children w.log) :
    Truthful none st.children w'.log := by
  induction hr with
  | giveUp rs => cases hv
  | started rs q hs hq hst =>
    cases hv
    obtain ⟨cs, hrep, rfl⟩ := stateReplaceChild_ok hst
    exact replaceChild_truthful hp (hmem hs) h hq hrep
  | ignored rs hs hst => cases hi
  | failed rs hs _ ih => exact ih hv hi hmem h.attempt
  | allStarted rs hs ht hc =>
    cases hv
    rw [hp] at ht
    exact (restartAll_truthful h.markDead.distinctNames (.inl (by rw [ht]; exact hc))).2
  | allFailed rs hs ht hc _ ih =>
    rw [hp] at ht
    obtain ⟨-, hnew⟩ := restartAll_truthful h.markDead.distinctNames (.inr (by rw [ht]; exact hc))
    exact ih hv hi (fun he => by simp [hs] at he) hnew.spare

theorem Change.truthful {request : Request} {reply : Reply} {cs : List Child} {log' : List Event}
    (hc : Change request children log reply cs log') (h : Truthful none children log) : Truthful none cs log' := by
  cases hc with
  | keep reply hr hs => exact h
  | ignored n => exact h.attempt
  | failed n e => exact h.attempt
  | added c hn hp => exact (h.consDead hn hp).attempt
  | addedStarted c p hn hp =>
    exact (h.consDead (c := c.dead) hn rfl).putStarted (l := []) rfl rfl (by simpa using hp) (by simp)
  | started l r c p he hc hp =>
    rw [he] at h hp
    exact h.putStarted rfl rfl (by simpa [hc] using hp) (by simp)
  | deleted l r c he hp => exact (he ▸ h).rest
  | terminated l r c p he hp => exact (he ▸ h).terminated hp

theorem exit_truthful {rounds p : Nat} {reason : Datum} {st : State} (hf : Truthful none state.children w.log)
    (hi : state.strategy = .oneForOne → ∀ c, stateFindPid p state = some c → needsRestart c.restartType reason = true →
      ignores env rounds c state (w.record (.exit p)) = false)
    (h : restartChild env rounds p reason state (w.record (.exit p)) = .ok (.ok st, w')) :
    Truthful none st.children w'.log := by
  have ht : Truthful (some p) state.children (w.record (.exit p)).log := hf.exit
  rcases restartChild_cases h with ⟨hnone, hv, rfl⟩ | ⟨c, hsome, hcase⟩
  · cases hv
    exact ht.unspare (findPid_none hnone)
  · obtain ⟨hmem, hp⟩ := findPid_some hsome
    obtain ⟨l, r, hsplit⟩ := List.append_of_mem hmem
    have hnot : p ∉ pids (l ++ r) := by
      have hd := hsplit ▸ hf.distinctPids
      simp only [pids_append, pids_cons, hp, Option.toList, List.singleton_append] at hd
      simpa using (List.nodup_cons.mp (List.nodup_middle.mp hd)).1
    rcases hcase with ⟨hv, rfl⟩ | ⟨hv, rfl⟩ | ⟨hneeds, hr⟩
    · cases hv
      simp only [stateMarkChildDead]
      rw [hsplit] at ht ⊢
      rw [markChildDead_name ht.distinctNames]
      exact (ht.putDead (d := c.dead) rfl rfl).unspare (by simpa [Child.dead] using hnot)
    · cases hv
      simp only [stateRemoveChild]
      rw [hsplit] at ht ⊢
      rw [filter_name ht.distinctNames]
      exact ht.rest.unspare hnot
    · obtain ⟨ig, hrs, hig⟩ := restarts_of_restart hr
      have hfalse : ig = false := by
        cases ig with
        | false => rfl
        | true =>
          obtain ⟨hs, htrue⟩ := hig rfl
          rw [hi hs c hsome hneeds] at htrue
          cases htrue
      exact hrs.truthful rfl hfalse hp (fun _ => hmem) ht

theorem step_truthful {s s' : Server} {a : Action} (h : Truthful none s.state.children s.world.log)
    (hi : Ignored env s a = false) (hs : step env s a = .ok s') (hr : s'.running) :
    Truthful none s'.state.children s'.world.log := by
  obtain ⟨-, ⟨request, x, rfl, hc, rfl⟩ | ⟨p, reason, rounds, st, w, rfl, hc, rfl⟩ |
    ⟨p, reason, rounds, st, w, rfl, hc, rfl⟩ | ⟨rfl, rfl⟩⟩ := step_cases hs
  · exact (handleCall_change h.distinctNames hc).truthful h
  · refine exit_truthful h (fun hst c hf hneeds => ?_) hc
    simpa [Ignored, hst, hf, hneeds] using hi
  · cases hr
  · cases hr

theorem init_truthful {strategy intensity period : Datum} {specs : List Spec} {st : State}
    (h : init env strategy intensity period specs .start = (.ok st, w)) :
    Truthful none st.children w.log := by
  obtain ⟨cs, -, hn, hp, hstart⟩ := init_starts h
  exact (startChildrenLoop_truthful hp (by simpa using hn) .nil (.inl hstart)).2

theorem reach_truthful {strategy intensity period : Datum} {specs : List Spec} {st : State} {s : Server}
    (h0 : init env strategy intensity period specs .start = (.ok st, w))
    (h : Reach ⟨st, w, true⟩ (step env) (fun s a => Ignored env s a = false) s) (hr : s.running) :
    Truthful none s.state.children s.world.log := by
  refine h.invariant (I := fun s => s.running → Truthful none s.state.children s.world.log)
    (fun _ => init_truthful h0) (fun s a s' ih hi hs hr => ?_) hr
  exact step_truthful (ih (step_cases hs).1) hi hs hr

theorem child_table_truthful {strategy intensity period : Datum} {specs : List Spec} {st : State} {s : Server}
    (h0 : init env strategy intensity period specs .start = (.ok st, w))
    (h : Reach ⟨st, w, true⟩ (step env) (fun s a => Ignored env s a = false) s) (hr : s.running) :
    (names s.state.children).Nodup ∧ (pids s.state.children).Nodup ∧
    (∀ p ∈ pids s.state.children, p ∈ unprocessed s.world.log) ∧
    (∀ request x, handleCall env request s.state s.world = .ok x →
      (x.1 = .running → ∃ c ∈ s.state.children, ∃ p, c.pid = some p ∧ p ∈ unprocessed s.world.log ∧
        (request = .restartChild c.name ∨ request = .deleteChild c.name)) ∧
      ∀ p, x.1 = .alreadyStarted p → p ∈ unprocessed s.world.log) ∧
    ∀ c ∈ s.state.children, (∀ p, c.pid = some p → p ∉ unprocessed s.world.log) →
      (∃ x, handleCall env (.restartChild c.name) s.state s.world = .ok x ∧
        x.2.2.attempts = s.world.attempts + 1) ∧
      ∃ x, handleCall env (.deleteChild c.name) s.state s.world = .ok x ∧ x.1 = .ok ∧
        c.name ∉ names x.2.1.children := by
  have ht := reach_truthful h0 h hr
  have hk : ∀ p ∈ pids s.state.children, p ∈ unprocessed s.world.log := fun p hp => ht.known p hp (by simp)
  refine ⟨ht.distinctNames, ht.distinctPids, hk, fun request x hx => ?_, fun c hc hdead => ?_⟩
  · obtain ⟨h1, h2⟩ := (handleCall_change ht.distinctNames hx).running
    refine ⟨fun hrun => ?_, fun p hp => hk p (h2 p hp)⟩
    obtain ⟨c, hc, p, hp, hreq⟩ := h1 hrun
    exact ⟨c, hc, p, hp, hk p (mem_pids.mpr ⟨c, hc, hp⟩), hreq⟩
  · refine dead_child ht.distinctNames hc ?_
    cases hp : c.pid with
    | none => rfl
    | some p => exact absurd (hk p (mem_pids.mpr ⟨c, hc, hp⟩)) (hdead p hp)

def permanentSpec (name : String) (thunk : Nat) : Spec :=
  .vector (.symbol name) (.procedure thunk) (.symbol "permanent") (.fixnum 1000) (.symbol "worker")

/-- Every attempt starts a new process. -/
def freshEnv : Env := ⟨fun _ k => .ok (.process (7 + k)), fun _ => 0⟩

theorem child_table_truthful_restarted : ∃ st w s,
    init freshEnv (.symbol "one-for-one") (.fixnum 1) (.fixnum 1) [permanentSpec "a" 0] .start = (.ok st, w) ∧
    Reach.run (step freshEnv) ⟨st, w, true⟩ [.exit 7 (.symbol "died") 1] = .ok s ∧
    pids s.state.children = [8] ∧ ∀ p ∈ pids s.state.children, p ∈ unprocessed s.world.log := by
  obtain ⟨st, w, s, h0, hrun, hp, hr⟩ : ∃ st w s,
      init freshEnv (.symbol "one-for-one") (.fixnum 1) (.fixnum 1) [permanentSpec "a" 0] .start = (.ok st, w) ∧
      Reach.run (step freshEnv) ⟨st, w, true⟩ [.exit 7 (.symbol "died") 1] = .ok s ∧
      pids s.state.children = [8] ∧ s.running := ⟨_, _, _, rfl, rfl, rfl, rfl⟩
  have hfresh : Ignored freshEnv ⟨st, w, true⟩ (.exit 7 (.symbol "died") 1) = false := by
    cases h0
    rfl
  have hreach : Reach ⟨st, w, true⟩ (step freshEnv) (fun s a => Ignored freshEnv s a = false) s :=
    .of_run [.exit 7 (.symbol "died") 1] .start (by simp only [Reach.Along]; exact ⟨hfresh, by split <;> trivial⟩) hrun
  exact ⟨st, w, s, h0, hrun, hp, (child_table_truthful h0 hreach hr).2.2.1⟩

/-- The thunk starts process 7 and then returns ignore. -/
def ignoringEnv : Env := ⟨fun _ k => if k = 0 then .ok (.process 7) else .ignore, fun _ => 0⟩

/-- Process 7 has exited, and the table says that it runs. -/
theorem child_table_stale : ∃ st w s,
    init ignoringEnv (.symbol "one-for-one") (.fixnum 1) (.fixnum 1) [permanentSpec "a" 0] .start = (.ok st, w) ∧
    Reach ⟨st, w, true⟩ (step ignoringEnv) (fun _ _ => True) s ∧ s.running ∧
    s.world.log = [.attempt "a", .linked "a" 7, .exit 7, .attempt "a"] ∧
    s.state.children.map (fun c => (c.name, c.pid)) = [("a", some 7)] ∧ 7 ∉ unprocessed s.world.log ∧
    (handleCall ignoringEnv (.restartChild "a") s.state s.world).map (·.1) = .ok .running ∧
    (handleCall ignoringEnv (.deleteChild "a") s.state s.world).map (·.1) = .ok .running := by
  refine ⟨_, _, _, rfl, .of_run [.exit 7 (.symbol "died") 1] .start ⟨trivial, ?_⟩ rfl, rfl, rfl, rfl, ?_, rfl, rfl⟩
  · split <;> trivial
  · decide

end Swish.Supervisor
