import Swish.Supervisor.Truth

/-!
What becomes of the children when the supervisor stops, and what a restart of all
children does.
-/

set_option autoImplicit false

namespace Swish.Supervisor

open Swish.Lib

variable {env : Env} {children : List Child} {child : Child} {w w' : World} {log : List Event} {state : State}

/-- The processes started, in the order of their start. -/
def linkedPids (log : List Event) : List Nat :=
  log.filterMap fun
    | .linked _ p => some p
    | _ => none

def terminatedPids (log : List Event) : List Nat :=
  log.filterMap fun
    | .terminated p => some p
    | _ => none

/-- The names of the children whose thunks are called. -/
def attempted (log : List Event) : List String :=
  log.filterMap fun
    | .attempt n => some n
    | _ => none

theorem mem_linkedPids {p : Nat} : p ∈ linkedPids log ↔ ∃ n, .linked n p ∈ log := by
  unfold linkedPids
  rw [List.mem_filterMap]
  constructor
  · intro ⟨e, he, hp⟩
    cases e with
    | linked n q =>
      cases hp
      exact ⟨n, he⟩
    | _ => cases hp
  · intro ⟨n, hn⟩
    exact ⟨_, hn, rfl⟩

/-- What start-children does from some point on, with the events it adds. -/
structure Starts (rest new cs : List Child) (evs : List Event) : Prop where
  names : names cs = names (rest.reverse ++ new)
  pids : pids cs = (linkedPids evs).reverse ++ pids new
  attempts : attempted evs <+: Supervisor.names rest
  linked : ∀ c ∈ cs, ∀ q, c.pid = some q → c ∈ new ∨ .linked c.name q ∈ evs

theorem startChildrenLoop_starts {rest new : List Child} {result : Except (List Child) (List Child)}
    (hrest : pids rest = []) (hs : startChildrenLoop env rest new w = (result, w')) :
    ∃ evs, w'.log = w.log ++ evs ∧
      ((∃ cs, result = .ok cs ∧ Starts rest new cs evs ∧ attempted evs = names rest) ∨
        ∃ cs, result = .error cs ∧ Starts rest new cs evs) := by
  induction rest generalizing new w with
  | nil =>
    cases hs
    exact ⟨[], by simp, .inl ⟨new, rfl, ⟨rfl, rfl, by simp [attempted], fun c hc q _ => .inl hc⟩, rfl⟩⟩
  | cons c rest ih =>
    rw [pids_cons, List.append_eq_nil_iff] at hrest
    have hpid : c.pid = none := by simpa using hrest.1
    rw [startChildrenLoop] at hs
    rcases doStartChild_cases env c new w with ⟨p, hp, hd⟩ | ⟨-, hd⟩ | ⟨e, hd⟩
    · rw [hd] at hs
      obtain ⟨evs, hlog, hcase⟩ := ih hrest.2 hs
      have hstarts : ∀ cs, Starts rest ({ c with pid := some p } :: new) cs evs →
          Starts (c :: rest) new cs (.attempt c.name :: .linked c.name p :: evs) := by
        intro cs h
        refine ⟨by simpa using h.names, by simpa [linkedPids] using h.pids, ?_, fun d hd' q hq => ?_⟩
        · simpa [attempted] using h.attempts
        · rcases h.linked d hd' q hq with hd' | hd'
          · rcases List.mem_cons.mp hd' with rfl | hd'
            · cases hq
              exact .inr (by simp)
            · exact .inl hd'
          · exact .inr (by simp [hd'])
      refine ⟨.attempt c.name :: .linked c.name p :: evs, by simp [hlog, World.attempt, World.record], ?_⟩
      rcases hcase with ⟨cs, hr, h, hall⟩ | ⟨cs, hr, h⟩
      · exact .inl ⟨cs, hr, hstarts cs h, by simpa [attempted] using hall⟩
      · exact .inr ⟨cs, hr, hstarts cs h⟩
    · rw [hd] at hs
      obtain ⟨evs, hlog, hcase⟩ := ih hrest.2 hs
      have hstarts : ∀ cs, Starts rest (c :: new) cs evs → Starts (c :: rest) new cs (.attempt c.name :: evs) := by
        intro cs h
        refine ⟨by simpa using h.names, by simpa [linkedPids, hpid] using h.pids, ?_, fun d hd' q hq => ?_⟩
        · simpa [attempted] using h.attempts
        · rcases h.linked d hd' q hq with hd' | hd'
          · rcases List.mem_cons.mp hd' with rfl | hd'
            · simp [hpid] at hq
            · exact .inl hd'
          · exact .inr (by simp [hd'])
      refine ⟨.attempt c.name :: evs, by simp [hlog, World.attempt, World.record], ?_⟩
      rcases hcase with ⟨cs, hr, h, hall⟩ | ⟨cs, hr, h⟩
      · exact .inl ⟨cs, hr, hstarts cs h, by simpa [attempted] using hall⟩
      · exact .inr ⟨cs, hr, hstarts cs h⟩
    · rw [hd] at hs
      cases hs
      refine ⟨[.attempt c.name], rfl, .inr ⟨_, rfl, ⟨by simp, ?_, by simp [attempted], fun d hd' q hq => ?_⟩⟩⟩
      · simp [linkedPids, hrest.2, hpid]
      · left
        rcases List.mem_append.mp hd' with hd' | hd'
        · have hnil : q ∈ pids rest := mem_pids.mpr ⟨d, by simpa using hd', hq⟩
          simp [hrest.2] at hnil
        · rcases List.mem_cons.mp hd' with rfl | hd'
          · simp [hpid] at hq
          · exact hd'

/-- Every process started has exited, was terminated, or is in the table. -/
def Accounted (children : List Child) (log : List Event) : Prop :=
  ∀ n p, .linked n p ∈ log → .exit p ∈ log ∨ .terminated p ∈ log ∨ p ∈ pids children

theorem Accounted.step {cs : List Child} {evs : List Event} (h : Accounted children log)
    (hl : ∀ n p, .linked n p ∈ evs → p ∈ pids cs)
    (hp : ∀ p ∈ pids children, .exit p ∈ log ++ evs ∨ .terminated p ∈ log ++ evs ∨ p ∈ pids cs) :
    Accounted cs (log ++ evs) := by
  intro n p hmem
  rcases List.mem_append.mp hmem with hmem | hmem
  · rcases h n p hmem with he | ht | hc
    · exact .inl (List.mem_append_left _ he)
    · exact .inr (.inl (List.mem_append_left _ ht))
    · exact hp p hc
  · exact .inr (.inr (hl n p hmem))

theorem Change.accounted {request : Request} {reply : Reply} {cs : List Child} {log' : List Event}
    (hc : Change request children log reply cs log') (h : Accounted children log) : Accounted cs log' := by
  cases hc with
  | keep reply hr hs => exact h
  | ignored n => exact h.step (by simp) fun p hp => .inr (.inr hp)
  | failed n e => exact h.step (by simp) fun p hp => .inr (.inr hp)
  | added c hn hp => exact h.step (by simp) fun p hmem => .inr (.inr (by simp [hmem]))
  | addedStarted c p hn hp =>
    rw [List.append_assoc]
    exact h.step (by simp) fun q hq => .inr (.inr (by simp [hq]))
  | started l r c p he hc hp =>
    subst he
    rw [List.append_assoc]
    refine h.step (by simp) fun q hq => .inr (.inr ?_)
    simp only [pids_append, pids_cons, hc, Option.toList, List.nil_append, List.mem_append] at hq ⊢
    exact hq.imp id .inr
  | deleted l r c he hp =>
    subst he
    intro n q hmem
    have hq := h n q hmem
    simpa [hp] using hq
  | terminated l r c p he hp =>
    subst he
    refine h.step (by simp) fun q hq => ?_
    simp only [pids_append, pids_cons, hp, Option.toList, List.singleton_append, List.mem_append, List.mem_cons] at hq
    rcases hq with hq | rfl | hq
    · exact .inr (.inr (by simp [hq]))
    · exact .inr (.inl (by simp))
    · exact .inr (.inr (by simp [hq]))

/-- One round over all children: the running ones are terminated in the order of the table,
and all are started in reverse. -/
theorem restartAll_starts {cs cs' : List Child} {w1 : World} {result : Except (List Child) (List Child)}
    (ht : terminateChildren cs w = (cs', w1)) (hs : startChildren env cs' w1 = (result, w')) :
    w1.log = w.log ++ (pids cs).map .terminated ∧ ∃ evs, w'.log = w1.log ++ evs ∧
      ((∃ new, result = .ok new ∧ Starts (cs.map Child.dead).reverse [] new evs ∧
        attempted evs = (names cs).reverse) ∨
        ∃ new, result = .error new ∧ Starts (cs.map Child.dead).reverse [] new evs) := by
  rw [terminateChildren_eq] at ht
  cases ht
  have hdead : pids (cs.map Child.dead) = [] := by
    simp [pids, Child.dead, List.filterMap_map, Function.comp_def]
  obtain ⟨evs, hlog, hcase⟩ := startChildrenLoop_starts (by simp [hdead]) hs
  refine ⟨rfl, evs, hlog, ?_⟩
  simpa using hcase

/-- The process of a child is the one whose EXIT message is taken, or all others are in the
marked table. -/
theorem mem_markChildDead {p q : Nat} (hq : q ∈ pids children) :
    q = p ∨ q ∈ pids (markChildDead (.pid (some p)) children) := by
  induction children with
  | nil => simp at hq
  | cons c cs ih =>
    rw [markChildDead]
    rw [pids_cons, List.mem_append] at hq
    split
    · rename_i hc
      have hcp : c.pid = some p := by simpa [eq_comm] using hc
      simp only [pids_cons, Option.toList, List.nil_append]
      rcases hq with hq | hq
      · simp only [hcp, Option.toList, List.mem_singleton] at hq
        exact .inl hq
      · exact .inr hq
    · rw [pids_cons, List.mem_append]
      rcases hq with hq | hq
      · exact .inr (.inl hq)
      · exact (ih hq).imp id .inr

/-- After a round over all children the table has the processes of this round. -/
theorem restartAll_accounted {p : Nat} {cs' new : List Child} {w1 : World} {result : Except (List Child) (List Child)}
    (ht : terminateChildren (markChildDead (.pid (some p)) children) w = (cs', w1))
    (hs : startChildren env cs' w1 = (result, w')) (hr : result = .ok new ∨ result = .error new)
    (hp : .exit p ∈ w.log) (h : Accounted children w.log) :
    names new = names children ∧ ∃ evs, w'.log = w.log ++ evs ∧ Accounted new w'.log ∧
      ∀ c ∈ new, ∀ q, c.pid = some q → .linked c.name q ∈ evs := by
  obtain ⟨h1, evs, h2, hcase⟩ := restartAll_starts ht hs
  have hstarts : Starts ((markChildDead (.pid (some p)) children).map Child.dead).reverse [] new evs := by
    rcases hcase with ⟨new', hr', hst, -⟩ | ⟨new', hr', hst⟩
    · rcases hr with rfl | rfl
      · cases hr'
        exact hst
      · cases hr'
    · rcases hr with rfl | rfl
      · cases hr'
      · cases hr'
        exact hst
  have hlog : w'.log = w.log ++ ((pids (markChildDead (.pid (some p)) children)).map .terminated ++ evs) := by
    rw [h2, h1, List.append_assoc]
  refine ⟨by simpa [names_markChildDead] using hstarts.names, _, hlog, ?_, fun c hc q hq => ?_⟩
  · rw [hlog]
    refine h.step (fun n q hmem => ?_) fun q hq => ?_
    · rcases List.mem_append.mp hmem with hmem | hmem
      · simp at hmem
      · simpa [hstarts.pids] using mem_linkedPids.mpr ⟨n, hmem⟩
    · rcases mem_markChildDead (p := p) hq with rfl | hq
      · exact .inl (by simp [hp])
      · exact .inr (.inl (by simp [hq]))
  · rcases hstarts.linked c hc q hq with hnil | hmem
    · cases hnil
    · simp [hmem]

/-- A process started under a name after some point of the history. -/
def Reborn (base log : List Event) (name : String) (p : Nat) : Prop :=
  ∃ since, log = base ++ since ∧ .linked name p ∈ since

theorem Reborn.append {base evs : List Event} {n : String} {p : Nat} (h : Reborn base log n p) :
    Reborn base (log ++ evs) n p := by
  obtain ⟨since, rfl, hmem⟩ := h
  exact ⟨since ++ evs, by simp, by simp [hmem]⟩

/-- The state of the rounds of restart for a child. -/
structure Rounds (base : List Event) (child : Child) (p : Nat) (state : State) (w : World) : Prop where
  pid : child.pid = some p
  exited : .exit p ∈ w.log
  since : ∃ evs, w.log = base ++ evs
  member : state.strategy = .oneForOne → child ∈ state.children
  distinct : (names state.children).Nodup
  accounted : Accounted state.children w.log
  same : ∀ c ∈ state.children, c.name = child.name → ∀ q, c.pid = some q →
    .exit q ∈ w.log ∨ state.strategy = .oneForAll ∧ Reborn base w.log child.name q

/-- The child has started and is in its old place. -/
theorem replaceChild_accounted {p q : Nat} {cs : List Child} (hn : (names children).Nodup) (hp : child.pid = some p)
    (hmem : child ∈ children) (hexit : .exit p ∈ log) (h : Accounted children log)
    (hr : replaceChild { child with pid := some q } children = .ok cs) :
    names cs = names children ∧ Accounted cs (log ++ [.attempt child.name] ++ [.linked child.name q]) := by
  obtain ⟨l, r, hsplit, hrep⟩ := replaceChild_split hn hmem
  rw [hrep { child with pid := some q } rfl] at hr
  cases hr
  subst hsplit
  refine ⟨by simp, ?_⟩
  rw [List.append_assoc]
  refine h.step (by simp) fun q' hq' => ?_
  simp only [pids_append, pids_cons, hp, Option.toList, List.singleton_append, List.mem_append, List.mem_cons] at hq' ⊢
  rcases hq' with hq' | rfl | hq'
  · exact .inr (.inr (.inl hq'))
  · exact .inl (.inl hexit)
  · exact .inr (.inr (.inr (.inr hq')))

/-- Every process started has exited, was terminated, is in the table, or was started for
the child of the restart by a failed round. -/
def AccountedBut (base : List Event) (strategy : Strategy) (name : String) (children : List Child) (log : List Event) :
    Prop :=
  ∀ n q, .linked n q ∈ log → .exit q ∈ log ∨ .terminated q ∈ log ∨ q ∈ pids children ∨
    strategy = .oneForAll ∧ Reborn base log name q

/-- What the rounds of restart come to. -/
def Comes (base : List Event) (child : Child) (state : State) (w' : World) : Verdict → Prop
  | .ok st => names st.children = names state.children ∧ Accounted st.children w'.log
  | .shutdown st =>
    names st.children = (names state.children).filter (fun n => n ≠ child.name) ∧
      AccountedBut base state.strategy child.name st.children w'.log

theorem Rounds.giveUp {base : List Event} {p : Nat} {rs : List Int} (h : Rounds base child p state w) :
    Comes base child state w (.shutdown (stateRemoveChild child { state with restarts := rs })) := by
  refine ⟨by simp [stateRemoveChild, names, List.filter_map, Function.comp_def], fun n q hmem => ?_⟩
  rcases h.accounted n q hmem with he | ht | hq
  · exact .inl he
  · exact .inr (.inl ht)
  · obtain ⟨c, hc, hcq⟩ := mem_pids.mp hq
    by_cases hn : c.name = child.name
    · rcases h.same c hc hn q hcq with he | hre
      · exact .inl he
      · exact .inr (.inr (.inr hre))
    · exact .inr (.inr (.inl (mem_pids.mpr ⟨c, by simp [stateRemoveChild, hc, hn], hcq⟩)))

theorem Rounds.attempt {base : List Event} {p : Nat} {rs : List Int} (h : Rounds base child p state w) :
    Rounds base child p { state with restarts := rs } (({ w with ticks := w.ticks + 1 } : World).attempt child.name) := by
  obtain ⟨evs, hev⟩ := h.since
  refine ⟨h.pid, List.mem_append_left _ h.exited, ⟨evs ++ [.attempt child.name], ?_⟩, h.member, h.distinct,
    h.accounted.step (by simp) fun q hq => .inr (.inr hq), fun c hc hn q hq => ?_⟩
  · simp [World.attempt, World.record, hev]
  · exact (h.same c hc hn q hq).imp (List.mem_append_left _) (And.imp_right Reborn.append)

/-- A round over all children that failed. -/
theorem Rounds.again {base : List Event} {p : Nat} {rs : List Int} {cs new : List Child} {w1 : World}
    (h : Rounds base child p state w) (hs : state.strategy = .oneForAll)
    (ht : terminateChildren (markChildDead (.pid child.pid) state.children) { w with ticks := w.ticks + 1 } = (cs, w1))
    (hc : startChildren env cs w1 = (.error new, w')) :
    names new = names state.children ∧ Rounds base child p { state with restarts := rs, children := new } w' := by
  rw [h.pid] at ht
  obtain ⟨hn, evs, hlog, hacc, hlinked⟩ := restartAll_accounted ht hc (.inr rfl) h.exited h.accounted
  obtain ⟨evs0, hev⟩ := h.since
  have hbase : w'.log = base ++ (evs0 ++ evs) := by
    rw [hlog, ← List.append_assoc, ← hev]
  refine ⟨hn, h.pid, ?_, ⟨_, hbase⟩, fun he => by simp [hs] at he, hn ▸ h.distinct, hacc, fun c hc' hcn q hq => ?_⟩
  · rw [hlog]
    exact List.mem_append_left _ h.exited
  · exact .inr ⟨hs, _, hbase, hcn ▸ List.mem_append_right _ (hlinked c hc' q hq)⟩

theorem Restarts.comes {base : List Event} {p : Nat} {ig : Bool} {v : Verdict}
    (hr : Restarts env child ig state w v w') (h : Rounds base child p state w) : Comes base child state w' v := by
  induction hr with
  | giveUp rs => exact h.giveUp
  | started rs q hs hq hst =>
    obtain ⟨cs, hrep, rfl⟩ := stateReplaceChild_ok hst
    exact replaceChild_accounted h.distinct h.pid (h.member hs) h.exited h.accounted hrep
  | ignored rs hs hst =>
    obtain ⟨cs, hrep, rfl⟩ := stateReplaceChild_ok hst
    obtain ⟨l, r, hsplit, hrep'⟩ := replaceChild_split h.distinct (h.member hs)
    rw [hrep' child rfl, ← hsplit] at hrep
    cases hrep
    exact ⟨rfl, h.attempt.accounted⟩
  | failed rs hs _ ih => exact ih h.attempt
  | allStarted rs hs ht hc =>
    rw [h.pid] at ht
    obtain ⟨hn, evs, hlog, hacc, -⟩ := restartAll_accounted ht hc (.inl rfl) h.exited h.accounted
    exact ⟨hn, hacc⟩
  | allFailed rs hs ht hc _ ih =>
    obtain ⟨hn, hagain⟩ := h.again hs ht hc
    have hcomes := ih hagain
    unfold Comes at hcomes ⊢
    dsimp only at hcomes
    rwa [hn] at hcomes

/-- The names keep their order; a new one comes first. -/
def Reordered (old new : List String) : Prop :=
  new = old ∨ (∃ n, n ∉ old ∧ new = n :: old) ∨ ∃ n, new = old.filter fun m => m ≠ n

theorem Reordered.nodup {old new : List String} (h : Reordered old new) (hn : old.Nodup) : new.Nodup := by
  rcases h with rfl | ⟨n, hnot, rfl⟩ | ⟨n, rfl⟩
  · exact hn
  · exact List.nodup_cons.mpr ⟨hnot, hn⟩
  · exact hn.filter _

theorem names_without {l r : List Child} {c : Child} (hd : (names (l ++ c :: r)).Nodup) :
    names (l ++ r) = (names (l ++ c :: r)).filter fun n => n ≠ c.name := by
  rw [← filter_name hd]
  simp only [names, List.filter_map]
  rfl

theorem Change.reordered {request : Request} {reply : Reply} {cs : List Child} {log' : List Event}
    (hc : Change request children log reply cs log') (hn : (names children).Nodup) :
    Reordered (names children) (names cs) := by
  cases hc with
  | keep reply hr hs => exact .inl rfl
  | ignored n => exact .inl rfl
  | failed n e => exact .inl rfl
  | added c hn hp => exact .inr (.inl ⟨c.name, hn, rfl⟩)
  | addedStarted c p hn hp => exact .inr (.inl ⟨c.name, hn, rfl⟩)
  | started l r c p he hc hp =>
    subst he
    exact .inl (by simp)
  | deleted l r c he hp =>
    subst he
    exact .inr (.inr ⟨c.name, names_without hn⟩)
  | terminated l r c p he hp =>
    subst he
    exact .inl (by simp [Child.dead])

/-- The table is in order and accounts for every process. -/
structure Kept (children : List Child) (log : List Event) : Prop where
  distinct : (names children).Nodup
  accounted : Accounted children log

/-- The child of an EXIT message, with its place in the table. -/
theorem Kept.split {p : Nat} {c : Child} (h : Kept state.children w.log) (hf : stateFindPid p state = some c) :
    ∃ l r, state.children = l ++ c :: r ∧ c.pid = some p ∧
      Accounted (l ++ c.dead :: r) (w.log ++ [.exit p]) := by
  obtain ⟨hmem, hp⟩ := findPid_some hf
  obtain ⟨l, r, hsplit⟩ := List.append_of_mem hmem
  refine ⟨l, r, hsplit, hp, (hsplit ▸ h.accounted).step (by simp) fun q hq => ?_⟩
  simp only [pids_append, pids_cons, hp, Option.toList, List.singleton_append, List.mem_append, List.mem_cons] at hq
  rcases hq with hq | rfl | hq
  · exact .inr (.inr (by simp [hq]))
  · exact .inl (by simp)
  · exact .inr (.inr (by simp [hq]))

theorem Kept.rounds {p : Nat} {c : Child} (h : Kept state.children w.log) (hf : stateFindPid p state = some c) :
    Rounds w.log c p state (w.record (.exit p)) := by
  obtain ⟨hmem, hp⟩ := findPid_some hf
  refine ⟨hp, by simp [World.record], ⟨[.exit p], rfl⟩, fun _ => hmem, h.distinct,
    h.accounted.step (by simp) fun q hq => .inr (.inr hq), fun d hd hn q hq => ?_⟩
  have hdc : d = c := List.inj_on_of_nodup_map h.distinct hd hmem hn
  rw [hdc, hp] at hq
  cases hq
  exact .inl (by simp [World.record])

/-- The processes that the removal of the dead child by its name leaves out. -/
def LeftOut (s s' : Server) (a : Action) (p : Nat) : Prop :=
  ∃ q reason rounds c, a = .exit q reason rounds ∧ stateFindPid q s.state = some c ∧
    s.state.strategy = .oneForAll ∧ Reborn s.world.log s'.world.log c.name p

/-- The state in which the supervisor stops. -/
theorem terminate_log (st : State) (w : World) :
    (terminate st w).world.log = w.log ++ (pids st.children).map .terminated := by
  rw [terminate, terminateChildren_eq]

theorem exit_comes {s : Server} {p rounds : Nat} {reason : Datum} {v : Verdict} (h : Kept s.state.children s.world.log)
    (hr : restartChild env rounds p reason s.state (s.world.record (.exit p)) = .ok (v, w')) :
    match v with
    | .ok st => Reordered (names s.state.children) (names st.children) ∧ Accounted st.children w'.log
    | .shutdown st => Reordered (names s.state.children) (names st.children) ∧
        ∃ c, stateFindPid p s.state = some c ∧
          AccountedBut s.world.log s.state.strategy c.name st.children w'.log := by
  rcases restartChild_cases hr with ⟨-, rfl, rfl⟩ | ⟨c, hf, hcase⟩
  · exact ⟨.inl rfl, h.accounted.step (by simp) fun q hq => .inr (.inr hq)⟩
  · obtain ⟨l, r, hsplit, hp, hacc⟩ := h.split hf
    have hd := hsplit ▸ h.distinct
    rcases hcase with ⟨rfl, rfl⟩ | ⟨rfl, rfl⟩ | ⟨-, hres⟩
    · simp only [stateMarkChildDead]
      rw [hsplit, markChildDead_name hd]
      exact ⟨.inl (by simp [Child.dead]), hacc⟩
    · simp only [stateRemoveChild]
      rw [hsplit, filter_name hd]
      refine ⟨.inr (.inr ⟨c.name, names_without hd⟩), fun n q hmem => ?_⟩
      have hq := hacc n q hmem
      simpa [Child.dead, World.record] using hq
    · obtain ⟨ig, hrs, -⟩ := restarts_of_restart hres
      have hcomes := hrs.comes (h.rounds hf)
      cases v with
      | ok st => exact ⟨.inl hcomes.1, hcomes.2⟩
      | shutdown st => exact ⟨.inr (.inr ⟨c.name, hcomes.1⟩), c, hf, hcomes.2⟩

theorem step_kept {s s' : Server} {a : Action} (h : Kept s.state.children s.world.log)
    (hs : step env s a = .ok s') :
    Reordered (names s.state.children) (names s'.state.children) ∧
    (s'.running = true → Accounted s'.state.children s'.world.log) ∧
    (s'.running = false → (∃ evs, s'.world.log = evs ++ (pids s'.state.children).map .terminated) ∧
      ∀ n p, .linked n p ∈ s'.world.log →
        .exit p ∈ s'.world.log ∨ .terminated p ∈ s'.world.log ∨ LeftOut s s' a p) := by
  obtain ⟨-, ⟨request, x, rfl, hc, rfl⟩ | ⟨p, reason, rounds, st, w, rfl, hc, rfl⟩ |
    ⟨p, reason, rounds, st, w, rfl, hc, rfl⟩ | ⟨rfl, rfl⟩⟩ := step_cases hs
  · have hchange := handleCall_change h.distinct hc
    exact ⟨hchange.reordered h.distinct, fun _ => hchange.accounted h.accounted, fun hr => by cases hr⟩
  · have hcomes := exit_comes h hc
    exact ⟨hcomes.1, fun _ => hcomes.2, fun hr => by cases hr⟩
  · obtain ⟨hord, c, hf, hacc⟩ := exit_comes h hc
    refine ⟨hord, fun hr => (by cases hr), fun _ => ⟨⟨w.log, terminate_log st w⟩, fun n q hmem => ?_⟩⟩
    rw [terminate_log] at hmem ⊢
    rcases List.mem_append.mp hmem with hmem | hmem
    · rcases hacc n q hmem with he | ht | hq | ⟨hst, hre⟩
      · exact .inl (List.mem_append_left _ he)
      · exact .inr (.inl (List.mem_append_left _ ht))
      · exact .inr (.inl (by simp [hq]))
      · refine .inr (.inr ⟨p, reason, rounds, c, rfl, hf, hst, ?_⟩)
        rw [terminate_log]
        exact hre.append
    · simp at hmem
  · refine ⟨.inl rfl, fun hr => (by cases hr),
      fun _ => ⟨⟨s.world.log, terminate_log s.state s.world⟩, fun n q hmem => ?_⟩⟩
    rw [terminate_log] at hmem ⊢
    rcases List.mem_append.mp hmem with hmem | hmem
    · rcases h.accounted n q hmem with he | ht | hq
      · exact .inl (List.mem_append_left _ he)
      · exact .inr (.inl (List.mem_append_left _ ht))
      · exact .inr (.inl (by simp [hq]))
    · simp at hmem

theorem init_kept {strategy intensity period : Datum} {specs : List Spec} {st : State}
    (h : init env strategy intensity period specs .start = (.ok st, w)) :
    Kept st.children w.log ∧ ∃ cs, checkStartSpecs specs = .ok cs ∧ names st.children = (names cs).reverse := by
  obtain ⟨cs, hcheck, hn, hp, hstart⟩ := init_starts h
  obtain ⟨evs, hlog, hcase⟩ := startChildrenLoop_starts hp hstart
  rcases hcase with ⟨new, hr, hst, -⟩ | ⟨new, hr, -⟩
  · cases hr
    have hnames : names st.children = (names cs).reverse := by simpa using hst.names
    refine ⟨⟨by rw [hnames]; exact List.nodup_reverse.mpr hn, fun n p hmem => ?_⟩, cs, hcheck, hnames⟩
    rw [hlog] at hmem
    have hp' : p ∈ linkedPids evs := mem_linkedPids.mpr ⟨n, by simpa [World.start] using hmem⟩
    exact .inr (.inr (by simp [hst.pids, hp']))
  · cases hr

/-- The children that a failed init has started are terminated, the last one first. -/
theorem init_stopped {strategy intensity period : Datum} {specs : List Spec} {e : InitError}
    (h : init env strategy intensity period specs .start = (.error e, w)) :
    ∃ evs, w.log = evs ++ (linkedPids evs).reverse.map .terminated := by
  rcases init_error h with rfl | hc
  · exact ⟨[], rfl⟩
  · unfold initChildren at hc
    cases hs : checkStartSpecs specs with
    | error e =>
      simp only [hs] at hc
      cases hc
      exact ⟨[], rfl⟩
    | ok cs =>
      have hloop : checkStartSpecsLoop specs [] = .ok cs := hs
      obtain ⟨-, hp⟩ := checkStartSpecsLoop_ok (by simp [names]) (by simp) hloop
      simp only [hs] at hc
      split at hc
      · cases hc
      · rename_i new w1 hstart
        cases hc
        obtain ⟨evs, hlog, hcase⟩ := startChildrenLoop_starts hp hstart
        refine ⟨evs, ?_⟩
        rcases hcase with ⟨new, hr, -⟩ | ⟨new, hr, hst⟩
        · cases hr
        · cases hr
          simp [terminateChildren_eq, hlog, hst.pids, World.start]

theorem reach_kept {strategy intensity period : Datum} {specs : List Spec} {st : State} {s : Server}
    (h0 : init env strategy intensity period specs .start = (.ok st, w))
    (h : Reach ⟨st, w, true⟩ (step env) (fun _ _ => True) s) (hr : s.running) :
    Kept s.state.children s.world.log := by
  refine h.invariant (I := fun s => s.running → Kept s.state.children s.world.log)
    (fun _ => (init_kept h0).1) (fun s a s' ih _ hs hr => ?_) hr
  have hrun : s.running := (step_cases hs).1
  obtain ⟨hord, hacc, -⟩ := step_kept (ih hrun) hs
  exact ⟨hord.nodup (ih hrun).distinct, hacc hr⟩

/-- A round of one-for-all, whatever comes after a failure. -/
theorem strategicRestart_all {again : Child → State → World → Except Halt (Verdict × World)}
    (hs : state.strategy = .oneForAll) :
    ∃ evs new w', w'.log = w.log ++ (pids (markChildDead (.pid child.pid) state.children)).map .terminated ++ evs ∧
      names new = names state.children ∧ pids new = (linkedPids evs).reverse ∧
      ((attempted evs = (names state.children).reverse ∧
        strategicRestart env again child state w = .ok (.ok { state with children := new }, w')) ∨
      (attempted evs <+: (names state.children).reverse ∧
        strategicRestart env again child state w = again child { state with children := new } w')) := by
  unfold strategicRestart
  rw [hs]
  dsimp only
  cases ht : terminateChildren (markChildDead (.pid child.pid) state.children) w with
  | mk cs w1 =>
    cases hc : startChildren env cs w1 with
    | mk result w2 =>
      obtain ⟨h1, evs, h2, hcase⟩ := restartAll_starts ht hc
      have hlog : w2.log =
          w.log ++ (pids (markChildDead (.pid child.pid) state.children)).map .terminated ++ evs := by
        rw [h2, h1]
      rcases hcase with ⟨new, rfl, hst, hall⟩ | ⟨new, rfl, hst⟩
      · refine ⟨evs, new, w2, hlog, ?_, ?_, .inl ⟨by rw [hall, names_markChildDead], by simp [← hs]⟩⟩
        · simpa [names_markChildDead] using hst.names
        · simpa using hst.pids
      · refine ⟨evs, new, w2, hlog, ?_, ?_, .inr ⟨?_, by simp [← hs]⟩⟩
        · simpa [names_markChildDead] using hst.names
        · simpa using hst.pids
        · simpa [names_markChildDead] using hst.attempts

theorem supervisor_stops_children (env : Env) (strategy intensity period : Datum) (specs : List Spec) :
    (∀ e w, init env strategy intensity period specs .start = (.error e, w) →
      ∃ evs, w.log = evs ++ (linkedPids evs).reverse.map .terminated) ∧
    (∀ st w, init env strategy intensity period specs .start = (.ok st, w) →
      (∃ cs, checkStartSpecs specs = .ok cs ∧ names st.children = (names cs).reverse) ∧
      ∀ s, Reach ⟨st, w, true⟩ (step env) (fun _ _ => True) s → s.running → ∀ a s', step env s a = .ok s' →
        Reordered (names s.state.children) (names s'.state.children) ∧
        (s'.running = false → (∃ evs, s'.world.log = evs ++ (pids s'.state.children).map .terminated) ∧
          ∀ n p, .linked n p ∈ s'.world.log →
            .exit p ∈ s'.world.log ∨ .terminated p ∈ s'.world.log ∨ LeftOut s s' a p)) ∧
    ∀ again child (state : State) (w : World), state.strategy = .oneForAll →
      ∃ evs new w', w'.log =
          w.log ++ (pids (markChildDead (.pid child.pid) state.children)).map .terminated ++ evs ∧
        names new = names state.children ∧ pids new = (linkedPids evs).reverse ∧
        ((attempted evs = (names state.children).reverse ∧
          strategicRestart env again child state w = .ok (.ok { state with children := new }, w')) ∨
        (attempted evs <+: (names state.children).reverse ∧
          strategicRestart env again child state w = again child { state with children := new } w')) := by
  refine ⟨fun e w h => init_stopped h, fun st w h => ⟨(init_kept h).2, fun s hr hrun a s' hs => ?_⟩,
    fun again child state w hs => strategicRestart_all hs⟩
  obtain ⟨hord, -, hstop⟩ := step_kept (reach_kept h hr hrun) hs
  exact ⟨hord, hstop⟩

/-- Child a is restarted by itself, and then the parent exits. Process 9 is the last one
that was started, and it is terminated last. -/
theorem restarted_child_terminated_last : ∃ st w s s',
    init freshEnv (.symbol "one-for-one") (.fixnum 1) (.fixnum 1) [permanentSpec "a" 0, permanentSpec "b" 1] .start =
      (.ok st, w) ∧
    Reach ⟨st, w, true⟩ (step freshEnv) (fun _ _ => True) s ∧ s.running ∧ step freshEnv s .stop = .ok s' ∧
    linkedPids s'.world.log = [7, 8, 9] ∧ terminatedPids s'.world.log = [8, 9] ∧
    ¬(terminatedPids s'.world.log).Sublist (linkedPids s'.world.log).reverse := by
  refine ⟨_, _, _, _, rfl, .of_run [.exit 7 (.symbol "died") 1] .start ⟨trivial, ?_⟩ rfl, rfl, rfl, rfl, rfl, ?_⟩
  · split <;> trivial
  · decide

/-- A one-for-all supervisor restarts its children, and then its parent exits. -/
theorem supervisor_stops_children_restarted : ∃ st w s s',
    init freshEnv (.symbol "one-for-all") (.fixnum 1) (.fixnum 1) [permanentSpec "a" 0, permanentSpec "b" 1] .start =
      (.ok st, w) ∧
    Reach.run (step freshEnv) ⟨st, w, true⟩ [.exit 7 (.symbol "died") 1] = .ok s ∧ step freshEnv s .stop = .ok s' ∧
    linkedPids s'.world.log = [7, 8, 9, 10] ∧ terminatedPids s'.world.log = [8, 10, 9] ∧
    ∀ n p, .linked n p ∈ s'.world.log →
      .exit p ∈ s'.world.log ∨ .terminated p ∈ s'.world.log ∨ LeftOut s s' .stop p := by
  obtain ⟨st, w, s, s', h0, hrun, hr, hs, hl, ht⟩ : ∃ st w s s',
      init freshEnv (.symbol "one-for-all") (.fixnum 1) (.fixnum 1) [permanentSpec "a" 0, permanentSpec "b" 1] .start =
        (.ok st, w) ∧
      Reach.run (step freshEnv) ⟨st, w, true⟩ [.exit 7 (.symbol "died") 1] = .ok s ∧ s.running ∧
      step freshEnv s .stop = .ok s' ∧ linkedPids s'.world.log = [7, 8, 9, 10] ∧
      terminatedPids s'.world.log = [8, 10, 9] := ⟨_, _, _, _, rfl, rfl, rfl, rfl, rfl, rfl⟩
  have hreach : Reach ⟨st, w, true⟩ (step freshEnv) (fun _ _ => True) s :=
    .of_run [.exit 7 (.symbol "died") 1] .start (Reach.along_of_forall (fun _ _ => trivial) _ _) hrun
  have hstop : s'.running = false := by
    simp only [step, hr, if_true] at hs
    cases hs
    rfl
  have h := supervisor_stops_children freshEnv (.symbol "one-for-all") (.fixnum 1) (.fixnum 1)
    [permanentSpec "a" 0, permanentSpec "b" 1]
  exact ⟨st, w, s, s', h0, hrun, hs, hl, ht, (((h.2.1 st w h0).2 s hreach hr .stop s' hs).2 hstop).2⟩

end Swish.Supervisor
