import Mathlib.Data.List.Nodup
import Swish.Supervisor.Server
import Swish.Lib.Except

/-!
The child table: its lookups and updates, and one lemma for what a call and what an EXIT
message can do to it.
-/

set_option autoImplicit false

namespace Swish.Supervisor

variable {env : Env} {children : List Child} {child : Child} {w w' : World} {log : List Event} {state : State}

def names (children : List Child) : List String := children.map Child.name

def pids (children : List Child) : List Nat := children.filterMap Child.pid

def Child.dead (c : Child) : Child := { c with pid := none }

@[simp] theorem names_cons (c : Child) (cs : List Child) : names (c :: cs) = c.name :: names cs := rfl

@[simp] theorem names_append (xs ys : List Child) : names (xs ++ ys) = names xs ++ names ys := by
  simp [names]

@[simp] theorem names_reverse (xs : List Child) : names xs.reverse = (names xs).reverse := by
  simp [names]

@[simp] theorem names_map_dead (xs : List Child) : names (xs.map Child.dead) = names xs := by
  simp [names, Child.dead, Function.comp_def]

@[simp] theorem pids_nil : pids [] = [] := rfl

@[simp] theorem pids_append (xs ys : List Child) : pids (xs ++ ys) = pids xs ++ pids ys := by
  simp [pids]

@[simp] theorem pids_reverse (xs : List Child) : pids xs.reverse = (pids xs).reverse := by
  simp [pids, List.filterMap_reverse]

@[simp] theorem pids_cons (c : Child) (cs : List Child) : pids (c :: cs) = c.pid.toList ++ pids cs := by
  cases h : c.pid <;> simp [pids, h]

theorem mem_pids {p : Nat} : p ∈ pids children ↔ ∃ c ∈ children, c.pid = some p := by
  simp [pids]

theorem findPid_none {p : Nat} (h : findPid p children = none) : p ∉ pids children := by
  intro hp
  obtain ⟨c, hc, he⟩ := mem_pids.mp hp
  exact absurd (List.find?_eq_none.mp h c hc) (by simp [he])

theorem findPid_some {p : Nat} (h : findPid p children = some child) : child ∈ children ∧ child.pid = some p :=
  ⟨List.mem_of_find?_eq_some h, by simpa using List.find?_some h⟩

theorem findChild_some {n : String} (h : findChild n children = some child) : child ∈ children ∧ child.name = n :=
  ⟨List.mem_of_find?_eq_some h, by simpa using List.find?_some h⟩

theorem findChild_none {n : String} (h : findChild n children = none) : n ∉ names children := by
  intro hn
  obtain ⟨c, hc, rfl⟩ := List.mem_map.mp hn
  exact absurd (List.find?_eq_none.mp h c hc) (by simp)

theorem findChild_mem {c : Child} (hn : (names children).Nodup) (hc : c ∈ children) :
    findChild c.name children = some c := by
  cases hf : findChild c.name children with
  | none => exact absurd (List.mem_map_of_mem hc) (findChild_none hf)
  | some d =>
    obtain ⟨hd, he⟩ := findChild_some hf
    rw [List.inj_on_of_nodup_map hn hd hc he]

/-- The ways for a start to end. -/
theorem doStartChild_cases (env : Env) (child : Child) (children : List Child) (w : World) :
    (∃ p, p ∉ pids children ∧ doStartChild env child children w =
      (.ok (some p, { child with pid := some p }), (w.attempt child.name).record (.linked child.name p))) ∨
    (env.thunk child.thunk w.attempts = .ignore ∧
      doStartChild env child children w = (.ok (none, child), w.attempt child.name)) ∨
    ∃ e, doStartChild env child children w = (.error e, w.attempt child.name) := by
  unfold doStartChild
  dsimp only
  split
  · rename_i p _
    split
    · exact .inr (.inr ⟨_, rfl⟩)
    · rename_i hp
      exact .inl ⟨p, findPid_none (Option.not_isSome_iff_eq_none.mp hp), rfl⟩
  · rename_i h
    exact .inr (.inl ⟨h, rfl⟩)
  · exact .inr (.inr ⟨_, rfl⟩)
  · exact .inr (.inr ⟨_, rfl⟩)
  · exact .inr (.inr ⟨_, rfl⟩)

theorem terminateChildrenLoop_eq (cs acc : List Child) (w : World) :
    terminateChildrenLoop cs acc w =
      ((cs.map Child.dead).reverse ++ acc, { w with log := w.log ++ (pids cs).map .terminated }) := by
  induction cs generalizing acc w with
  | nil => simp [terminateChildrenLoop]
  | cons c cs ih =>
    rw [terminateChildrenLoop, doTerminate]
    cases hp : c.pid with
    | none =>
      have hc : c.dead = c := by simp [Child.dead, ← hp]
      simp [ih, hp, hc]
    | some p => simp [ih, hp, Child.dead, World.record]

/-- All children are terminated, and the list is in the order in which to start them. -/
theorem terminateChildren_eq (cs : List Child) (w : World) :
    terminateChildren cs w =
      ((cs.map Child.dead).reverse, { w with log := w.log ++ (pids cs).map .terminated }) := by
  rw [terminateChildren, terminateChildrenLoop_eq, List.append_nil]

theorem names_markChildDead (who : Who) (cs : List Child) : names (markChildDead who cs) = names cs := by
  induction cs with
  | nil => rfl
  | cons c cs ih =>
    rw [markChildDead]
    split
    · rfl
    · simp [ih]

theorem pids_markChildDead (who : Who) (cs : List Child) : (pids (markChildDead who cs)).Sublist (pids cs) := by
  induction cs with
  | nil => exact List.Sublist.refl _
  | cons c cs ih =>
    rw [markChildDead]
    split
    · simp
    · simpa using ih

/-- The process is in the table no more. -/
theorem markChildDead_pid {p : Nat} {cs : List Child} (hd : (pids cs).Nodup) :
    p ∉ pids (markChildDead (.pid (some p)) cs) := by
  induction cs with
  | nil => simp [markChildDead]
  | cons c cs ih =>
    rw [pids_cons] at hd
    obtain ⟨-, hcs, hdis⟩ := List.nodup_append.mp hd
    rw [markChildDead]
    by_cases hc : c.pid = some p
    · simp only [hc, or_true, if_true, pids_cons, Option.toList, List.nil_append]
      intro hp
      exact hdis p (by simp [hc]) p hp rfl
    · have hc' : ¬(Who.pid (some p) = .name c.name ∨ Who.pid (some p) = .pid c.pid) := by simp [Ne.symm hc]
      rw [if_neg hc', pids_cons, List.mem_append]
      intro hp
      rcases hp with hp | hp
      · simp only [Option.mem_toList] at hp
        exact hc hp
      · exact ih hcs hp

/-- The child of a name is replaced in its place. -/
theorem replaceChild_split {c : Child} (hd : (names children).Nodup) (hc : c ∈ children) :
    ∃ l r, children = l ++ c :: r ∧ ∀ c' : Child, c'.name = c.name → replaceChild c' children = .ok (l ++ c' :: r) := by
  induction children with
  | nil => cases hc
  | cons x xs ih =>
    rcases List.mem_cons.mp hc with rfl | hc
    · exact ⟨[], xs, rfl, fun c' hn => by simp [replaceChild, hn]⟩
    · obtain ⟨hx, hxs⟩ := List.nodup_cons.mp hd
      obtain ⟨l, r, he, hrep⟩ := ih hxs hc
      refine ⟨x :: l, r, by simp [he], fun c' hn => ?_⟩
      have hne : x.name ≠ c'.name := fun h => hx (h.trans hn ▸ List.mem_map.mpr ⟨c, hc, rfl⟩)
      rw [replaceChild, if_neg hne, hrep c' hn]
      rfl

theorem markChildDead_name {l r : List Child} {c : Child} (hd : (names (l ++ c :: r)).Nodup) :
    markChildDead (.name c.name) (l ++ c :: r) = l ++ c.dead :: r := by
  induction l with
  | nil => simp [markChildDead, Child.dead]
  | cons x l ih =>
    simp only [List.cons_append, names_cons, List.nodup_cons] at hd
    have hne : ¬(Who.name c.name = .name x.name ∨ Who.name c.name = .pid x.pid) := by
      simp only [Who.name.injEq, reduceCtorEq, or_false]
      exact fun he => hd.1 (by simp [he])
    rw [List.cons_append, markChildDead, if_neg hne, ih hd.2]
    rfl

theorem filter_name {l r : List Child} {c : Child} (hd : (names (l ++ c :: r)).Nodup) :
    ((l ++ c :: r).filter fun x => x.name ≠ c.name) = l ++ r := by
  simp only [names_append, names_cons, List.nodup_middle, List.nodup_cons, List.mem_append] at hd
  have hne : ∀ x ∈ l ++ r, x.name ≠ c.name := by
    intro x hx he
    refine hd.1 ?_
    rw [← he]
    exact (List.mem_append.mp hx).imp (List.mem_map_of_mem) (List.mem_map_of_mem)
  rw [← List.filter_eq_self.mpr fun x hx => decide_eq_true (hne x hx)]
  simp [List.filter_append]

theorem map_ok {α β ε : Type} {f : α → β} {x : Except ε α} {y : β} (h : x.map f = .ok y) :
    ∃ a, x = .ok a ∧ y = f a := by
  cases x with
  | error e => cases h
  | ok a =>
    cases h
    exact ⟨a, rfl, rfl⟩

theorem stateReplaceChild_ok {c : Child} {st : State} (h : stateReplaceChild c state = .ok st) :
    ∃ cs, replaceChild c state.children = .ok cs ∧ st = { state with children := cs } := by
  exact map_ok h

theorem checkChildSpec_pid {spec : Spec} (h : checkChildSpec spec = .ok child) : child.pid = none := by
  unfold checkChildSpec at h
  repeat' split at h
  all_goals cases h
  rfl

theorem checkStartSpecsLoop_ok {specs : List Spec} {acc cs : List Child} (hn : (names acc).Nodup)
    (hp : pids acc = []) (h : checkStartSpecsLoop specs acc = .ok cs) : (names cs).Nodup ∧ pids cs = [] := by
  induction specs generalizing acc with
  | nil =>
    cases h
    simp [hn, hp]
  | cons spec specs ih =>
    rw [checkStartSpecsLoop] at h
    cases hs : checkChildSpec spec with
    | error e =>
      rw [hs] at h
      cases h
    | ok child =>
      simp only [hs] at h
      split at h
      · cases h
      · rename_i hf
        have hnew := findChild_none (Option.not_isSome_iff_eq_none.mp hf)
        refine ih ?_ ?_ h
        · exact List.nodup_cons.mpr ⟨hnew, hn⟩
        · simp [checkChildSpec_pid hs, hp]

theorem init_ok {strategy intensity period : Datum} {specs : List Spec} {st : State}
    (h : init env strategy intensity period specs w = (.ok st, w')) :
    initChildren env specs w = (.ok st.children, w') := by
  unfold init at h
  repeat' split at h
  all_goals cases h
  assumption

/-- init has started the children of specs that are in order. -/
theorem init_starts {strategy intensity period : Datum} {specs : List Spec} {st : State}
    (h : init env strategy intensity period specs w = (.ok st, w')) :
    ∃ cs, checkStartSpecs specs = .ok cs ∧ (names cs).Nodup ∧ pids cs = [] ∧
      startChildren env cs w = (.ok st.children, w') := by
  have hc := init_ok h
  unfold initChildren at hc
  cases hs : checkStartSpecs specs with
  | error e =>
    simp only [hs] at hc
    cases hc
  | ok cs =>
    have hloop : checkStartSpecsLoop specs [] = .ok cs := hs
    obtain ⟨hn, hp⟩ := checkStartSpecsLoop_ok (by simp [names]) (by simp) hloop
    simp only [hs] at hc
    split at hc
    · rename_i new w1 hstart
      cases hc
      exact ⟨cs, rfl, hn, hp, hstart⟩
    · cases hc

theorem init_error {strategy intensity period : Datum} {specs : List Spec} {e : InitError}
    (h : init env strategy intensity period specs w = (.error e, w')) :
    w' = w ∨ initChildren env specs w = (.error e, w') := by
  unfold init at h
  repeat' split at h
  all_goals cases h
  all_goals first | exact .inl rfl | exact .inr (by assumption)

/-- What a call does to the table and to the history, and what it answers. -/
inductive Change (request : Request) (children : List Child) (log : List Event) :
    Reply → List Child → List Event → Prop where
  | keep (reply : Reply)
      (hr : reply = .running → ∃ c ∈ children, ∃ p, c.pid = some p ∧
        (request = .restartChild c.name ∨ request = .deleteChild c.name))
      (hs : ∀ p, reply = .alreadyStarted p → p ∈ pids children) : Change request children log reply children log
  | ignored (n : String) : Change request children log (.started none) children (log ++ [.attempt n])
  | failed (n : String) (e : StartError) : Change request children log (.startError e) children (log ++ [.attempt n])
  | added (c : Child) (hn : c.name ∉ names children) (hp : c.pid = none) :
      Change request children log (.started none) (c :: children) (log ++ [.attempt c.name])
  | addedStarted (c : Child) (p : Nat) (hn : c.name ∉ names children) (hp : p ∉ pids children) :
      Change request children log (.started (some p)) ({ c with pid := some p } :: children)
        (log ++ [.attempt c.name] ++ [.linked c.name p])
  | started (l r : List Child) (c : Child) (p : Nat) (he : children = l ++ c :: r) (hc : c.pid = none)
      (hp : p ∉ pids children) :
      Change request children log (.started (some p)) (l ++ { c with pid := some p } :: r)
        (log ++ [.attempt c.name] ++ [.linked c.name p])
  | deleted (l r : List Child) (c : Child) (he : children = l ++ c :: r) (hp : c.pid = none) :
      Change request children log .ok (l ++ r) log
  | terminated (l r : List Child) (c : Child) (p : Nat) (he : children = l ++ c :: r) (hp : c.pid = some p) :
      Change request children log .ok (l ++ c.dead :: r) (log ++ [.terminated p])

theorem handleStartChild_change {request : Request} (hp : child.pid = none) :
    Change request state.children w.log (handleStartChild env child state w).1
      (handleStartChild env child state w).2.1.children (handleStartChild env child state w).2.2.log := by
  unfold handleStartChild
  cases hf : stateFindChild child.name state with
  | none =>
    have hn := findChild_none hf
    dsimp only
    rcases doStartChild_cases env child state.children w with ⟨p, hnew, hd⟩ | ⟨-, hd⟩ | ⟨e, hd⟩
    · rw [hd]
      exact .addedStarted child p hn hnew
    · rw [hd]
      exact .added child hn hp
    · rw [hd]
      exact .failed child.name e
  | some found =>
    cases hpid : found.pid with
    | none =>
      simp only [hpid]
      exact .keep _ (by simp) (by simp)
    | some p =>
      simp only [hpid]
      refine .keep _ (by simp) fun q hq => ?_
      cases hq
      exact mem_pids.mpr ⟨found, (findChild_some hf).1, hpid⟩

theorem handleCall_change {request : Request} {x : Reply × State × World} (hn : (names state.children).Nodup)
    (hc : handleCall env request state w = .ok x) :
    Change request state.children w.log x.1 x.2.1.children x.2.2.log := by
  cases request with
  | startChild spec =>
    rw [handleCall] at hc
    cases hs : checkChildSpec spec with
    | error reason =>
      rw [hs] at hc
      cases hc
      exact .keep _ (by simp) (by simp)
    | ok child =>
      rw [hs] at hc
      cases hc
      exact handleStartChild_change (checkChildSpec_pid hs)
  | restartChild name =>
    rw [handleCall] at hc
    cases hf : stateFindChild name state with
    | none =>
      simp only [hf] at hc
      cases hc
      exact .keep _ (by simp) (by simp)
    | some child =>
      obtain ⟨hmem, rfl⟩ := findChild_some hf
      cases hp : child.pid with
      | some p =>
        simp only [hf, hp] at hc
        cases hc
        exact .keep _ (fun _ => ⟨child, hmem, p, hp, .inl rfl⟩) (by simp)
      | none =>
        obtain ⟨l, r, hsplit, hrep⟩ := replaceChild_split hn hmem
        simp only [hf, hp] at hc
        rcases doStartChild_cases env child state.children w with ⟨q, hq, hd⟩ | ⟨-, hd⟩ | ⟨e, hd⟩
        · simp only [hd, stateReplaceChild, hrep { child with pid := some q } rfl] at hc
          cases hc
          exact .started l r child q hsplit hp hq
        · simp only [hd, stateReplaceChild, hrep child rfl, ← hsplit] at hc
          cases hc
          exact .ignored child.name
        · simp only [hd] at hc
          cases hc
          exact .failed child.name e
  | deleteChild name =>
    rw [handleCall] at hc
    cases hf : stateFindChild name state with
    | none =>
      simp only [hf] at hc
      cases hc
      exact .keep _ (by simp) (by simp)
    | some child =>
      obtain ⟨hmem, rfl⟩ := findChild_some hf
      cases hp : child.pid with
      | some p =>
        simp only [hf, hp] at hc
        cases hc
        exact .keep _ (fun _ => ⟨child, hmem, p, hp, .inr rfl⟩) (by simp)
      | none =>
        obtain ⟨l, r, hsplit⟩ := List.append_of_mem hmem
        simp only [hf, hp, stateRemoveChild] at hc
        rw [hsplit, filter_name (hsplit ▸ hn)] at hc
        cases hc
        exact .deleted l r child hsplit hp
  | terminateChild name =>
    rw [handleCall] at hc
    cases hf : stateFindChild name state with
    | none =>
      simp only [hf] at hc
      cases hc
      exact .keep _ (by simp) (by simp)
    | some child =>
      obtain ⟨l, r, hsplit, hrep⟩ := replaceChild_split hn (findChild_some hf).1
      cases hp : child.pid with
      | some p =>
        simp only [hf, doTerminate, hp, stateReplaceChild, hrep { child with pid := none } rfl] at hc
        cases hc
        exact .terminated l r child p hsplit hp
      | none =>
        simp only [hf, doTerminate, hp, stateReplaceChild, hrep child rfl, ← hsplit] at hc
        cases hc
        exact .keep _ (by simp) (by simp)
  | getChildren =>
    rw [handleCall] at hc
    cases hc
    exact .keep _ (by simp) (by simp)

/-- The answers that say that a child has a process. -/
theorem Change.running {request : Request} {reply : Reply} {cs : List Child} {log' : List Event}
    (h : Change request children log reply cs log') :
    (reply = .running → ∃ c ∈ children, ∃ p, c.pid = some p ∧
      (request = .restartChild c.name ∨ request = .deleteChild c.name)) ∧
    ∀ p, reply = .alreadyStarted p → p ∈ pids children := by
  cases h with
  | keep reply hr hs => exact ⟨hr, hs⟩
  | _ => simp

/-- A child without a process can be started, and it can be deleted. -/
theorem dead_child {c : Child} (hn : (names state.children).Nodup) (hc : c ∈ state.children) (hp : c.pid = none) :
    (∃ x, handleCall env (.restartChild c.name) state w = .ok x ∧ x.2.2.attempts = w.attempts + 1) ∧
    ∃ x, handleCall env (.deleteChild c.name) state w = .ok x ∧ x.1 = .ok ∧ c.name ∉ names x.2.1.children := by
  have hf : stateFindChild c.name state = some c := findChild_mem hn hc
  refine ⟨?_, ?_⟩
  · obtain ⟨l, r, hsplit, hrep⟩ := replaceChild_split hn hc
    simp only [handleCall, hf, hp]
    rcases doStartChild_cases env c state.children w with ⟨q, hq, hd⟩ | ⟨-, hd⟩ | ⟨e, hd⟩
    · simp only [hd, stateReplaceChild, hrep { c with pid := some q } rfl]
      exact ⟨_, rfl, rfl⟩
    · simp only [hd, stateReplaceChild, hrep c rfl]
      exact ⟨_, rfl, rfl⟩
    · simp only [hd]
      exact ⟨_, rfl, rfl⟩
  · simp only [handleCall, hf, hp]
    refine ⟨_, rfl, rfl, ?_⟩
    simp [stateRemoveChild, names]

theorem addRestart_cases (env : Env) (state : State) (w : World) :
    ∃ rs, addRestart env state w = (.ok { state with restarts := rs }, { w with ticks := w.ticks + 1 }) ∨
      addRestart env state w = (.terminate { state with restarts := rs }, { w with ticks := w.ticks + 1 }) := by
  unfold addRestart
  dsimp only
  split
  · exact ⟨_, .inl rfl⟩
  · exact ⟨_, .inr rfl⟩

/-- A restart of the strategy one-for-one gets to an attempt that ends in ignore. -/
def ignores (env : Env) : Nat → Child → State → World → Bool
  | 0, _, _, _ => false
  | n+1, child, state, w =>
    match addRestart env state w with
    | (.ok state, w) =>
      if env.thunk child.thunk w.attempts = .ignore then true
      else match doStartChild env child state.children w with
        | (.ok _, _) => false
        | (.error _, w) => ignores env n child state w
    | (.terminate _, _) => false

/-- The rounds of restart, with a flag for an attempt of one-for-one that ends in ignore. -/
inductive Restarts (env : Env) (child : Child) : Bool → State → World → Verdict → World → Prop where
  | giveUp {state : State} {w : World} (rs : List Int) :
      Restarts env child false state w (.shutdown (stateRemoveChild child { state with restarts := rs }))
        { w with ticks := w.ticks + 1 }
  | started {state st : State} {w : World} (rs : List Int) (p : Nat) (hs : state.strategy = .oneForOne)
      (hp : p ∉ pids state.children)
      (hst : stateReplaceChild { child with pid := some p } { state with restarts := rs } = .ok st) :
      Restarts env child false state w (.ok st)
        ((({ w with ticks := w.ticks + 1 } : World).attempt child.name).record (.linked child.name p))
  | ignored {state st : State} {w : World} (rs : List Int) (hs : state.strategy = .oneForOne)
      (hst : stateReplaceChild child { state with restarts := rs } = .ok st) :
      Restarts env child true state w (.ok st) (({ w with ticks := w.ticks + 1 } : World).attempt child.name)
  | failed {ig : Bool} {state : State} {w w' : World} {v : Verdict} (rs : List Int)
      (hs : state.strategy = .oneForOne)
      (h : Restarts env child ig { state with restarts := rs }
        (({ w with ticks := w.ticks + 1 } : World).attempt child.name) v w') :
      Restarts env child ig state w v w'
  | allStarted {state : State} {w w1 w' : World} {cs new : List Child} (rs : List Int)
      (hs : state.strategy = .oneForAll)
      (ht : terminateChildren (markChildDead (.pid child.pid) state.children) { w with ticks := w.ticks + 1 } = (cs, w1))
      (hc : startChildren env cs w1 = (.ok new, w')) :
      Restarts env child false state w (.ok { state with restarts := rs, children := new }) w'
  | allFailed {ig : Bool} {state : State} {w w1 w2 w' : World} {v : Verdict} {cs new : List Child} (rs : List Int)
      (hs : state.strategy = .oneForAll)
      (ht : terminateChildren (markChildDead (.pid child.pid) state.children) { w with ticks := w.ticks + 1 } = (cs, w1))
      (hc : startChildren env cs w1 = (.error new, w2))
      (h : Restarts env child ig { state with restarts := rs, children := new } w2 v w') :
      Restarts env child ig state w v w'

theorem restarts_of_restart {n : Nat} {v : Verdict} (hr : restart env n child state w = .ok (v, w')) :
    ∃ ig, Restarts env child ig state w v w' ∧
      (ig = true → state.strategy = .oneForOne ∧ ignores env n child state w = true) := by
  induction n generalizing state w with
  | zero => cases hr
  | succ n ih =>
    rw [restart] at hr
    obtain ⟨rs, ha | ha⟩ := addRestart_cases env state w
    · simp only [ha, strategicRestart] at hr
      cases hs : state.strategy with
      | oneForOne =>
        simp only [hs] at hr
        rw [← hs] at hr
        rcases doStartChild_cases env child state.children { w with ticks := w.ticks + 1 } with
          ⟨p, hp, hd⟩ | ⟨hig, hd⟩ | ⟨e, hd⟩
        · simp only [hd] at hr
          obtain ⟨st, hst, hr⟩ := Lib.bind_ok hr
          cases hr
          exact ⟨false, .started rs p hs hp hst, by simp⟩
        · simp only [hd] at hr
          obtain ⟨st, hst, hr⟩ := Lib.bind_ok hr
          cases hr
          refine ⟨true, .ignored rs hs hst, fun _ => ⟨rfl, ?_⟩⟩
          simp only [ignores, ha, if_pos hig]
        · simp only [hd] at hr
          obtain ⟨ig, h, hig⟩ := ih hr
          refine ⟨ig, .failed rs hs h, fun he => ⟨rfl, ?_⟩⟩
          simp only [ignores, ha, hd]
          split
          · rfl
          · exact (hig he).2
      | oneForAll =>
        simp only [hs] at hr
        rw [← hs] at hr
        cases ht : terminateChildren (markChildDead (.pid child.pid) state.children)
            { w with ticks := w.ticks + 1 } with
        | mk cs w1 =>
          simp only [ht] at hr
          cases hc : startChildren env cs w1 with
          | mk result w2 =>
            cases result with
            | ok new =>
              simp only [hc] at hr
              cases hr
              exact ⟨false, .allStarted rs hs ht hc, by simp⟩
            | error new =>
              simp only [hc] at hr
              obtain ⟨ig, h, hig⟩ := ih hr
              refine ⟨ig, .allFailed rs hs ht hc h, fun he => ?_⟩
              exact absurd (hs.symm.trans (hig he).1) (by simp)
    · simp only [ha] at hr
      cases hr
      exact ⟨false, .giveUp rs, by simp⟩

/-- The restart type asks for a restart. -/
def needsRestart (restartType : RestartType) (reason : Datum) : Bool :=
  match restartType with
  | .permanent => true
  | .transient => !isNormal reason
  | .temporary | .watchOnly => false

/-- What the EXIT message of a child leads to. -/
theorem restartChild_cases {rounds p : Nat} {reason : Datum} {v : Verdict}
    (h : restartChild env rounds p reason state w = .ok (v, w')) :
    (stateFindPid p state = none ∧ v = .ok state ∧ w' = w) ∨
    ∃ c, stateFindPid p state = some c ∧
      ((v = .ok (stateMarkChildDead c state) ∧ w' = w) ∨ (v = .ok (stateRemoveChild c state) ∧ w' = w) ∨
        (needsRestart c.restartType reason = true ∧ restart env rounds c state w = .ok (v, w'))) := by
  unfold restartChild at h
  cases hf : stateFindPid p state with
  | none =>
    simp only [hf] at h
    cases h
    exact .inl ⟨rfl, rfl, rfl⟩
  | some c =>
    simp only [hf, doRestart] at h
    refine .inr ⟨c, rfl, ?_⟩
    cases hrt : c.restartType with
    | permanent =>
      simp only [hrt] at h
      exact .inr (.inr ⟨rfl, h⟩)
    | temporary =>
      simp only [hrt] at h
      cases h
      exact .inl ⟨rfl, rfl⟩
    | transient =>
      simp only [hrt] at h
      split at h
      · cases h
        exact .inl ⟨rfl, rfl⟩
      · rename_i hn
        exact .inr (.inr ⟨by simpa [needsRestart] using hn, h⟩)
    | watchOnly =>
      simp only [hrt] at h
      cases h
      exact .inr (.inl ⟨rfl, rfl⟩)

/-- What a step of the server is. -/
theorem step_cases {s s' : Server} {a : Action} (h : step env s a = .ok s') :
    s.running = true ∧
    ((∃ request x, a = .call request ∧ handleCall env request s.state s.world = .ok x ∧ s' = ⟨x.2.1, x.2.2, true⟩) ∨
    (∃ p reason rounds st w, a = .exit p reason rounds ∧
      restartChild env rounds p reason s.state (s.world.record (.exit p)) = .ok (.ok st, w) ∧ s' = ⟨st, w, true⟩) ∨
    (∃ p reason rounds st w, a = .exit p reason rounds ∧
      restartChild env rounds p reason s.state (s.world.record (.exit p)) = .ok (.shutdown st, w) ∧
      s' = terminate st w) ∨
    (a = .stop ∧ s' = terminate s.state s.world)) := by
  unfold step at h
  split at h
  · rename_i hrun
    refine ⟨hrun, ?_⟩
    cases a with
    | call request =>
      obtain ⟨x, hx, he⟩ := map_ok h
      exact .inl ⟨request, x, rfl, hx, he⟩
    | exit p reason rounds =>
      obtain ⟨x, hx, he⟩ := map_ok h
      obtain ⟨v, w⟩ := x
      cases v with
      | ok st => exact .inr (.inl ⟨p, reason, rounds, st, w, rfl, hx, he⟩)
      | shutdown st => exact .inr (.inr (.inl ⟨p, reason, rounds, st, w, rfl, hx, he⟩))
    | stop =>
      cases h
      exact .inr (.inr (.inr ⟨rfl, rfl⟩))
  · cases h

end Swish.Supervisor
