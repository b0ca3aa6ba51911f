import Swish.Lib.Reach
import Swish.Erlang.Frames

/-!
Code of one process as a script of operations, run in a system where all other
processes do what they like, and so do the interrupt handlers of its own
process. A proof outline gives an assertion for every point of a script.
-/

set_option autoImplicit false

namespace Swish.Erlang
open CircularList Lib

/-- The err of the patterns for EXIT and DOWN; their reason is its unwrapped
form. -/
def Contents.err : Contents → RawReason
  | .exit _ r => r
  | .down _ _ r => r
  | .user _ => .datum .normal

inductive Script (α : Type) where
  | done (value : α)
  | kill (p : Nat) (reason : Reason) (next : Script α)
  | unlink (p : Nat) (next : Script α)
  | send (p d : Nat) (next : Script α)
  | monitor (p : Nat) (next : Mon → Script α)
  /-- (demonitor&flush m). -/
  | flush (m : Mon) (next : Script α)
  /-- (receive (after timeout ..) ..): accept tells whether some pattern fits a
  message, clause is the body of that pattern. -/
  | receive (timeout : Option Nat) (accept : Contents → Bool) (clause : Contents → Script α)
      (expired : Script α)

namespace Script

variable {α β : Type}

def bind : Script α → (α → Script β) → Script β
  | .done value, f => f value
  | .kill p reason next, f => .kill p reason (next.bind f)
  | .unlink p next, f => .unlink p (next.bind f)
  | .send p d next, f => .send p d (next.bind f)
  | .monitor p next, f => .monitor p fun m => (next m).bind f
  | .flush m next, f => .flush m (next.bind f)
  | .receive timeout accept clause expired, f =>
    .receive timeout accept (fun x => (clause x).bind f) (expired.bind f)

def finished : Script α → Bool
  | .done _ => true
  | _ => false

/-- The wake time is the clock plus the timeout. -/
def due : Option Nat → Option Nat → Bool
  | none, none => true
  | some timeout, some waketime => timeout ≤ waketime
  | _, _ => false

/-- The operation the script calls next. -/
def calls : Script α → Action → Bool
  | .kill p reason _, .kill q (.datum r) _ => q = p && r = reason
  | .unlink p _, .unlink q => q = p
  | .send p d _, .send q e => q = p && e = d
  | .monitor p _, .monitor q => q = p
  | .flush m _, .demonitorFlush n => n = m
  | .receive timeout _ _ _, .receive waketime => due timeout waketime
  | _, _ => false

/-- The operation does not raise bad-arg. -/
def valid (s : State) : Script α → Bool
  | .kill p _ _ | .unlink p _ | .send p _ _ | .monitor p _ => s.isPcb p
  | .flush m _ => s.isOwnMon m
  | _ => true

/-- The operation is a call of $receive, which does not return at once. -/
def waits : Script α → Bool
  | .flush _ _ | .receive _ _ _ _ => true
  | _ => false

def matcher : Script α → Matcher
  | .flush m _ => .down m
  | _ => .user

/-- What is left to do after an operation called in s. -/
def called (s : State) : Script α → Script α
  | .kill _ _ next | .unlink _ next | .send _ _ next => next
  | .monitor p next => next (s.monitor p).2
  | code => code

/-- What is left to do when $receive has taken nothing, or when demonitor&flush
has returned. -/
def expired : Script α → Script α
  | .flush _ next => next
  | .receive _ _ _ next => next
  | code => code

end Script

structure Thread (α : Type) where
  sys : State
  owner : Nat
  /-- How many activations are below those of the script. -/
  base : Nat
  /-- What is left of the script; nothing when an exception has left it. -/
  code : Option (Script α)
  waiting : Bool

namespace Thread

variable {α : Type}

def start (s : State) (code : Script α) : Thread α :=
  ⟨s, s.self, (s.pcb s.self).stack.length, some code, false⟩

/-- The number of activations on the owner's stack. -/
def depth (c : Thread α) (s : State) : Nat := (s.pcb c.owner).stack.length

/-- Where the owner's stack ends when no interrupt handler runs. -/
def level (c : Thread α) : Nat := if c.waiting then c.base + 1 else c.base

/-- The script calls an operation. -/
def perform (c : Thread α) (code : Script α) (a : Action) (t : State) : Except Halt (Thread α) :=
  if code.calls a then
    if code.valid c.sys then
      .ok { c with sys := t, code := some (code.called c.sys), waiting := code.waits }
    else .ok { c with sys := t, code := none }
  else .error .disabled

/-- The script's own call of $receive goes on. -/
def await (c : Thread α) (code : Script α) (a : Action) (t : State) : Except Halt (Thread α) :=
  match code, a, (c.sys.pcb c.owner).stack with
  | .receive _ accept clause _, .matcher b, .receive r :: _ =>
    match r.cursor with
    | .msg k =>
      if b = accept (c.sys.contents k) then
        if b then .ok { c with sys := t, code := some (clause (c.sys.contents k)), waiting := false }
        else .ok { c with sys := t }
      else .error .disabled
    | .inbox _ => .error .disabled
  | _, .find .., _ | .flush .., .matcher _, _ =>
    if c.depth t = c.base then .ok { c with sys := t, code := some code.expired, waiting := false }
    else .ok { c with sys := t }
  | _, _, _ => .error .disabled

/-- An action of the owner while the script is under way. Timer and interrupts
may come between any two operations. An exception that a handler does not catch
itself leaves the script. -/
def advance (c : Thread α) (code : Script α) (a : Action) (t : State) : Except Halt (Thread α) :=
  if c.depth c.sys = c.level then
    match a with
    | .preempt _ | .handleInterrupt | .handleTrapExit => .ok { c with sys := t }
    | _ => if c.waiting then c.await code a t else c.perform code a t
  else
    match a with
    | .raise _ =>
      if c.level < c.depth t then .ok { c with sys := t }
      else if c.depth t ≤ c.base then .ok { c with sys := t, code := none }
      else .error .disabled
    | _ => .ok { c with sys := t }

/-- The script is in a $receive that has no timeout. -/
def blocked (c : Thread α) : Bool :=
  c.waiting && match c.code with
    | some (.receive none _ _ _) => true
    | _ => false

/-- The script has returned. -/
def returned (c : Thread α) : Bool :=
  match c.code with
  | some (.done _) => true
  | _ => false

def step (c : Thread α) (a : Action) : Except Halt (Thread α) :=
  (c.sys.step a).bind fun t =>
    match c.code with
    | none => .ok { c with sys := t }
    | some code =>
      if c.sys.self = c.owner ∧ code.finished = false then c.advance code a t else .ok { c with sys := t }

/-- A script returns once. -/
theorem step_done {c d : Thread α} {a : Action} {v : α} (hc : c.code = some (.done v))
    (h : c.step a = .ok d) : d.code = some (.done v) := by
  unfold step at h
  cases hs : c.sys.step a with
  | error e =>
    rw [hs] at h
    cases h
  | ok t =>
    simp only [hs, Except.bind, hc, Script.finished, Bool.true_eq_false, and_false, if_false] at h
    cases h
    rfl

end Thread

variable {α : Type}

/-- A property of the thread that a schedule leads to, evaluated. -/
def Thread.runsTo (c : Thread α) (as : List Action) (P : Thread α → Bool) : Bool :=
  match Reach.run Thread.step c as with
  | .ok d => P d
  | .error _ => false

theorem Thread.exists_of_runsTo {c : Thread α} {as : List Action} {P : Thread α → Bool}
    (h : c.runsTo as P = true) : ∃ d, Reach.run Thread.step c as = .ok d ∧ P d = true := by
  unfold Thread.runsTo at h
  split at h
  · rename_i d hd
    exact ⟨d, hd, h⟩
  · cases h

/-- An assertion for each point of a script of owner. At a point where the
script waits, the assertion also speaks about its call of $receive. A condition
on the steps of the system may depend on the point. -/
structure Outline (owner : Nat) (ok : Script α → State → Action → Prop)
    (A : Script α → Option Receive → State → Prop) : Prop where
  stable : ∀ code fr s a t, Reachable s → s.step a = .ok t → ok code s a → A code fr s → A code fr t
  calls : ∀ code s a t, Reachable s → s.self = owner → s.step a = .ok t → ok code s a →
    code.calls a = true → code.valid s = true → code.waits = false → A code none s →
    A (code.called s) none t
  begins : ∀ code r s, code.waits = true → r.matcher = code.matcher → r.phase ≠ .matching →
    A code none s → A code (some r) s
  resumes : ∀ code r r' s, r.Resumes r' → A code (some r) s → A code (some r') s
  offers : ∀ code r k s, Reachable s → s.alive owner = true → k ∈ s.inbox owner → A code (some r) s →
    A code (some { r with cursor := .msg k, phase := .matching }) s
  accepts : ∀ timeout accept clause expired r k s t, Reachable s → s.self = owner →
    s.step (.matcher true) = .ok t → Frame.receive r ∈ (s.pcb owner).stack → r.phase = .matching →
    r.cursor = .msg k → (∃ c, Event.consume k c true ∈ t.log) → accept (s.contents k) = true →
    A (.receive timeout accept clause expired) (some r) s → A (clause (s.contents k)) none t
  expires : ∀ code r s a t, Reachable s → s.step a = .ok t → ok code s a →
    (∀ m, r.matcher = .down m → Event.flushed m ∈ t.log) → A code (some r) s → A code.expired none t

namespace Thread

variable {c d : Thread α} {s t : State} {fr : Option Receive} {k : Nat}

/-- The script's call of $receive is on the owner's stack, right above the
activations the script started with. -/
def Placed (c : Thread α) : Option Receive → Prop
  | none => c.waiting = false ∧ c.base ≤ c.depth c.sys
  | some r => c.waiting = true ∧ (c.sys.pcb c.owner).stack.reverse[c.base]? = some (.receive r)

theorem getElem?_reverse_append {β : Type} {l r : List β} {i : Nat} (h : i < r.length) :
    (l ++ r).reverse[i]? = r.reverse[i]? := by
  rw [List.reverse_append, List.getElem?_append_left (by simpa using h)]

theorem Placed.level_le (h : c.Placed fr) : c.level ≤ c.depth c.sys := by
  cases fr with
  | none =>
    simp only [level, h.1]
    exact h.2
  | some r =>
    have h1 := (List.getElem?_eq_some_iff.mp h.2).1
    simp only [List.length_reverse] at h1
    simp only [level, h.1, depth, if_true]
    omega

/-- Changes above the script's own activation do not matter. -/
theorem Placed.above (h : c.Placed fr) (hw : d.waiting = c.waiting) (hb : d.base = c.base)
    {l j r : List Frame} (hs : (c.sys.pcb c.owner).stack = l ++ r)
    (ht : (d.sys.pcb d.owner).stack = j ++ r) (hr : c.level ≤ r.length) : d.Placed fr := by
  cases fr with
  | none =>
    simp only [level, h.1] at hr
    refine ⟨hw.trans h.1, ?_⟩
    rw [depth, ht, hb, List.length_append]
    simp only [Bool.false_eq_true, if_false] at hr
    omega
  | some x =>
    simp only [level, h.1, if_true] at hr
    refine ⟨hw.trans h.1, ?_⟩
    rw [ht, hb, getElem?_reverse_append hr, ← h.2, hs, getElem?_reverse_append hr]

/-- At the top of the stack. -/
theorem Placed.top {r : Receive} (h : c.Placed (some r)) (hl : c.depth c.sys = c.level) :
    ∃ rest, (c.sys.pcb c.owner).stack = .receive r :: rest ∧ rest.length = c.base := by
  obtain ⟨hw, h⟩ := h
  rw [depth, level, hw, if_pos rfl] at hl
  cases hs : (c.sys.pcb c.owner).stack with
  | nil =>
    rw [hs] at hl
    cases hl
  | cons f rest =>
    rw [hs] at hl h
    have hlen : rest.length = c.base := by simpa using hl
    rw [List.reverse_cons, List.getElem?_append_right (by simp [hlen])] at h
    simp only [List.length_reverse, hlen, Nat.sub_self, List.getElem?_cons_zero, Option.some.injEq] at h
    exact ⟨rest, by rw [h], hlen⟩

theorem placed_top {r : Receive} {l rest : List Frame} (hw : c.waiting = true)
    (hs : (c.sys.pcb c.owner).stack = l ++ .receive r :: rest) (hr : rest.length = c.base) :
    c.Placed (some r) := by
  refine ⟨hw, ?_⟩
  rw [hs, getElem?_reverse_append (by simp [hr]), List.reverse_cons,
    List.getElem?_append_right (by simp [hr])]
  simp [hr]

end Thread

/-- A thread at a point whose assertion holds. -/
structure Meets (A : Script α → Option Receive → State → Prop) (owner : Nat) (c : Thread α) : Prop where
  reach : Reachable c.sys
  owned : c.owner = owner
  known : owner ≤ c.sys.procs.last
  point : ∀ code, c.code = some code → ∃ fr, A code fr c.sys ∧ (code.finished = true → fr = none) ∧
    (code.finished = false → c.sys.alive owner = true → c.Placed fr)

theorem Reachable.step {s t : State} {a : Action} (h : Reachable s) (hs : s.step a = .ok t) : Reachable t := by
  obtain ⟨as, has⟩ := h
  refine ⟨as ++ [a], ?_⟩
  rw [run_append, has]
  simp [Except.bind, State.run, hs]

theorem alive_before {E : Nat → Contents → Prop} {x q : Nat} {s t : State} (h : Mailing E x s t)
    (hq : q ≤ s.procs.last) (ha : t.alive q = true) : s.alive q = true := by
  cases hs : s.alive q with
  | true => rfl
  | false =>
    rw [(h.gone q ⟨hq, hs⟩).1] at ha
    cases ha

namespace Outline

variable {owner : Nat} {ok : Script α → State → Action → Prop}
  {A : Script α → Option Receive → State → Prop} {c d : Thread α} {s t : State} {a : Action}
  {code : Script α} {r : Receive}

theorem meets (hc : Meets A owner c) (hs : c.sys.step a = .ok t) (hd : d.sys = t)
    (ho : d.owner = c.owner)
    (hp : ∀ code, d.code = some code → ∃ fr, A code fr t ∧ (code.finished = true → fr = none) ∧
      (code.finished = false → t.alive owner = true → d.Placed fr)) : Meets A owner d := by
  refine ⟨?_, ho.trans hc.owned, ?_, ?_⟩
  · rw [hd]
    exact hc.reach.step hs
  · rw [hd]
    exact Nat.le_trans hc.known (hc.reach.mailing hs).last
  · rw [hd]
    exact hp

/-- The script stays where it is. -/
theorem aside (h : Outline owner ok A) (hc : Meets A owner c) (hcode : c.code = some code)
    (hs : c.sys.step a = .ok t) (hok : ok code c.sys a)
    (hp : ∀ fr, c.Placed fr → code.finished = false → t.alive owner = true →
      { c with sys := t }.Placed fr) : Meets A owner { c with sys := t } := by
  refine meets hc hs rfl rfl fun code' h' => ?_
  have hcc : code' = code := Option.some.inj (h'.symm.trans hcode)
  subst hcc
  obtain ⟨fr, h1, h2, h3⟩ := hc.point code' hcode
  have ha := alive_before (q := owner) (hc.reach.mailing hs) hc.known
  exact ⟨fr, h.stable code' fr c.sys a t hc.reach hs hok h1, h2,
    fun ho hal => hp fr (h3 ho (ha hal)) ho hal⟩

/-- A step of another process. -/
theorem other (hc : Meets A owner c) (hs : c.sys.step a = .ok t) (hne : c.sys.self ≠ owner)
    {fr : Option Receive} (hp : c.Placed fr) (hal : t.alive owner = true) :
    { c with sys := t }.Placed fr := by
  have hm := hc.reach.mailing hs
  have hst := hm.stack owner (Ne.symm hne) (alive_before hm hc.known hal) hal
  rw [← hc.owned] at hst
  exact hp.above rfl rfl (l := []) (j := []) rfl hst hp.level_le

/-- A handler runs above the script. -/
theorem handler (hc : Meets A owner c) (hs : c.sys.step a = .ok t) (hself : c.sys.self = owner)
    (hr : ∀ n, a ≠ .raise n) (hl : c.depth c.sys ≠ c.level) {fr : Option Receive} (hp : c.Placed fr)
    (hal : t.alive owner = true) : { c with sys := t }.Placed fr := by
  rw [← hself] at hal
  obtain ⟨l, ht⟩ := step_tail hc.reach hal hr hs
  rw [hself, ← hc.owned] at ht
  have hle := hp.level_le
  cases hst : (c.sys.pcb c.owner).stack with
  | nil =>
    simp only [Thread.depth, hst, List.length_nil] at hl hle
    omega
  | cons f rest =>
    rw [hst] at ht
    refine hp.above rfl rfl (l := [f]) (r := rest) hst ht ?_
    simp only [Thread.depth, hst, List.length_cons] at hl hle
    omega

theorem unwound (hc : Meets A owner c) {n : Nat} (hs : c.sys.step (.raise n) = .ok t)
    (hself : c.sys.self = owner) (hl : c.level < c.depth t) {fr : Option Receive} (hp : c.Placed fr) :
    { c with sys := t }.Placed fr := by
  have ht := raise_stack hs
  rw [hself, ← hc.owned] at ht
  refine hp.above rfl rfl (l := (c.sys.pcb c.owner).stack.take n) (j := [])
    (List.take_append_drop n _).symm ht ?_
  simp only [Thread.depth, ht] at hl
  omega

/-- The script calls an operation. -/
theorem perform (h : Outline owner ok A) (hc : Meets A owner c) (hcode : c.code = some code)
    (ho : code.finished = false) (hself : c.sys.self = owner) (hs : c.sys.step a = .ok t)
    (hok : ok code c.sys a) (hw : c.waiting = false) (hl : c.depth c.sys = c.level)
    (hd : c.perform code a t = .ok d) : Meets A owner d := by
  have halive := hc.reach.fine.2
  obtain ⟨fr, hA, -, hplaced⟩ := hc.point code hcode
  have hp := hplaced ho (by rw [← hself]; exact halive)
  clear hplaced
  have hbase : c.depth c.sys = c.base := by rw [hl, Thread.level, hw]; rfl
  cases fr with
  | some r =>
    have := hp.1
    rw [hw] at this
    cases this
  | none =>
    unfold Thread.perform at hd
    split at hd
    · rename_i hcalls
      split at hd
      · rename_i hvalid
        cases hd
        by_cases hwait : code.waits = true
        · -- the script waits in a call of $receive that is now on top
          have hst : ∃ r, (t.pcb c.owner).stack = .receive r :: (c.sys.pcb c.owner).stack ∧
              r.matcher = code.matcher ∧ r.phase ≠ .matching := by
            rw [hc.owned, ← hself]
            cases code with
            | flush m next =>
              cases a with
              | demonitorFlush n =>
                have hn : n = m := by simpa [Script.calls] using hcalls
                subst hn
                exact ⟨_, flush_stack hvalid hs, rfl, by simp⟩
              | _ => cases hcalls
            | receive timeout accept clause expired =>
              cases a with
              | receive w => exact ⟨_, receive_stack hs, rfl, by simp⟩
              | _ => cases hcalls
            | _ => cases hwait
          obtain ⟨r, hst, hm, hph⟩ := hst
          have hsame : code.called c.sys = code := by
            cases code with
            | flush | receive => rfl
            | _ => cases hwait
          refine meets hc hs rfl rfl fun code' h' => ⟨some r, ?_⟩
          have hcc : code' = code := (Option.some.inj h').symm.trans hsame
          subst hcc
          have hA' := h.begins code' r c.sys hwait hm hph hA
          refine ⟨h.stable code' _ _ _ _ hc.reach hs hok hA', fun h1 => ?_, fun _ _ => ?_⟩
          · rw [ho] at h1
            cases h1
          · exact Thread.placed_top hwait (l := []) hst hbase
        · -- an operation that returns at once
          have hwait : code.waits = false := by simpa using hwait
          have hf : a.framing = false := by
            cases code with
            | done | flush | receive => simp_all [Script.finished, Script.waits]
            | kill | unlink | send | monitor =>
              cases a with
              | kill | unlink | send | monitor => rfl
              | _ => cases hcalls
          refine meets hc hs rfl rfl fun code' h' => ⟨none, ?_⟩
          have hcc : code' = code.called c.sys := (Option.some.inj h').symm
          subst hcc
          refine ⟨h.calls code _ _ _ hc.reach hself hs hok hcalls hvalid hwait hA, fun _ => rfl,
            fun _ hal => ⟨hwait, ?_⟩⟩
          have hk := hc.reach.mailing_keeps hf hs (owner + 1)
          have hst := hk.stack owner (by omega) (by rw [← hself]; exact halive) hal
          rw [Thread.depth, hc.owned] at hbase ⊢
          exact (hbase.symm.trans (congrArg List.length hst.symm)).le
      · cases hd
        exact meets hc hs rfl rfl fun _ h' => (by cases h')
    · cases hd

theorem point_some (hA : A code (some r) t) (ho : code.finished = false)
    (hp : d.Placed (some r)) (hcode : d.code = some code) :
    ∀ code, d.code = some code → ∃ fr, A code fr t ∧ (code.finished = true → fr = none) ∧
      (code.finished = false → t.alive owner = true → d.Placed fr) := by
  intro code' h'
  have hcc : code' = code := Option.some.inj (h'.symm.trans hcode)
  subst hcc
  exact ⟨some r, hA, fun h1 => (by rw [ho] at h1; cases h1), fun _ _ => hp⟩

theorem point_none (hA : A code none t) (hw : d.waiting = false) (hb : d.base ≤ d.depth d.sys)
    (hcode : d.code = some code) :
    ∀ code, d.code = some code → ∃ fr, A code fr t ∧ (code.finished = true → fr = none) ∧
      (code.finished = false → t.alive owner = true → d.Placed fr) := by
  intro code' h'
  have hcc : code' = code := Option.some.inj (h'.symm.trans hcode)
  subst hcc
  exact ⟨none, hA, fun _ => rfl, fun _ _ => ⟨hw, hb⟩⟩

/-- One iteration of the script's $receive. -/
theorem found (h : Outline owner ok A) (hc : Meets A owner c) (hcode : c.code = some code)
    (ho : code.finished = false) (hself : c.sys.self = owner) {b : Bool} {now rt : Nat}
    (hs : c.sys.step (.find b now rt) = .ok t) (hok : ok code c.sys (.find b now rt))
    (hA : A code (some r) c.sys) (hw : c.waiting = true) {rest : List Frame}
    (hst : (c.sys.pcb owner).stack = .receive r :: rest) (hrest : rest.length = c.base)
    (hd : (if c.depth t = c.base then .ok { c with sys := t, code := some code.expired, waiting := false }
      else .ok { c with sys := t }) = (.ok d : Except Halt (Thread α))) : Meets A owner d := by
  subst hself
  have hstay : ∀ r', A code (some r') c.sys → A code (some r') t := fun r' =>
    h.stable code _ _ _ _ hc.reach hs hok
  have hdepth : ∀ l r', (t.pcb c.sys.self).stack = l ++ .receive r' :: rest → c.depth t ≠ c.base := by
    intro l r' h1
    rw [Thread.depth, hc.owned, h1]
    simp only [List.length_append, List.length_cons]
    omega
  rcases find_cases hst hs with ⟨l, r', h1, h2⟩ | ⟨k, h1, h2, h3⟩ | ⟨h1, h2⟩
  · rw [if_neg (hdepth l r' h1)] at hd
    cases hd
    refine meets hc hs rfl rfl (point_some (r := r') (hstay _ (h.resumes code r r' _ h2 hA)) ho ?_ hcode)
    exact Thread.placed_top hw (by rw [hc.owned]; exact h1) hrest
  · rw [if_neg (hdepth [] _ h1)] at hd
    cases hd
    have hk := offered_inbox hc.reach (by rw [hst]; exact List.mem_cons_self) h2 h3
    refine meets hc hs rfl rfl (point_some (hstay _ (h.offers code r k _ hc.reach hc.reach.fine.2 hk hA))
      ho ?_ hcode)
    exact Thread.placed_top hw (l := []) (by rw [hc.owned]; exact h1) hrest
  · have hdep : c.depth t = c.base := by rw [Thread.depth, hc.owned, h1, hrest]
    rw [if_pos hdep] at hd
    cases hd
    exact meets hc hs rfl rfl (point_none (h.expires code r _ _ _ hc.reach hs hok h2 hA) rfl hdep.ge rfl)

/-- The matcher of the script's $receive returns. -/
theorem await (h : Outline owner ok A) (hc : Meets A owner c) (hcode : c.code = some code)
    (ho : code.finished = false) (hself : c.sys.self = owner) (hs : c.sys.step a = .ok t)
    (hok : ok code c.sys a) (hw : c.waiting = true) (hl : c.depth c.sys = c.level)
    (hd : c.await code a t = .ok d) : Meets A owner d := by
  have halive := hc.reach.fine.2
  obtain ⟨fr, hA, -, hplaced⟩ := hc.point code hcode
  have hp := hplaced ho (by rw [← hself]; exact halive)
  clear hplaced
  cases fr with
  | none =>
    have := hp.1
    rw [hw] at this
    cases this
  | some r =>
    obtain ⟨rest, hst, hrest⟩ := hp.top hl
    rw [hc.owned] at hst
    have hmem : Frame.receive r ∈ (c.sys.pcb owner).stack := by rw [hst]; exact List.mem_cons_self
    have hst' : (c.sys.pcb c.sys.self).stack = .receive r :: rest := by rw [hself]; exact hst
    -- after the matcher has refused, $receive goes on
    have hrefuse : ∀ code, c.code = some code → ok code c.sys a → A code (some r) c.sys →
        code.finished = false → (t.pcb owner).stack = .receive { r with phase := .find1 } :: rest →
        Meets A owner { c with sys := t } := by
      intro code hcode hok hA ho h1
      have hA' := h.resumes code r { r with phase := .find1 } _ ⟨rfl, rfl, rfl, by simp⟩ hA
      refine meets hc hs rfl rfl (point_some (h.stable code _ _ _ _ hc.reach hs hok hA') ho ?_ hcode)
      exact Thread.placed_top hw (l := []) (by rw [hc.owned]; exact h1) hrest
    unfold Thread.await at hd
    split at hd
    · rename_i timeout accept clause expired b r' rest' hst2
      rw [hc.owned, hst] at hst2
      cases hst2
      obtain ⟨hph, k, hk, hdown, hres⟩ := matcher_cases hst' hs
      rw [hself] at hres
      split at hd
      · rename_i k' hk'
        have hkk : k' = k := by
          rw [hk'] at hk
          exact MPtr.msg.inj hk
        subst hkk
        split at hd
        · rename_i hb
          split at hd
          · rename_i hbt
            subst hbt
            cases hd
            obtain ⟨h1, h2⟩ := hres
            have hcons : ∃ c', Event.consume k' c' true ∈ t.log := by
              obtain ⟨c', hc'⟩ := consume_taken_out hc.reach (by rw [hself]; exact hmem) hk (.clause r.call)
              exact ⟨c', by rw [h2]; exact leave_mem_log hc'⟩
            refine meets hc hs rfl rfl (point_none
              (h.accepts timeout accept clause expired r k' _ _ hc.reach hself hs hmem hph hk hcons
                hb.symm hA) rfl ?_ rfl)
            rw [Thread.depth, hc.owned, h1]
            exact hrest.ge
          · rename_i hbf
            cases hd
            rw [if_neg (by simpa using hbf)] at hres
            exact hrefuse _ hcode hok hA ho hres
        · cases hd
      · cases hd
    · exact h.found hc hcode ho hself hs hok hA hw hst hrest hd
    · rename_i b
      obtain ⟨_, k, _, _, hres⟩ := matcher_cases hst' hs
      rw [hself] at hres
      cases b with
      | true =>
        obtain ⟨h1, h2⟩ := hres
        have hdep : c.depth t = c.base := by rw [Thread.depth, hc.owned, h1, hrest]
        rw [if_pos hdep] at hd
        cases hd
        refine meets hc hs rfl rfl (point_none (h.expires _ r _ _ _ hc.reach hs hok (fun m hm => ?_) hA)
          rfl hdep.ge rfl)
        rw [h2]
        exact leave_flushed _ rest hm
      | false =>
        have hdep : c.depth t ≠ c.base := by
          rw [Thread.depth, hc.owned, hres, List.length_cons]
          omega
        rw [if_neg hdep] at hd
        cases hd
        exact hrefuse _ hcode hok hA ho hres
    · cases hd

theorem advance (h : Outline owner ok A) (hc : Meets A owner c) (hcode : c.code = some code)
    (ho : code.finished = false) (hself : c.sys.self = owner) (hs : c.sys.step a = .ok t)
    (hok : ok code c.sys a) (hd : c.advance code a t = .ok d) : Meets A owner d := by
  have halive : c.sys.alive owner = true := by rw [← hself]; exact hc.reach.fine.2
  -- the stack grows above the script's own activation
  have hgrow : ∀ l fr, (t.pcb owner).stack = l ++ (c.sys.pcb owner).stack → c.Placed fr →
      { c with sys := t }.Placed fr := by
    intro l fr hst hp
    exact hp.above rfl rfl (l := []) (j := l) rfl (by rw [hc.owned]; exact hst) hp.level_le
  unfold Thread.advance at hd
  split at hd
  · rename_i hl
    split at hd
    · -- the timer
      cases hd
      refine h.aside hc hcode hs hok fun fr hp _ hal => ?_
      have hk := hc.reach.mailing_keeps rfl hs (owner + 1)
      exact hgrow [] fr (hk.stack owner (by omega) halive hal) hp
    · -- a parked $receive starts over after the keyboard handler
      cases hd
      have hint := handleInterrupt_cases hs
      rw [hself] at hint
      rcases hint with h1 | ⟨r0, rest0, h1, h2⟩
      · exact h.aside hc hcode hs hok fun fr hp _ _ => hgrow [_] fr h1 hp
      · obtain ⟨fr, hA, -, hplaced⟩ := hc.point code hcode
        have hp := hplaced ho halive
        cases fr with
        | none =>
          have hA' := h.stable code _ _ _ _ hc.reach hs hok hA
          refine meets hc hs rfl rfl (point_none hA' hp.1 (Nat.le_trans hp.2 ?_) hcode)
          simp only [Thread.depth, hc.owned, h1, h2, List.length_cons]
          omega
        | some r =>
          obtain ⟨rest, hst, hrest⟩ := hp.top hl
          rw [hc.owned, h1] at hst
          obtain ⟨hr0, hrest0⟩ := List.cons.inj hst
          rw [Frame.receive.inj hr0, hrest0] at h2
          have hA' := h.resumes code r { r with phase := .find0 } _ ⟨rfl, rfl, rfl, by simp⟩ hA
          refine meets hc hs rfl rfl (point_some (h.stable code _ _ _ _ hc.reach hs hok hA') ho ?_ hcode)
          exact Thread.placed_top hp.1 (l := [.keyboardHandler]) (by rw [hc.owned]; exact h2) hrest
    · cases hd
      obtain ⟨l, hl'⟩ := handleTrapExit_stack hs
      rw [hself] at hl'
      exact h.aside hc hcode hs hok fun fr hp _ _ => hgrow l fr hl' hp
    · split at hd
      · rename_i hw
        exact h.await hc hcode ho hself hs hok hw hl hd
      · rename_i hw
        exact h.perform hc hcode ho hself hs hok (by simpa using hw) hl hd
  · rename_i hl
    split at hd
    · split at hd
      · rename_i hlt
        cases hd
        exact h.aside hc hcode hs hok fun fr hp _ _ => unwound hc hs hself hlt hp
      · split at hd
        · cases hd
          exact meets hc hs rfl rfl fun _ h' => (by cases h')
        · cases hd
    · rename_i hr
      cases hd
      exact h.aside hc hcode hs hok fun fr hp _ hal =>
        handler hc hs hself (fun n hn => hr n hn) hl hp hal

theorem step (h : Outline owner ok A) (hc : Meets A owner c)
    (hok : ∀ code, c.code = some code → ok code c.sys a) (hd : c.step a = .ok d) :
    Meets A owner d := by
  unfold Thread.step at hd
  cases hs : c.sys.step a with
  | error e =>
    rw [hs] at hd
    cases hd
  | ok t =>
    rw [hs] at hd
    simp only [Except.bind] at hd
    split at hd
    · rename_i hcode
      cases hd
      refine meets hc hs rfl rfl fun code h' => ?_
      rw [hcode] at h'
      cases h'
    · rename_i code hcode
      split at hd
      · rename_i hown
        exact h.advance hc hcode hown.2 (hown.1.trans hc.owned) hs (hok code hcode) hd
      · rename_i hown
        cases hd
        refine h.aside hc hcode hs (hok code hcode) fun fr hp ho hal => other hc hs (fun he => ?_) hp hal
        exact hown ⟨he.trans hc.owned.symm, ho⟩

/-- In every run whose steps meet the condition, the assertion of the point the
script has come to holds. -/
theorem sound {s₀ : State} {code₀ : Script α} {allowed : Thread α → Action → Prop}
    (h : Outline s₀.self ok A) (h₀ : Reachable s₀) (hA : A code₀ none s₀)
    (hok : ∀ c a code, allowed c a → c.code = some code → ok code c.sys a)
    (hr : Reach (Thread.start s₀ code₀) Thread.step allowed c) : Meets A s₀.self c := by
  refine hr.invariant ⟨h₀, rfl, le_last_of_alive h₀.fine.2, fun code hcode => ?_⟩
    fun c a d hc ha hd => h.step hc (fun code => hok c a code ha) hd
  cases hcode
  exact ⟨none, hA, fun _ => rfl, fun _ _ => ⟨rfl, Nat.le_refl _⟩⟩

end Outline

end Swish.Erlang
