import Swish.Erlang.Monitor
import Swish.Lib.Except

/-!
What EXIT and DOWN messages say about a process. A DOWN message is sent only for
a dead process and carries its exit reason. An EXIT message is also sent by kill
to a process that traps exits, and then its sender lives on.
-/

set_option autoImplicit false

namespace Swish.Erlang
open CircularList

variable {s s' t u : State} {p q k x : Nat} {m : Mon} {E : Nat → Contents → Prop}

/-- q has been created and is dead. -/
def State.Gone (s : State) (q : Nat) : Prop := q ≤ s.procs.last ∧ s.alive q = false

/-- What a message says about a death is so. -/
def Contents.Truthful (s : State) : Contents → Prop
  | .exit q _ => s.Gone q
  | .down m q r => q = m.target ∧ s.Gone q ∧ s.exitReason q = r
  | .user _ => True

/-- m may be listed by process q. -/
def Mon.At (m : Mon) (q : Nat) : Prop := q = m.origin ∨ q = m.target

def State.MonsAt (s : State) : Prop := ∀ q, ∀ m ∈ s.mons q, m.At q

/-- What happens to processes and messages while x runs: the dead stay as they
are, stacks other than that of x change only by death, monitors are listed where
they belong, and every new message is true or one that E allows. -/
structure Mailing (E : Nat → Contents → Prop) (x : Nat) (s t : State) : Prop where
  last : s.procs.last ≤ t.procs.last
  gone : ∀ q, s.Gone q → t.alive q = false ∧ t.exitReason q = s.exitReason q
  stack : ∀ q, q ≠ x → s.alive q = true → t.alive q = true → (t.pcb q).stack = (s.pcb q).stack
  mons : ∀ q, ∀ m ∈ t.mons q, m ∈ s.mons q ∨ m.At q
  next : s.nextMsg ≤ t.nextMsg
  contents : ∀ k < s.nextMsg, t.contents k = s.contents k
  log : ∀ e ∈ s.log, e ∈ t.log
  sent : ∀ p k, Event.insert p k ∈ t.log → Event.insert p k ∈ s.log ∨
    (s.nextMsg ≤ k ∧ k < t.nextMsg ∧ ((t.contents k).Truthful t ∨ E p (t.contents k)))

namespace Mailing

theorem dead (h : Mailing E x s t) (hq : s.Gone q) : t.Gone q :=
  ⟨Nat.le_trans hq.1 h.last, (h.gone q hq).1⟩

theorem truthful (h : Mailing E x s t) {c : Contents} (hc : c.Truthful s) : c.Truthful t := by
  cases c with
  | exit q r => exact h.dead hc
  | down m q r =>
    obtain ⟨h1, h2, h3⟩ := hc
    exact ⟨h1, h.dead h2, (h.gone q h2).2.trans h3⟩
  | user d => trivial

theorem refl (s : State) : Mailing E x s s :=
  ⟨Nat.le_refl _, fun _ hq => ⟨hq.2, rfl⟩, fun _ _ _ _ => rfl, fun _ _ => .inl, Nat.le_refl _,
    fun _ _ => rfl, fun _ => id, fun _ _ => .inl⟩

theorem trans (h : Mailing E x s t) (h' : Mailing E x t u) : Mailing E x s u := by
  refine ⟨Nat.le_trans h.last h'.last, fun q hq => ?_, fun q hx hs hu => ?_,
    fun q m hm => (h'.mons q m hm).elim (h.mons q m) .inr, Nat.le_trans h.next h'.next, fun k hk => ?_, fun e he => h'.log e (h.log e he), fun p k hk => ?_⟩
  · obtain ⟨h1, h2⟩ := h'.gone q (h.dead hq)
    exact ⟨h1, h2.trans (h.gone q hq).2⟩
  · have ht : t.alive q = true := by
      cases hta : t.alive q with
      | true => rfl
      | false =>
        have hq : t.Gone q := ⟨Nat.le_trans (le_last_of_alive hs) h.last, hta⟩
        rw [(h'.gone q hq).1] at hu
        cases hu
    exact (h'.stack q hx ht hu).trans (h.stack q hx hs ht)
  · rw [h'.contents k (Nat.lt_of_lt_of_le hk h.next), h.contents k hk]
  · rcases h'.sent p k hk with h1 | ⟨h1, h2, h3⟩
    · rcases h.sent p k h1 with h4 | ⟨h4, h5, h6⟩
      · exact .inl h4
      · refine .inr ⟨h4, Nat.lt_of_lt_of_le h5 h'.next, ?_⟩
        rw [h'.contents k h5]
        exact h6.imp_left h'.truthful
    · exact .inr ⟨Nat.le_trans h.next h1, h2, h3⟩

/-- Nothing is sent. -/
theorem silent (hlast : s.procs.last ≤ t.procs.last)
    (hg : ∀ q, s.Gone q → t.alive q = false ∧ t.exitReason q = s.exitReason q)
    (hst : ∀ q, q ≠ x → s.alive q = true → t.alive q = true → (t.pcb q).stack = (s.pcb q).stack)
    (hm : ∀ q, ∀ m ∈ t.mons q, m ∈ s.mons q ∨ m.At q)
    (hn : t.nextMsg = s.nextMsg) (hc : t.contents = s.contents)
    (hl : ∃ es, t.log = es ++ s.log ∧ ∀ p k, Event.insert p k ∉ es) : Mailing E x s t := by
  obtain ⟨es, hl, hes⟩ := hl
  refine ⟨hlast, hg, hst, hm, hn.ge, fun _ _ => by rw [hc], fun _ => log_mono hl, fun p k hk => ?_⟩
  rw [hl, List.mem_append] at hk
  exact .inl (hk.resolve_left (hes p k))

/-- No pcb changes either. -/
theorem same (hp : t.procs = s.procs) (hn : t.nextMsg = s.nextMsg) (hc : t.contents = s.contents)
    (hl : ∃ es, t.log = es ++ s.log ∧ ∀ p k, Event.insert p k ∉ es) : Mailing E x s t := by
  have hpcb : ∀ q, t.pcb q = s.pcb q := fun q => by rw [State.pcb, hp]
  refine silent (by rw [hp]) (fun q hq => ?_) (fun q _ _ _ => by rw [hpcb]) (fun q m hm => .inl ?_) hn hc hl
  · rw [State.alive, State.exitReason, hpcb]
    exact ⟨hq.2, rfl⟩
  · rwa [State.mons, hpcb] at hm

theorem sched (h : SchedOnly s t) : Mailing E x s t := by
  obtain ⟨es, hl, hes⟩ := h.log
  refine silent h.last (fun q hq => ⟨?_, ?_⟩) (fun q _ _ _ => h.stack q)
    (fun q m hm => .inl (by rwa [State.mons, h.monitors] at hm)) h.nextMsg h.contents
    ⟨es, hl, fun p k hk => ?_⟩
  · rw [State.alive, h.inbox q]
    exact hq.2
  · have hx : (t.pcb q).exceptionState = (s.pcb q).exceptionState :=
      (congrArg Pcb.exceptionState (h.core q) :)
    rw [State.exitReason, hx, State.exitReason]
  · have := hes _ hk
    cases this

/-- A change of one pcb that says nothing about death and leaves its stack, or
is made by its owner. -/
theorem modify (p : Nat) (f : Pcb → Pcb) (hi : (f (s.pcb p)).inbox = (s.pcb p).inbox)
    (he : (f (s.pcb p)).exceptionState = (s.pcb p).exceptionState)
    (hf : p ≠ x → (f (s.pcb p)).stack = (s.pcb p).stack)
    (hm : ∀ m ∈ (f (s.pcb p)).monitors, m ∈ s.mons p ∨ m.At p) : Mailing E x s (s.modify p f) := by
  refine silent (Nat.le_max_left _ _) (fun q hq => ?_) (fun q hx _ _ => ?_) (fun q m hq => ?_) rfl rfl
    ⟨[], rfl, by simp⟩
  · by_cases hqp : q = p
    · subst hqp
      have h2 := hq.2
      exact ⟨by simpa [hi] using h2, by simp only [State.exitReason, State.pcb, State.modify_get, if_true, he]⟩
    · exact ⟨by simpa [hqp] using hq.2, by simp [State.exitReason, hqp]⟩
  · by_cases hqp : q = p
    · subst hqp
      simpa using hf hx
    · simp [hqp]
  · by_cases hqp : q = p
    · subst hqp
      exact hm m (by simpa using hq)
    · exact .inl (by simpa [hqp] using hq)

/-- A change that concerns neither monitors nor stacks. -/
theorem tweak (p : Nat) (f : Pcb → Pcb) (hi : (f (s.pcb p)).inbox = (s.pcb p).inbox)
    (he : (f (s.pcb p)).exceptionState = (s.pcb p).exceptionState)
    (hf : (f (s.pcb p)).stack = (s.pcb p).stack) (hm : (f (s.pcb p)).monitors = (s.pcb p).monitors) :
    Mailing E x s (s.modify p f) :=
  modify p f hi he (fun _ => hf) fun m h => .inl (by rwa [hm] at h)

theorem die (ha : s.alive p = true) (r : RawReason) : Mailing E x s (s.die p r) := by
  refine silent (Nat.le_max_left _ _) (fun q hq => ?_) (fun q _ _ hd => ?_) (fun q m hm => .inl ?_) rfl rfl
    ⟨[], rfl, by simp⟩
  · have hqp : q ≠ p := by
      intro he
      rw [he] at hq
      rw [hq.2] at ha
      cases ha
    exact ⟨by simpa [hqp] using hq.2, by simp [State.exitReason, hqp]⟩
  · have hqp : q ≠ p := by
      intro he
      simp [he, Pcb.dead] at hd
    simp [hqp]
  · by_cases hqp : q = p
    · subst hqp
      simpa [Pcb.dead] using hm
    · simpa [hqp] using hm

theorem insert (p : Nat) {c : Contents} (hc : c.Truthful s ∨ E p c) : Mailing E x s (s.insertMsg p c) := by
  refine ⟨Nat.le_refl _, fun q hq => ⟨hq.2, rfl⟩, fun _ _ _ _ => rfl, fun _ _ => .inl, Nat.le_succ _, fun k hk => ?_,
    fun e he => List.mem_cons_of_mem _ he, fun q k hk => ?_⟩
  · have hne : k ≠ s.nextMsg := by omega
    simp [State.insertMsg, hne]
  · rcases List.mem_cons.mp hk with h1 | h1
    · cases h1
      refine .inr ⟨Nat.le_refl _, Nat.lt_succ_self _, ?_⟩
      have h2 : (s.insertMsg p c).contents s.nextMsg = c := by simp [State.insertMsg]
      rw [h2]
      refine hc.imp_left fun h => ?_
      cases c with
      | exit q r => exact h
      | down m q r => exact h
      | user d => trivial
    · exact .inl h1

theorem send (p : Nat) {c : Contents} (hc : c.Truthful s ∨ E p c) : Mailing E x s (s.send p c) := by
  rcases send_cases s p c with ⟨_, h⟩ | ⟨_, h⟩
  · rw [h]
    exact refl s
  · exact (insert p hc).trans (sched h)

theorem sendExit (target : Nat) {r : RawReason} (hc : s.Gone p ∨ E target (.exit p r)) :
    Mailing E x s (s.sendExit target p r) := by
  have h1 : Mailing E x s (s.setFlags target fun f => { f with exit := true }) :=
    tweak target _ rfl rfl rfl rfl
  exact h1.trans (send target (hc.imp_left h1.dead))

theorem make (s : State) : Mailing E x s s.makeProcess.1 := by
  refine silent (Nat.le_max_left _ _) (fun q hq => ?_) (fun q _ hq _ => ?_)
    (fun q m hm => .inl (by rwa [makeProcess_mons] at hm)) rfl rfl ⟨[], rfl, by simp⟩
  · have hne : q ≠ s.procs.last + 1 := by
      have := hq.1
      omega
    rw [State.alive, State.exitReason, makeProcess_get hne]
    exact ⟨hq.2, rfl⟩
  · have hne : q ≠ s.procs.last + 1 := by
      have := le_last_of_alive hq
      omega
    rw [makeProcess_get hne]

theorem removeLinks (s : State) (ls : List Nat) (d : Nat) : Mailing E x s (s.removeLinks ls d) := by
  induction ls generalizing s with
  | nil => exact refl s
  | cons l ls ih => exact (tweak l _ rfl rfl rfl rfl).trans (ih _)

theorem unlinked (ha : s.alive p = true) (r : RawReason) : Mailing E x s (unlinked s p r) :=
  ((die ha r).trans (tweak p _ rfl rfl rfl rfl)).trans (removeLinks _ _ _)

theorem removeMonitor (s : State) (m : Mon) (p : Nat) : Mailing E x s (s.removeMonitor m p) :=
  modify p _ rfl rfl (fun _ => rfl) fun _ h => .inl (List.mem_of_mem_filter h)

/-- The DOWN messages of a dead process carry the reason recorded for it. -/
theorem fireMonitors (hp : s.Gone p) {ms : List Mon} (hms : ∀ m ∈ ms, m.At p) :
    Mailing E x s (s.fireMonitors p (s.exitReason p) ms) := by
  generalize hr : s.exitReason p = r
  induction ms generalizing s with
  | nil => exact refl s
  | cons m ms ih =>
    have h1 : Mailing E x s (s.fireMonitor p r m) := by
      unfold State.fireMonitor
      split
      · exact removeMonitor s _ _
      · rename_i hne
        have hat : p = m.target := (hms m (by simp)).resolve_left (Ne.symm hne)
        have h2 : (Contents.down m p r).Truthful s := ⟨hat, hp, hr⟩
        exact (send m.origin (.inl h2)).trans (removeMonitor _ _ _)
    exact h1.trans (ih (h1.dead hp) (fun n hn => hms n (by simp [hn])) ((h1.gone p hp).2.trans hr))

theorem monsAt (h : Mailing E x s t) (hs : s.MonsAt) : t.MonsAt := fun q m hm =>
  (h.mons q m hm).elim (hs q m) id

theorem unlinked_reason (ha : s.alive p = true) (r : RawReason) :
    (Erlang.unlinked s p r).Gone p ∧ (Erlang.unlinked s p r).exitReason p = r := by
  have h1 : (s.die p r).Gone p :=
    ⟨Nat.le_trans (le_last_of_alive ha) (Nat.le_max_left _ _), by simp [Pcb.dead]⟩
  have h2 : (s.die p r).exitReason p = r := by simp [State.exitReason, Pcb.dead]
  have h3 : Mailing (fun _ _ => False) 0 (s.die p r) (Erlang.unlinked s p r) :=
    (tweak p _ rfl rfl rfl rfl).trans (removeLinks _ _ _)
  exact ⟨h3.dead h1, (h3.gone p h1).2.trans h2⟩

theorem fired (hm : s.MonsAt) (hp : s.Gone p) : Mailing E x s (fired s p (s.exitReason p)) := by
  have h1 : Mailing E x s (s.setMonitors p []) :=
    modify p _ rfl rfl (fun _ => rfl) fun _ h => absurd h (by simp)
  have h2 := fireMonitors (E := E) (x := x) (h1.dead hp) (hm p)
  rw [(h1.gone p hp).2] at h2
  exact h1.trans h2

/-- The links of a dead process. -/
theorem killLinked {kill : State → Nat → RawReason → Except Halt State}
    (hk : ∀ s t p r, s.MonsAt → s.alive p = true → kill s p r = .ok t → Mailing E x s t) {ls : List Nat}
    {reason : Reason} {raw : RawReason} (hm : s.MonsAt) (hp : s.Gone p)
    (h : s.killLinked kill ls p reason raw = .ok t) : Mailing E x s t := by
  induction ls generalizing s with
  | nil =>
    simp only [State.killLinked, Except.ok.injEq] at h
    subst h
    exact refl s
  | cons l ls ih =>
    unfold State.killLinked at h
    split at h
    · exact ih hm hp h
    · rename_i hl
      split at h
      · have h1 : Mailing E x s (s.sendExit l p raw) := sendExit l (.inl hp)
        exact h1.trans (ih (h1.monsAt hm) (h1.dead hp) h)
      · split at h
        · exact ih hm hp h
        · obtain ⟨v, hr, h⟩ := Lib.bind_ok h
          have h1 := hk s v l raw hm (by simpa using hl) hr
          exact h1.trans (ih (h1.monsAt hm) (h1.dead hp) h)

theorem killFuel {n : Nat} {raw : RawReason} (hm : s.MonsAt) (ha : s.alive p = true)
    (h : State.killFuel n s p raw = .ok t) : Mailing E x s t := by
  induction n generalizing s t p raw with
  | zero => simp [State.killFuel] at h
  | succ n ih =>
    obtain ⟨_, _, v, hv, rfl⟩ := killFuel_succ h
    obtain ⟨h1, h2⟩ := unlinked_reason ha (s.extendReason p raw)
    have h0 : Mailing E x s (Erlang.unlinked s p (s.extendReason p raw)) := unlinked ha _
    have h3 : Mailing E x (Erlang.unlinked s p (s.extendReason p raw)) v :=
      killLinked (fun _ _ _ _ => ih) (h0.monsAt hm) h1 hv
    have h4 := fired (E := E) (x := x) (h3.monsAt (h0.monsAt hm)) (h3.dead h1)
    rw [(h3.gone p h1).2, h2] at h4
    exact (h0.trans h3).trans h4

theorem kill {raw : RawReason} (hm : s.MonsAt) (ha : s.alive p = true) (h : s.kill p raw = .ok t) :
    Mailing E x s t := killFuel hm ha h

theorem kill_bind {raw : RawReason} {f : State → Except Halt State} (hm : s.MonsAt) (ha : s.alive p = true)
    (hf : ∀ v, f v = .ok t → SchedOnly v t) (h : (s.kill p raw).bind f = .ok t) : Mailing E x s t := by
  obtain ⟨v, hr, h⟩ := Lib.bind_ok h
  exact (kill hm ha hr).trans (sched (hf v h))

end Mailing

/-- The EXIT message that kill sends when its target traps exits. -/
def ExitSignal (s : State) (a : Action) (target : Nat) (c : Contents) : Prop :=
  ∃ raw rt, a = .kill target raw rt ∧ raw.unwrap ≠ .kill ∧ c = .exit s.self raw

/-- The operations that push, change or pop an activation. -/
def Action.framing : Action → Bool
  | .receive _ | .demonitorFlush _ | .handleTrapExit | .raise _ => true
  | .find .. | .matcher _ | .handleInterrupt | .handlerReturn => true
  | _ => false

namespace Mailing

theorem killProcess {raw : RawReason} {rt : Nat} (hm : s.MonsAt) (h : s.killProcess p raw rt = .ok t) :
    Mailing (ExitSignal s (.kill p raw rt)) x s t := by
  unfold State.killProcess at h
  split at h
  · rename_i ha
    split at h
    · exact kill_bind hm ha (fun _ => SchedOnly.yieldIfDead) h
    · rename_i hk
      split at h
      · exact (sendExit p (.inr ⟨raw, rt, rfl, hk, rfl⟩)).trans (sched (SchedOnly.yieldIfDead h))
      · split at h
        · exact sched (SchedOnly.yieldIfDead h)
        · exact kill_bind hm ha (fun _ => SchedOnly.yieldIfDead) h
  · cases h
    exact refl s

theorem link2 (s : State) (p q : Nat) : Mailing E x s (s.link2 p q) := by
  unfold State.link2
  split
  · exact refl s
  · exact (tweak p _ rfl rfl rfl rfl).trans (tweak q _ rfl rfl rfl rfl)

theorem linkProcess {rt : Nat} (hm : s.MonsAt) (ha : s.alive s.self = true) (hp : s.isPcb p = true)
    (h : s.linkProcess p rt = .ok t) : Mailing E x s t := by
  have hlast : p ≤ s.procs.last := by
    simp only [State.isPcb, Bool.and_eq_true, decide_eq_true_eq] at hp
    exact hp.2
  unfold State.linkProcess at h
  split at h
  · cases h
    exact refl s
  · split at h
    · cases h
      exact link2 s _ _
    · rename_i hd
      split at h
      · cases h
        exact sendExit s.self (.inl ⟨hlast, by simpa using hd⟩)
      · split at h
        · cases h
          exact refl s
        · exact kill_bind hm ha (fun _ => SchedOnly.yield) h

theorem removeLink (s : State) (p d : Nat) : Mailing E x s (s.removeLink p d) := tweak p _ rfl rfl rfl rfl

theorem addMonitor (s : State) {m : Mon} {p : Nat} (hm : m.At p) : Mailing E x s (s.addMonitor m p) := by
  refine modify p _ rfl rfl (fun _ => rfl) fun n hn => ?_
  rcases List.mem_cons.mp hn with h | h
  · exact .inr (h ▸ hm)
  · exact .inl h

theorem monitor (hp : s.isPcb p = true) : Mailing E x s (s.monitor p).1 := by
  have hlast : p ≤ s.procs.last := by
    simp only [State.isPcb, Bool.and_eq_true, decide_eq_true_eq] at hp
    exact hp.2
  have hm : ∀ m, Mailing E x s { s with nextMon := s.nextMon + 1, log := .monitor m :: s.log } := fun m =>
    same rfl rfl rfl ⟨[.monitor m], rfl, by simp⟩
  unfold State.monitor
  dsimp only
  split
  · have h1 := addMonitor (E := E) (x := x)
      { s with nextMon := s.nextMon + 1, log := .monitor ⟨s.nextMon, s.self, p⟩ :: s.log }
      (m := ⟨s.nextMon, s.self, p⟩) (p := s.self) (.inl rfl)
    exact (hm _).trans (h1.trans (addMonitor _ (.inr rfl)))
  · rename_i hd
    have hgone : s.Gone p := ⟨hlast, by simpa using hd⟩
    have h1 : (Contents.down ⟨s.nextMon, s.self, p⟩ p (s.exitReason p)).Truthful s :=
      ⟨rfl, hgone, rfl⟩
    exact (hm _).trans (send s.self (.inl ((hm ⟨s.nextMon, s.self, p⟩).truthful (E := E) (x := x) h1)))

theorem demonitor (s : State) (m : Mon) : Mailing E x s (s.demonitor m) := by
  have h1 : Mailing E x s ((s.removeMonitor m s.self).removeMonitor m m.target) :=
    (removeMonitor s _ _).trans (removeMonitor _ _ _)
  refine h1.trans (same rfl rfl rfl ?_)
  exact ⟨[.demonitor m], rfl, by simp⟩

theorem named (h : Mailing E x s t) (r : Nat → Option Nat) : Mailing E x s { t with registrar := r } :=
  h.trans (same rfl rfl rfl ⟨[], rfl, by simp⟩)

theorem register (s : State) (name p : Nat) : Mailing E x s (s.register name p).1 := by
  unfold State.register
  split
  · exact refl s
  · split
    · exact refl s
    · split
      · exact refl s
      · exact named (tweak p _ rfl rfl rfl rfl) _

theorem unregister (s : State) (name : Nat) : Mailing E x s (s.unregister name).1 := by
  unfold State.unregister
  split
  · exact refl s
  · exact named (tweak _ _ rfl rfl rfl rfl) _

/-- x may change its own stack. -/
theorem setStack (s : State) (fs : List Frame) : Mailing E x s (s.setStack x fs) :=
  modify x _ rfl rfl (fun h => absurd rfl h) fun _ => .inl

theorem setFlags (s : State) (p : Nat) (f : Flags → Flags) : Mailing E x s (s.setFlags p f) :=
  tweak p _ rfl rfl rfl rfl

theorem record (s : State) {e : Event} (he : ∀ p k, e ≠ .insert p k) : Mailing E x s (s.record e) :=
  same rfl rfl rfl
    ⟨[e], rfl, fun p k hk => he p k (List.mem_singleton.mp hk).symm⟩

theorem receive (s : State) (hx : s.self = x) (w : Matcher) (n : Option Nat) :
    Mailing E x s (s.receive w n) := by
  subst hx
  exact (setStack s _).trans (same rfl rfl rfl
    ⟨[], rfl, by simp⟩)

theorem consume (s : State) (k : Nat) (c : Consumer) : Mailing E x s (s.consume k c) :=
  (record s (by simp)).trans
    (same rfl rfl rfl ⟨[], rfl, by simp⟩)

theorem leave (s : State) (hx : s.self = x) (r : Receive) (rest : List Frame) :
    Mailing E x s (s.leave r rest) := by
  subst hx
  unfold State.leave
  cases r.matcher with
  | user => exact setStack s rest
  | down m => exact (setStack s rest).trans (record _ (by simp))

theorem handleTrapExitHelp (s : State) (hx : s.self = x) : Mailing E x s s.handleTrapExitHelp := by
  subst hx
  unfold State.handleTrapExitHelp
  split
  · split
    · exact (consume s _ _).trans ((setFlags _ _ _).trans (setStack _ _))
    · exact setFlags _ _ _
  · exact setFlags _ _ _

theorem find0 (s : State) (r : Receive) (rest : List Frame) (b : Bool) :
    Mailing E s.self s (s.find0 r rest b) := by
  unfold State.find0
  split
  · exact (setStack s _).trans (handleTrapExitHelp _ rfl)
  · exact setStack s _

theorem find1 {r : Receive} {rest : List Frame} {now rt : Nat} (h : s.find1 r rest now rt = .ok t) :
    Mailing E s.self s t := by
  have hpark : Mailing E s.self s
      ((s.setStack s.self (.receive { r with phase := .parked } :: rest)).record (.park s.self)) :=
    (setStack s _).trans (record _ (by simp))
  unfold State.find1 State.endOfInbox at h
  dsimp only at h
  split at h
  · split at h
    · split at h
      · cases h
      · exact hpark.trans (sched (SchedOnly.yield h))
    · split at h
      · split at h
        · cases h
        · exact hpark.trans ((setFlags _ _ _).trans (sched (SchedOnly.yield h)))
      · cases h
        exact leave s rfl r rest
  · split at h
    · cases h
      exact (setStack s _).trans (record _ (by simp))
    · cases h
      exact setStack s _
  · cases h

theorem matched {r : Receive} {rest : List Frame} {b : Bool} (h : s.matched r rest k b = .ok t) :
    Mailing E s.self s t := by
  unfold State.matched at h
  split at h
  · cases h
    exact (consume s k _).trans (leave (s.consume k (.clause r.call)) rfl r rest)
  · cases h
    exact setStack s _

theorem receiveStep {a : Action} (h : s.receiveStep a = .ok t) : Mailing E s.self s t := by
  unfold State.receiveStep at h
  split at h
  · split at h
    · split at h
      · cases h
        exact find0 s _ _ _
      · cases h
        exact find0 s _ _ _
      · exact find1 h
      · cases h
    · cases h
  · split at h
    · split at h
      · exact matched h
      · exact matched (ensure_ok h).2
      · cases h
    · cases h
  · obtain ⟨_, h⟩ := ensure_ok h
    have hi : Mailing E s.self s (s.setFlags s.self fun f => { f with interrupt := false }) := setFlags _ _ _
    dsimp only at h
    split at h
    · split at h
      · cases h
        exact hi.trans ((setStack _ _).trans (setStack _ _))
      · cases h
        exact hi.trans ((setStack _ _).trans (setStack _ _))
      · cases h
        exact hi.trans (setStack _ _)
      · cases h
    · cases h
      exact hi.trans (setStack _ _)
  · split at h
    · cases h
      exact (setStack s _).trans ((setFlags _ _ _).trans (handleTrapExitHelp _ rfl))
    · cases h
      exact setStack s _
    · cases h
  · cases h

theorem guard {c : Prop} [Decidable c] {r : Except Halt State}
    (hr : c → r = .ok t → Mailing E x s t) (h : (if c then r else .ok s) = .ok t) : Mailing E x s t := by
  split at h
  · rename_i hc
    exact hr hc h
  · cases h
    exact refl s

theorem userStep {a : Action} (hm : s.MonsAt) (ha : s.alive s.self = true) (hx : a.framing = true → s.self = x)
    (h : s.userStep a = .ok t) : Mailing (ExitSignal s a) x s t := by
  cases a with
  | spawn =>
    cases h
    exact (make s).trans (sched (SchedOnly.enqueue _ _ _ _))
  | spawnLink =>
    cases h
    exact (make s).trans ((link2 _ _ _).trans (sched (SchedOnly.enqueue _ _ _ _)))
  | send p d => exact guard (fun _ h => by cases h; exact send p (.inl trivial)) h
  | sendName name d =>
    dsimp only [State.userStep] at h
    split at h
    · cases h
      exact send _ (.inl trivial)
    · cases h
      exact refl s
  | kill p raw rt => exact guard (fun _ h => killProcess hm h) h
  | link p rt => exact guard (fun hp h => linkProcess hm ha hp h) h
  | unlink p =>
    exact guard (fun _ h => by
      cases h
      exact (removeLink s _ _).trans (removeLink _ _ _)) h
  | monitor p => exact guard (fun hp h => by cases h; exact monitor hp) h
  | demonitor m => exact guard (fun _ h => by cases h; exact demonitor s m) h
  | demonitorFlush m =>
    exact guard (fun _ h => by cases h; exact (demonitor s m).trans (receive (s.demonitor m) (hx rfl) _ _)) h
  | register name p => exact guard (fun _ h => by cases h; exact register s name p) h
  | unregister name =>
    cases h
    exact unregister s name
  | setTrapExit y =>
    cases h
    exact tweak s.self _ rfl rfl rfl rfl
  | keyboardInterrupt p =>
    exact guard (fun _ h => by cases h; exact sched (SchedOnly.keyboardInterrupt s p)) h
  | completeIo p => exact guard (fun _ h => by cases h; exact sched (SchedOnly.completeIo s p)) h
  | waitForIo rt =>
    dsimp only [State.userStep] at h
    split at h
    · cases h
    · exact sched (SchedOnly.waitForIo h)
  | preempt rt => exact sched (SchedOnly.yield h)
  | receive w =>
    cases h
    exact receive s (hx rfl) _ _
  | handleTrapExit => exact guard (fun _ h => by cases h; exact handleTrapExitHelp s (hx rfl)) h
  | raise n =>
    obtain ⟨_, h⟩ := ensure_ok h
    cases h
    have hx := hx rfl
    subst hx
    exact (setStack s _).trans (setFlags _ _ _)
  | exit raw rt => exact kill_bind hm ha (fun _ => SchedOnly.yield) h
  | find | matcher | handleInterrupt | handlerReturn => cases h

theorem step {a : Action} (hm : s.MonsAt) (ha : s.alive s.self = true) (h : s.step a = .ok t) :
    Mailing (ExitSignal s a) s.self s t := by
  unfold State.step at h
  split at h
  · exact receiveStep h
  · exact receiveStep h
  · exact receiveStep h
  · exact receiveStep h
  · split at h
    · exact userStep hm ha (fun _ => rfl) h
    · cases h

/-- Other operations leave every stack as it is. -/
theorem step_keeps {a : Action} (hm : s.MonsAt) (ha : s.alive s.self = true) (hf : a.framing = false)
    (h : s.step a = .ok t) (x : Nat) : Mailing (ExitSignal s a) x s t := by
  unfold State.step at h
  split at h
  · cases hf
  · cases hf
  · cases hf
  · cases hf
  · split at h
    · exact userStep hm ha (fun h1 => by rw [hf] at h1; cases h1) h
    · cases h

end Mailing

theorem Reachable.mailing {a : Action} (h : Reachable s) (hs : s.step a = .ok t) :
    Mailing (ExitSignal s a) s.self s t := Mailing.step h.watch.watch.mon.place h.fine.2 hs

theorem Reachable.mailing_keeps {a : Action} (h : Reachable s) (hf : a.framing = false)
    (hs : s.step a = .ok t) (x : Nat) : Mailing (ExitSignal s a) x s t :=
  Mailing.step_keeps h.watch.watch.mon.place h.fine.2 hf hs x

/-- A DOWN message for m is sent only when its target is dead, with the exit
reason of the target. -/
theorem Reachable.down_truthful (h : Reachable s) {r : RawReason} (hk : Event.insert p k ∈ s.log)
    (hc : s.contents k = .down m q r) : q = m.target ∧ s.Gone q ∧ s.exitReason q = r := by
  obtain ⟨as, has⟩ := h
  refine run_induction (I := fun s => ∀ p k m q r, Event.insert p k ∈ s.log →
    s.contents k = .down m q r → q = m.target ∧ s.Gone q ∧ s.exitReason q = r) ?_
    (fun bs cs a s t _ hr hs ih p k m q r hk hc => ?_) has p k m q r hk hc
  · intro p k m q r hk
    have hb : ∀ e ∈ bootState.log, e.isMail = false := by decide
    have := hb _ hk
    cases this
  · have hreach : Reachable s := ⟨bs, hr⟩
    have hm := hreach.mailing hs
    rcases hm.sent p k hk with h1 | ⟨_, _, h1 | h1⟩
    · obtain ⟨box, hbox⟩ := hreach.mail.1
      have hlt := (hbox.boxes.bound p k h1).1
      rw [hm.contents k hlt] at hc
      exact hm.truthful (c := .down m q r) (ih p k m q r h1 hc)
    · rw [hc] at h1
      exact h1
    · obtain ⟨raw, rt, _, _, h2⟩ := h1
      rw [hc] at h2
      cases h2

/-- A message in the inbox was there before the step or has come in with it. -/
theorem inbox_step {a : Action} (h : Reachable s) (hs : s.step a = .ok t) (h' : Reachable t)
    (hp : s.alive p = true) (hp' : t.alive p = true) (hk : k ∈ t.inbox p) :
    k ∈ s.inbox p ∨ (s.nextMsg ≤ k ∧ Event.insert p k ∈ t.log ∧
      ((t.contents k).Truthful t ∨ ExitSignal s a p (t.contents k))) := by
  obtain ⟨⟨box, hbox⟩, _⟩ := h.mail
  obtain ⟨⟨box', hbox'⟩, _⟩ := h'.mail
  have hm := h.mailing hs
  rw [inbox_eq hbox'.boxes hp'] at hk
  rw [inbox_eq hbox.boxes hp]
  have hins := hbox'.boxes.inserted p k hk
  rcases hm.sent p k hins with h1 | ⟨h1, _, h2⟩
  · refine .inl ?_
    by_contra hno
    obtain ⟨c, hc⟩ := hbox.boxes.taken p k hp h1 hno
    obtain ⟨q, hq, hno'⟩ := hbox'.boxes.once k c (hm.log _ hc)
    rw [hbox'.boxes.owner q p k hq hins] at hno'
    exact hno' hk
  · exact .inr ⟨h1, hins, h2⟩

end Swish.Erlang
