import Swish.Erlang.Kill

/-!
What a step can do, as two kinds of small changes. A move may insert messages
but leaves every $receive where it is; work goes on with a $receive or a handler
and inserts nothing.
-/

set_option autoImplicit false

namespace Swish.Erlang

inductive Move : State → State → Prop where
  | sched {s s' : State} (h : SchedOnly s s') : Move s s'
  | make (s : State) : Move s s.makeProcess.1
  | link (s : State) (p q : Nat) (h : p ≠ q) : Move s (s.link2 p q)
  | unlink (s : State) (p : Nat) : Move s (s.unlink p)
  | send (s : State) (p d : Nat) : Move s (s.send p (.user d))
  | sendExit (s : State) (target p : Nat) (r : RawReason) (h : s.alive target = true) :
      Move s (s.sendExit target p r)
  | kill {s s' : State} {p : Nat} {raw : RawReason} (ha : s.alive p = true)
      (h : s.kill p raw = .ok s') : Move s s'
  | monitor (s : State) (p : Nat) (ha : s.alive s.self = true) (hp : s.isPcb p = true) :
      Move s (s.monitor p).1
  | demonitor (s : State) (m : Mon) (h : s.isOwnMon m = true) : Move s (s.demonitor m)
  | register (s : State) (name p : Nat) : Move s (s.register name p).1
  | unregister (s : State) (name : Nat) : Move s (s.unregister name).1

/-- The same call of $receive, later but still at the same message. -/
structure Receive.Later (r r' : Receive) : Prop where
  call : r'.call = r.call
  matcher : r'.matcher = r.matcher
  cursor : r'.cursor = r.cursor
  matching : r'.phase = .matching → r.phase = .matching

/-- In addition its matcher, if it was running, has not returned. -/
structure Receive.Same (r r' : Receive) : Prop extends Receive.Later r r' where
  still : r.phase = .matching → r'.phase = .matching

inductive Work : State → State → Prop where
  | sched {s s' : State} (h : SchedOnly s s') : Work s s'
  | flags (s : State) (f : Flags → Flags) : Work s (s.setFlags s.self f)
  | trap (s : State) (x : TrapExit) : Work s (s.setTrapExit x)
  | receive (s : State) (w : Option Nat) (ha : s.alive s.self = true) : Work s (s.receive .user w)
  | flush (s : State) (m : Mon) (ha : s.alive s.self = true) (h : s.isOwnMon m = true) :
      Work s ((s.demonitor m).receive (.down m) (some 0))
  | restack (s : State) (fs : List Frame)
      (h : ∀ r', Frame.receive r' ∈ fs → ∃ r, Frame.receive r ∈ (s.pcb s.self).stack ∧ r.Same r') :
      Work s (s.setStack s.self fs)
  | park (s : State) : Work s (s.record (.park s.self))
  | skip (s : State) (r : Receive) (rest : List Frame) (k : Nat)
      (hs : (s.pcb s.self).stack = .receive r :: rest) (hr : r.phase = .find1)
      (hn : (s.mail r.cursor).next = some (.msg k)) (hk : (s.mail (.msg k)).prev = none) :
      Work s (s.setStack s.self (.receive { r with cursor := .msg k, phase := .find1 } :: rest))
  | offer (s : State) (r : Receive) (rest : List Frame) (k : Nat)
      (hs : (s.pcb s.self).stack = .receive r :: rest) (hr : r.phase = .find1)
      (hn : (s.mail r.cursor).next = some (.msg k)) (hk : (s.mail (.msg k)).prev ≠ none) :
      Work s ((s.setStack s.self
        (.receive { r with cursor := .msg k, phase := .matching } :: rest)).record (.offer r.call k))
  | timeout (s : State) (r : Receive) (rest : List Frame) (q : Nat)
      (hs : (s.pcb s.self).stack = .receive r :: rest) (hr : r.phase = .find1)
      (hn : (s.mail r.cursor).next = some (.inbox q)) : Work s (s.leave r rest)
  | accept (s : State) (r : Receive) (rest : List Frame) (k : Nat)
      (hs : (s.pcb s.self).stack = .receive r :: rest) (hr : r.phase = .matching)
      (hk : r.cursor = .msg k) (hm : ∀ m, r.matcher = .down m → (s.contents k).isDown m = true) :
      Work s ((s.consume k (.clause r.call)).leave r rest)
  | reject (s : State) (r : Receive) (rest : List Frame) (k : Nat)
      (hs : (s.pcb s.self).stack = .receive r :: rest) (hr : r.phase = .matching)
      (hk : r.cursor = .msg k) (hm : ∀ m, r.matcher = .down m → (s.contents k).isDown m = false) :
      Work s (s.setStack s.self (.receive { r with phase := .find1 } :: rest))
  | take (s : State) (k : Nat) (ha : s.alive s.self = true)
      (hk : s.getExitMsg (s.nextMsg + 1) (.inbox s.self) = some k) :
      Work s (s.consume k (.handler s.self))

abbrev Moves : State → State → Prop := Relation.ReflTransGen Move

abbrev Works : State → State → Prop := Relation.ReflTransGen Work

variable {s s' t : State} {p q : Nat}

/-- A rule for invariants: it is enough to look at one change. -/
theorem invariant_of_chain {R : State → State → Prop} {I : State → Prop}
    (hI : ∀ s s', R s s' → I s → I s') (h : Relation.ReflTransGen R s s') (hs : I s) : I s' := by
  induction h with
  | refl => exact hs
  | tail _ hm ih => exact hI _ _ hm ih

theorem Receive.Later.refl (r : Receive) : r.Later r := ⟨rfl, rfl, rfl, id⟩

theorem Receive.Same.refl (r : Receive) : r.Same r := ⟨.refl r, id⟩

/-- Frames may be dropped and handlers may be pushed. -/
theorem Work.of_subset (s : State) {fs : List Frame}
    (h : ∀ r, Frame.receive r ∈ fs → Frame.receive r ∈ (s.pcb s.self).stack) :
    Work s (s.setStack s.self fs) :=
  .restack s fs fun r hr => ⟨r, h r hr, Receive.Same.refl r⟩

/-- A $receive goes on in another phase outside its matcher. -/
theorem Work.of_phase (s : State) {r : Receive} {rest : List Frame} {ph : Phase}
    (hs : (s.pcb s.self).stack = .receive r :: rest) (hr : r.phase ≠ .matching)
    (hph : ph ≠ .matching) : Work s (s.setStack s.self (.receive { r with phase := ph } :: rest)) := by
  refine .restack s _ fun r' hr' => ?_
  rcases List.mem_cons.mp hr' with h1 | h1
  · cases h1
    exact ⟨r, by simp [hs], ⟨rfl, rfl, rfl, by simp [hph]⟩, by simp [hr]⟩
  · exact ⟨r', by simp [hs, h1], Receive.Same.refl r'⟩

theorem Work.push (s : State) {f : Frame} (hf : ∀ r, f ≠ .receive r) : Work s (s.push f) := by
  refine Work.of_subset s fun r hr => ?_
  rcases List.mem_cons.mp hr with h1 | h1
  · exact absurd h1.symm (hf r)
  · exact h1

theorem handleTrapExitHelp_works (ha : s.alive s.self = true) : Works s s.handleTrapExitHelp := by
  unfold State.handleTrapExitHelp
  split
  · split
    · rename_i k hk
      exact .head (.take s k ha hk) (.head (.flags _ _) (.single (Work.push _ (by simp))))
    · exact .single (.flags s _)
  · exact .single (.flags s _)

theorem alive_setStack (ha : s.alive s.self = true) (fs : List Frame) :
    (s.setStack s.self fs).alive (s.setStack s.self fs).self = true := by
  simpa [State.setStack, State.modify] using ha

theorem alive_setFlags (ha : s.alive s.self = true) (f : Flags → Flags) :
    (s.setFlags s.self f).alive (s.setFlags s.self f).self = true := by
  simpa [State.setFlags, State.modify] using ha

theorem find0_works {r : Receive} {rest : List Frame} (b : Bool) (ha : s.alive s.self = true)
    (hs : (s.pcb s.self).stack = .receive r :: rest) (hr : r.phase ≠ .matching) :
    Works s (s.find0 r rest b) := by
  unfold State.find0
  split
  · exact .head (Work.of_phase s hs hr (by simp)) (handleTrapExitHelp_works (alive_setStack ha _))
  · exact .single (Work.of_phase s hs hr (by simp))

theorem endOfInbox_works {r : Receive} {rest : List Frame} {now rt : Nat}
    (hs : (s.pcb s.self).stack = .receive r :: rest) (hr : r.phase = .find1)
    (hn : (s.mail r.cursor).next = some (.inbox q)) (h : s.endOfInbox r rest now rt = .ok s') :
    Works s s' := by
  have hpark : Works s ((s.setStack s.self (.receive { r with phase := .parked } :: rest)).record
      (.park s.self)) :=
    .head (Work.of_phase s hs (by simp [hr]) (by simp)) (.single (.park _))
  unfold State.endOfInbox at h
  dsimp only at h
  split at h
  · split at h
    · cases h
    · exact hpark.tail (.sched (SchedOnly.yield h))
  · split at h
    · split at h
      · cases h
      · exact (hpark.tail (.flags _ _)).tail (.sched (SchedOnly.yield h))
    · cases h
      exact .single (.timeout s r rest q hs hr hn)

theorem find1_works {r : Receive} {rest : List Frame} {now rt : Nat}
    (hs : (s.pcb s.self).stack = .receive r :: rest) (hr : r.phase = .find1)
    (h : s.find1 r rest now rt = .ok s') : Works s s' := by
  unfold State.find1 at h
  split at h
  · rename_i q hn
    exact endOfInbox_works hs hr hn h
  · rename_i k hn
    split at h
    · rename_i hk
      cases h
      exact .single (.offer s r rest k hs hr hn (by simpa [Option.isSome_iff_ne_none] using hk))
    · rename_i hk
      cases h
      exact .single (.skip s r rest k hs hr hn (by simpa using hk))
  · cases h

theorem ensure_ok {b : Bool} {r : Except Halt State} (h : State.ensure b r = .ok s) :
    b = true ∧ r = .ok s := by
  cases b with
  | false => cases h
  | true => exact ⟨rfl, h⟩

theorem matched_works {r : Receive} {rest : List Frame} {k : Nat} {b : Bool}
    (hs : (s.pcb s.self).stack = .receive r :: rest) (hr : r.phase = .matching)
    (hk : r.cursor = .msg k) (hm : ∀ m, r.matcher = .down m → b = (s.contents k).isDown m)
    (h : s.matched r rest k b = .ok s') : Works s s' := by
  unfold State.matched at h
  cases b with
  | true =>
    cases h
    exact .single (.accept s r rest k hs hr hk fun m h1 => (hm m h1).symm)
  | false =>
    cases h
    exact .single (.reject s r rest k hs hr hk fun m h1 => (hm m h1).symm)

theorem receiveStep_works {a : Action} (ha : s.alive s.self = true) (h : s.receiveStep a = .ok s') : Works s s' := by
  unfold State.receiveStep at h
  split at h
  · split at h
    · rename_i r rest hs
      split at h
      · rename_i hr
        cases h
        exact find0_works _ ha hs (by simp [hr])
      · rename_i hr
        cases h
        exact find0_works _ ha hs (by simp [hr])
      · rename_i hr
        exact find1_works hs hr h
      · cases h
    · cases h
  · split at h
    · rename_i r rest hs
      split at h
      · rename_i k hr hk hm
        exact matched_works hs hr hk (by simp [hm]) h
      · rename_i k m hr hk hm
        obtain ⟨hb, h⟩ := ensure_ok h
        refine matched_works hs hr hk (fun m' hm' => ?_) h
        rw [hm] at hm'
        cases hm'
        simpa using hb
      · cases h
    · cases h
  · obtain ⟨_, h⟩ := ensure_ok h
    have hi : Work s (s.setFlags s.self fun f => { f with interrupt := false }) := .flags s _
    dsimp only at h
    split at h
    · rename_i r rest hs
      split at h
      · rename_i hr
        cases h
        exact .head hi (.head (Work.of_phase _ hs (by simp [hr]) (by simp))
          (.single (Work.push _ (by simp))))
      · rename_i hr
        cases h
        exact .head hi (.head (Work.of_phase _ hs (by simp [hr]) (by simp))
          (.single (Work.push _ (by simp))))
      · cases h
        exact .head hi (.single (Work.push _ (by simp)))
      · cases h
    · cases h
      exact .head hi (.single (Work.push _ (by simp)))
  · split at h
    · rename_i rest hs
      cases h
      have hpop : Work s (s.setStack s.self rest) := Work.of_subset s fun r hr => by
        rw [hs]
        exact List.mem_cons_of_mem _ hr
      exact .head hpop (.head (.flags _ _)
        (handleTrapExitHelp_works (alive_setFlags (alive_setStack ha _) _)))
    · rename_i rest hs
      cases h
      refine .single (Work.of_subset s fun r hr => ?_)
      rw [hs]
      exact List.mem_cons_of_mem _ hr
    · cases h
  · cases h

theorem yieldIfDead_moves {r : Except Halt State} {rt : Nat}
    (hr : ∀ t, r = .ok t → Moves s t) (h : (r.bind fun t => t.yieldIfDead rt) = .ok s') :
    Moves s s' := by
  cases r with
  | error e => cases h
  | ok t => exact (hr t rfl).tail (.sched (SchedOnly.yieldIfDead h))

theorem killProcess_moves {raw : RawReason} {rt : Nat} (h : s.killProcess p raw rt = .ok s') :
    Moves s s' := by
  unfold State.killProcess at h
  split at h
  · rename_i ha
    refine yieldIfDead_moves (fun t ht => ?_) h
    split at ht
    · exact .single (.kill ha ht)
    · split at ht
      · cases ht
        exact .single (.sendExit s p s.self raw ha)
      · split at ht
        · cases ht
          exact .refl
        · exact .single (.kill ha ht)
  · cases h
    exact .refl

theorem kill_yield_moves {raw : RawReason} {rt : Nat} (ha : s.alive p = true)
    (h : ((s.kill p raw).bind fun s => s.yield none 0 rt) = .ok s') : Moves s s' := by
  cases hk : s.kill p raw with
  | error e => rw [hk] at h; cases h
  | ok t =>
    rw [hk] at h
    exact .head (.kill ha hk) (.single (.sched (SchedOnly.yield h)))

theorem linkProcess_moves {rt : Nat} (ha : s.alive s.self = true)
    (h : s.linkProcess p rt = .ok s') : Moves s s' := by
  unfold State.linkProcess at h
  split at h
  · cases h; exact .refl
  · rename_i hne
    split at h
    · cases h
      exact .single (.link s p s.self (Ne.symm hne))
    · split at h
      · cases h
        exact .single (.sendExit s s.self p _ ha)
      · split at h
        · cases h; exact .refl
        · exact kill_yield_moves ha h

theorem guard_moves {c : Prop} [Decidable c] {r : Except Halt State}
    (hr : c → r = .ok s' → Moves s s') (h : (if c then r else .ok s) = .ok s') : Moves s s' := by
  split at h
  · rename_i hc
    exact hr hc h
  · cases h
    exact .refl

/-- The operations of user code that have to do with $receive or handlers. -/
def Action.working : Action → Bool
  | .receive _ | .demonitorFlush _ | .setTrapExit _ | .handleTrapExit | .raise _ => true
  | _ => false

theorem userStep_moves {a : Action} (ha : s.alive s.self = true) (hw : a.working = false)
    (h : s.userStep a = .ok s') : Moves s s' := by
  cases a with
  | spawn =>
    cases h
    exact .head (.make s) (.single (.sched (SchedOnly.enqueue _ _ _ _)))
  | spawnLink =>
    cases h
    have hne : s.procs.last + 1 ≠ s.self := by
      have := le_last_of_alive ha
      omega
    exact .head (.make s) (.head (.link _ _ _ hne) (.single (.sched (SchedOnly.enqueue _ _ _ _))))
  | send p d => exact guard_moves (fun _ h => by cases h; exact .single (.send s p d)) h
  | sendName name d =>
    dsimp only [State.userStep] at h
    split at h
    · cases h; exact .single (.send s _ d)
    · cases h; exact .refl
  | kill p raw rt => exact guard_moves (fun _ h => killProcess_moves h) h
  | link p rt => exact guard_moves (fun _ h => linkProcess_moves ha h) h
  | unlink p => exact guard_moves (fun _ h => by cases h; exact .single (.unlink s p)) h
  | monitor p => exact guard_moves (fun hp h => by cases h; exact .single (.monitor s p ha hp)) h
  | demonitor m => exact guard_moves (fun hm h => by cases h; exact .single (.demonitor s m hm)) h
  | register name p => exact guard_moves (fun _ h => by cases h; exact .single (.register s name p)) h
  | unregister name => cases h; exact .single (.unregister s name)
  | keyboardInterrupt p =>
    exact guard_moves (fun _ h => by
      cases h; exact .single (.sched (SchedOnly.keyboardInterrupt s p))) h
  | completeIo p =>
    exact guard_moves (fun _ h => by cases h; exact .single (.sched (SchedOnly.completeIo s p))) h
  | waitForIo rt =>
    dsimp only [State.userStep] at h
    split at h
    · cases h
    · exact .single (.sched (SchedOnly.waitForIo h))
  | preempt rt => exact .single (.sched (SchedOnly.yield h))
  | exit raw rt => exact kill_yield_moves ha h
  | receive | demonitorFlush | setTrapExit | handleTrapExit | raise => cases hw
  | find | matcher | handleInterrupt | handlerReturn => cases h

theorem userStep_cases {a : Action} (ha : s.alive s.self = true) (h : s.userStep a = .ok s') :
    Moves s s' ∨ Works s s' := by
  cases hw : a.working with
  | false => exact .inl (userStep_moves ha hw h)
  | true =>
    cases a with
    | demonitorFlush m =>
      dsimp only [State.userStep] at h
      split at h
      · rename_i hm
        cases h
        exact .inr (.single (.flush s m ha hm))
      · cases h
        exact .inl .refl
    | setTrapExit x => cases h; exact .inr (.single (.trap s x))
    | receive w => cases h; exact .inr (.single (.receive s w ha))
    | handleTrapExit =>
      dsimp only [State.userStep] at h
      split at h
      · cases h
        exact .inr (handleTrapExitHelp_works ha)
      · cases h
        exact .inl .refl
    | raise n =>
      obtain ⟨_, h⟩ := ensure_ok h
      cases h
      refine .inr (.head (Work.of_subset s fun r hr => ?_) (.single (.flags _ _)))
      exact List.mem_of_mem_drop hr
    | _ => cases hw

/-- A step either moves or works. -/
theorem step_cases {a : Action} (ha : s.alive s.self = true) (h : s.step a = .ok s') :
    Moves s s' ∨ Works s s' := by
  unfold State.step at h
  split at h
  · exact .inr (receiveStep_works ha h)
  · exact .inr (receiveStep_works ha h)
  · exact .inr (receiveStep_works ha h)
  · exact .inr (receiveStep_works ha h)
  · split at h
    · exact userStep_cases ha h
    · cases h

/-- Data of a pcb that work does not touch. -/
structure Frameless {α : Type} (g : Pcb → α) : Prop where
  flags : ∀ x fl, g { x with flags := fl } = g x
  trap : ∀ x fl h, g { x with flags := fl, trapExitHandler := h } = g x
  stack : ∀ x fs, g { x with stack := fs } = g x
  core : ∀ x y : Pcb, x.core = y.core → g x = g y

theorem modify_keep {α : Type} {g : Pcb → α} (s : State) (p : Nat) {f : Pcb → Pcb}
    (hf : ∀ x, g (f x) = g x) (q : Nat) : g ((s.modify p f).pcb q) = g (s.pcb q) := by
  by_cases hq : q = p
  · subst hq; simp [hf]
  · simp [hq]

namespace Frameless

variable {α : Type} {g : Pcb → α}

theorem setStack (hg : Frameless g) (s : State) (p : Nat) (fs : List Frame) (q : Nat) :
    g ((s.setStack p fs).pcb q) = g (s.pcb q) := modify_keep s p (fun x => hg.stack x fs) q

theorem receive (hg : Frameless g) (s : State) (m : Matcher) (w : Option Nat) (q : Nat) :
    g ((s.receive m w).pcb q) = g (s.pcb q) :=
  hg.setStack s s.self (.receive ⟨s.nextCall, m, w, .inbox s.self, .find0⟩ :: (s.pcb s.self).stack) q

theorem leave (hg : Frameless g) (s : State) (r : Receive) (rest : List Frame) (q : Nat) :
    g ((s.leave r rest).pcb q) = g (s.pcb q) := by
  unfold State.leave
  cases r.matcher with
  | user => exact hg.setStack s s.self rest q
  | down m => exact hg.setStack s s.self rest q

theorem work (hg : Frameless g) (hw : Work s s') :
    (∃ m, s.alive s.self = true ∧ s.isOwnMon m = true ∧
      s' = (s.demonitor m).receive (.down m) (some 0)) ∨ ∀ q, g (s'.pcb q) = g (s.pcb q) := by
  cases hw with
  | sched hs => exact .inr fun q => hg.core _ _ (hs.core q)
  | flags f => exact .inr fun q => modify_keep s s.self (fun x => hg.flags x (f x.flags)) q
  | trap x =>
    exact .inr fun q => modify_keep s s.self
      (fun y => hg.trap y { y.flags with trapExit := x ≠ .off } x) q
  | receive w _ => exact .inr fun q => hg.receive s .user w q
  | flush m ha hm => exact .inl ⟨m, ha, hm, rfl⟩
  | restack fs _ => exact .inr fun q => hg.setStack s s.self fs q
  | park => exact .inr fun _ => rfl
  | skip => exact .inr fun q => hg.setStack s s.self _ q
  | offer r rest k =>
    exact .inr fun q => hg.setStack s s.self
      (.receive { r with cursor := .msg k, phase := .matching } :: rest) q
  | timeout r rest => exact .inr fun q => hg.leave s r rest q
  | accept r rest k => exact .inr fun q => hg.leave (s.consume k (.clause r.call)) r rest q
  | reject => exact .inr fun q => hg.setStack s s.self _ q
  | take => exact .inr fun _ => rfl

end Frameless

end Swish.Erlang
