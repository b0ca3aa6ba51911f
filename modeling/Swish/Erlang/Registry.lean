import Swish.Erlang.SchedulerSafety

/-!
The table of registered names and the name field of each pcb stay inverse.
-/

set_option autoImplicit false

namespace Swish.Erlang

variable {s s' : State} {p q : Nat}

structure RegistryOk (s : State) : Prop where
  inverse : ∀ n p, s.registrar n = some p ↔ s.alive p = true ∧ (s.pcb p).name = some n
  dead : ∀ p, s.alive p = false → (s.pcb p).name = none

namespace RegistryOk

theorem congr (h : RegistryOk s) (hr : s'.registrar = s.registrar)
    (hi : ∀ p, (s'.pcb p).inbox = (s.pcb p).inbox) (hn : ∀ p, (s'.pcb p).name = (s.pcb p).name) :
    RegistryOk s' := by
  refine ⟨fun n p => ?_, fun p => ?_⟩
  · rw [hr, State.alive, hi p, hn p]; exact h.inverse n p
  · rw [State.alive, hi p, hn p]; exact h.dead p

theorem sched (h : RegistryOk s) (hs : SchedOnly s s') : RegistryOk s' :=
  h.congr hs.registrar hs.inbox hs.name

theorem modify (h : RegistryOk s) (p : Nat) (f : Pcb → Pcb)
    (hi : (f (s.pcb p)).inbox = (s.pcb p).inbox) (hn : (f (s.pcb p)).name = (s.pcb p).name) :
    RegistryOk (s.modify p f) := by
  refine h.congr rfl (fun q => ?_) fun q => ?_
  · by_cases hq : q = p
    · subst hq; simpa using hi
    · simp [hq]
  · by_cases hq : q = p
    · subst hq; simpa using hn
    · simp [hq]

theorem send (h : RegistryOk s) (p : Nat) (x : Contents) : RegistryOk (s.send p x) := by
  rcases send_cases s p x with ⟨_, he⟩ | ⟨_, hs⟩
  · rw [he]; exact h
  · have h1 : RegistryOk (s.insertMsg p x) := h.congr rfl (fun _ => rfl) fun _ => rfl
    exact h1.sched hs

theorem die (h : RegistryOk s) (p : Nat) (r : RawReason) : RegistryOk (s.die p r) := by
  refine ⟨fun n q => ?_, fun q hq => ?_⟩
  · by_cases hq : q = p
    · subst hq
      -- the name of q, if it had one, is gone from the table
      have hgone : (s.die q r).registrar n ≠ some q := by
        intro hr
        cases hn : (s.pcb q).name with
        | none =>
          have hr' : s.registrar n = some q := by simpa [State.die, hn] using hr
          have := ((h.inverse n q).mp hr').2
          rw [hn] at this
          cases this
        | some m =>
          by_cases hm : n = m
          · simp [State.die, hn, hm] at hr
          · have hr' : s.registrar n = some q := by simpa [State.die, hn, hm] using hr
            have := ((h.inverse n q).mp hr').2
            rw [hn] at this
            exact hm (Option.some.inj this).symm
      simp [hgone, Pcb.dead]
    · have hkeep : (s.die p r).registrar n = some q ↔ s.registrar n = some q := by
        cases hn : (s.pcb p).name with
        | none => simp [State.die, hn]
        | some m =>
          by_cases hm : n = m
          · subst hm
            have hp : s.registrar n = some p := by
              refine (h.inverse n p).mpr ⟨?_, hn⟩
              cases ha : s.alive p with
              | true => rfl
              | false =>
                have := h.dead p ha
                rw [hn] at this
                cases this
            simp [State.die, hn, hp, Ne.symm hq]
          · simp [State.die, hn, hm]
      rw [hkeep, h.inverse n q]
      simp [hq]
  · by_cases hqp : q = p
    · simp [hqp, Pcb.dead]
    · have := h.dead q (by simpa [hqp] using hq)
      simpa [hqp] using this

theorem killMove (hm : KillMove s s') (h : RegistryOk s) : RegistryOk s' := by
  cases hm with
  | send p x => exact h.send p x
  | sendExit target p r _ => exact (h.modify target _ rfl rfl).send _ _
  | die p r _ => exact h.die p r
  | links p ls => exact h.modify p _ rfl rfl
  | monitors p ms => exact h.modify p _ rfl rfl

theorem make (h : RegistryOk s) : RegistryOk s.makeProcess.1 := by
  have hblank : s.pcb (s.procs.last + 1) = Pcb.blank := s.procs.beyond _ (by omega)
  refine ⟨fun n q => ?_, fun q => ?_⟩
  · by_cases hq : q = s.procs.last + 1
    · subst hq
      rw [State.alive, makeProcess_new]
      have : s.registrar n ≠ some (s.procs.last + 1) := by
        intro hr
        have := ((h.inverse n _).mp hr).1
        rw [State.alive, hblank] at this
        cases this
      simpa [State.makeProcess] using this
    · rw [State.alive, makeProcess_get hq]
      exact h.inverse n q
  · by_cases hq : q = s.procs.last + 1
    · subst hq
      rw [State.alive, makeProcess_new]
      simp
    · rw [State.alive, makeProcess_get hq]
      exact h.dead q

theorem register (h : RegistryOk s) (name p : Nat) : RegistryOk (s.register name p).1 := by
  unfold State.register
  split
  · exact h
  · rename_i ha
    have ha : s.alive p = true := by simpa using ha
    split
    · exact h
    · rename_i hn
      split
      · exact h
      · rename_i hr
        refine ⟨fun n q => ?_, fun q hq => ?_⟩
        · -- name was unknown and p had no name
          by_cases hq : q = p
          · subst hq
            have hno : ∀ m, s.registrar m ≠ some q := by
              intro m hm
              have := ((h.inverse m q).mp hm).2
              rw [hn] at this
              cases this
            by_cases hm : n = name
            · simpa [hm, State.modify] using ha
            · have := hno n
              simpa [State.modify, hm, Ne.symm hm] using this
          · by_cases hm : n = name
            · have : ¬ (s.alive q = true ∧ (s.pcb q).name = some name) := by
                rw [← h.inverse, hr]
                simp
              simpa [State.modify, hm, hq, Ne.symm hq] using this
            · have := h.inverse n q
              simpa [State.modify, hm, hq] using this
        · by_cases hqp : q = p
          · subst hqp
            have : s.alive q = false := by simpa [State.modify] using hq
            rw [ha] at this
            cases this
          · have := h.dead q (by simpa [State.modify, hqp] using hq)
            simpa [State.modify, hqp] using this

theorem unregister (h : RegistryOk s) (name : Nat) : RegistryOk (s.unregister name).1 := by
  unfold State.unregister
  split
  · exact h
  · rename_i p hp
    have hpn := (h.inverse name p).mp hp
    refine ⟨fun n q => ?_, fun q hq => ?_⟩
    · by_cases hm : n = name
      · subst hm
        have : ¬ (q ≠ p ∧ s.alive q = true ∧ (s.pcb q).name = some n) := by
          rintro ⟨hne, h1⟩
          have := (h.inverse n q).mpr h1
          rw [hp] at this
          exact hne (Option.some.inj this).symm
        by_cases hq : q = p
        · simp [State.modify, hq]
        · simpa [State.modify, hq] using this
      · by_cases hq : q = p
        · subst hq
          have : s.registrar n ≠ some q := by
            intro hr
            have := ((h.inverse n q).mp hr).2
            rw [hpn.2] at this
            exact hm (Option.some.inj this).symm
          simpa [State.modify, hm] using this
        · have := h.inverse n q
          simpa [State.modify, hm, hq] using this
    · by_cases hqp : q = p
      · simp [State.modify, hqp]
      · have := h.dead q (by simpa [State.modify, hqp] using hq)
        simpa [State.modify, hqp] using this

theorem leave (h : RegistryOk s) (r : Receive) (rest : List Frame) : RegistryOk (s.leave r rest) := by
  have h1 : RegistryOk (s.setStack s.self rest) := h.modify _ _ rfl rfl
  unfold State.leave
  cases r.matcher with
  | user => exact h1
  | down m => exact h1.congr rfl (fun _ => rfl) fun _ => rfl

theorem setStack (h : RegistryOk s) (fs : List Frame) : RegistryOk (s.setStack s.self fs) :=
  h.modify _ _ rfl rfl

theorem receive (h : RegistryOk s) (m : Matcher) (w : Option Nat) : RegistryOk (s.receive m w) := by
  have h1 := h.setStack (.receive ⟨s.nextCall, m, w, .inbox s.self, .find0⟩ :: (s.pcb s.self).stack)
  exact h1.congr rfl (fun _ => rfl) fun _ => rfl

theorem demonitor (h : RegistryOk s) (m : Mon) : RegistryOk (s.demonitor m) := by
  have h1 := (h.modify s.self (fun x => { x with monitors := x.monitors.filter (· ≠ m) }) rfl rfl).modify
    m.target (fun x => { x with monitors := x.monitors.filter (· ≠ m) }) rfl rfl
  exact h1.congr rfl (fun _ => rfl) fun _ => rfl

theorem link2 (h : RegistryOk s) (p q : Nat) : RegistryOk (s.link2 p q) := by
  rcases link2_or_eq s p q with he | he
  · rw [he]; exact h
  · rw [he]
    exact (h.modify p (fun x => { x with links := q :: x.links }) rfl rfl).modify q
      (fun x => { x with links := p :: x.links }) rfl rfl

theorem monitor (h : RegistryOk s) (p : Nat) : RegistryOk (s.monitor p).1 := by
  have h1 : RegistryOk { s with
      nextMon := s.nextMon + 1, log := .monitor ⟨s.nextMon, s.self, p⟩ :: s.log } :=
    h.congr rfl (fun _ => rfl) fun _ => rfl
  unfold State.monitor
  dsimp only
  split
  · exact (h1.modify s.self (fun x => { x with monitors := ⟨s.nextMon, s.self, p⟩ :: x.monitors })
      rfl rfl).modify p (fun x => { x with monitors := ⟨s.nextMon, s.self, p⟩ :: x.monitors }) rfl rfl
  · exact h1.send _ _

theorem move (hm : Move s s') (h : RegistryOk s) : RegistryOk s' := by
  cases hm with
  | sched hs => exact h.sched hs
  | make => exact h.make
  | link p q _ => exact h.link2 p q
  | unlink p =>
    exact (h.modify s.self (fun x => { x with links := x.links.filter (· ≠ p) }) rfl rfl).modify p
      (fun x => { x with links := x.links.filter (· ≠ s.self) }) rfl rfl
  | send p d => exact h.send p _
  | sendExit target p r _ => exact (h.modify target _ rfl rfl).send _ _
  | kill _ hk => exact (kill_moves hk).invariant (fun _ _ => killMove) h
  | monitor p _ _ => exact h.monitor p
  | demonitor m _ => exact h.demonitor m
  | register name p => exact h.register name p
  | unregister name => exact h.unregister name

theorem work (hw : Work s s') (h : RegistryOk s) : RegistryOk s' := by
  cases hw with
  | sched hs => exact h.sched hs
  | flags f => exact h.modify _ _ rfl rfl
  | trap x => exact h.modify _ _ rfl rfl
  | receive w _ => exact h.receive .user w
  | flush m _ _ => exact (h.demonitor m).receive (.down m) (some 0)
  | restack fs _ => exact h.setStack fs
  | park => exact h.congr rfl (fun _ => rfl) fun _ => rfl
  | skip => exact h.setStack _
  | offer r rest k =>
    have h1 := h.setStack (.receive { r with cursor := .msg k, phase := .matching } :: rest)
    exact h1.congr rfl (fun _ => rfl) fun _ => rfl
  | timeout r rest => exact h.leave r rest
  | accept r rest k =>
    have h1 : RegistryOk (s.consume k (.clause r.call)) := h.congr rfl (fun _ => rfl) fun _ => rfl
    exact h1.leave r rest
  | reject => exact h.setStack _
  | take k => exact h.congr rfl (fun _ => rfl) fun _ => rfl

theorem boot : RegistryOk bootState := by
  have hname : ∀ p, (bootState.pcb p).name = none := by
    intro p
    match p with
    | 0 | 1 | 2 | 3 => decide
    | p+4 =>
      rw [boot_blank p]
      rfl
  refine ⟨fun n p => ?_, fun p _ => hname p⟩
  rw [hname p]
  have hr : bootState.registrar n = none := rfl
  simp [hr]

end RegistryOk

theorem Reachable.registry (h : Reachable s) : RegistryOk s :=
  h.invariant RegistryOk.boot (fun _ _ => RegistryOk.move) fun _ _ => RegistryOk.work

/-- A call of register that raises has changed nothing. -/
theorem register_error {name : Nat} {e : State.RegisterError}
    (h : s.register name p = (s', .error e)) : s' = s := by
  unfold State.register at h
  split at h
  · cases h; rfl
  · split at h
    · cases h; rfl
    · split at h
      · cases h; rfl
      · cases h

theorem unregister_error {name : Nat} {e : State.RegisterError}
    (h : s.unregister name = (s', .error e)) : s' = s := by
  unfold State.unregister at h
  split at h
  · cases h; rfl
  · cases h

theorem registry_bijection (h : Reachable s) :
    (∀ n p, s.registrar n = some p ↔ s.alive p = true ∧ (s.pcb p).name = some n) ∧
      (∀ n p, s.whereis n = some p → s.alive p = true) ∧
      (∀ n m p, s.whereis n = some p → s.whereis m = some p → n = m) ∧
      (∀ p q n, s.alive p = true → s.alive q = true → (s.pcb p).name = some n →
        (s.pcb q).name = some n → p = q) ∧
      (∀ name p s' e, s.register name p = (s', .error e) →
        s'.registrar = s.registrar ∧ ∀ q, (s'.pcb q).name = (s.pcb q).name) ∧
      ∀ name s' e, s.unregister name = (s', .error e) →
        s'.registrar = s.registrar ∧ ∀ q, (s'.pcb q).name = (s.pcb q).name := by
  have hr := h.registry
  refine ⟨hr.inverse, fun n p hp => ((hr.inverse n p).mp hp).1, fun n m p h1 h2 => ?_,
    fun p q n h1 h2 h3 h4 => ?_, fun name p s' e he => ?_, fun name s' e he => ?_⟩
  · have h3 := ((hr.inverse n p).mp h1).2
    rw [((hr.inverse m p).mp h2).2] at h3
    exact (Option.some.inj h3).symm
  · have h5 := (hr.inverse n p).mpr ⟨h1, h3⟩
    rw [(hr.inverse n q).mpr ⟨h2, h4⟩] at h5
    exact (Option.some.inj h5).symm
  · rw [register_error he]
    exact ⟨rfl, fun _ => rfl⟩
  · rw [unregister_error he]
    exact ⟨rfl, fun _ => rfl⟩

/-- Two registrations, one that fails, and the death of a registered process. -/
theorem registry_bijection_two : ∃ s, bootState.run
    [.spawn, .register 7 1, .register 8 4, .register 9 4, .kill 4 (.datum .shutdown) 0] = .ok s ∧
    s.whereis 7 = some 1 ∧ s.whereis 8 = none ∧
    ∀ n p, s.registrar n = some p ↔ s.alive p = true ∧ (s.pcb p).name = some n := by
  obtain ⟨s, hs, hq⟩ := exists_of_runsTo
    (P := fun s => s.whereis 7 = some 1 ∧ s.whereis 8 = none)
    (by decide +kernel : runsTo [.spawn, .register 7 1, .register 8 4, .register 9 4,
      .kill 4 (.datum .shutdown) 0] _ = true)
  obtain ⟨h1, h2⟩ := of_decide_eq_true hq
  exact ⟨s, hs, h1, h2, (registry_bijection ⟨_, hs⟩).1⟩

end Swish.Erlang
