import Swish.Parallel.Kernel

/-!
The caller of a parallel call that traps exits, and the life of the kernel. When
the parent of the caller dies, the caller kills the kernel and then expects its
result and its EXIT message.
-/

set_option autoImplicit false

namespace Swish.Parallel.Caller

open Swish.GenServer.Loop
open Swish.Lib

/-- The messages that the receives of scatter/gather! can tell apart. -/
inductive Message where
  /-- (pid . d), for the pid of the kernel. -/
  | result (d : Datum)
  /-- `(EXIT pid ...). -/
  | kernelExit (raw : Datum)
  | parentExit (raw : Datum)
  | other (n : Nat)

namespace Message

def isResult : Message → Bool
  | .result _ => true
  | _ => false

def isKernelExit : Message → Bool
  | .kernelExit _ => true
  | _ => false

/-- What the first receive matches. -/
def isFirst : Message → Bool
  | .result _ => true
  | .parentExit _ => true
  | _ => false

end Message

inductive Kernel where
  /-- In the run queue. It has not called process-trap-exit yet. -/
  | spawned
  | trapping
  /-- The result is sent. -/
  | sent
  | dead
  deriving DecidableEq, Repr

namespace Kernel

def isAlive : Kernel → Bool
  | .dead => false
  | _ => true

def trapExit : Kernel → Bool
  | .spawned => false
  | _ => true

def hasSent : Kernel → Bool
  | .sent => true
  | _ => false

end Kernel

inductive Phase where
  /-- In the first receive. -/
  | first
  /-- At (kill pid err). -/
  | killing (err : Datum)
  /-- In the receive of the expected result. -/
  | second (err : Datum)
  /-- In the receive of the EXIT message. -/
  | third (err : Datum)
  | done (r : Result)

structure World where
  phase : Phase
  inbox : List Message
  kernel : Kernel

namespace World

def send (w : World) (m : Message) : World := { w with inbox := w.inbox ++ [m] }

/-- The kernel is linked to the caller. -/
def die (w : World) (raw : Datum) : World := { w with kernel := .dead }.send (.kernelExit raw)

/-- Whether (kill pid raw) ends the kernel. -/
def lethal (w : World) (raw : Datum) : Bool :=
  w.kernel.isAlive &&
    (isKill (unwrapFaultCondition raw) || !w.kernel.trapExit && !isNormal (unwrapFaultCondition raw))

/-- (kill pid raw). A kernel that traps exits gets a message, and acts on it as it likes. -/
def kill (w : World) (raw : Datum) : World :=
  if w.lethal raw then w.die (if isKill (unwrapFaultCondition raw) then extended killed else extended raw) else w

/-- A receive takes the first message that matches. -/
def receive (w : World) (p : Message → Bool) : Option (Message × List Message) :=
  (w.inbox.find? p).map fun m => (m, w.inbox.eraseP p)

/-- The caller goes on until its next receive. There is no result while it is blocked. -/
def caller (success : Datum → Datum) (w : World) : Except Unit World :=
  match w.phase with
  | .first =>
    match w.receive Message.isFirst with
    | some (.result d, inbox) => .ok { w with inbox := inbox, phase := .done (scatterGather success (.message d)) }
    | some (.parentExit raw, inbox) => .ok { w with inbox := inbox, phase := .killing raw.err }
    | _ => .error ()
  | .killing err => .ok { w.kill err with phase := .second err }
  | .second err =>
    match w.receive Message.isResult with
    | some (_, inbox) => .ok { w with inbox := inbox, phase := .third err }
    | none => .error ()
  | .third err =>
    match w.receive Message.isKernelExit with
    | some (_, inbox) => .ok { w with inbox := inbox, phase := .done (.raised err) }
    | none => .error ()
  | .done _ => .error ()

end World

inductive Action where
  | caller
  /-- The kernel runs for the first time, up to (process-trap-exit #t). -/
  | run
  /-- $scatter/gather! is over, and the kernel sends what try made of it. -/
  | finish (d : Datum)
  | exit
  /-- A process other than the caller kills the kernel. -/
  | kill (raw : Datum)
  /-- An EXIT message of the parent of the caller arrives. -/
  | parentExit (raw : Datum)
  | other (n : Nat)

def World.step (success : Datum → Datum) (w : World) (a : Action) : Except Unit World :=
  match a with
  | .caller => w.caller success
  | .run => if w.kernel = .spawned then .ok { w with kernel := .trapping } else .error ()
  | .finish d => if w.kernel = .trapping then .ok ({ w with kernel := .sent }.send (.result d)) else .error ()
  | .exit => if w.kernel = .sent then .ok (w.die normal) else .error ()
  | .kill raw => .ok (w.kill raw)
  | .parentExit raw => .ok (w.send (.parentExit raw))
  | .other n => .ok (w.send (.other n))

/-- A message that was in the inbox before the call is none of the kernel. -/
inductive Earlier where
  | parentExit (raw : Datum)
  | other (n : Nat)

def Earlier.message : Earlier → Message
  | .parentExit raw => .parentExit raw
  | .other n => .other n

/-- After spawn&link. -/
def World.initial (inbox : List Earlier) : World := ⟨.first, inbox.map Earlier.message, .spawned⟩

/-- The kernel is alive, or the message that the caller waits for is in the inbox. -/
def Attended (w : World) : Prop :=
  match w.phase with
  | .first => w.kernel.isAlive = true ∨ ∃ m ∈ w.inbox, m.isResult = true
  | .second _ => w.kernel.isAlive = true ∨ ∃ m ∈ w.inbox, m.isResult = true
  | .third _ => w.kernel.isAlive = true ∨ ∃ m ∈ w.inbox, m.isKernelExit = true
  | _ => True

/-- No kill ends the kernel before it has sent its result. -/
def spares (w : World) : Action → Bool
  | .kill raw => w.kernel.hasSent || !w.lethal raw
  | .caller =>
    match w.phase with
    | .killing err => w.kernel.hasSent || !w.lethal err
    | _ => true
  | _ => true

variable {success : Datum → Datum} {w w' : World}

structure Kept (w : World) : Prop where
  /-- As long as the caller can still take it. -/
  result : w.kernel = .sent ∨ w.kernel = .dead →
    (∃ m ∈ w.inbox, m.isResult = true) ∨ (∃ err, w.phase = .third err) ∨ ∃ r, w.phase = .done r
  exit : w.kernel = .dead → (∃ m ∈ w.inbox, m.isKernelExit = true) ∨ ∃ r, w.phase = .done r

namespace Kept

theorem initial (inbox : List Earlier) : Kept (World.initial inbox) where
  result := by simp [World.initial]
  exit := by simp [World.initial]

theorem attended (h : Kept w) : Attended w := by
  unfold Attended
  cases hk : w.kernel with
  | dead =>
    have hr := h.result (.inr hk)
    have he := h.exit hk
    split
    · rename_i hp
      simpa [hp, Kernel.isAlive] using hr
    · rename_i hp
      simpa [hp, Kernel.isAlive] using hr
    · rename_i hp
      simpa [hp, Kernel.isAlive] using he
    · trivial
  | _ => split <;> simp [Kernel.isAlive]

theorem send (h : Kept w) (m : Message) : Kept (w.send m) := by
  refine ⟨fun hk => ?_, fun hk => ?_⟩
  · rcases h.result hk with hr | hr
    · obtain ⟨x, hx, hm⟩ := hr
      exact .inl ⟨x, List.mem_append_left _ hx, hm⟩
    · exact .inr hr
  · rcases h.exit hk with he | he
    · obtain ⟨x, hx, hm⟩ := he
      exact .inl ⟨x, List.mem_append_left _ hx, hm⟩
    · exact .inr he

/-- The kernel dies with its result sent. -/
theorem die (h : Kept w) (hk : w.kernel = .sent) (raw : Datum) : Kept (w.die raw) := by
  refine ⟨fun _ => ?_, fun _ => .inl ⟨.kernelExit raw, by simp [World.die, World.send], rfl⟩⟩
  rcases h.result (.inl hk) with hr | hr
  · obtain ⟨x, hx, hm⟩ := hr
    exact .inl ⟨x, List.mem_append_left _ hx, hm⟩
  · exact .inr hr

theorem kill (h : Kept w) {raw : Datum} (hs : (w.kernel.hasSent || !w.lethal raw) = true) : Kept (w.kill raw) := by
  unfold World.kill
  split
  · rename_i hl
    rw [hl] at hs
    have hsent : w.kernel = .sent := by
      cases hk : w.kernel with
      | sent => rfl
      | _ => simp [hk, Kernel.hasSent] at hs
    exact h.die hsent _
  · exact h

/-- A receive leaves every other message where it is. -/
theorem mem_received {p : Message → Bool} {m x : Message} {inbox : List Message}
    (hr : w.receive p = some (m, inbox)) (hx : x ∈ w.inbox) (hne : x ≠ m) : x ∈ inbox := by
  unfold World.receive at hr
  obtain ⟨y, hy, hpair⟩ := Option.map_eq_some_iff.mp hr
  cases hpair
  obtain ⟨-, as, bs, hab, has⟩ := List.find?_eq_some_iff_append.mp hy
  have hp := List.find?_some hy
  rw [hab] at hx ⊢
  rw [List.eraseP_append_right _ (by simpa using has), List.eraseP_cons_of_pos hp]
  rcases List.mem_append.mp hx with hx | hx
  · exact List.mem_append_left _ hx
  · rcases List.mem_cons.mp hx with hx | hx
    · exact absurd hx hne
    · exact List.mem_append_right _ hx

theorem received_matches {p : Message → Bool} {m : Message} {inbox : List Message}
    (hr : w.receive p = some (m, inbox)) : p m = true := by
  unfold World.receive at hr
  obtain ⟨y, hy, hpair⟩ := Option.map_eq_some_iff.mp hr
  cases hpair
  exact List.find?_some hy

theorem caller (h : Kept w) (hs : spares w .caller = true) (ht : w.caller success = .ok w') : Kept w' := by
  unfold World.caller at ht
  split at ht
  · rename_i hp
    split at ht
    · cases ht
      exact ⟨fun _ => .inr (.inr ⟨_, rfl⟩), fun _ => .inr ⟨_, rfl⟩⟩
    · rename_i raw inbox hrec
      cases ht
      refine ⟨fun hk => ?_, fun hk => ?_⟩
      · rcases h.result hk with hr | hr
        · obtain ⟨x, hx, hm⟩ := hr
          exact .inl ⟨x, mem_received hrec hx (fun he => by rw [he] at hm; cases hm), hm⟩
        · simp [hp] at hr
      · rcases h.exit hk with he | he
        · obtain ⟨x, hx, hm⟩ := he
          exact .inl ⟨x, mem_received hrec hx (fun he => by rw [he] at hm; cases hm), hm⟩
        · simp [hp] at he
    · cases ht
  · rename_i err hp
    cases ht
    have hk : Kept (w.kill err) := h.kill (by simpa [spares, hp] using hs)
    have hph : (w.kill err).phase = w.phase := by
      unfold World.kill
      split
      · rfl
      · rfl
    refine ⟨fun hkernel => ?_, fun hkernel => ?_⟩
    · rcases hk.result hkernel with hr | hr
      · exact .inl hr
      · simp [hph, hp] at hr
    · rcases hk.exit hkernel with he | he
      · exact .inl he
      · simp [hph, hp] at he
  · rename_i err hp
    split at ht
    · rename_i m inbox hrec
      cases ht
      refine ⟨fun _ => .inr (.inl ⟨err, rfl⟩), fun hk => ?_⟩
      rcases h.exit hk with he | he
      · obtain ⟨x, hx, hm⟩ := he
        refine .inl ⟨x, mem_received hrec hx (fun he => ?_), hm⟩
        have hres := received_matches hrec
        rw [he] at hm
        cases m <;> simp_all [Message.isResult, Message.isKernelExit]
      · simp [hp] at he
    · cases ht
  · split at ht
    · cases ht
      exact ⟨fun _ => .inr (.inr ⟨_, rfl⟩), fun _ => .inr ⟨_, rfl⟩⟩
    · cases ht
  · cases ht

theorem step (h : Kept w) {a : Action} (ha : spares w a = true) (ht : w.step success a = .ok w') : Kept w' := by
  cases a with
  | caller => exact h.caller ha ht
  | run =>
    simp only [World.step] at ht
    split at ht
    · cases ht
      exact ⟨by simp, by simp⟩
    · cases ht
  | finish d =>
    simp only [World.step] at ht
    split at ht
    · cases ht
      exact ⟨fun _ => .inl ⟨.result d, by simp [World.send], rfl⟩, fun hk => by cases hk⟩
    · cases ht
  | exit =>
    simp only [World.step] at ht
    split at ht
    · cases ht
      exact h.die ‹_› _
    · cases ht
  | kill raw =>
    cases ht
    exact h.kill ha
  | parentExit raw =>
    cases ht
    exact h.send _
  | other n =>
    cases ht
    exact h.send _

end Kept

/-- As long as no kill ends the kernel before it has sent its result, the caller never waits for a dead
kernel. -/
theorem caller_never_waits_for_dead_kernel (success : Datum → Datum) (inbox : List Earlier) (w : World)
    (h : Reach (World.initial inbox) (World.step success) (fun w a => spares w a = true) w) : Attended w := by
  have hk : Kept w := h.invariant (Kept.initial inbox) fun _ _ _ hs ha ht => hs.step ha ht
  exact hk.attended

/-- The parent dies when the kernel has run: the kernel sends an exception and exits. -/
theorem caller_never_waits_for_dead_kernel_trapping :
    ∃ w, Attended w ∧ w.phase = .third shutdown ∧ w.kernel = .dead := by
  let as : List Action :=
    [.run, .parentExit shutdown, .caller, .caller, .finish (.fault false shutdown), .exit, .caller]
  have hrun : Reach (World.initial [.other 1]) (World.step id) (fun w a => spares w a = true) _ :=
    Reach.of_run as .start (by decide) rfl
  exact ⟨_, caller_never_waits_for_dead_kernel id _ _ hrun, rfl, rfl⟩

/-- The EXIT message of the parent is there before the call. The caller kills a kernel that has not run yet,
and waits for its result. -/
theorem kernel_killed_before_it_runs :
    ∃ w, Reach (World.initial [.parentExit shutdown]) (World.step id) (fun _ _ => True) w ∧
      w.phase = .second shutdown ∧ w.kernel = .dead ∧ ¬ Attended w := by
  let as : List Action := [.caller, .caller]
  have hrun : Reach (World.initial [.parentExit shutdown]) (World.step id) (fun _ _ => True) _ :=
    Reach.of_run as .start (Reach.along_of_forall (fun _ _ => trivial) as _) rfl
  refine ⟨_, hrun, rfl, rfl, ?_⟩
  intro h
  rcases h with h | h
  · cases h
  · obtain ⟨m, hm, hres⟩ := h
    cases List.mem_singleton.mp hm
    cases hres

end Swish.Parallel.Caller
