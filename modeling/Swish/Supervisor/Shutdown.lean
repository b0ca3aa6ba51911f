import Swish.Erlang.Script
import Swish.Supervisor.Server
import Swish.Lib.Except

/-!
How a supervisor shuts a child down: shutdown and monitor-child as scripts in a
system where the child does what it likes.
-/

set_option autoImplicit false

namespace Swish.Erlang

/-- The pattern `(EXIT ,@pid ,_). -/
def Contents.isExitOf (pid : Nat) : Contents → Bool
  | .exit p _ => p = pid
  | _ => false

/-- The pattern `(DOWN ,_ ,@pid ,_ ,_). -/
def Contents.isDownOf (pid : Nat) : Contents → Bool
  | .down _ p _ => p = pid
  | _ => false

end Swish.Erlang

namespace Swish.Supervisor
open Erlang Lib

/-- The values that shutdown returns: reason and err. -/
abbrev EndReason := Reason × RawReason

/-- A $receive without a timeout for the DOWN message of pid. The last argument
is not reached. -/
def awaitDown (pid : Nat) : Script EndReason :=
  .receive none (Contents.isDownOf pid) (fun x => .done (x.err.unwrap, x.err)) (.done (.normal, .datum .normal))

/-- The result none stands for ok. -/
def monitorChild (pid : Nat) : Script (Option EndReason) :=
  .monitor pid fun _ =>
  .unlink pid <|
  .receive (some 0) (Contents.isExitOf pid)
    (fun x => .receive none (Contents.isDownOf pid) (fun y => .done (some (x.err.unwrap, y.err))) (.done none))
    (.done none)

def shutdown (pid : Nat) (x : ShutdownType) : Script EndReason :=
  (monitorChild pid).bind fun
    | none =>
      match x with
      | .brutalKill => .kill pid .kill (awaitDown pid)
      | .timeout ms =>
        .kill pid .shutdown <|
        .receive (some ms.toNat) (Contents.isDownOf pid) (fun x => .done (x.err.unwrap, x.err))
          (.kill pid .kill (awaitDown pid))
      | .infinity => .kill pid .shutdown (awaitDown pid)
    | some r => .done r

/-- The parts of shutdown up to the end of the scan for an EXIT message. -/
def unlinkPart (pid : Nat) (x : ShutdownType) : Script EndReason :=
  match shutdown pid x with
  | .monitor _ next => next ⟨0, 0, 0⟩
  | code => code

def scanPart (pid : Nat) (x : ShutdownType) : Script EndReason :=
  match unlinkPart pid x with
  | .unlink _ next => next
  | code => code

def BeforeScanEnds (pid : Nat) (x : ShutdownType) (code : Script EndReason) : Prop :=
  code = shutdown pid x ∨ code = unlinkPart pid x ∨ code = scanPart pid x

/-- The running process is pid and sends sup an exit signal that can be trapped. -/
def signals (pid sup : Nat) (s : Erlang.State) : Erlang.Action → Bool
  | .kill p raw _ => s.self = pid && p = sup && raw.unwrap ≠ .kill
  | _ => false

/-- No EXIT message of pid is in the inbox of sup while pid lives. -/
def NoFalseExit (pid sup : Nat) (s : Erlang.State) : Prop :=
  ∀ k ∈ s.inbox sup, (s.contents k).isExitOf pid = true → s.Gone pid

variable {pid sup : Nat} {x : ShutdownType} {code : Script EndReason} {fr : Option Receive}
  {s t : Erlang.State} {a : Erlang.Action}

/-- The parts of shutdown in which pid may still be alive after the scan. -/
def Finishing (pid : Nat) (code : Script EndReason) : Prop :=
  code = .kill pid .kill (awaitDown pid) ∨
  (∃ ms, code = .kill pid .shutdown (.receive (some ms) (Contents.isDownOf pid)
    (fun x => .done (x.err.unwrap, x.err)) (.kill pid .kill (awaitDown pid)))) ∨
  ∃ ms, code = .receive (some ms) (Contents.isDownOf pid) (fun x => .done (x.err.unwrap, x.err))
    (.kill pid .kill (awaitDown pid))

/-- Before the end of the scan, an EXIT message of pid that is in the inbox or
under the matcher tells the truth. -/
structure Scanning (pid sup : Nat) (x : ShutdownType) (code : Script EndReason) (fr : Option Receive)
    (s : Erlang.State) : Prop where
  before : BeforeScanEnds pid x code
  known : sup ≤ s.procs.last
  inbox : s.alive sup = true → NoFalseExit pid sup s
  frame : ∀ r k, fr = some r → r.phase = .matching → r.cursor = .msg k → k < s.nextMsg ∧
    ((s.contents k).isExitOf pid = true → s.Gone pid)

/-- Either pid is dead, or the scan is not over, or shutdown is about to kill. -/
def ShutdownOutline (pid sup : Nat) (x : ShutdownType) (code : Script EndReason) (fr : Option Receive)
    (s : Erlang.State) : Prop :=
  s.Gone pid ∨ Scanning pid sup x code fr s ∨ Finishing pid code

/-- The condition on the steps of the system. -/
def ShutdownOk (pid sup : Nat) (x : ShutdownType) (code : Script EndReason) (s : Erlang.State)
    (a : Erlang.Action) : Prop :=
  BeforeScanEnds pid x code → signals pid sup s a = false

theorem gone_step (h : Reachable s) (hs : s.step a = .ok t) (hg : s.Gone pid) : t.Gone pid :=
  (h.mailing hs).dead hg

theorem Scanning.step (h : Scanning pid sup x code fr s) (hr : Reachable s) (hs : s.step a = .ok t)
    (hok : ShutdownOk pid sup x code s a) : Scanning pid sup x code fr t := by
  have hm := hr.mailing hs
  refine ⟨h.before, Nat.le_trans h.known hm.last, fun ha k hk he => ?_, fun r k h1 h2 h3 => ?_⟩
  · have hsa := alive_before hm h.known ha
    rcases inbox_step hr hs (hr.step hs) hsa ha hk with h1 | ⟨_, _, h1 | h1⟩
    · obtain ⟨⟨box, hbox⟩, _⟩ := hr.mail
      have h2 := h1
      rw [inbox_eq hbox.boxes hsa] at h2
      have hlt := (hbox.boxes.bound sup k (hbox.boxes.inserted sup k h2)).1
      rw [hm.contents k hlt] at he
      exact hm.dead (h.inbox hsa k h1 he)
    · cases hc : t.contents k with
      | exit p r =>
        rw [hc] at h1 he
        have hp : p = pid := by simpa [Contents.isExitOf] using he
        rw [← hp]
        exact h1
      | down | user =>
        rw [hc] at he
        cases he
    · obtain ⟨raw, rt, ha', hraw, hc⟩ := h1
      rw [hc] at he
      have hp : s.self = pid := by simpa [Contents.isExitOf] using he
      have := hok h.before
      simp [ha', signals, hp, hraw] at this
  · obtain ⟨hlt, hg⟩ := h.frame r k h1 h2 h3
    refine ⟨Nat.lt_of_lt_of_le hlt hm.next, fun he => ?_⟩
    rw [hm.contents k hlt] at he
    exact hm.dead (hg he)

/-- (kill pid 'kill) cannot be trapped. -/
theorem kill_gone {rt : Nat} (h : Reachable s) (hp : s.isPcb pid = true)
    (hs : s.step (.kill pid (.datum .kill) rt) = .ok t) : t.Gone pid := by
  have hm := h.mailing hs
  have hlast : pid ≤ s.procs.last := by
    simp only [Erlang.State.isPcb, Bool.and_eq_true, decide_eq_true_eq] at hp
    exact hp.2
  cases ha : s.alive pid with
  | false => exact hm.dead ⟨hlast, ha⟩
  | true =>
    refine ⟨Nat.le_trans hlast hm.last, ?_⟩
    simp only [Erlang.State.step, Erlang.State.userStep, hp, if_true, Erlang.State.killProcess, ha,
      RawReason.unwrap] at hs
    split at hs
    · obtain ⟨u, hk, hs⟩ := Lib.bind_ok hs
      rw [Erlang.State.alive, (SchedOnly.yieldIfDead hs).inbox]
      exact kill_dead hk
    · cases hs

theorem shutdown_outline (pid sup : Nat) {x : ShutdownType} (hx : x ≠ .infinity) :
    Outline sup (ShutdownOk pid sup x) (ShutdownOutline pid sup x) where
  stable code fr s a t hr hs hok hA := by
    rcases hA with h | h | h
    · exact .inl (gone_step hr hs h)
    · exact .inr (.inl (h.step hr hs hok))
    · exact .inr (.inr h)
  calls code s a t hr hself hs hok hcalls hvalid hwait hA := by
    rcases hA with h | h | h
    · exact .inl (gone_step hr hs h)
    · have h' := h.step hr hs hok
      rcases h.before with hc | hc | hc
      · subst hc
        exact .inr (.inl ⟨.inr (.inl rfl), h'.known, h'.inbox, fun r k h1 => (by cases h1)⟩)
      · subst hc
        exact .inr (.inl ⟨.inr (.inr rfl), h'.known, h'.inbox, fun r k h1 => (by cases h1)⟩)
      · subst hc
        cases hwait
    · rcases h with hc | ⟨ms, hc⟩ | ⟨ms, hc⟩
      · subst hc
        cases a with
        | kill p raw rt =>
          cases raw with
          | datum r =>
            simp only [Script.calls, Bool.and_eq_true, decide_eq_true_eq] at hcalls
            rw [hcalls.1, hcalls.2] at hs
            exact .inl (kill_gone hr hvalid hs)
          | fault => cases hcalls
        | _ => cases hcalls
      · subst hc
        exact .inr (.inr (.inr (.inr ⟨ms, rfl⟩)))
      · subst hc
        cases hwait
  begins code r s hwait hm hph hA := by
    refine hA.imp_right (Or.imp_left fun h => ⟨h.before, h.known, h.inbox, fun r' k h1 h2 => ?_⟩)
    cases h1
    exact absurd h2 hph
  resumes code r r' s hres hA := by
    refine hA.imp_right (Or.imp_left fun h => ⟨h.before, h.known, h.inbox, fun r'' k h1 h2 => ?_⟩)
    cases h1
    exact absurd h2 hres.phase
  offers code r k s hr ha hk hA := by
    refine hA.imp_right (Or.imp_left fun h => ⟨h.before, h.known, h.inbox, fun r' k' h1 _ h3 => ?_⟩)
    cases h1
    cases h3
    exact ⟨hr.sound.inbox_lt ha hk, h.inbox ha k hk⟩
  accepts timeout accept clause expired r k s t hr hself hs hmem hph hk _ hacc hA := by
    rcases hA with h | h | h
    · exact .inl (gone_step hr hs h)
    · have hacc : (s.contents k).isExitOf pid = true := by
        rcases h.before with hc | hc | hc
        · cases hc
        · cases hc
        · cases hc
          exact hacc
      exact .inl (gone_step hr hs ((h.frame r k rfl hph hk).2 hacc))
    · have hacc : (s.contents k).isDownOf pid = true := by
        rcases h with hc | ⟨ms, hc⟩ | ⟨ms, hc⟩
        · cases hc
        · cases hc
        · cases hc
          exact hacc
      cases hc : s.contents k with
      | down m p raw =>
        rw [hc] at hacc
        have hp : p = pid := by simpa [Contents.isDownOf] using hacc
        obtain ⟨⟨box, hbox⟩, _⟩ := hr.mail
        have hg := (hr.down_truthful (hbox.cursor_inserted hmem hk) hc).2.1
        rw [hp] at hg
        exact .inl (gone_step hr hs hg)
      | exit | user =>
        rw [hc] at hacc
        cases hacc
  expires code r s a t hr hs hok _ hA := by
    rcases hA with h | h | h
    · exact .inl (gone_step hr hs h)
    · have h' := h.step hr hs hok
      rcases h.before with hc | hc | hc
      · subst hc
        exact .inr (.inl ⟨.inl rfl, h'.known, h'.inbox, fun r k h1 => (by cases h1)⟩)
      · subst hc
        exact .inr (.inl ⟨.inr (.inl rfl), h'.known, h'.inbox, fun r k h1 => (by cases h1)⟩)
      · subst hc
        cases x with
        | brutalKill => exact .inr (.inr (.inl rfl))
        | timeout ms => exact .inr (.inr (.inr (.inl ⟨ms.toNat, rfl⟩)))
        | infinity => exact absurd rfl hx
    · rcases h with hc | ⟨ms, hc⟩ | ⟨ms, hc⟩
      · subst hc
        exact .inr (.inr (.inl rfl))
      · subst hc
        exact .inr (.inr (.inr (.inl ⟨ms, rfl⟩)))
      · subst hc
        exact .inr (.inr (.inl rfl))

theorem ShutdownOutline.gone (h : ShutdownOutline pid sup x code fr s)
    (hc : (∃ accept clause expired, code = .receive none accept clause expired) ∨
      ∃ v, code = .done v) : s.Gone pid := by
  rcases h with h | h | h
  · exact h
  · rcases h.before with h1 | h1 | h1 <;> subst h1
    all_goals
      rcases hc with ⟨accept, clause, expired, hc⟩ | ⟨v, hc⟩
      · cases hc
      · cases hc
  · rcases h with h1 | ⟨ms, h1⟩ | ⟨ms, h1⟩ <;> subst h1
    all_goals
      rcases hc with ⟨accept, clause, expired, hc⟩ | ⟨v, hc⟩
      · cases hc
      · cases hc

/-- The supervisor waits without a timeout only for a dead child, and shutdown
returns only then, as long as the child sends no exit signal to the supervisor
before the scan is over. An untrappable kill is carried out at once, so a child
that has been sent one is dead. -/
theorem shutdown_awaits_dead {s₀ : Erlang.State} (h₀ : Reachable s₀) (hx : x ≠ .infinity)
    (hq : NoFalseExit pid s₀.self s₀) {c : Thread EndReason}
    (hr : Reach (Thread.start s₀ (shutdown pid x)) Thread.step
      (fun c a => ∀ code, c.code = some code → BeforeScanEnds pid x code →
        signals pid s₀.self c.sys a = false) c) :
    (c.blocked = true → c.sys.alive pid = false) ∧ (c.returned = true → c.sys.alive pid = false) := by
  have hA : ShutdownOutline pid s₀.self x (shutdown pid x) none s₀ :=
    .inr (.inl ⟨.inl rfl, le_last_of_alive h₀.fine.2, fun _ => hq, fun r k h1 => (by cases h1)⟩)
  have hc := (shutdown_outline pid s₀.self hx).sound h₀ hA
    (fun c a code h h1 h2 => h code h1 h2) hr
  refine ⟨fun hb => ?_, fun hb => ?_⟩
  · simp only [Thread.blocked, Bool.and_eq_true] at hb
    obtain ⟨_, hb⟩ := hb
    split at hb
    · rename_i accept clause expired hcode
      obtain ⟨fr, h1, _⟩ := hc.point _ hcode
      exact (h1.gone (.inl ⟨accept, clause, expired, rfl⟩)).2
    · cases hb
  · simp only [Thread.returned] at hb
    split at hb
    · rename_i v hcode
      obtain ⟨fr, h1, _⟩ := hc.point _ hcode
      exact (h1.gone (.inr ⟨v, rfl⟩)).2
    · cases hb

/-- The child 4 of the supervisor 1 traps exits. -/
def trappingChild : List Erlang.Action :=
  [.setTrapExit .on, .spawnLink, .preempt 0, .preempt 0, .preempt 0, .setTrapExit .on, .preempt 0]

/-- shutdown with a timeout of 1 that passes. -/
def lateKill : List Erlang.Action :=
  [.monitor 4, .unlink 4, .receive (some 0), .find true 0 0, .find true 0 0,
    .kill 4 (.datum .shutdown) 0, .receive (some 1), .find true 0 0, .find true 1 1,
    .kill 4 (.datum .kill) 1, .receive none, .find true 1 1, .find true 1 1, .matcher true]

theorem shutdown_awaits_dead_trapping : ∃ s₀ c, bootState.run trappingChild = .ok s₀ ∧
    Reach.run Thread.step (Thread.start s₀ (shutdown 4 (.timeout 1))) lateKill = .ok c ∧
    c.returned = true ∧ c.sys.alive 4 = false := by
  obtain ⟨s₀, h₀, hP⟩ : ∃ s₀, bootState.run trappingChild = .ok s₀ ∧
      (decide (s₀.self = 1 ∧ s₀.inbox 1 = []) &&
        decide (Reach.Along Thread.step (fun c a => signals 4 1 c.sys a = false)
          (Thread.start s₀ (shutdown 4 (.timeout 1))) lateKill) &&
        (Thread.start s₀ (shutdown 4 (.timeout 1))).runsTo lateKill Thread.returned) = true :=
    exists_of_runsTo (by decide +kernel)
  simp only [Bool.and_eq_true, decide_eq_true_eq] at hP
  obtain ⟨⟨⟨hself, hin⟩, hall⟩, hrun⟩ := hP
  obtain ⟨c, hc, hret⟩ := Thread.exists_of_runsTo hrun
  have hq : NoFalseExit 4 s₀.self s₀ := by
    intro k hk
    rw [hself, hin] at hk
    cases hk
  refine ⟨s₀, c, h₀, hc, hret, ?_⟩
  refine (shutdown_awaits_dead ⟨_, h₀⟩ (by simp) hq
    ((Reach.of_run _ .start hall hc).mono fun c a h code _ _ => ?_)).2 hret
  rw [hself]
  exact h

/-- The child 4 signals the supervisor 1 between monitor and scan and lives on. -/
def falseExit : List Erlang.Action :=
  [.monitor 4, .preempt 0, .preempt 0, .preempt 0, .kill 1 (.datum (.other 0)) 0, .preempt 0,
    .unlink 4, .receive (some 0), .find true 0 0, .find true 0 0, .find true 0 0, .matcher true,
    .receive none, .find true 0 0, .find true 0 0]

/-- The supervisor takes the EXIT message for the death of the child. -/
theorem shutdown_hangs : ¬ ∀ s₀ pid x as c, Reachable s₀ → x ≠ .infinity →
    Reach.run Thread.step (Thread.start s₀ (shutdown pid x)) as = .ok c → c.blocked = true →
    c.sys.alive pid = false ∨ ∃ raw rt, raw.unwrap = .kill ∧ Erlang.Action.kill pid raw rt ∈ as := by
  intro h
  obtain ⟨s₀, h₀, hP⟩ : ∃ s₀, bootState.run [.setTrapExit .on, .spawnLink] = .ok s₀ ∧
      (Thread.start s₀ (shutdown 4 .brutalKill)).runsTo falseExit
        (fun c => c.blocked && c.sys.alive 4) = true :=
    exists_of_runsTo (by decide +kernel)
  obtain ⟨c, hc, hb⟩ := Thread.exists_of_runsTo hP
  simp only [Bool.and_eq_true] at hb
  rcases h s₀ 4 .brutalKill falseExit c ⟨_, h₀⟩ (by simp) hc hb.1 with hdead | ⟨raw, rt, _, hmem⟩
  · rw [hb.2] at hdead
    cases hdead
  · simp [falseExit] at hmem

end Swish.Supervisor
