import Mathlib.Data.List.Pairwise
import Mathlib.Data.List.Perm.Subperm
import Mathlib.Data.List.TakeWhile
import Swish.Erlang.System

/-!
What the scheduler's own operations do to the run queue and the sleep queue,
and that they touch nothing else.
-/

set_option autoImplicit false

namespace Swish.Erlang
open CircularList

/-- When a process was last put on a queue: a position in the history. -/
def stamp : List Event → Nat → Nat
  | [], _ => 0
  | e :: es, p => if e = .enqueue p then es.length + 1 else stamp es p

theorem stamp_le (es : List Event) (p : Nat) : stamp es p ≤ es.length := by
  induction es with
  | nil => simp [stamp]
  | cons e es ih =>
    simp only [stamp, List.length_cons]
    split <;> omega

theorem le_last_of_alive {s : State} {p : Nat} (h : s.alive p = true) : p ≤ s.procs.last := by
  apply Table.le_last
  intro hb
  simp [hb, Pcb.blank] at h

/-- The part of a pcb that scheduling does not touch. -/
def Pcb.core (x : Pcb) : Pcb :=
  { x with
    cont := false, precedence := 0
    flags := { x.flags with sleeping := false, blockedIo := false, interrupt := false } }

def Event.isSched : Event → Bool
  | .enqueue _ => true
  | .check _ => true
  | _ => false

/-- Only scheduling data may differ: queues, wake times, the flags that say why
a process waits, the running process and the history of enqueue and check. -/
structure SchedOnly (s s' : State) : Prop where
  core : ∀ p, (s'.pcb p).core = (s.pcb p).core
  last : s.procs.last ≤ s'.procs.last
  mail : s'.mail = s.mail
  contents : s'.contents = s.contents
  nextMsg : s'.nextMsg = s.nextMsg
  nextMon : s'.nextMon = s.nextMon
  nextCall : s'.nextCall = s.nextCall
  registrar : s'.registrar = s.registrar
  eventLoop : s'.eventLoop = s.eventLoop
  finalizer : s'.finalizer = s.finalizer
  log : ∃ es, s'.log = es ++ s.log ∧ ∀ e ∈ es, e.isSched = true

namespace SchedOnly

variable {s s' s'' : State}

theorem refl (s : State) : SchedOnly s s :=
  ⟨fun _ => rfl, Nat.le_refl _, rfl, rfl, rfl, rfl, rfl, rfl, rfl, rfl, [], rfl, by simp⟩

theorem trans (h : SchedOnly s s') (h' : SchedOnly s' s'') : SchedOnly s s'' := by
  obtain ⟨es, he, hes⟩ := h.log
  obtain ⟨fs, hf, hfs⟩ := h'.log
  refine ⟨fun p => (h'.core p).trans (h.core p), Nat.le_trans h.last h'.last, h'.mail.trans h.mail,
    h'.contents.trans h.contents, h'.nextMsg.trans h.nextMsg, h'.nextMon.trans h.nextMon,
    h'.nextCall.trans h.nextCall, h'.registrar.trans h.registrar,
    h'.eventLoop.trans h.eventLoop, h'.finalizer.trans h.finalizer, fs ++ es, ?_, ?_⟩
  · rw [hf, he, List.append_assoc]
  · intro e he'
    rcases List.mem_append.mp he' with h1 | h1
    · exact hfs e h1
    · exact hes e h1

theorem modify {p : Nat} {f : Pcb → Pcb} (hf : ∀ x, (f x).core = x.core) :
    SchedOnly s (s.modify p f) := by
  refine ⟨fun q => ?_, Nat.le_max_left _ _, rfl, rfl, rfl, rfl, rfl, rfl, rfl, rfl, [], rfl, by simp⟩
  simp only [State.modify_get]
  split
  · subst q; exact hf _
  · rfl

theorem name (h : SchedOnly s s') (p : Nat) : (s'.pcb p).name = (s.pcb p).name :=
  (congrArg Pcb.name (h.core p) :)

theorem inbox (h : SchedOnly s s') (p : Nat) : (s'.pcb p).inbox = (s.pcb p).inbox :=
  (congrArg Pcb.inbox (h.core p) :)

theorem links (h : SchedOnly s s') (p : Nat) : (s'.pcb p).links = (s.pcb p).links :=
  (congrArg Pcb.links (h.core p) :)

theorem monitors (h : SchedOnly s s') (p : Nat) : (s'.pcb p).monitors = (s.pcb p).monitors :=
  (congrArg Pcb.monitors (h.core p) :)

theorem stack (h : SchedOnly s s') (p : Nat) : (s'.pcb p).stack = (s.pcb p).stack :=
  (congrArg Pcb.stack (h.core p) :)

theorem trapExit (h : SchedOnly s s') (p : Nat) :
    (s'.flags p).trapExit = (s.flags p).trapExit :=
  (congrArg (fun x => x.flags.trapExit) (h.core p) :)

theorem exceptionState (h : SchedOnly s s') (p : Nat) :
    (s'.pcb p).exceptionState = (s.pcb p).exceptionState :=
  (congrArg Pcb.exceptionState (h.core p) :)

theorem removeQIfEnqueued (s : State) (p : Nat) : SchedOnly s (s.removeQIfEnqueued p) :=
  ⟨fun _ => rfl, Nat.le_refl _, rfl, rfl, rfl, rfl, rfl, rfl, rfl, rfl, [], rfl, by simp⟩

theorem enqueue (s : State) (p : Nat) (q : QPtr) (n : Nat) : SchedOnly s (s.enqueue p q n) := by
  have h1 := removeQIfEnqueued s p
  have h2 : SchedOnly (s.removeQIfEnqueued p)
      ((s.removeQIfEnqueued p).modify p fun x => { x with precedence := n }) :=
    modify fun _ => rfl
  refine (h1.trans h2).trans ⟨fun _ => rfl, Nat.le_refl _, rfl, rfl, rfl, rfl, rfl, rfl, rfl, rfl,
    [.enqueue p], rfl, by simp [Event.isSched]⟩

theorem setSleeping (s : State) (p : Nat) (b : Bool) :
    SchedOnly s (s.setFlags p fun f => { f with sleeping := b }) := modify fun _ => rfl

theorem setBlockedIo (s : State) (p : Nat) (b : Bool) :
    SchedOnly s (s.setFlags p fun f => { f with blockedIo := b }) := modify fun _ => rfl

theorem setInterrupt (s : State) (p : Nat) (b : Bool) :
    SchedOnly s (s.setFlags p fun f => { f with interrupt := b }) := modify fun _ => rfl

theorem wake (s : State) (p : Nat) : SchedOnly s (s.wake p) := by
  unfold State.wake
  split
  · exact (setSleeping s p false).trans (enqueue _ _ _ _)
  · split
    · exact refl s
    · split
      · exact refl s
      · exact enqueue _ _ _ _

theorem wakeSleepers (s : State) (rt n : Nat) (q : Option QPtr) :
    SchedOnly s (s.wakeSleepers rt n q) := by
  induction n generalizing s q with
  | zero => exact refl s
  | succ n ih =>
    match q with
    | some (.pcb p) =>
      simp only [State.wakeSleepers]
      split
      · exact ((setSleeping s _ false).trans (enqueue _ _ _ _)).trans (ih _ _)
      · exact refl s
    | some .runQueue | some .sleepQueue | none => exact refl s

theorem eventCheck (s : State) (rt : Nat) : SchedOnly s (s.eventCheck rt) := by
  unfold State.eventCheck
  split
  · exact refl s
  · refine SchedOnly.trans ?_ (wakeSleepers _ _ _ _)
    exact ⟨fun _ => rfl, Nat.le_refl _, rfl, rfl, rfl, rfl, rfl, rfl, rfl, rfl, [.check rt], rfl,
      by simp [Event.isSched]⟩

theorem deschedule (s : State) (q : Option QPtr) (n : Nat) : SchedOnly s (s.deschedule q n) := by
  unfold State.deschedule
  split
  · have h : SchedOnly s (s.modify s.self fun x => { x with cont := true }) := modify fun _ => rfl
    cases q with
    | none => exact h.trans (removeQIfEnqueued _ _)
    | some q => exact h.trans (enqueue _ _ _ _)
  · exact refl s

theorem dispatch (h : s.dispatch = .ok s') : SchedOnly s s' := by
  unfold State.dispatch at h
  split at h
  · rename_i p hp
    cases h
    have h1 : SchedOnly s { s.removeQ p with self := p } :=
      ⟨fun _ => rfl, Nat.le_refl _, rfl, rfl, rfl, rfl, rfl, rfl, rfl, rfl, [], rfl, by simp⟩
    exact h1.trans (modify fun _ => rfl)
  · cases h

theorem yield {q : Option QPtr} {n rt : Nat} (h : s.yield q n rt = .ok s') : SchedOnly s s' :=
  ((eventCheck s rt).trans (deschedule _ q n)).trans (dispatch h)

theorem yieldIfDead {rt : Nat} (h : s.yieldIfDead rt = .ok s') : SchedOnly s s' := by
  unfold State.yieldIfDead at h
  split at h
  · cases h; exact refl s
  · exact yield h

theorem keyboardInterrupt (s : State) (p : Nat) : SchedOnly s (s.keyboardInterrupt p) := by
  unfold State.keyboardInterrupt
  split
  · exact (setInterrupt s p true).trans (wake _ _)
  · exact refl s

theorem waitForIo {rt : Nat} (h : s.waitForIo rt = .ok s') : SchedOnly s s' :=
  (setBlockedIo s s.self true).trans (yield h)

theorem completeIo (s : State) (p : Nat) : SchedOnly s (s.completeIo p) := by
  unfold State.completeIo
  split
  · exact (setBlockedIo s p false).trans (enqueue _ _ _ _)
  · exact refl s

end SchedOnly

/-- The order of both queues: by precedence, then by time of insertion. -/
def State.Before (s : State) (p q : Nat) : Prop :=
  (s.pcb p).precedence < (s.pcb q).precedence ∨
    ((s.pcb p).precedence = (s.pcb q).precedence ∧ stamp s.log p < stamp s.log q)

/-- The two queues as lists. The flags play no role here. -/
structure QueueShape (s : State) (rq sq : List Nat) : Prop where
  run : IsRing s.queues .runQueue (rq.map .pcb)
  sleep : IsRing s.queues .sleepQueue (sq.map .pcb)
  disjoint : ∀ p ∈ rq, p ∉ sq
  enqueued : ∀ p, s.enqueued p = true → p ∈ rq ∨ p ∈ sq
  bound : ∀ p, p ∈ rq ∨ p ∈ sq → p ≤ s.procs.last
  zero : ∀ p ∈ rq, (s.pcb p).precedence = 0
  runOrder : rq.Pairwise s.Before
  sleepOrder : sq.Pairwise s.Before

theorem filter_ne_append {p : Nat} {a b : List Nat} (h : (a ++ p :: b).Nodup) :
    (a ++ p :: b).filter (· ≠ p) = a ++ b := by
  have ha : ∀ q ∈ a, q ≠ p := by
    rintro q hq rfl
    simp [List.nodup_append] at h
    exact (h.2.2 q hq).1 rfl
  have hb : ∀ q ∈ b, q ≠ p := by
    rintro q hq rfl
    simp [List.nodup_append] at h
    exact h.2.1.1 hq
  rw [List.filter_append, List.filter_cons]
  simp only [ne_eq, not_true_eq_false, decide_false, Bool.false_eq_true, if_false]
  rw [List.filter_eq_self.mpr (by simpa using ha), List.filter_eq_self.mpr (by simpa using hb)]

theorem ring_pids_nodup {h : Heap QPtr} {q : QPtr} {l : List Nat}
    (hr : IsRing h q (l.map .pcb)) : l.Nodup :=
  List.Nodup.of_map _ (List.nodup_cons.mp hr.nodup).2

theorem ring_unlink {h : Heap QPtr} {q : QPtr} {l : List Nat} {p : Nat}
    (hr : IsRing h q (l.map .pcb)) (hp : p ∈ l) :
    IsRing (h.unlink (.pcb p)) q ((l.filter (· ≠ p)).map .pcb) := by
  have hnd := ring_pids_nodup hr
  obtain ⟨a, b, rfl⟩ := List.append_of_mem hp
  rw [filter_ne_append hnd, List.map_append]
  rw [List.map_append, List.map_cons] at hr
  exact hr.unlink

namespace QueueShape

variable {s s' : State} {rq sq : List Nat} {p : Nat}

theorem congr (h : QueueShape s rq sq) (hq : s'.queues = s.queues)
    (hl : s.procs.last ≤ s'.procs.last)
    (hp : ∀ p, p ∈ rq ∨ p ∈ sq → (s'.pcb p).precedence = (s.pcb p).precedence)
    (hs : ∀ p, stamp s'.log p = stamp s.log p) : QueueShape s' rq sq := by
  have hb : ∀ p q, p ∈ rq ∨ p ∈ sq → q ∈ rq ∨ q ∈ sq → s.Before p q → s'.Before p q := by
    intro p q h1 h2 h3
    unfold State.Before at *
    rw [hp p h1, hp q h2, hs p, hs q]
    exact h3
  refine ⟨by rw [hq]; exact h.run, by rw [hq]; exact h.sleep, h.disjoint, ?_, ?_, ?_, ?_, ?_⟩
  · intro p h1
    exact h.enqueued p (by simpa [State.enqueued, hq] using h1)
  · intro p h1
    exact Nat.le_trans (h.bound p h1) hl
  · intro p h1
    rw [hp p (.inl h1)]
    exact h.zero p h1
  · exact h.runOrder.imp_of_mem fun h1 h2 => hb _ _ (.inl h1) (.inl h2)
  · exact h.sleepOrder.imp_of_mem fun h1 h2 => hb _ _ (.inr h1) (.inr h2)

theorem enqueued_iff (h : QueueShape s rq sq) (p : Nat) :
    s.enqueued p = true ↔ p ∈ rq ∨ p ∈ sq := by
  refine ⟨h.enqueued p, ?_⟩
  rintro (h1 | h1)
  · obtain ⟨q, _, hq⟩ := h.run.prev_mem (x := .pcb p) (by simp [h1])
    simp [State.enqueued, hq]
  · obtain ⟨q, _, hq⟩ := h.sleep.prev_mem (x := .pcb p) (by simp [h1])
    simp [State.enqueued, hq]

theorem run_apart (h : QueueShape s rq sq) :
    ∀ a ∈ QPtr.runQueue :: rq.map .pcb, a ∉ QPtr.sleepQueue :: sq.map .pcb := by
  intro a ha ha'
  simp only [List.mem_cons, List.mem_map] at ha ha'
  rcases ha with rfl | ⟨p, hp, rfl⟩
  · simp at ha'
  · simp at ha'
    exact h.disjoint p hp ha'

theorem sleep_apart (h : QueueShape s rq sq) :
    ∀ a ∈ QPtr.sleepQueue :: sq.map .pcb, a ∉ QPtr.runQueue :: rq.map .pcb :=
  fun a ha ha' => h.run_apart a ha' ha

/-- Unlinking clears the prev pointer and leaves those of other processes set
or unset as they were. -/
theorem unlink_enqueued (h : QueueShape s rq sq) (hp : p ∈ rq ∨ p ∈ sq) {q : Nat}
    (hq : ((s.queues.unlink (.pcb p) (.pcb q)).prev).isSome) : q ≠ p ∧ s.enqueued q = true := by
  have key : ∀ {t : QPtr} {l : List Nat}, IsRing s.queues t (l.map .pcb) → p ∈ l →
      q ≠ p ∧ s.enqueued q = true := by
    intro t l hr hl
    obtain ⟨a, _, ha⟩ := hr.prev_mem (x := .pcb p) (by simp [hl])
    obtain ⟨n, hn, hne⟩ := hr.next_mem (x := .pcb p) (by simp [hl])
    rw [unlink_prev ha hne] at hq
    split at hq
    · simp at hq
    · rename_i hqp
      refine ⟨fun he => hqp (by rw [he]), ?_⟩
      split at hq
      · rename_i hqn
        subst hqn
        obtain ⟨b, _, hb⟩ := hr.prev_mem hn
        simp [State.enqueued, hb]
      · exact hq
  rcases hp with hp | hp
  · exact key h.run hp
  · exact key h.sleep hp

theorem filter_of_not_mem {l : List Nat} (h : p ∉ l) : l.filter (· ≠ p) = l := by
  apply List.filter_eq_self.mpr
  intro q hq
  simp only [ne_eq, decide_not, Bool.not_eq_eq_eq_not, Bool.not_true, decide_eq_false_iff_not]
  rintro rfl
  exact h hq

theorem remove (h : QueueShape s rq sq) (p : Nat) :
    QueueShape (s.removeQIfEnqueued p) (rq.filter (· ≠ p)) (sq.filter (· ≠ p)) := by
  by_cases hp : p ∈ rq ∨ p ∈ sq
  · have he := (h.enqueued_iff p).mpr hp
    have hq : (s.removeQIfEnqueued p).queues = s.queues.unlink (.pcb p) := by
      simp [State.removeQIfEnqueued, he]
    have hmem : ∀ {l : List Nat} {q : Nat}, q ∈ l.filter (· ≠ p) → q ∈ l := by
      intro l q h1
      exact (List.mem_filter.mp h1).1
    have hrings : IsRing (s.queues.unlink (.pcb p)) .runQueue ((rq.filter (· ≠ p)).map .pcb) ∧
        IsRing (s.queues.unlink (.pcb p)) .sleepQueue ((sq.filter (· ≠ p)).map .pcb) := by
      rcases hp with hp | hp
      · rw [filter_of_not_mem (h.disjoint p hp)]
        exact ⟨ring_unlink h.run hp, h.run.unlink_frame (by simp [hp]) h.sleep h.run_apart⟩
      · rw [filter_of_not_mem fun h1 => h.disjoint p h1 hp]
        exact ⟨h.sleep.unlink_frame (by simp [hp]) h.run h.sleep_apart, ring_unlink h.sleep hp⟩
    refine ⟨by rw [hq]; exact hrings.1, by rw [hq]; exact hrings.2, ?_, ?_, ?_, ?_, ?_, ?_⟩
    · intro q h1 h2
      exact h.disjoint q (hmem h1) (hmem h2)
    · intro q h1
      simp only [State.enqueued, hq] at h1
      obtain ⟨hne, h2⟩ := h.unlink_enqueued hp h1
      simpa [hne] using h.enqueued q h2
    · rintro q (h1 | h1)
      · exact h.bound q (.inl (hmem h1))
      · exact h.bound q (.inr (hmem h1))
    · intro q h1
      exact h.zero q (hmem h1)
    · exact h.runOrder.filter _
    · exact h.sleepOrder.filter _
  · have he : s.enqueued p = false := by
      cases hq : s.enqueued p with
      | false => rfl
      | true => exact absurd ((h.enqueued_iff p).mp hq) hp
    rw [not_or] at hp
    rw [filter_of_not_mem hp.1, filter_of_not_mem hp.2]
    refine h.congr ?_ (Nat.le_refl _) (fun _ _ => rfl) (fun _ => rfl)
    simp [State.removeQIfEnqueued, he]

theorem length_le (hr : rq.Nodup) (hb : ∀ p ∈ rq, p ≤ s.procs.last) :
    rq.length ≤ s.procs.last + 1 := by
  have hsub : rq ⊆ List.range (s.procs.last + 1) := by
    intro q hq
    have := hb q hq
    simp only [List.mem_range]
    omega
  simpa using (List.subperm_of_subset hr hsub).length_le

/-- The loop find of @enqueue ends in front of the processes with a larger
precedence. -/
theorem find_eq {a b : List Nat} {q : QPtr} {n : Nat}
    (hr : IsRing s.queues q ((a ++ b).map .pcb)) (hl : (a ++ b).length ≤ s.procs.last + 1)
    (ha : ∀ x ∈ a, (s.pcb x).precedence ≤ n) (hb : ∀ x ∈ b, n < (s.pcb x).precedence) :
    s.queues.findBack q (s.notAfter n) (s.procs.last + 2) q = (b.map QPtr.pcb).headD q := by
  rw [List.map_append] at hr
  refine hr.findBack ?_ ?_ ?_
  · intro x hx
    obtain ⟨y, hy, rfl⟩ := List.mem_map.mp (List.mem_of_mem_getLast? hx)
    simpa [State.notAfter] using ha y hy
  · intro x hx
    obtain ⟨y, hy, rfl⟩ := List.mem_map.mp hx
    simpa [State.notAfter] using hb y hy
  · simp only [List.length_map, List.length_append] at *
    omega

/-- The state in which @enqueue inserts. -/
def atInsert (s : State) (p : Nat) (n : Nat) : State :=
  (s.removeQIfEnqueued p).modify p fun x => { x with precedence := n }

theorem atInsert_shape (h : QueueShape s rq sq) (p : Nat) (n : Nat) :
    QueueShape (atInsert s p n) (rq.filter (· ≠ p)) (sq.filter (· ≠ p)) := by
  refine (h.remove p).congr rfl (Nat.le_max_left _ _) ?_
    (fun _ => rfl)
  intro q hq
  have hqp : q ≠ p := by
    rintro rfl
    simp at hq
  simp [atInsert, hqp]

theorem enqueued_of_insert {t x : QPtr} {h : Heap QPtr} {a : QPtr} {zs : List QPtr}
    (hr : IsRing h t zs) (hx : x ∈ t :: zs) {q : Nat}
    (hq : ((h.insertBefore a x (.pcb q)).prev).isSome) :
    QPtr.pcb q = a ∨ ((h (.pcb q)).prev).isSome := by
  obtain ⟨p, _, hp⟩ := hr.prev_mem hx
  rw [insertBefore_prev hp] at hq
  split at hq
  · rename_i hqx
    rw [hqx, hp]
    simp
  · split at hq
    · rename_i hqa
      exact .inl hqa
    · exact .inr hq

variable {a b : List Nat} {n : Nat}

theorem stamp_enqueue (s : State) (p q : Nat) :
    stamp (.enqueue p :: s.log) q = if q = p then s.log.length + 1 else stamp s.log q := by
  by_cases hqp : q = p
  · simp [stamp, hqp]
  · have : p ≠ q := fun he => hqp he.symm
    simp [stamp, hqp, this]

/-- Inserting p where its precedence belongs keeps the order. -/
theorem insert_order (hab : (a ++ b).Pairwise s.Before) (hpa : p ∉ a ++ b)
    (ha : ∀ x ∈ a, (s.pcb x).precedence ≤ n) (hb : ∀ x ∈ b, n < (s.pcb x).precedence)
    (hp : (s.pcb p).precedence = n) (hprocs : ∀ q, s'.pcb q = s.pcb q)
    (hlog : s'.log = .enqueue p :: s.log) : (a ++ p :: b).Pairwise s'.Before := by
  have hkeep : ∀ x y, x ∈ a ++ b → y ∈ a ++ b → s.Before x y → s'.Before x y := by
    intro x y hx hy hxy
    have hxp : x ≠ p := by rintro rfl; exact hpa hx
    have hyp : y ≠ p := by rintro rfl; exact hpa hy
    unfold State.Before at *
    rw [hprocs x, hprocs y, hlog, stamp_enqueue, stamp_enqueue, if_neg hxp, if_neg hyp]
    exact hxy
  have hap : ∀ x ∈ a, s'.Before x p := by
    intro x hx
    have hxp : x ≠ p := by rintro rfl; exact hpa (by simp [hx])
    have h1 := ha x hx
    have h2 := stamp_le s.log x
    unfold State.Before
    rw [hprocs x, hprocs p, hlog, stamp_enqueue, stamp_enqueue, if_neg hxp, if_pos rfl, hp]
    omega
  have hpb : ∀ x ∈ b, s'.Before p x := by
    intro x hx
    unfold State.Before
    rw [hprocs p, hprocs x, hp]
    exact .inl (hb x hx)
  have hmono := hab.imp_of_mem fun h1 h2 => hkeep _ _ h1 h2
  rw [List.pairwise_append] at hmono ⊢
  refine ⟨hmono.1, List.pairwise_cons.mpr ⟨hpb, hmono.2.1⟩, ?_⟩
  intro x hx y hy
  rcases List.mem_cons.mp hy with rfl | hy
  · exact hap x hx
  · exact hmono.2.2 x hx y hy

theorem other_order {l : List Nat} (hl : l.Pairwise s.Before) (hpl : p ∉ l)
    (hprocs : ∀ q, s'.pcb q = s.pcb q) (hlog : s'.log = .enqueue p :: s.log) :
    l.Pairwise s'.Before := by
  refine hl.imp_of_mem fun {x y} hx hy hxy => ?_
  have hxp : x ≠ p := by rintro rfl; exact hpl hx
  have hyp : y ≠ p := by rintro rfl; exact hpl hy
  unfold State.Before at *
  rw [hprocs x, hprocs y, hlog, stamp_enqueue, stamp_enqueue, if_neg hxp, if_neg hyp]
  exact hxy

theorem not_mem_filter_ne (l : List Nat) (p : Nat) : p ∉ l.filter (· ≠ p) := by simp

/-- What @enqueue does to the queue it inserts into, split at the place of
insertion, and to the other queue. -/
theorem enqueue_rings {q t : QPtr} {l : List Nat}
    (hr : IsRing (atInsert s p n).queues q ((a ++ b).map .pcb))
    (ho : IsRing (atInsert s p n).queues t (l.map .pcb))
    (hd : ∀ x ∈ q :: (a ++ b).map .pcb, x ∉ t :: l.map .pcb)
    (hl : (a ++ b).length ≤ (atInsert s p n).procs.last + 1)
    (ha : ∀ x ∈ a, ((atInsert s p n).pcb x).precedence ≤ n)
    (hb : ∀ x ∈ b, n < ((atInsert s p n).pcb x).precedence)
    (hpq : QPtr.pcb p ∉ q :: (a ++ b).map .pcb) (hpt : QPtr.pcb p ∉ t :: l.map .pcb) :
    IsRing (s.enqueue p q n).queues q ((a ++ p :: b).map .pcb) ∧
      IsRing (s.enqueue p q n).queues t (l.map .pcb) ∧
      ∀ x, (s.enqueue p q n).enqueued x = true → x = p ∨ (atInsert s p n).enqueued x = true := by
  have hfind := find_eq hr hl ha hb
  have hq : (s.enqueue p q n).queues =
      (atInsert s p n).queues.insertBefore (.pcb p) ((b.map QPtr.pcb).headD q) := by
    rw [← hfind]; rfl
  have hmem : (b.map QPtr.pcb).headD q ∈ q :: (a ++ b).map .pcb := by
    cases b <;> simp
  refine ⟨?_, ?_, ?_⟩
  · rw [hq]
    rw [List.map_append] at hr hpq
    rw [List.map_append, List.map_cons]
    exact hr.insertBefore hpq
  · rw [hq]
    exact hr.insertBefore_frame hmem ho hpt hd
  · intro x hx
    simp only [State.enqueued, hq] at hx
    rcases enqueued_of_insert hr hmem hx with h2 | h2
    · cases h2; exact .inl rfl
    · exact .inr h2

theorem enqueue_bound (h : QueueShape (atInsert s p n) rq sq) (hp : p ≤ s.procs.last) {q : QPtr}
    {x : Nat} (hx : x = p ∨ x ∈ rq ∨ x ∈ sq) : x ≤ (s.enqueue p q n).procs.last := by
  rcases hx with rfl | hx
  · exact Nat.le_trans hp (Nat.le_max_left _ _)
  · exact h.bound x hx

theorem atInsert_self (s : State) (p n : Nat) : ((atInsert s p n).pcb p).precedence = n := by
  simp [atInsert]

theorem enqueue_run (h : QueueShape s rq sq) (hp : p ≤ s.procs.last) :
    QueueShape (s.enqueue p .runQueue 0) (rq.filter (· ≠ p) ++ [p]) (sq.filter (· ≠ p)) := by
  have h1 := h.atInsert_shape p 0
  have hpr := not_mem_filter_ne rq p
  have hps := not_mem_filter_ne sq p
  generalize rq.filter (· ≠ p) = rq' at *
  generalize sq.filter (· ≠ p) = sq' at *
  have hle : ∀ x ∈ rq', ((atInsert s p 0).pcb x).precedence ≤ 0 := fun x hx => by
    rw [h1.zero x hx]
  obtain ⟨hrun, hsleep, henq⟩ := enqueue_rings (a := rq') (b := []) (q := .runQueue)
    (t := .sleepQueue) (by simpa using h1.run) h1.sleep (by simpa using h1.run_apart)
    (by simpa using length_le (ring_pids_nodup h1.run) fun q hq => h1.bound q (.inl hq))
    hle (by simp) (by simpa using hpr) (by simpa using hps)
  refine ⟨hrun, hsleep, ?_, ?_, ?_, ?_, ?_, ?_⟩
  · intro q hq1 hq2
    rcases List.mem_append.mp hq1 with h2 | h2
    · exact h1.disjoint q h2 hq2
    · rw [List.mem_singleton] at h2
      subst h2
      exact hps hq2
  · intro q hq1
    rcases henq q hq1 with rfl | h2
    · simp
    · rcases h1.enqueued q h2 with h3 | h3 <;> simp [h3]
  · intro q hq1
    refine enqueue_bound h1 hp ?_
    simp only [List.mem_append, List.mem_singleton] at hq1
    tauto
  · intro q hq1
    rcases List.mem_append.mp hq1 with h2 | h2
    · exact h1.zero q h2
    · rw [List.mem_singleton] at h2
      subst h2
      exact atInsert_self s q 0
  · exact insert_order (s := atInsert s p 0) (a := rq') (b := []) (n := 0)
      (by simpa using h1.runOrder) (by simpa using hpr) hle (by simp) (atInsert_self s p 0)
      (fun _ => rfl) rfl
  · exact other_order (s := atInsert s p 0) h1.sleepOrder hps (fun _ => rfl) rfl

/-- A sleeper goes behind the processes that wake no later and in front of the
others. -/
theorem enqueue_sleep (h : QueueShape s rq sq) (hp : p ≤ s.procs.last) (n : Nat) :
    ∃ a b, sq.filter (· ≠ p) = a ++ b ∧ (∀ x ∈ a, (s.pcb x).precedence ≤ n) ∧
      (∀ x ∈ b, n < (s.pcb x).precedence) ∧
      QueueShape (s.enqueue p .sleepQueue n) (rq.filter (· ≠ p)) (a ++ p :: b) := by
  have h1 := h.atInsert_shape p n
  have hpr := not_mem_filter_ne rq p
  have hps := not_mem_filter_ne sq p
  generalize rq.filter (· ≠ p) = rq' at *
  generalize sq.filter (· ≠ p) = sq' at *
  have hprec : ∀ x ∈ sq', ((atInsert s p n).pcb x).precedence = (s.pcb x).precedence := by
    intro x hx
    have hxp : x ≠ p := by rintro rfl; exact hps hx
    simp [atInsert, hxp, State.removeQIfEnqueued]
  let early : Nat → Bool := fun x => ((atInsert s p n).pcb x).precedence ≤ n
  have hsplit : sq'.takeWhile early ++ sq'.dropWhile early = sq' := List.takeWhile_append_dropWhile
  have ha : ∀ x ∈ sq'.takeWhile early, ((atInsert s p n).pcb x).precedence ≤ n := by
    intro x hx
    simpa [early] using List.mem_takeWhile_imp hx
  have hb : ∀ x ∈ sq'.dropWhile early, n < ((atInsert s p n).pcb x).precedence := by
    have hord : (sq'.dropWhile early).Pairwise (atInsert s p n).Before :=
      h1.sleepOrder.sublist (List.dropWhile_sublist _)
    cases hd : sq'.dropWhile early with
    | nil => simp
    | cons y ys =>
      have hy : early y = false := by
        have := List.head_dropWhile_not early (l := sq') (by rw [hd]; simp)
        simpa [hd] using this
      have hy' : n < ((atInsert s p n).pcb y).precedence := by simpa [early] using hy
      rw [hd, List.pairwise_cons] at hord
      intro x hx
      rcases List.mem_cons.mp hx with rfl | hx
      · exact hy'
      · rcases hord.1 x hx with h2 | h2
        · omega
        · omega
  generalize sq'.takeWhile early = a at *
  generalize sq'.dropWhile early = b at *
  subst hsplit
  have hnd := ring_pids_nodup h1.sleep
  refine ⟨a, b, rfl, fun x hx => ?_, fun x hx => ?_, ?_⟩
  · rw [← hprec x (by simp [hx])]; exact ha x hx
  · rw [← hprec x (by simp [hx])]; exact hb x hx
  obtain ⟨hsleep, hrun, henq⟩ := enqueue_rings (a := a) (b := b) (q := .sleepQueue)
    (t := .runQueue) h1.sleep h1.run h1.sleep_apart
    (length_le hnd fun q hq => h1.bound q (.inr hq)) ha hb (by simpa using hps) (by simpa using hpr)
  refine ⟨hrun, hsleep, ?_, ?_, ?_, h1.zero, ?_, ?_⟩
  · intro q hq1 hq2
    have h2 : q = p ∨ q ∈ a ++ b := by
      simp only [List.mem_append, List.mem_cons] at hq2 ⊢
      tauto
    rcases h2 with rfl | h2
    · exact hpr hq1
    · exact h1.disjoint q hq1 h2
  · intro q hq1
    rcases henq q hq1 with rfl | h2
    · simp
    · have := h1.enqueued q h2
      simp only [List.mem_append, List.mem_cons] at this ⊢
      tauto
  · intro q hq1
    refine enqueue_bound h1 hp ?_
    simp only [List.mem_append, List.mem_cons] at hq1 ⊢
    tauto
  · exact other_order (s := atInsert s p n) h1.runOrder hpr (fun _ => rfl) rfl
  · exact insert_order (s := atInsert s p n) h1.sleepOrder hps ha hb (atInsert_self s p n)
      (fun _ => rfl) rfl

end QueueShape

end Swish.Erlang
