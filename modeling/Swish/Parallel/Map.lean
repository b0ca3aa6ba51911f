import Swish.Parallel.Results

/-!
A call whose workers all return. Whatever the order of starts and ends, the call
is over after a bounded number of steps, with f mapped over the input.
-/

set_option autoImplicit false

namespace Swish.Parallel

open Swish.GenServer.Loop
open Swish.Lib

variable {o : Options} {w w' : World} {input : List Datum} {f : Datum → Datum}

/-- The steps of a run in which f returns and nothing fails. Strangers can still signal the kernel. -/
def Applies (f : Datum → Datum) (w : World) : Action → Prop
  | .kernel => True
  | .tick _ => True
  | .trapExit _ _ => True
  | .store k y => ∀ x, w.find k = some x → y = f x.input
  | .finish _ => True
  | .signal (.other _) _ => True
  | _ => False

def Action.isWork : Action → Bool
  | .kernel => true
  | .store _ _ => true
  | .finish _ => true
  | _ => false

def Action.isStray : Action → Bool
  | .signal _ _ => true
  | _ => false

theorem Applies.quiet {a : Action} (h : Applies f w a) : quiet w a = true := by
  cases a with
  | raise k raw => cases h
  | signal p raw =>
    cases p with
    | worker k => cases h
    | parent => rfl
    | other n => rfl
  | _ => rfl

theorem Applies.unforged {a : Action} (h : Applies f w a) : unforged a = true := by
  cases a with
  | signal p raw =>
    cases p with
    | worker k => cases h
    | parent => rfl
    | other n => rfl
  | _ => rfl

/-- The phases of a call whose vector is d in the end. -/
def Phase.Follows (d : Datum) : Phase → Prop
  | .sg => True
  | .waiting => True
  | .caught err => d.isCatch = true ∧ err = d.err
  | .killing _ _ _ => False
  | .draining _ _ => False
  | .done (.returned x) => d.isCatch = false ∧ x = d
  | .done (.raised err) => d.isCatch = true ∧ err = d.err

structure Mapping (f : Datum → Datum) (input : List Datum) (w : World) : Prop where
  values : ∀ e ∈ w.returned, ∃ v, input[e.1]? = some v ∧ e.2 = f v
  parent : ∀ x ∈ w.inbox, x.pid ≠ .parent
  normal : ∀ x ∈ w.inbox, ∀ k, x.pid = .worker k → isNormal x.raw.reason = true
  follows : w.phase.Follows (.vector (input.map f))
  full : w.phase ≠ .sg → w.phase ≠ .waiting → w.started = input.length ∧ w.pidHt = []

/-- All slots hold results. -/
theorem Mapping.vec_eq (h : Mapping f input w) (hpl : Placed input w) (hall : ∀ k < w.vec.length, Stored w k) :
    w.vec = input.map f := by
  apply List.ext_getElem?
  intro i
  by_cases hi : i < w.vec.length
  · obtain ⟨y, hy, hmem⟩ := slots_returned hpl hall hi
    obtain ⟨v, hv, hyv⟩ := h.values _ hmem
    have hyv : y = f v := hyv
    rw [hy, List.getElem?_map, hv, Option.map_some, hyv]
  · rw [List.getElem?_eq_none (by omega), List.getElem?_eq_none (by simp [← hpl.length]; omega)]

namespace Mapping

theorem initial (rnd : Random) (now : Nat) : Mapping f input (World.initial o rnd now input) where
  values := by simp [World.initial]
  parent := by simp [World.initial]
  normal := by simp [World.initial]
  follows := trivial
  full := fun hp => absurd rfl hp

/-- The kernel is in sg, with fewer messages. -/
theorem goOn (h : Mapping f input w) (h1 : w'.returned = w.returned) (h2 : ∀ x ∈ w'.inbox, x ∈ w.inbox)
    (h3 : w'.phase = .sg ∨ w'.phase = .waiting) : Mapping f input w' := by
  refine ⟨?_, fun x hx => h.parent x (h2 x hx), fun x hx => h.normal x (h2 x hx), ?_, ?_⟩
  · rw [h1]
    exact h.values
  · rcases h3 with h3 | h3
    · rw [h3]
      trivial
    · rw [h3]
      trivial
  · intro h4 h5
    rcases h3 with h3 | h3
    · exact absurd h3 h4
    · exact absurd h3 h5

theorem send (h : Mapping f input w) {x : Exit} (h1 : x.pid ≠ .parent)
    (h2 : ∀ k, x.pid = .worker k → isNormal x.raw.reason = true) : Mapping f input (w.send x) := by
  refine ⟨h.values, ?_, ?_, h.follows, h.full⟩
  · intro y hy
    rcases List.mem_append.mp hy with hy | hy
    · exact h.parent y hy
    · rw [List.mem_singleton.mp hy]
      exact h1
  · intro y hy
    rcases List.mem_append.mp hy with hy | hy
    · exact h.normal y hy
    · rw [List.mem_singleton.mp hy]
      exact h2

theorem no_cleanup (h : Mapping f input w) (n : Nat) : w.phase.remaining ≠ some n := by
  intro hn
  have hfol := h.follows
  cases hp : w.phase with
  | killing err pids m => rw [hp] at hfol; exact hfol
  | draining err m => rw [hp] at hfol; exact hfol
  | _ => rw [hp] at hn; cases hn

theorem step (h : Mapping f input w) (hpl : Placed input w) (hs : Sound w) {a : Action} (ha : Applies f w a)
    (ht : w.step o a = .ok w') : Mapping f input w' := by
  have hsg : w.phase = .sg → w.started = w.vec.length → w.pidHt = [] → w.vec = input.map f := by
    intro hp hst hpids
    refine h.vec_eq hpl fun k hk => ?_
    exact hs.gone (.inl hp) k (by omega) (by simp [hpids])
  cases step_move ht with
  | finished hp hst hpids hc =>
    rw [hsg hp hst hpids] at hc
    refine ⟨h.values, h.parent, h.normal, ⟨hc, ?_⟩, fun _ _ => ⟨hst.trans hpl.length, hpids⟩⟩
    rw [hsg hp hst hpids]
  | misread hp hst hpids hc =>
    rw [hsg hp hst hpids] at hc
    refine ⟨h.values, h.parent, h.normal, ⟨hc, ?_⟩, fun _ _ => ⟨hst.trans hpl.length, hpids⟩⟩
    rw [hsg hp hst hpids]
  | start hp hst hl => exact h.goOn rfl (fun _ hx => hx) (.inl hp)
  | wait hp hne hge => exact h.goOn rfl (fun _ hx => hx) (.inr rfl)
  | parentExit x inbox hp hi hx => exact absurd hx (h.parent x (by rw [hi]; exact List.mem_cons_self))
  | workerExit x inbox k hp hi hx hk hn =>
    exact h.goOn rfl (fun y hy => by rw [hi]; exact List.mem_cons_of_mem _ hy) (.inl rfl)
  | workerFailed x inbox k hp hi hx hk hn =>
    have := h.normal x (by rw [hi]; exact List.mem_cons_self) k hx
    rw [hn] at this
    cases this
  | ignored x inbox hp hi hx hk =>
    exact h.goOn rfl (fun y hy => by rw [hi]; exact List.mem_cons_of_mem _ hy) (.inr hp)
  | clean err hp hpids =>
    have := (h.full (by simp [hp]) (by simp [hp])).2
    exact absurd this hpids
  | failed err hp hpids =>
    have hfol := h.follows
    rw [hp] at hfol
    exact ⟨h.values, h.parent, h.normal, hfol, fun _ _ => h.full (by simp [hp]) (by simp [hp])⟩
  | killing err k pids n hp => exact absurd (congrArg Phase.remaining hp) (h.no_cleanup _)
  | drain err n hp => exact absurd (congrArg Phase.remaining hp) (h.no_cleanup _)
  | drained err hp => exact absurd (congrArg Phase.remaining hp) (h.no_cleanup _)
  | reaped err n x inbox k hp hi hx hk => exact absurd (congrArg Phase.remaining hp) (h.no_cleanup _)
  | skipped err n x inbox hp hi hk => exact absurd (congrArg Phase.remaining hp) (h.no_cleanup _)
  | expire hp hi => cases ha
  | tick elapsed => exact ⟨h.values, h.parent, h.normal, h.follows, h.full⟩
  | store k y x hf hst =>
    refine ⟨?_, h.parent, h.normal, h.follows, h.full⟩
    intro e he
    rcases List.mem_append.mp he with he | he
    · exact h.values e he
    · rw [List.mem_singleton.mp he]
      exact ⟨x.input, (hpl.worker x (find_some hf).1).2.2, ha x hf⟩
  | finish k x hf hst =>
    have hfil : Mapping f input { w with workers := w.workers.filter fun y => y.no != k } :=
      ⟨h.values, h.parent, h.normal, h.follows, h.full⟩
    exact hfil.send (by simp) fun _ _ => rfl
  | raise k raw x hf hst => cases ha
  | kill k raw => cases ha
  | linked k raw => cases ha
  | trapExit k on => exact ⟨h.values, h.parent, h.normal, h.follows, h.full⟩
  | signal p raw =>
    cases p with
    | other n => exact h.send (by simp) (by simp)
    | parent => cases ha
    | worker k => cases ha

end Mapping

/-- What holds along a run in which f returns. -/
structure Mapped (o : Options) (f : Datum → Datum) (input : List Datum) (w : World) : Prop where
  placed : Placed input w
  awaited : Awaited o w
  tracked : Tracked w
  sound : Sound w
  mapping : Mapping f input w

theorem Mapped.step (h : Mapped o f input w) {a : Action} (ha : Applies f w a) (ht : w.step o a = .ok w') :
    Mapped o f input w' := by
  have hle : w.started ≤ w.vec.length := by
    rw [h.placed.length]
    exact h.placed.le
  exact ⟨h.placed.step ht, h.awaited.step hle ht, h.tracked.step h.placed.nodup ha.unforged ht,
    h.sound.step h.placed ha.quiet ht, h.mapping.step h.placed h.sound ha ht⟩

theorem reach_mapped {rnd : Random} {now : Nat}
    (h : Reach (World.initial o rnd now input) (World.step o) (Applies f) w) : Mapped o f input w :=
  h.invariant
    ⟨Placed.initial rnd now, Awaited.initial rnd now, Tracked.initial rnd now, Sound.initial rnd now,
      Mapping.initial rnd now⟩
    fun _ _ _ hs ha ht => hs.step ha ht

/-! How long a run can go on. -/

def Worker.work (x : Worker) : Nat := if x.stored then 5 else 6

def Phase.work : Phase → Nat
  | .sg => 3
  | .caught _ => 1
  | _ => 0

def total : List Nat → Nat
  | [] => 0
  | n :: ns => n + total ns

theorem total_append (ns ms : List Nat) : total (ns ++ ms) = total ns + total ms := by
  induction ns with
  | nil => simp [total]
  | cons n ns ih => simp [total, ih, Nat.add_assoc]

theorem total_perm {ns ms : List Nat} (h : ns.Perm ms) : total ns = total ms := by
  induction h with
  | nil => rfl
  | cons n h ih => simp [total, ih]
  | swap n m ns => simp only [total]; omega
  | trans h1 h2 ih1 ih2 => exact ih1.trans ih2

/-- Each start, result, exit and message is worth some steps of the kernel. -/
def World.work (w : World) : Nat :=
  7 * (w.vec.length - w.started) + total (w.workers.map Worker.work) + 4 * w.inbox.length + w.phase.work

theorem workers_work (hn : (w.workers.map (·.no)).Nodup) {x : Worker} (hx : x ∈ w.workers) :
    total (w.workers.map Worker.work) = x.work + total ((w.workers.filter fun y => y.no != x.no).map Worker.work) := by
  rw [total_perm ((perm_cons_filter hn hx).map Worker.work), List.map_cons, total]

theorem store_work (hn : (w.workers.map (·.no)).Nodup) {x : Worker} (hx : x ∈ w.workers) (hs : x.stored = false)
    (y : Datum) : total ((w.store x y).workers.map Worker.work) + 1 = total (w.workers.map Worker.work) := by
  have hperm := (perm_cons_filter hn hx).map fun z => if z.no = x.no then { z with stored := true } else z
  have hrest : (w.workers.filter fun z => z.no != x.no).map
      (fun z => if z.no = x.no then { z with stored := true } else z) = w.workers.filter fun z => z.no != x.no := by
    refine (List.map_congr_left (g := id) fun z hz => ?_).trans (List.map_id _)
    have hne : z.no ≠ x.no := by simpa using (List.mem_filter.mp hz).2
    rw [if_neg hne]
    rfl
  rw [List.map_cons, if_pos rfl, hrest] at hperm
  rw [workers_work hn hx]
  simp only [World.store]
  rw [total_perm (hperm.map Worker.work), List.map_cons, total]
  simp only [Worker.work, hs, if_true, if_false, Bool.false_eq_true]
  omega

theorem trapExit_work (k : Nat) (on : Bool) :
    (w.workers.map fun z => if z.no = k then { z with trapExit := on } else z).map Worker.work =
      w.workers.map Worker.work := by
  rw [List.map_map]
  apply List.map_congr_left
  intro z _
  simp only [Function.comp_apply]
  split
  · rfl
  · rfl

theorem finish_work (hn : (w.workers.map (·.no)).Nodup) {k : Nat} {x : Worker} (hf : w.find k = some x)
    (hs : x.stored = true) (raw : Datum) : (w.die k raw).work + 1 = w.work := by
  obtain ⟨hx, rfl⟩ := find_some hf
  have hsum := workers_work hn hx
  simp only [Worker.work, hs, if_true] at hsum
  simp only [World.work, World.die, World.send, List.length_append, List.length_singleton]
  omega

/-- A step of work takes off at least one, and a signal of a stranger adds four. -/
theorem Mapped.step_work (h : Mapped o f input w) {a : Action} (ha : Applies f w a) (ht : w.step o a = .ok w') :
    w'.work + (if a.isWork then 1 else 0) ≤ w.work + (if a.isStray then 4 else 0) := by
  have hn := h.placed.nodup
  have hm := h.mapping
  cases step_move ht with
  | finished hp hst hpids hc => simp [World.work, Phase.work, Action.isWork, Action.isStray, hp]
  | misread hp hst hpids hc => simp [World.work, Phase.work, Action.isWork, Action.isStray, hp]
  | start hp hst hl =>
    simp only [World.work, World.startWork, hp, Phase.work, Action.isWork, Action.isStray, List.map_append,
      List.map_cons, List.map_nil, total_append, total, Worker.work, if_true, if_false, Bool.false_eq_true]
    omega
  | wait hp hne hge => simp [World.work, Phase.work, Action.isWork, Action.isStray, hp]
  | parentExit x inbox hp hi hx => exact absurd hx (hm.parent x (by rw [hi]; exact List.mem_cons_self))
  | workerExit x inbox k hp hi hx hk hn =>
    simp only [World.work, World.take, hp, hi, Phase.work, Action.isWork, Action.isStray, List.length_cons, if_true,
      if_false, Bool.false_eq_true]
    omega
  | workerFailed x inbox k hp hi hx hk hn =>
    have := hm.normal x (by rw [hi]; exact List.mem_cons_self) k hx
    rw [hn] at this
    cases this
  | ignored x inbox hp hi hx hk =>
    simp only [World.work, World.take, hi, Action.isWork, Action.isStray, List.length_cons, if_true, if_false, Bool.false_eq_true]
    omega
  | clean err hp hpids => exact absurd (hm.full (by simp [hp]) (by simp [hp])).2 hpids
  | failed err hp hpids => simp [World.work, Phase.work, Action.isWork, Action.isStray, hp]
  | killing err k pids n hp => exact absurd (congrArg Phase.remaining hp) (hm.no_cleanup _)
  | drain err n hp => exact absurd (congrArg Phase.remaining hp) (hm.no_cleanup _)
  | drained err hp => exact absurd (congrArg Phase.remaining hp) (hm.no_cleanup _)
  | reaped err n x inbox k hp hi hx hk => exact absurd (congrArg Phase.remaining hp) (hm.no_cleanup _)
  | skipped err n x inbox hp hi hk => exact absurd (congrArg Phase.remaining hp) (hm.no_cleanup _)
  | expire hp hi => cases ha
  | tick elapsed => exact Nat.le_refl _
  | store k y x hf hst =>
    have hsum := store_work hn (find_some hf).1 hst y
    have hlen : (w.store x y).vec.length = w.vec.length := List.length_set
    have hsame : (w.store x y).started = w.started ∧ (w.store x y).inbox = w.inbox ∧ (w.store x y).phase = w.phase :=
      ⟨rfl, rfl, rfl⟩
    simp only [World.work, hlen, hsame, Action.isWork, Action.isStray, if_true, if_false, Bool.false_eq_true]
    omega
  | finish k x hf hst =>
    have := finish_work hn hf hst normal
    simp only [Action.isWork, Action.isStray, if_true, if_false, Bool.false_eq_true]
    omega
  | raise k raw x hf hst => cases ha
  | kill k raw => cases ha
  | linked k raw => cases ha
  | trapExit k on =>
    simp only [World.work, trapExit_work, Action.isWork, Action.isStray, if_false, Bool.false_eq_true]
    exact Nat.le_refl _
  | signal p raw =>
    simp only [World.work, World.send, Action.isWork, Action.isStray, List.length_append, List.length_singleton,
      if_true, if_false, Bool.false_eq_true]
    omega

theorem run_work (as : List Action) (h : Mapped o f input w) (hall : Reach.Along (World.step o) (Applies f) w as)
    (hr : Reach.run (World.step o) w as = .ok w') :
    w'.work + as.countP (·.isWork) ≤ w.work + 4 * as.countP (·.isStray) := by
  induction as generalizing w with
  | nil =>
    cases hr
    simp
  | cons a as ih =>
    rw [Reach.run] at hr
    rw [Reach.Along] at hall
    cases hs : w.step o a with
    | error e =>
      rw [hs] at hr
      cases hr
    | ok u =>
      rw [hs] at hr hall
      have hstep := h.step_work hall.1 hs
      have hrest := ih (h.step hall.1 hs) hall.2 hr
      rw [List.countP_cons, List.countP_cons]
      by_cases hwork : a.isWork = true
      · by_cases hstray : a.isStray = true
        · simp only [hwork, hstray, if_true] at hstep ⊢
          omega
        · simp only [hwork, hstray, if_true, if_false, Bool.false_eq_true] at hstep ⊢
          omega
      · by_cases hstray : a.isStray = true
        · simp only [hwork, hstray, if_true, if_false, Bool.false_eq_true] at hstep ⊢
          omega
        · simp only [hwork, hstray, if_false, Bool.false_eq_true] at hstep ⊢
          omega

theorem Mapped.goes_on (h : Mapped o f input w) (hd : ∀ r, w.phase ≠ .done r) :
    ∃ a u, a.isWork = true ∧ Applies f w a ∧ w.step o a = .ok u := by
  cases hw : w.workers with
  | nil =>
    obtain ⟨u, hu⟩ := kernel_enabled h.awaited hd hw
    exact ⟨.kernel, u, rfl, trivial, hu⟩
  | cons x xs =>
    have hf : w.find x.no = some x := find_eq_some h.placed.nodup (by rw [hw]; exact List.mem_cons_self)
    by_cases hs : x.stored = true
    · refine ⟨.finish x.no, w.die x.no Swish.Parallel.normal, rfl, trivial, ?_⟩
      simp only [World.step, hf, hs, if_true]
    · refine ⟨.store x.no (f x.input), w.store x (f x.input), rfl, ?_, ?_⟩
      · intro y hy
        rw [hf] at hy
        cases hy
        rfl
      · simp only [World.step, hf]
        rw [if_neg hs]

theorem Mapped.reaches_done (h : Mapped o f input w) :
    ∃ u r, Reach w (World.step o) (Applies f) u ∧ u.phase = .done r := by
  induction hn : w.work using Nat.strongRecOn generalizing w with
  | ind n ih =>
    by_cases hd : ∃ r, w.phase = .done r
    · obtain ⟨r, hr⟩ := hd
      exact ⟨w, r, .start, hr⟩
    · obtain ⟨a, v, hwork, ha, hv⟩ := h.goes_on fun r hr => hd ⟨r, hr⟩
      have hlt := h.step_work ha hv
      have hstray : a.isStray = false := by
        cases a <;> first | rfl | cases hwork
      simp only [hwork, hstray, if_true, if_false, Bool.false_eq_true] at hlt
      obtain ⟨u, r, hu, hr⟩ := ih v.work (by omega) (h.step ha hv) rfl
      exact ⟨u, r, (Reach.step .start ha hv).trans hu, hr⟩

theorem Mapped.over_starts (h : Mapped o f input w) {r : Result} (hp : w.phase = .done r) :
    w.starts.Perm (List.range input.length) ∧ w.workers = [] := by
  obtain ⟨hst, hpids⟩ := h.mapping.full (by simp [hp]) (by simp [hp])
  refine ⟨?_, h.tracked.workers_nil hpids⟩
  rw [h.placed.starts, hst, List.take_of_length_le (Nat.le_of_eq h.placed.indexVec_length)]
  exact h.placed.perm

theorem Mapped.over_result (h : Mapped o f input w) {r : Result} (hp : w.phase = .done r) :
    (Datum.vector (input.map f)).isCatch = false ∧ r = .returned (.vector (input.map f)) ∨
      (Datum.vector (input.map f)).isCatch = true ∧ r = .raised (Datum.vector (input.map f)).err := by
  have hfol := h.mapping.follows
  rw [hp] at hfol
  cases r with
  | returned d => exact .inl ⟨hfol.1, by rw [hfol.2]⟩
  | raised x => exact .inr ⟨hfol.1, by rw [hfol.2]⟩

/-- Only a vector of two elements with the symbol EXIT first matches catch. -/
theorem vector_isCatch (xs : List Datum) :
    (Datum.vector xs).isCatch = true ↔ xs.length = 2 ∧ xs[0]? = some (.symbol .exit) := by
  constructor
  · intro h
    unfold Datum.isCatch at h
    split at h
    · cases ‹Datum.vector xs = .fault _ _›
    · rename_i heq
      cases heq
      exact ⟨rfl, rfl⟩
    · cases h
  · intro h
    obtain ⟨hlen, hfirst⟩ := h
    obtain ⟨a, b, rfl⟩ := List.length_eq_two.mp hlen
    cases hfirst
    rfl

/-- A run of the kernel in which f returns for each element. -/
def Runs (o : Options) (rnd : Random) (now : Nat) (f : Datum → Datum) (input : List Datum) (w : World) : Prop :=
  Reach (World.initial o rnd now input) (World.step o) (Applies f) w

/-- parallel:map and parallel:vector-map do what map does, each index has one worker, no more workers are
alive than allowed, and the call comes to its end. -/
structure MapsLike (o : Options) (rnd : Random) (now : Nat) (f : Datum → Datum) (input : List Datum) : Prop where
  starts : ∀ w, Runs o rnd now f input w → w.starts.Nodup ∧ ∀ i ∈ w.starts, i < input.length
  limit : ∀ w, Runs o rnd now f input w → w.workers.length ≤ o.startLimit
  waits : ∀ w, Runs o rnd now f input w → w.phase = .waiting → w.pidHt ≠ [] ∧ (w.inbox = [] → w.workers ≠ [])
  goes : ∀ w, Runs o rnd now f input w → (∀ r, w.phase ≠ .done r) →
    ∃ a u, a.isWork = true ∧ Applies f w a ∧ w.step o a = .ok u
  ends : ∀ as w, Reach.Along (World.step o) (Applies f) (World.initial o rnd now input) as →
    Reach.run (World.step o) (World.initial o rnd now input) as = .ok w →
    as.countP (·.isWork) ≤ 7 * input.length + 3 + 4 * as.countP (·.isStray)
  result : ∀ w r, Runs o rnd now f input w → w.phase = .done r →
    w.starts.Perm (List.range input.length) ∧ w.workers = [] ∧
      parallelMap1 r = .returned (vectorToList (.vector (input.map f))) ∧
      parallelVec1 r = .returned (.vector (input.map f))

/-- The vector of results matches catch if it is of length two and f returns the symbol EXIT first. -/
theorem parallel_map_is_map (o : Options) (rnd : Random) (now : Nat) (f : Datum → Datum) (input : List Datum) :
    MapsLike o rnd now f input ↔ ¬(input.length = 2 ∧ input.head?.map f = some (.symbol .exit)) := by
  have hcatch : (Datum.vector (input.map f)).isCatch = true ↔
      input.length = 2 ∧ input.head?.map f = some (.symbol .exit) := by
    rw [vector_isCatch, List.length_map, List.getElem?_map, List.head?_eq_getElem?]
  constructor
  · intro h hbad
    have hinit : Mapped o f input (World.initial o rnd now input) := reach_mapped .start
    obtain ⟨w, r, hrun, hr⟩ := hinit.reaches_done
    have hret := (scatterGather_returned (h.result w r hrun hr).2.2.1).1
    rcases (reach_mapped hrun).over_result hr with hres | hres
    · rw [hcatch.mpr hbad] at hres
      cases hres.1
    · rw [hres.2, raised_isCatch] at hret
      cases hret
  · intro hgood
    have hc : (Datum.vector (input.map f)).isCatch = false := eq_false_of_ne_true fun he => hgood (hcatch.mp he)
    refine ⟨fun w hw => ?_, fun w hw => ?_, fun w hw hp => ?_, fun w hw => (reach_mapped hw).goes_on,
      fun as w hall hr => ?_, fun w r hw hr => ?_⟩
    · have hpl := (reach_mapped hw).placed
      rw [hpl.starts]
      refine ⟨hpl.indexVec_nodup.sublist (List.take_sublist _ _), fun i hi => ?_⟩
      simpa using hpl.perm.subset (List.mem_of_mem_take hi)
    · have hm := reach_mapped hw
      exact Nat.le_trans hm.tracked.alive_le hm.awaited.limit
    · have hm := reach_mapped hw
      refine ⟨hm.awaited.waits hp, fun hi hnil => ?_⟩
      have hlen := hm.tracked.length_eq
      rw [hi, hnil] at hlen
      exact hm.awaited.waits hp (List.eq_nil_of_length_eq_zero hlen)
    · have hwork := run_work as (reach_mapped .start) hall hr
      have hinit : (World.initial o rnd now input).work = 7 * input.length + 3 := rfl
      omega
    · have hm := reach_mapped hw
      obtain ⟨hst, hdead⟩ := hm.over_starts hr
      rcases hm.over_result hr with hres | hres
      · rw [hres.2]
        refine ⟨hst, hdead, ?_, ?_⟩
        · rw [parallelMap1, scatterGather, Result.tried, if_neg (by simp [hc])]
        · rw [parallelVec1, scatterGather, Result.tried, if_neg (by simp [hc])]
          rfl
      · rw [hc] at hres
        cases hres.1

/-- The call (parallel:map (lambda (x) x) '(EXIT 1)) raises 1. -/
theorem map_of_exit_raises :
    (∃ w, Runs defaultOptions lowest 0 id [.symbol .exit, .integer 1] w ∧ w.phase = .done (.raised (.integer 1))) ∧
      ¬ MapsLike defaultOptions lowest 0 id [.symbol .exit, .integer 1] := by
  have hinit : Mapped defaultOptions id [.symbol .exit, .integer 1]
      (World.initial defaultOptions lowest 0 [.symbol .exit, .integer 1]) := reach_mapped .start
  obtain ⟨w, r, hrun, hr⟩ := hinit.reaches_done
  have hres : r = .raised (.integer 1) := by
    rcases (reach_mapped hrun).over_result hr with hres | hres
    · cases hres.1
    · exact hres.2
  rw [hres] at hr
  refine ⟨⟨w, hrun, hr⟩, fun h => ?_⟩
  have hret := (h.result w _ hrun hr).2.2.1
  cases hret

end Swish.Parallel
