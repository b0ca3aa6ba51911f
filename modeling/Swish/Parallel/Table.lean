import Swish.Parallel.Placed

/-!
The table of pids. Every worker in it is alive or its EXIT message is in the
inbox, so the kernel never waits in vain.
-/

set_option autoImplicit false

namespace Swish.Parallel

open Swish.GenServer.Loop
open Swish.Lib

variable {o : Options} {w w' : World} {input : List Datum}

/-- How often cleanup is still to call wait-for-any. -/
def Phase.remaining : Phase → Option Nat
  | .killing _ _ n => some n
  | .draining _ n => some n
  | _ => none

/-- The EXIT messages of workers. -/
def exits (inbox : List Exit) : List Nat :=
  inbox.filterMap fun x => match x.pid with
    | .worker k => some k
    | _ => none

theorem mem_exits {inbox : List Exit} {k : Nat} : k ∈ exits inbox ↔ ∃ x ∈ inbox, x.pid = .worker k := by
  unfold exits
  rw [List.mem_filterMap]
  constructor
  · intro h
    obtain ⟨x, hx, hk⟩ := h
    refine ⟨x, hx, ?_⟩
    split at hk
    · rename_i heq
      cases hk
      exact heq
    · cases hk
  · intro h
    obtain ⟨x, hx, hk⟩ := h
    exact ⟨x, hx, by rw [hk]⟩

@[simp] theorem exits_append (inbox inbox' : List Exit) : exits (inbox ++ inbox') = exits inbox ++ exits inbox' :=
  List.filterMap_append

@[simp] theorem exits_worker (k : Nat) (raw : Datum) : exits [⟨.worker k, raw⟩] = [k] := rfl

structure Awaited (o : Options) (w : World) : Prop where
  nodup : w.pidHt.Nodup
  below : ∀ k ∈ w.pidHt, k < w.started
  limit : w.pidHt.length ≤ o.startLimit
  waits : w.phase = .waiting → w.pidHt ≠ []
  count : ∀ n, w.phase.remaining = some n → n = w.pidHt.length
  table : ∀ k ∈ w.pidHt, k ∈ w.workers.map (·.no) ∨ k ∈ exits w.inbox

theorem store_numbers (x : Worker) (y : Datum) : (w.store x y).workers.map (·.no) = w.workers.map (·.no) := by
  simp only [World.store, List.map_map]
  apply List.map_congr_left
  intro z _
  simp only [Function.comp_apply]
  split
  · rfl
  · rfl

theorem trapExit_numbers (k : Nat) (on : Bool) :
    (w.workers.map fun z => if z.no = k then { z with trapExit := on } else z).map (·.no) = w.workers.map (·.no) := by
  rw [List.map_map]
  apply List.map_congr_left
  intro z _
  simp only [Function.comp_apply]
  split
  · rfl
  · rfl

namespace Awaited

theorem initial (rnd : Random) (now : Nat) : Awaited o (World.initial o rnd now input) where
  nodup := List.nodup_nil
  below := by simp [World.initial]
  limit := Nat.zero_le _
  waits := by simp [World.initial]
  count := by simp [World.initial, Phase.remaining]
  table := by simp [World.initial]

theorem phase (h : Awaited o w) (p : Phase) (hw : p = .waiting → w.pidHt ≠ [])
    (hc : ∀ n, p.remaining = some n → n = w.pidHt.length) : Awaited o { w with phase := p } :=
  ⟨h.nodup, h.below, h.limit, hw, hc, h.table⟩

/-- A phase with no wait in it. -/
theorem idle (h : Awaited o w) (p : Phase) (hw : p ≠ .waiting) (hc : p.remaining = none) :
    Awaited o { w with phase := p } :=
  h.phase p (fun e => absurd e hw) fun n e => by rw [hc] at e; cases e

theorem send (h : Awaited o w) (x : Exit) : Awaited o (w.send x) := by
  refine ⟨h.nodup, h.below, h.limit, h.waits, h.count, ?_⟩
  intro k hk
  rcases h.table k hk with hr | hr
  · exact .inl hr
  · exact .inr (by simp [World.send, hr])

theorem die (h : Awaited o w) (k : Nat) (raw : Datum) : Awaited o (w.die k raw) := by
  refine ⟨h.nodup, h.below, h.limit, h.waits, h.count, ?_⟩
  intro l hl
  by_cases hlk : l = k
  · exact .inr (by simp [World.die, World.send, hlk])
  · rcases h.table l hl with hr | hr
    · obtain ⟨x, hx, rfl⟩ := List.mem_map.mp hr
      exact .inl (List.mem_map_of_mem (List.mem_filter.mpr ⟨hx, by simpa using hlk⟩))
    · exact .inr (by simp [World.die, World.send, hr])

/-- Workers change but keep their numbers. -/
theorem workers (h : Awaited o w) (h1 : w'.pidHt = w.pidHt) (h2 : w'.started = w.started) (h3 : w'.phase = w.phase)
    (h4 : w'.inbox = w.inbox) (h5 : w'.workers.map (·.no) = w.workers.map (·.no)) : Awaited o w' := by
  refine ⟨?_, ?_, ?_, ?_, ?_, ?_⟩
  · rw [h1]; exact h.nodup
  · rw [h1, h2]; exact h.below
  · rw [h1]; exact h.limit
  · rw [h1, h3]; exact h.waits
  · rw [h1, h3]; exact h.count
  · rw [h1, h4, h5]; exact h.table

theorem startWork (h : Awaited o w) (hp : w.phase = .sg) (hlt : w.pidHt.length < o.startLimit) :
    Awaited o { w.startWork with started := w.started + 1 } := by
  refine ⟨?_, ?_, ?_, ?_, ?_, ?_⟩
  · refine List.nodup_append.mpr ⟨h.nodup, List.nodup_singleton _, ?_⟩
    intro k hk l hl
    rw [List.mem_singleton.mp hl]
    exact Nat.ne_of_lt (h.below k hk)
  · intro k hk
    rcases List.mem_append.mp hk with hk | hk
    · exact Nat.lt_succ_of_lt (h.below k hk)
    · rw [List.mem_singleton.mp hk]
      exact Nat.lt_succ_self _
  · simp only [World.startWork, List.length_append, List.length_singleton]
    omega
  · intro hw
    exact absurd (hp.symm.trans hw) (by simp)
  · intro n hn
    have hn : w.phase.remaining = some n := hn
    rw [hp] at hn
    cases hn
  · intro k hk
    rcases List.mem_append.mp hk with hk | hk
    · rcases h.table k hk with hr | hr
      · exact .inl (by simp [World.startWork, hr])
      · exact .inr hr
    · exact .inl (by simp [World.startWork, List.mem_singleton.mp hk])

/-- A message is taken that no pid still in the table waits for. -/
theorem taken (h : Awaited o w) {x : Exit} {inbox : List Exit} (hi : w.inbox = x :: inbox) {pids : List Nat}
    (hsub : pids.Sublist w.pidHt) (hx : ∀ k ∈ pids, x.pid ≠ .worker k) {p : Phase}
    (hw : p = .waiting → pids ≠ []) (hc : ∀ n, p.remaining = some n → n = pids.length) :
    Awaited o { w.take x inbox with pidHt := pids, phase := p } := by
  refine ⟨h.nodup.sublist hsub, fun k hk => h.below k (hsub.subset hk), Nat.le_trans hsub.length_le h.limit, hw, hc, ?_⟩
  intro k hk
  rcases h.table k (hsub.subset hk) with hr | hr
  · exact .inl hr
  · obtain ⟨y, hy, hyk⟩ := mem_exits.mp hr
    rw [hi] at hy
    rcases List.mem_cons.mp hy with heq | hy
    · rw [heq] at hyk
      exact absurd hyk (hx k hk)
    · exact .inr (mem_exits.mpr ⟨y, hy, hyk⟩)

theorem erased (h : Awaited o w) {x : Exit} {k : Nat} (hx : x.pid = .worker k) :
    ∀ l ∈ w.pidHt.erase k, x.pid ≠ .worker l := by
  intro l hl he
  rw [hx] at he
  cases he
  exact h.nodup.not_mem_erase hl

theorem step (h : Awaited o w) (hle : w.started ≤ w.vec.length) {a : Action} (ht : w.step o a = .ok w') :
    Awaited o w' := by
  cases step_move ht with
  | finished hp hs hpids hc => exact h.idle _ (by simp) rfl
  | misread hp hs hpids hc => exact h.idle _ (by simp) rfl
  | start hp hs hl => exact h.startWork hp hl
  | wait hp hne hge =>
    refine h.phase .waiting (fun _ he => ?_) fun n e => by cases e
    -- with no worker running, sg is at its end or can start the next one
    have hlen : w.pidHt.length = 0 := by rw [he]; rfl
    have hpos := o.positive
    omega
  | parentExit x inbox hp hi hx =>
    exact h.taken hi (.refl _) (fun k _ he => by rw [hx] at he; cases he) (by simp) (by simp [Phase.remaining])
  | workerExit x inbox k hp hi hx hk hn =>
    exact h.taken hi List.erase_sublist (h.erased hx) (by simp) (by simp [Phase.remaining])
  | workerFailed x inbox k hp hi hx hk hn =>
    exact h.taken hi List.erase_sublist (h.erased hx) (by simp) (by simp [Phase.remaining])
  | ignored x inbox hp hi hx hk => exact h.taken hi (.refl _) hk h.waits h.count
  | clean err hp hpids => exact h.phase _ (by simp) (by simp [Phase.remaining])
  | failed err hp hpids => exact h.idle _ (by simp) rfl
  | killing err k pids n hp =>
    have hc : n = w.pidHt.length := h.count n (by rw [hp]; rfl)
    have hk : Awaited o { w with phase := .killing err pids n } := h.phase _ (by simp) (by simp [Phase.remaining, hc])
    exact kill_rec err hk fun _ raw _ _ => hk.die k raw
  | drain err n hp =>
    have hc : n = w.pidHt.length := h.count n (by rw [hp]; rfl)
    exact h.phase _ (by simp) (by simp [Phase.remaining, hc])
  | drained err hp => exact h.idle _ (by simp) rfl
  | reaped err n x inbox k hp hi hx hk =>
    have hc : n + 1 = w.pidHt.length := h.count (n + 1) (by rw [hp]; rfl)
    have hlen := List.length_erase_of_mem hk
    exact h.taken hi List.erase_sublist (h.erased hx) (by simp) (by simp [Phase.remaining]; omega)
  | skipped err n x inbox hp hi hk => exact h.taken hi (.refl _) hk h.waits h.count
  | expire hp hi => exact ⟨h.nodup, h.below, h.limit, by simp, by simp [Phase.remaining], h.table⟩
  | tick elapsed => exact h.workers rfl rfl rfl rfl rfl
  | store k y x hf hs => exact h.workers rfl rfl rfl rfl (store_numbers x y)
  | finish k x hf hs => exact h.die k normal
  | raise k raw x hf hs => exact h.die k raw
  | kill k raw => exact kill_rec raw h fun _ raw _ _ => h.die k raw
  | linked k raw => exact linked_rec raw h fun _ raw _ _ => h.die k raw
  | trapExit k on => exact h.workers rfl rfl rfl rfl (trapExit_numbers k on)
  | signal p raw => exact h.send _

end Awaited

theorem reach_awaited {rnd : Random} {now : Nat} {allowed : World → Action → Prop}
    (h : Reach (World.initial o rnd now input) (World.step o) allowed w) : Awaited o w := by
  have hboth : Placed input w ∧ Awaited o w := by
    refine h.invariant (I := fun w => Placed input w ∧ Awaited o w)
      ⟨Placed.initial rnd now, Awaited.initial rnd now⟩ fun s a t hs _ ht => ?_
    have hle : s.started ≤ s.vec.length := by
      rw [hs.1.length]
      exact hs.1.le
    exact ⟨hs.1.step ht, hs.2.step hle ht⟩
  exact hboth.2

/-- A kernel with no worker alive is never blocked. -/
theorem kernel_enabled (h : Awaited o w) (hd : ∀ r, w.phase ≠ .done r) (hw : w.workers = []) :
    ∃ w', w.step o .kernel = .ok w' := by
  have hinbox : w.pidHt ≠ [] → w.inbox ≠ [] := by
    intro hne he
    obtain ⟨k, hk⟩ := List.exists_mem_of_ne_nil _ hne
    have := h.table k hk
    simp [hw, he, exits] at this
  simp only [World.step, World.kernel]
  split
  · exact ⟨_, rfl⟩
  · split
    · exact absurd ‹_› (hinbox (h.waits ‹_›))
    · exact ⟨_, rfl⟩
  · split
    · exact ⟨_, rfl⟩
    · exact ⟨_, rfl⟩
  · exact ⟨_, rfl⟩
  · exact ⟨_, rfl⟩
  · exact ⟨_, rfl⟩
  · rename_i err n hp
    have hc : n + 1 = w.pidHt.length := h.count (n + 1) (by rw [hp]; rfl)
    split
    · exact absurd ‹_› (hinbox (List.ne_nil_of_length_pos (by omega)))
    · exact ⟨_, rfl⟩
  · exact absurd ‹_› (hd _)

/-- No EXIT message of a worker is sent while it is alive. -/
def unforged : Action → Bool
  | .signal (.worker _) _ => false
  | _ => true

/-- The table holds the workers alive and those whose EXIT message is still to come, each of them once. -/
def Tracked (w : World) : Prop :=
  w.pidHt.Perm (w.workers.map (·.no) ++ exits w.inbox)

namespace Tracked

theorem initial (rnd : Random) (now : Nat) : Tracked (World.initial o rnd now input) := .refl _

theorem die (h : Tracked w) (hn : (w.workers.map (·.no)).Nodup) {k : Nat} {x : Worker} (hf : w.find k = some x)
    (raw : Datum) : Tracked (w.die k raw) := by
  obtain ⟨hx, rfl⟩ := find_some hf
  have hperm := (perm_cons_filter hn hx).map (·.no)
  unfold Tracked
  simp only [World.die, World.send, exits_append, exits_worker]
  refine h.trans ?_
  calc w.workers.map (·.no) ++ exits w.inbox
      _ |>.Perm ((x.no :: (w.workers.filter fun y => y.no != x.no).map (·.no)) ++ exits w.inbox) :=
        hperm.append_right _
      _ |>.Perm ((w.workers.filter fun y => y.no != x.no).map (·.no) ++ x.no :: exits w.inbox) :=
        List.perm_middle.symm
      _ |>.Perm ((w.workers.filter fun y => y.no != x.no).map (·.no) ++ (exits w.inbox ++ [x.no])) :=
        (List.perm_append_singleton _ _).symm.append_left _

/-- A message that is no worker's. -/
theorem foreign {x : Exit} (hx : ∀ k, x.pid ≠ .worker k) (inbox : List Exit) : exits (x :: inbox) = exits inbox := by
  unfold exits
  rw [List.filterMap_cons_none]
  split
  · rename_i k heq
    exact absurd heq (hx k)
  · rfl

theorem send (h : Tracked w) {x : Exit} (hx : ∀ k, x.pid ≠ .worker k) : Tracked (w.send x) := by
  have hnil : exits [x] = [] := foreign hx []
  unfold Tracked
  simp only [World.send, exits_append, hnil, List.append_nil]
  exact h

theorem exits_cons {x : Exit} {k : Nat} (hx : x.pid = .worker k) (inbox : List Exit) :
    exits (x :: inbox) = k :: exits inbox := by
  unfold exits
  rw [List.filterMap_cons_some]
  rw [hx]

theorem erase (h : Tracked w) {x : Exit} {inbox : List Exit} (hi : w.inbox = x :: inbox) {k : Nat}
    (hx : x.pid = .worker k) : (w.pidHt.erase k).Perm (w.workers.map (·.no) ++ exits inbox) := by
  unfold Tracked at h
  rw [hi, exits_cons hx] at h
  have := (h.trans List.perm_middle).erase k
  rwa [List.erase_cons_head] at this

/-- The messages of workers are all of workers in the table. -/
theorem skip (h : Tracked w) {x : Exit} {inbox : List Exit} (hi : w.inbox = x :: inbox)
    (hk : ∀ k ∈ w.pidHt, x.pid ≠ .worker k) : Tracked (w.take x inbox) := by
  have hx : ∀ k, x.pid ≠ .worker k := by
    intro k he
    refine hk k (h.mem_iff.mpr ?_) he
    rw [hi, exits_cons he]
    simp
  have hp : w.pidHt.Perm (w.workers.map (·.no) ++ exits w.inbox) := h
  rw [hi, foreign hx] at hp
  exact hp

theorem step (h : Tracked w) (hn : (w.workers.map (·.no)).Nodup) {a : Action} (ha : unforged a = true)
    (ht : w.step o a = .ok w') : Tracked w' := by
  cases step_move ht with
  | start hp hs hl =>
    unfold Tracked
    simp only [World.startWork, List.map_append, List.map_cons, List.map_nil, List.append_assoc, List.singleton_append]
    exact (List.perm_append_singleton _ _).trans ((List.Perm.cons _ h).trans List.perm_middle.symm)
  | parentExit x inbox hp hi hx => exact h.skip hi fun k _ he => by rw [hx] at he; cases he
  | workerExit x inbox k hp hi hx hk hn => exact h.erase hi hx
  | workerFailed x inbox k hp hi hx hk hn => exact h.erase hi hx
  | ignored x inbox hp hi hx hk => exact h.skip hi hk
  | killing err k pids n hp =>
    have hk : Tracked { w with phase := .killing err pids n } := h
    exact kill_rec err hk fun _ raw hf _ => hk.die hn hf raw
  | reaped err n x inbox k hp hi hx hk => exact h.erase hi hx
  | skipped err n x inbox hp hi hk => exact h.skip hi hk
  | store k y x hf hs =>
    unfold Tracked
    rw [store_numbers]
    exact h
  | finish k x hf hs => exact h.die hn hf normal
  | raise k raw x hf hs => exact h.die hn hf raw
  | kill k raw => exact kill_rec raw h fun _ raw hf _ => h.die hn hf raw
  | linked k raw => exact linked_rec raw h fun _ raw hf _ => h.die hn hf raw
  | trapExit k on =>
    unfold Tracked
    rw [trapExit_numbers]
    exact h
  | signal p raw =>
    cases p with
    | worker k => cases ha
    | parent => exact h.send (by simp)
    | other n => exact h.send (by simp)
  | _ => exact h

/-- At most as many workers are alive as the table holds. -/
theorem alive_le (h : Tracked w) : w.workers.length ≤ w.pidHt.length := by
  rw [h.length_eq, List.length_append, List.length_map]
  omega

theorem workers_nil (h : Tracked w) (hp : w.pidHt = []) : w.workers = [] := by
  apply List.eq_nil_of_length_eq_zero
  have := h.alive_le
  rw [hp] at this
  exact Nat.eq_zero_of_le_zero this

end Tracked

theorem reach_tracked {rnd : Random} {now : Nat} {allowed : World → Action → Prop}
    (ha : ∀ w a, allowed w a → unforged a = true)
    (h : Reach (World.initial o rnd now input) (World.step o) allowed w) : Tracked w := by
  have hboth : Placed input w ∧ Tracked w := by
    refine h.invariant (I := fun w => Placed input w ∧ Tracked w)
      ⟨Placed.initial rnd now, Tracked.initial rnd now⟩ fun s a t hs hall ht => ?_
    exact ⟨hs.1.step ht, hs.2.step hs.1.nodup (ha s a hall) ht⟩
  exact hboth.2

end Swish.Parallel
