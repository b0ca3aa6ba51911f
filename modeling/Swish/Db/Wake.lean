import Swish.Db.Order

/-!
The timeouts of the db server: it does not wait without a reason, and it expires no statement
while a worker runs.
-/

set_option autoImplicit false

namespace Swish.Db

open Swish.Lib

/-- One day in milliseconds. -/
def day : Nat := 86400000

/-- What holds of the cache at a time, if the clock goes on by at most d between the two readings
of get-statement. -/
structure Cache.Timed (d now : Nat) (cache : Cache) : Prop where
  stamps : ∀ x ∈ cache.ht, day < x.2 ∧ x.2 ≤ now
  wake : ∀ t, cache.waketime = some t → day < t ∧ t ≤ now + cache.expireTimeout
  covered : cache.ht ≠ [] → ∃ t, cache.waketime = some t ∧ ∀ x ∈ cache.ht, t ≤ x.2 + cache.expireTimeout + d

variable {o : Options} {w w' : World} {cache cache' : Cache} {d now later : Nat}

theorem Cache.Timed.mono (h : cache.Timed d now) (hle : now ≤ later) : cache.Timed d later := by
  refine ⟨?_, ?_, h.covered⟩
  · intro x hx
    obtain ⟨h1, h2⟩ := h.stamps x hx
    exact ⟨h1, Nat.le_trans h2 hle⟩
  · intro t ht
    obtain ⟨h1, h2⟩ := h.wake t ht
    exact ⟨h1, by omega⟩

/-- The entry of a new statement. -/
theorem Cache.getStatement_new {prepared : Bool} {sql : Sql} (hnew : ¬(cache.ht.any fun x => x.1 = sql) = true)
    (hg : cache.getStatement now later prepared sql = some cache') :
    cache' = { cache with
      ht := (sql, now) :: cache.ht
      waketime := cache.waketime.or (some (later + cache.expireTimeout)) } := by
  unfold Cache.getStatement at hg
  rw [if_neg hnew] at hg
  split at hg
  · cases hg
    cases cache.waketime with
    | none => rfl
    | some t => rfl
  · cases hg

theorem Cache.Timed.getStatement (h : cache.Timed d now) (hday : day < now) {prepared : Bool} {sql : Sql}
    (hg : cache.getStatement now later prepared sql = some cache') (hle : now ≤ later) (hd : later ≤ now + d) :
    cache'.Timed d later := by
  by_cases hold : (cache.ht.any fun x => x.1 = sql) = true
  · unfold Cache.getStatement at hg
    rw [if_pos hold] at hg
    cases hg
    -- The entry gets a later timestamp.
    have hstamp : ∀ x ∈ cache.ht, ∀ y, y = (if x.1 = sql then (sql, now) else x) → day < y.2 ∧ y.2 ≤ later ∧ x.2 ≤ y.2 := by
      intro x hx y hy
      obtain ⟨h1, h2⟩ := h.stamps x hx
      subst hy
      split
      · exact ⟨hday, hle, h2⟩
      · exact ⟨h1, Nat.le_trans h2 hle, Nat.le_refl _⟩
    refine ⟨?_, ?_, ?_⟩
    · intro y hy
      obtain ⟨x, hx, hxy⟩ := List.mem_map.mp hy
      obtain ⟨h1, h2, -⟩ := hstamp x hx y hxy.symm
      exact ⟨h1, h2⟩
    · intro t ht
      obtain ⟨h1, h2⟩ := h.wake t ht
      dsimp only
      exact ⟨h1, by omega⟩
    · intro hne
      obtain ⟨t, ht, hall⟩ := h.covered (fun hnil => hne (by rw [hnil]; rfl))
      refine ⟨t, ht, ?_⟩
      intro y hy
      obtain ⟨x, hx, hxy⟩ := List.mem_map.mp hy
      obtain ⟨-, -, h3⟩ := hstamp x hx y hxy.symm
      have h4 := hall x hx
      dsimp only
      omega
  · cases Cache.getStatement_new hold hg
    have hwake : ∃ t, cache.waketime.or (some (later + cache.expireTimeout)) = some t ∧ day < t ∧
        t ≤ later + cache.expireTimeout ∧ t ≤ now + cache.expireTimeout + d ∧ ∀ x ∈ cache.ht, t ≤ x.2 + cache.expireTimeout + d := by
      cases hw : cache.waketime with
      | some t =>
        obtain ⟨h1, h2⟩ := h.wake t hw
        refine ⟨t, rfl, h1, by omega, by omega, ?_⟩
        intro x hx
        obtain ⟨t', ht', hall⟩ := h.covered (List.ne_nil_of_mem hx)
        rw [hw] at ht'
        cases ht'
        exact hall x hx
      | none =>
        refine ⟨later + cache.expireTimeout, rfl, by omega, Nat.le_refl _, by omega, ?_⟩
        intro x hx
        obtain ⟨t', ht', -⟩ := h.covered (List.ne_nil_of_mem hx)
        rw [hw] at ht'
        cases ht'
    obtain ⟨t, ht, h1, h2, h3, h4⟩ := hwake
    refine ⟨?_, ?_, ?_⟩
    · intro x hx
      rcases List.mem_cons.mp hx with rfl | hx
      · exact ⟨hday, hle⟩
      · obtain ⟨h5, h6⟩ := h.stamps x hx
        exact ⟨h5, Nat.le_trans h6 hle⟩
    · intro t' ht'
      have heq : some t = some t' := ht.symm.trans ht'
      cases heq
      exact ⟨h1, h2⟩
    · intro _
      refine ⟨t, ht, ?_⟩
      intro x hx
      rcases List.mem_cons.mp hx with rfl | hx
      · exact h3
      · exact h4 x hx

theorem removeDead_subset {dead : Sql × Nat → Bool} {finalizes : Sql → Bool} {ht : List (Sql × Nat)} {x : Sql × Nat}
    (h : x ∈ (removeDead dead finalizes ht).2) : x ∈ ht := by
  induction ht with
  | nil => exact h
  | cons y ht ih =>
    rw [removeDead] at h
    split at h
    · split at h
      · exact List.mem_cons_of_mem _ (ih h)
      · exact List.mem_cons_of_mem _ h
    · rcases List.mem_cons.mp h with rfl | h
      · exact List.mem_cons_self
      · exact List.mem_cons_of_mem _ (ih h)

theorem oldest_spec (ht : List (Sql × Nat)) :
    (oldest ht = none ↔ ht = []) ∧ ∀ t, oldest ht = some t → (∃ x ∈ ht, x.2 = t) ∧ ∀ x ∈ ht, t ≤ x.2 := by
  induction ht with
  | nil => exact ⟨⟨fun _ => rfl, fun _ => rfl⟩, fun t h => (by cases h)⟩
  | cons y ht ih =>
    rw [oldest]
    cases ho : oldest ht with
    | none =>
      have hnil := ih.1.mp ho
      subst hnil
      refine ⟨⟨fun h => (by cases h), fun h => (by cases h)⟩, ?_⟩
      intro t h
      cases h
      exact ⟨⟨y, List.mem_cons_self, rfl⟩, fun x hx => Nat.le_of_eq (by rw [List.mem_singleton.mp hx])⟩
    | some t₀ =>
      obtain ⟨⟨z, hz, hzt⟩, hall⟩ := ih.2 t₀ ho
      refine ⟨⟨fun h => (by cases h), fun h => (by cases h)⟩, ?_⟩
      intro t h
      cases h
      refine ⟨?_, ?_⟩
      · rcases Nat.le_total y.2 t₀ with hle | hle
        · exact ⟨y, List.mem_cons_self, by rw [Nat.min_eq_left hle]⟩
        · exact ⟨z, List.mem_cons_of_mem _ hz, by rw [Nat.min_eq_right hle, hzt]⟩
      · intro x hx
        rcases List.mem_cons.mp hx with rfl | hx
        · exact Nat.min_le_left _ _
        · exact Nat.le_trans (Nat.min_le_right _ _) (hall x hx)

theorem Cache.Timed.removeDeadEntries (h : cache.Timed d now) (expireNow finalizes : Sql → Bool) :
    (cache.removeDeadEntries now expireNow finalizes).2.Timed d now := by
  have hsub := @removeDead_subset (fun x => x.2 + cache.expireTimeout ≤ now || expireNow x.1) finalizes cache.ht
  unfold Cache.removeDeadEntries
  split
  · rename_i kept hkept
    rw [hkept] at hsub
    obtain ⟨hnone, hsome⟩ := oldest_spec kept
    refine ⟨fun x hx => h.stamps x (hsub hx), ?_, ?_⟩
    · intro t ht
      obtain ⟨t₀, ho, rfl⟩ := Option.map_eq_some_iff.mp ht
      obtain ⟨⟨x, hx, hxt⟩, -⟩ := hsome t₀ ho
      obtain ⟨h1, h2⟩ := h.stamps x (hsub hx)
      dsimp only
      exact ⟨by omega, by omega⟩
    · intro hne
      cases ho : oldest kept with
      | none => exact absurd (hnone.mp ho) hne
      | some t₀ =>
        refine ⟨t₀ + cache.expireTimeout, rfl, ?_⟩
        intro x hx
        have hle := (hsome t₀ ho).2 x hx
        dsimp only
        omega
  · rename_i kept hkept
    rw [hkept] at hsub
    refine ⟨fun x hx => h.stamps x (hsub hx), h.wake, ?_⟩
    intro hne
    obtain ⟨x, hx⟩ := List.exists_mem_of_ne_nil kept hne
    obtain ⟨t, ht, hall⟩ := h.covered (List.ne_nil_of_mem (hsub hx))
    exact ⟨t, ht, fun y hy => hall y (hsub hy)⟩

/-- What a step of a worker does to the cache and the clock. -/
inductive Touches (w : World) (elapsed : Nat) : Cache → Nat → Prop where
  | none : Touches w elapsed w.cache w.now
  | statement (prepared : Bool) (sql : Sql) (cache : Cache)
    (h : w.cache.getStatement w.now (w.now + elapsed) prepared sql = some cache) : Touches w elapsed cache (w.now + elapsed)
  | expire (finalizes : Sql → Bool) : Touches w elapsed (w.cache.removeDeadEntries w.now expires finalizes).2 w.now

def Work.elapsed : Work → Nat
  | .fill _ elapsed => elapsed
  | .control _ elapsed _ => elapsed
  | .execute _ _ elapsed _ => elapsed
  | _ => 0

def Event.isExpired : Event → Bool
  | .expired _ => true
  | _ => false

/-- A step of a worker leaves the server alone. -/
structure Apart (w w' : World) (elapsed : Nat) : Prop where
  state : w'.state = w.state
  status : w'.status = w.status
  timeout : w'.timeout = w.timeout
  expired : w'.log.filter Event.isExpired = w.log.filter Event.isExpired
  cache : Touches w elapsed w'.cache w'.now

theorem apart_control {pid : Nat} {sql : Sql} {prepared : Bool} {elapsed : Nat} {attempts : List Attempt} {next : World → World}
    (ht : w.control pid sql prepared elapsed attempts next = .ok w') (hnext : ∀ w₁, Apart w₁ (next w₁) 0)
    (hcache : ∀ w₁, (next w₁).cache = w₁.cache ∧ (next w₁).now = w₁.now) : Apart w w' elapsed := by
  obtain rfl | ⟨cache, hget, ⟨x, -, rfl⟩ | rfl⟩ := World.control_cases ht
  · exact ⟨rfl, rfl, rfl, rfl, .none⟩
  · exact ⟨rfl, rfl, rfl, rfl, .statement prepared sql cache hget⟩
  · have hn := hnext { w with cache := cache, now := w.now + elapsed, isOpen := effect sql }
    obtain ⟨hc, ht⟩ := hcache { w with cache := cache, now := w.now + elapsed, isOpen := effect sql }
    refine ⟨hn.state, hn.status, hn.timeout, hn.expired, ?_⟩
    rw [hc, ht]
    exact .statement prepared sql cache hget

theorem work_apart {worker : Worker} {a : Work} (ht : w.work worker a = .ok w') : Apart w w' a.elapsed := by
  unfold World.work at ht
  dsimp only at ht
  split at ht
  · cases ht
    exact ⟨rfl, rfl, rfl, rfl, .none⟩
  · rename_i l ls i vstmt vbind prepared elapsed hp
    split at ht
    · cases ht
      exact ⟨rfl, rfl, rfl, rfl, .none⟩
    · rename_i cache hcache
      split at ht
      · cases ht
        exact ⟨rfl, rfl, rfl, rfl, .statement prepared l.sql cache hcache⟩
      · cases ht
        exact ⟨rfl, rfl, rfl, rfl, .statement prepared l.sql cache hcache⟩
  · exact apart_control ht (fun w₁ => ⟨rfl, rfl, rfl, rfl, .none⟩) fun w₁ => ⟨rfl, rfl⟩
  · cases ht
    split
    · exact ⟨rfl, rfl, rfl, rfl, .none⟩
    · exact ⟨rfl, rfl, rfl, rfl, .none⟩
  · exact apart_control ht (fun w₁ => ⟨rfl, rfl, rfl, rfl, .none⟩) fun w₁ => ⟨rfl, rfl⟩
  · cases ht
    split
    · exact ⟨rfl, rfl, rfl, rfl, .none⟩
    · exact ⟨rfl, rfl, rfl, rfl, .none⟩
  · exact apart_control ht (fun w₁ => ⟨rfl, rfl, rfl, rfl, .none⟩) fun w₁ => ⟨rfl, rfl⟩
  · rename_i sql prepared elapsed isOpen hp
    split at ht
    · cases ht
      exact ⟨rfl, rfl, rfl, rfl, .none⟩
    · rename_i cache hcache
      cases ht
      exact ⟨rfl, rfl, rfl, rfl, .statement prepared sql cache hcache⟩
  · cases ht
    exact ⟨rfl, rfl, rfl, rfl, .expire _⟩
  · cases ht
    exact ⟨rfl, rfl, rfl, rfl, .none⟩
  · cases ht
    split
    · exact ⟨rfl, rfl, rfl, rfl, .none⟩
    · exact ⟨rfl, rfl, rfl, rfl, .none⟩
  · rename_i x prepared elapsed attempts hp
    refine apart_control ht (fun w₁ => ⟨rfl, rfl, rfl, ?_, .none⟩) fun w₁ => ⟨rfl, rfl⟩
    cases x.isCatch <;> rfl
  · split at ht
    · cases ht
      exact ⟨rfl, rfl, rfl, rfl, .none⟩
    · cases ht
  · cases ht
    exact ⟨rfl, rfl, rfl, rfl, .none⟩
  · cases ht

/-- What holds of the clocks in every state. -/
structure Clocks (d : Nat) (w : World) : Prop where
  present : day < w.now
  cache : w.cache.Timed d w.now
  log : ∀ t, w.state.logTimeout = some t → day < t
  empty : w.state.queue.toList = [] → w.state.logTimeout = none
  expired : ∀ worker, .expired worker ∈ w.log → worker = none

/-- What holds of a server that runs. -/
structure Awake (w : World) : Prop where
  waits : w.timeout = w.getTimeout
  idle : w.state.worker = none → w.state.queue.toList ≠ [] → w.state.logTimeout ≠ none

theorem mem_expired {log : List Event} {worker : Option Nat} :
    .expired worker ∈ log ↔ .expired worker ∈ log.filter Event.isExpired := by
  simp [List.mem_filter, Event.isExpired]

theorem Apart.clocks {elapsed : Nat} (h : Apart w w' elapsed) (hle : elapsed ≤ d) (hc : Clocks d w) : Clocks d w' := by
  have hcache : day < w'.now ∧ w'.cache.Timed d w'.now := by
    have hnow := hc.present
    have ht := h.cache
    generalize w'.cache = cache' at ht ⊢
    generalize w'.now = now' at ht ⊢
    cases ht with
    | none => exact ⟨hnow, hc.cache⟩
    | statement prepared sql cache hget => exact ⟨by omega, hc.cache.getStatement hnow hget (by omega) (by omega)⟩
    | expire finalizes => exact ⟨hnow, hc.cache.removeDeadEntries _ _⟩
  refine ⟨hcache.1, hcache.2, ?_, ?_, ?_⟩
  · rw [h.state]
    exact hc.log
  · rw [h.state]
    exact hc.empty
  · intro worker hm
    rw [mem_expired, h.expired, ← mem_expired] at hm
    exact hc.expired worker hm

theorem Apart.awake {elapsed : Nat} (h : Apart w w' elapsed) (hw : w.state.worker ≠ none) (ha : Awake w) : Awake w' := by
  obtain ⟨pid, hpid⟩ := Option.ne_none_iff_exists'.mp hw
  refine ⟨?_, ?_⟩
  · rw [h.timeout, ha.waits]
    simp only [World.getTimeout, h.state, hpid]
  · rw [h.state]
    exact ha.idle

/-! The server. -/

theorem resolveTimeout_of_lt (now : Nat) {x : Option Nat} (h : ∀ t, x = some t → day < t) : resolveTimeout now x = x := by
  cases x with
  | none => rfl
  | some t =>
    have ht := h t rfl
    rw [resolveTimeout, if_neg (by rw [day] at ht; omega)]

theorem Clocks.getTimeout (h : Clocks d w) {t : Nat} (ht : w.getTimeout = some t) : day < t := by
  unfold World.getTimeout at ht
  split at ht
  · cases ht
  · cases hl : w.state.logTimeout with
    | some t' =>
      rw [hl] at ht
      cases ht
      exact h.log t hl
    | none =>
      rw [hl] at ht
      exact (h.cache.wake t ht).1

theorem Clocks.resume (h : Clocks d w) (hidle : w.state.worker = none → w.state.queue.toList ≠ [] → w.state.logTimeout ≠ none) :
    Clocks d w.resume ∧ Awake w.resume := by
  refine ⟨⟨h.present, h.cache, h.log, h.empty, h.expired⟩, ?_, hidle⟩
  exact resolveTimeout_of_lt _ fun t ht => h.getTimeout ht

theorem Clocks.start (h : Clocks d w) {queue : Queue Request} (hv : queue.Valid) (job : Job) (terminating : Bool) :
    Clocks d (w.start queue job terminating) := by
  refine ⟨h.present, h.cache, ?_, ?_, ?_⟩
  · intro t ht
    simp only [World.start] at ht
    split at ht
    · cases ht
    · exact h.log t ht
  · intro hq
    simp only [World.start]
    rw [if_pos (hv.isEmpty_iff.mpr hq)]
  · intro worker hm
    rcases List.mem_cons.mp hm with heq | hm
    · cases heq
    · exact h.expired worker hm

theorem Clocks.update (h : Clocks d w) (hv : w.state.queue.Valid) (terminating : Bool) :
    ∃ w', w.update o terminating = .ok w' ∧ Clocks d w' ∧ (w'.state.worker = none → w'.state.queue.toList = []) := by
  rcases World.update_cases o hv terminating with ⟨hu, hidle⟩ | ⟨queue', job, hu, -, hv', -, -⟩
  · refine ⟨w, hu, h, ?_⟩
    intro hw
    rcases hidle with hsome | hempty
    · rw [hw] at hsome
      cases hsome
    · exact hv.isEmpty_iff.mp hempty
  · exact ⟨_, hu, h.start hv' job terminating, fun hw => (by cases hw)⟩

theorem Clocks.noReply (h : Clocks d w) (hv : w.state.queue.Valid) : Clocks d (w.noReply o) ∧ Awake (w.noReply o) := by
  obtain ⟨w', hu, hc, hidle⟩ := h.update (o := o) hv false
  unfold World.noReply
  rw [hu]
  exact hc.resume fun hw hq => absurd (hidle hw) hq

theorem Clocks.terminate (h : Clocks d w) (hv : w.state.queue.Valid) (r : Reason) :
    Clocks d (w.terminate o r) ∧ (w.terminate o r).status ≠ .running := by
  obtain ⟨w', hu, hc, -⟩ := h.update (o := o) hv true
  unfold World.terminate
  rw [hu]
  refine ⟨⟨hc.present, hc.cache, hc.log, hc.empty, hc.expired⟩, ?_⟩
  dsimp only
  split
  · exact fun hr => (by cases hr)
  · exact fun hr => (by cases hr)

/-- What holds after a handler. -/
def Tended (d : Nat) (w : World) : Prop := Clocks d w ∧ (w.status = .running → Awake w)

theorem Clocks.tended_noReply (h : Clocks d w) (hv : w.state.queue.Valid) : Tended d (w.noReply o) := by
  obtain ⟨hc, ha⟩ := h.noReply (o := o) hv
  exact ⟨hc, fun _ => ha⟩

theorem Clocks.tended_terminate (h : Clocks d w) (hv : w.state.queue.Valid) (r : Reason) : Tended d (w.terminate o r) := by
  obtain ⟨hc, hstatus⟩ := h.terminate (o := o) hv r
  exact ⟨hc, fun hr => absurd hr hstatus⟩

theorem Clocks.add (h : Clocks d w) (r : Request) {logTimeout : Option Nat} (hl : ∀ t, logTimeout = some t → day < t) :
    Clocks d { w with state := ⟨w.state.queue.add r, w.state.worker, logTimeout⟩ } := by
  refine ⟨h.present, h.cache, hl, ?_, h.expired⟩
  intro hq
  dsimp only at hq
  rw [Queue.toList_add] at hq
  exact absurd hq (by simp)

theorem Clocks.handle (h : Clocks d w) (hv : w.state.queue.Valid) (ha : Awake w) {m : Message} {inbox : List Message} :
    Tended d ({ w with inbox := inbox }.handle o m) := by
  have hpop : Clocks d { w with inbox := inbox } := ⟨h.present, h.cache, h.log, h.empty, h.expired⟩
  cases m with
  | request r =>
    cases r with
    | transaction f client => exact (hpop.add _ h.log).tended_noReply (hv.add _)
    | log l =>
      have htimeout : ∀ t, (w.state.logTimeout <|> some (w.now + o.commitDelay)) = some t → day < t := by
        intro t ht
        cases hl : w.state.logTimeout with
        | some t' =>
          rw [hl] at ht
          cases ht
          exact h.log t hl
        | none =>
          rw [hl] at ht
          cases ht
          exact Nat.lt_of_lt_of_le h.present (Nat.le_add_right _ _)
      have hadd := hpop.add (.log l) htimeout
      rw [World.handle]
      unfold World.noReplyDelay
      split
      · exact hadd.tended_noReply (hv.add _)
      · obtain ⟨hc, hw⟩ := hadd.resume (by
          intro _ _
          dsimp only
          cases w.state.logTimeout <;> exact fun hh => (by cases hh))
        exact ⟨hc, fun _ => hw⟩
  | filename client =>
    obtain ⟨hc, hw⟩ := hpop.resume ha.idle
    exact ⟨hc, fun _ => hw⟩
  | debug => exact ⟨hpop, fun _ => ⟨ha.waits, ha.idle⟩⟩
  | stop client => exact hpop.tended_terminate hv _
  | down pid r =>
    have hnone : Clocks d { w with inbox := inbox, state := { w.state with worker := none } } :=
      ⟨h.present, h.cache, h.log, h.empty, h.expired⟩
    rw [World.handle]
    split
    · dsimp only
      split
      · exact hnone.tended_noReply hv
      · exact hnone.tended_terminate hv _
    · exact hpop.tended_noReply hv
  | exit pid r =>
    rw [World.handle]
    split
    · exact hpop.tended_noReply hv
    · exact hpop.tended_terminate hv _

/-- The loop waits with a timeout only if there is no worker. -/
theorem Awake.no_worker (ha : Awake w) {t : Nat} (ht : w.timeout = some t) : w.state.worker = none := by
  cases hw : w.state.worker with
  | none => rfl
  | some pid =>
    rw [ha.waits, World.getTimeout, hw] at ht
    cases ht

theorem Clocks.handleTimeout (h : Clocks d w) (hv : w.state.queue.Valid) (hw : w.state.worker = none) (finalizes : Sql → Bool) :
    Tended d (w.handleTimeout o finalizes) := by
  have hexpire : Clocks d ({ w with cache := (w.cache.removeDeadEntries w.now (fun _ => false) finalizes).2 }.note
      (.expired w.state.worker)) := by
    refine ⟨h.present, h.cache.removeDeadEntries _ _, h.log, h.empty, ?_⟩
    intro worker hm
    rcases List.mem_cons.mp hm with heq | hm
    · cases heq
      exact hw
    · exact h.expired worker hm
  unfold World.handleTimeout
  split
  · dsimp only
    split
    · exact hexpire.tended_noReply hv
    · exact hexpire.tended_terminate hv _
  · exact h.tended_noReply hv

/-- The clock goes on by at most d between the two readings of get-statement. -/
def Within (d : Nat) (_ : World) : Action → Prop
  | .work _ a => a.elapsed ≤ d
  | _ => True

theorem step_tended {a : Action} (h : Tended d w) (ho : Ordered o w) (ha : Within d w a) (ht : w.step o a = .ok w') :
    Tended d w' := by
  obtain ⟨hc, hawake⟩ := h
  have hsend : ∀ m, Tended d (w.send m) :=
    fun m => ⟨⟨hc.present, hc.cache, hc.log, hc.empty, hc.expired⟩, fun hr => ⟨(hawake hr).waits, (hawake hr).idle⟩⟩
  have hrequest : ∀ r, Tended d ({ w with requests := w.requests ++ [r] }.send (.request r)) :=
    fun r => ⟨⟨hc.present, hc.cache, hc.log, hc.empty, hc.expired⟩, fun hr => ⟨(hawake hr).waits, (hawake hr).idle⟩⟩
  cases a with
  | send r =>
    cases r with
    | transaction f client =>
      simp only [World.step] at ht
      split at ht
      · cases ht
      · cases ht
        exact hrequest _
    | log l =>
      cases ht
      exact hrequest _
  | filename client =>
    cases ht
    exact hsend _
  | debug =>
    cases ht
    exact hsend _
  | stop client =>
    cases ht
    exact hsend _
  | exits pid r =>
    cases ht
    exact hsend _
  | tick elapsed =>
    cases ht
    refine ⟨⟨?_, hc.cache.mono (Nat.le_add_right _ _), hc.log, hc.empty, hc.expired⟩, fun hr => ⟨(hawake hr).waits, (hawake hr).idle⟩⟩
    exact Nat.lt_of_lt_of_le hc.present (Nat.le_add_right _ _)
  | work pid a =>
    simp only [World.step] at ht
    split at ht
    · cases ht
    · rename_i worker hfind
      have hworker := ho.worker worker (List.mem_of_find?_eq_some hfind)
      have hapart := work_apart ht
      refine ⟨hapart.clocks ha hc, ?_⟩
      intro hr
      rw [hapart.status] at hr
      exact hapart.awake (by rw [hworker]; exact fun hh => (by cases hh)) (hawake hr)
  | kill pid x =>
    simp only [World.step] at ht
    split at ht
    · cases ht
      exact ⟨⟨hc.present, hc.cache, hc.log, hc.empty, hc.expired⟩, fun hr => ⟨(hawake hr).waits, (hawake hr).idle⟩⟩
    · cases ht
  | turn =>
    simp only [World.step] at ht
    split at ht
    · rename_i m inbox hrun hin
      cases ht
      exact hc.handle ho.valid (hawake hrun)
    · cases ht
  | timeout finalizes =>
    simp only [World.step] at ht
    split at ht
    · rename_i t hrun hin htimeout
      split at ht
      · cases ht
        exact hc.handleTimeout ho.valid ((hawake hrun).no_worker htimeout) finalizes
      · cases ht
    · cases ht
  | flushDown =>
    simp only [World.step] at ht
    split at ht
    · split at ht
      · cases ht
        unfold World.flush
        dsimp only
        split
        · refine Clocks.tended_terminate ?_ ?_ _
          · exact ⟨hc.present, hc.cache, hc.log, hc.empty, hc.expired⟩
          · exact ho.valid
        · exact ⟨⟨hc.present, hc.cache, hc.log, hc.empty, hc.expired⟩, fun hr => (by cases hr)⟩
      · cases ht
    · cases ht
  | flushTimeout =>
    simp only [World.step] at ht
    split at ht
    · cases ht
      exact ⟨⟨hc.present, hc.cache, hc.log, hc.empty, hc.expired⟩, fun hr => (by cases hr)⟩
    · cases ht
  | stopDown =>
    simp only [World.step] at ht
    split at ht
    · split at ht
      · cases ht
        exact ⟨⟨hc.present, hc.cache, hc.log, hc.empty, hc.expired⟩, fun hr => (by cases hr)⟩
      · cases ht
    · cases ht

theorem reach_tended {expireTimeout start : Nat} (hday : day < start)
    (h : Reach (World.initial expireTimeout start) (World.step o) (Within d) w) : Tended d w := by
  have hboth : Ordered o w ∧ Tended d w := by
    induction h with
    | start =>
      refine ⟨reach_ordered (.start : Reach _ _ (Within d) _), ⟨hday, ⟨?_, ?_, fun hne => absurd rfl hne⟩, ?_, fun _ => rfl, ?_⟩, ?_⟩
      · exact fun _ hx => absurd hx List.not_mem_nil
      · exact fun _ ht => (by cases ht)
      · exact fun _ ht => (by cases ht)
      · exact fun _ hm => absurd hm List.not_mem_nil
      · exact fun _ => ⟨rfl, fun _ hq => absurd rfl hq⟩
    | step _ ha ht ih => exact ⟨ih.1.step ht, step_tended ih.2 ih.1 ha ht⟩
  exact hboth.2

/-- A server that runs and has requests but no worker waits until log-timeout, and with a worker it
waits for messages only. It removes dead entries from the cache only while there is no worker. The
cache wakes the server at most d after the first entry expires, if the clock goes on by at most d
between the two readings of get-statement. -/
theorem db_server_wakes (o : Options) (expireTimeout start d : Nat) (hday : day < start) (w : World)
    (h : Reach (World.initial expireTimeout start) (World.step o) (Within d) w) :
    (w.status = .running →
      (w.state.worker = none → w.state.queue.toList ≠ [] → ∃ t, w.state.logTimeout = some t ∧ w.timeout = some t) ∧
      (w.state.worker ≠ none → w.timeout = none) ∧
      (w.state.worker = none → w.state.queue.toList = [] → w.timeout = w.cache.waketime)) ∧
    (w.state.queue.toList = [] → w.state.logTimeout = none) ∧
    (∀ worker, .expired worker ∈ w.log → worker = none) ∧
    (w.cache.ht ≠ [] → ∃ t, w.cache.waketime = some t ∧ ∀ x ∈ w.cache.ht, t ≤ x.2 + w.cache.expireTimeout + d) := by
  obtain ⟨hc, hawake⟩ := reach_tended hday h
  refine ⟨?_, hc.empty, hc.expired, hc.cache.covered⟩
  intro hrun
  have ha := hawake hrun
  have hwaits := ha.waits
  unfold World.getTimeout at hwaits
  refine ⟨?_, ?_, ?_⟩
  · intro hw hq
    obtain ⟨t, ht⟩ := Option.ne_none_iff_exists'.mp (ha.idle hw hq)
    rw [hw, ht] at hwaits
    exact ⟨t, ht, hwaits⟩
  · intro hw
    obtain ⟨pid, hpid⟩ := Option.ne_none_iff_exists'.mp hw
    rw [hpid] at hwaits
    exact hwaits
  · intro hw hq
    rw [hw, hc.empty hq] at hwaits
    exact hwaits

namespace Sample

def delayed : Options := ⟨50, 10, by decide⟩

/-- A transaction whose first statement is prepared while the clock goes on. -/
def transaction : List Action :=
  [.send (.transaction 0 0), .turn, .work 0 (.control true 1 [.ok]), .work 0 (.ends (.returned .nil)),
    .work 0 (.finalizeLazyObjects true), .work 0 (.control true 0 [.ok]), .work 0 .reply, .work 0 .exit, .turn]

end Sample

theorem db_server_wakes_for_log :
    ∃ w, Reach (World.initial 1000 100000000) (World.step Sample.delayed) (Within 0) w ∧ w.state.worker = none ∧
      w.state.queue.toList = [Sample.log 0] ∧ ∃ t, w.state.logTimeout = some t ∧ w.timeout = some t := by
  have hrun : ∃ w, Reach.run (World.step Sample.delayed) (World.initial 1000 100000000) [.send (Sample.log 0), .turn] = .ok w ∧
      w.status = .running ∧ w.state.worker = none ∧ w.state.queue.toList = [Sample.log 0] := ⟨_, rfl, rfl, rfl, rfl⟩
  obtain ⟨w, hw, hstatus, hworker, hqueue⟩ := hrun
  have hall : Reach.Along (World.step Sample.delayed) (Within 0) (World.initial 1000 100000000) [.send (Sample.log 0), .turn] :=
    ⟨trivial, trivial, trivial⟩
  have hreach := Reach.of_run _ .start hall hw
  obtain ⟨hrunning, -⟩ := db_server_wakes Sample.delayed 1000 100000000 0 (by decide) w hreach
  have hne : w.state.queue.toList ≠ [] := by
    rw [hqueue]
    exact fun hh => (by cases hh)
  exact ⟨w, hreach, hworker, hqueue, (hrunning hstatus).1 hworker hne⟩

/-- get-statement reads the clock once for the entry and once more for waketime. -/
theorem waketime_after_expiry :
    ∃ w, Reach (World.initial 1000 100000000) (World.step Sample.delayed) (fun _ _ => True) w ∧ w.status = .running ∧
      w.state.worker = none ∧ w.cache.waketime = some 100001001 ∧
      ∃ x ∈ w.cache.ht, x.2 + w.cache.expireTimeout < 100001001 := by
  have hrun : ∃ w, Reach.run (World.step Sample.delayed) (World.initial 1000 100000000) Sample.transaction = .ok w ∧
      w.status = .running ∧ w.state.worker = none ∧ w.cache.waketime = some 100001001 ∧
      w.cache.ht = [(commit, 100000001), (beginImmediate, 100000000)] ∧ w.cache.expireTimeout = 1000 :=
    ⟨_, rfl, rfl, rfl, rfl, rfl, rfl⟩
  obtain ⟨w, hw, hstatus, hworker, hwake, hht, hexpire⟩ := hrun
  refine ⟨w, .of_run _ .start (Reach.along_of_forall (fun _ _ => trivial) _ _) hw, hstatus, hworker, hwake,
    (beginImmediate, 100000000), ?_, ?_⟩
  · rw [hht]
    exact List.mem_cons_of_mem _ List.mem_cons_self
  · rw [hexpire]
    decide

end Swish.Db
