import Swish.Db.Order

/-!
The replies to transactions: what they say has happened, and a transaction gets at most one.
-/

set_option autoImplicit false

namespace Swish.Db

open Swish.Lib
open Swish.GenServer.Loop (Datum Result)

/-- A reply says what has happened. The last event is the first one of the list. -/
def Justified (log : List Event) (pid : Nat) : Reply → Prop
  | .ok v => v.isCatch = false ∧ ∃ newer older, log = newer ++ .committed pid :: older ∧ .ran pid (.returned v) ∈ older
  | .error e => ∃ newer older r, log = newer ++ .rolledBack pid :: older ∧ .ran pid r ∈ older ∧
      r.tried.isCatch = true ∧ e = r.tried.err

/-- Every reply of a log says what had happened before, and goes to the client of the transaction. -/
def Told : List Event → Prop
  | [] => True
  | .replied pid client r :: log =>
    Justified log pid r ∧ (∃ f queue isOpen terminating, .started pid (.transaction f client) queue isOpen terminating ∈ log) ∧ Told log
  | _ :: log => Told log

def Event.client : Event → Option Nat
  | .replied _ client _ => some client
  | _ => none

def Request.client : Request → Option Nat
  | .transaction _ client => some client
  | .log _ => none

def Silent (log : List Event) (pid : Nat) : Prop := ∀ client r, .replied pid client r ∉ log

/-- What a worker has done before it comes to a point. -/
def Point.Done (log : List Event) (pid : Nat) : Point → Prop
  | .finalizeLazyObjects x => Silent log pid ∧ ∃ r, .ran pid r ∈ log ∧ x = r.tried
  | .finish x => Silent log pid ∧ ∃ r, .ran pid r ∈ log ∧ x = r.tried
  | .reply r => Silent log pid ∧ Justified log pid r
  | .done => True
  | _ => Silent log pid

/-- The transaction of the connection has ended. -/
def Point.isPast : Point → Bool
  | .unmarshal => true
  | .reply _ => true
  | .done => true
  | _ => false

/-- What holds in every state. -/
structure Story (w : World) : Prop where
  told : Told w.log
  once : (w.log.filterMap Event.client).Nodup
  clients : (w.requests.filterMap Request.client).Nodup
  started : ∀ x ∈ w.alive, ∃ queue isOpen terminating, .started x.pid x.job queue isOpen terminating ∈ w.log
  points : ∀ x ∈ w.alive, x.point.Done w.log x.pid
  past : ∀ x ∈ w.alive, x.point.isPast = true → w.isOpen = false
  /-- A worker that has failed is gone and has sent no reply. -/
  failed : ∀ pid x, .failed pid x ∈ w.log → pid < w.nextPid ∧ Silent w.log pid ∧ (∀ y ∈ w.alive, y.pid ≠ pid) ∧
    (∀ r, .down pid r ∈ w.inbox → r = .fault x) ∧ (w.status = .running → w.state.worker = some pid ∧ .down pid (.fault x) ∈ w.inbox)
  spoken : ∀ pid client r, .replied pid client r ∈ w.log → pid < w.nextPid
  /-- A worker that has come to its end leaves no transaction open. -/
  down : ∀ pid, .down pid .normal ∈ w.inbox → w.state.worker = some pid → w.isOpen = false
  idle : w.status = .running → w.state.worker = none → w.isOpen = false
  closed : ∀ pid job queue isOpen, .started pid job queue isOpen false ∈ w.log → isOpen = false

variable {o : Options} {w w' : World} {log : List Event} {e : Event}

theorem Justified.cons {pid : Nat} {r : Reply} (h : Justified log pid r) (e : Event) : Justified (e :: log) pid r := by
  cases r with
  | ok v =>
    obtain ⟨hv, newer, older, hlog, hran⟩ := h
    exact ⟨hv, e :: newer, older, by rw [hlog]; rfl, hran⟩
  | error x =>
    obtain ⟨newer, older, r, hlog, hran, hrest⟩ := h
    exact ⟨e :: newer, older, r, by rw [hlog]; rfl, hran, hrest⟩

/-- An event that is no reply. -/
def Event.isReply : Event → Bool
  | .replied _ _ _ => true
  | _ => false

theorem Silent.cons {pid : Nat} (h : Silent log pid) (he : e.isReply = false) : Silent (e :: log) pid := by
  intro client r hm
  rcases List.mem_cons.mp hm with heq | hm
  · rw [← heq] at he
    cases he
  · exact h client r hm

theorem Point.Done.cons {pid : Nat} {p : Point} (h : p.Done log pid) (he : e.isReply = false) : p.Done (e :: log) pid := by
  cases p with
  | finalizeLazyObjects x =>
    obtain ⟨hs, r, hr, hx⟩ := h
    exact ⟨hs.cons he, r, List.mem_cons_of_mem _ hr, hx⟩
  | finish x =>
    obtain ⟨hs, r, hr, hx⟩ := h
    exact ⟨hs.cons he, r, List.mem_cons_of_mem _ hr, hx⟩
  | reply r => exact ⟨h.1.cons he, h.2.cons e⟩
  | done => trivial
  | fill ls i vstmt vbind => exact Silent.cons h he
  | beginLogs vstmt vbind => exact Silent.cons h he
  | bulkExecute vstmt vbind => exact Silent.cons h he
  | commitLogs => exact Silent.cons h he
  | unmarshal => exact Silent.cons h he
  | beginTransaction => exact Silent.cons h he
  | body => exact Silent.cons h he

theorem told_cons (he : e.isReply = false) : Told (e :: log) ↔ Told log := by
  cases e with
  | replied pid client r => cases he
  | _ => exact Iff.rfl

theorem client_cons (he : e.isReply = false) : (e :: log).filterMap Event.client = log.filterMap Event.client := by
  cases e with
  | replied pid client r => cases he
  | _ => rfl

theorem Point.Done.silent {pid : Nat} {p : Point} (h : p.Done log pid) (hp : p ≠ .done) : Silent log pid := by
  cases p with
  | finalizeLazyObjects x => exact h.1
  | finish x => exact h.1
  | reply r => exact h.1
  | done => exact absurd rfl hp
  | fill ls i vstmt vbind => exact h
  | beginLogs vstmt vbind => exact h
  | bulkExecute vstmt vbind => exact h
  | commitLogs => exact h
  | unmarshal => exact h
  | beginTransaction => exact h
  | body => exact h

/-- An event that says nothing about the start, the failure or the reply of a worker. -/
def Event.isQuiet : Event → Bool
  | .ran _ _ => true
  | .committed _ => true
  | .rolledBack _ => true
  | .expired _ => true
  | _ => false

theorem Story.note (h : Story w) (he : e.isQuiet = true) : Story (w.note e) := by
  have hreply : e.isReply = false := by
    cases e <;> first | rfl | cases he
  have hmem : ∀ {x : Event}, x ∈ (w.note e).log → x.isQuiet = false → x ∈ w.log := by
    intro x hx hq
    rcases List.mem_cons.mp hx with heq | hx
    · rw [heq, he] at hq
      cases hq
    · exact hx
  refine ⟨?_, ?_, h.clients, ?_, ?_, h.past, ?_, ?_, h.down, h.idle, ?_⟩
  · exact (told_cons hreply).mpr h.told
  · rw [World.note, client_cons hreply]
    exact h.once
  · intro x hx
    obtain ⟨queue, isOpen, terminating, hm⟩ := h.started x hx
    exact ⟨queue, isOpen, terminating, List.mem_cons_of_mem _ hm⟩
  · intro x hx
    exact (h.points x hx).cons hreply
  · intro pid x hm
    obtain ⟨h1, h2, h3⟩ := h.failed pid x (hmem hm rfl)
    exact ⟨h1, h2.cons hreply, h3⟩
  · intro pid client r hm
    exact h.spoken pid client r (hmem hm rfl)
  · intro pid job queue isOpen hm
    exact h.closed pid job queue isOpen (hmem hm rfl)

/-! The workers. -/

variable {worker : Worker}

theorem Ordered.alive_eq (h : Ordered o w) (hw : worker ∈ w.alive) : w.alive = [worker] := by
  have hone := h.single
  cases ha : w.alive with
  | nil =>
    rw [ha] at hw
    cases hw
  | cons x rest =>
    rw [ha] at hw hone
    cases rest with
    | nil => rw [List.mem_singleton.mp hw]
    | cons y rest => simp at hone

theorem goto_alive (ha : w.alive = [worker]) (p : Point) : (w.goto worker.pid p).alive = [{ worker with point := p }] := by
  simp [World.goto, ha]

theorem Story.goto (h : Story w) (ha : w.alive = [worker]) {p : Point} (hp : p.Done w.log worker.pid)
    (hpast : p.isPast = true → w.isOpen = false) : Story (w.goto worker.pid p) := by
  have hmem : worker ∈ w.alive := by
    rw [ha]
    exact List.mem_singleton.mpr rfl
  have hgoto := goto_alive ha p
  refine ⟨h.told, h.once, h.clients, ?_, ?_, ?_, ?_, h.spoken, h.down, h.idle, h.closed⟩
  · intro x hx
    rw [hgoto] at hx
    cases List.mem_singleton.mp hx
    exact h.started worker hmem
  · intro x hx
    rw [hgoto] at hx
    cases List.mem_singleton.mp hx
    exact hp
  · intro x hx hx'
    rw [hgoto] at hx
    cases List.mem_singleton.mp hx
    exact hpast hx'
  · intro pid x hm
    obtain ⟨h1, h2, h3, h4⟩ := h.failed pid x hm
    refine ⟨h1, h2, ?_, h4⟩
    intro y hy
    rw [hgoto] at hy
    cases List.mem_singleton.mp hy
    exact h3 worker hmem

/-- The worker uses the database before the end of its transaction. -/
theorem Story.uses (h : Story w) (ho : Ordered o w) (hw : worker ∈ w.alive) (hp : worker.point.isPast = false)
    (cache : Cache) (now : Nat) (isOpen : Bool) : Story { w with cache := cache, now := now, isOpen := isOpen } := by
  have hworker := ho.worker worker hw
  refine ⟨h.told, h.once, h.clients, h.started, h.points, ?_, h.failed, h.spoken, ?_, ?_, h.closed⟩
  · intro x hx hpast
    rw [show x = worker by simpa [ho.alive_eq hw] using hx, hp] at hpast
    cases hpast
  · intro pid hm hpid
    dsimp only at hpid
    rw [hworker] at hpid
    cases hpid
    exact absurd rfl ((ho.gone _ _ hm).2 worker hw)
  · intro _ hnone
    dsimp only at hnone
    rw [hworker] at hnone
    cases hnone

theorem Story.exit (h : Story w) (hw : worker ∈ w.alive) {r : Reason} (hr : r = .normal → w.isOpen = false) :
    Story (w.exit worker.pid r) := by
  refine ⟨h.told, h.once, h.clients, ?_, ?_, ?_, ?_, h.spoken, ?_, h.idle, h.closed⟩
  · exact fun x hx => h.started x (List.mem_filter.mp hx).1
  · exact fun x hx => h.points x (List.mem_filter.mp hx).1
  · exact fun x hx => h.past x (List.mem_filter.mp hx).1
  · intro pid x hm
    obtain ⟨h1, h2, h3, h4, h5⟩ := h.failed pid x hm
    refine ⟨h1, h2, fun y hy => h3 y (List.mem_filter.mp hy).1, ?_, ?_⟩
    · intro r' hd
      rcases List.mem_append.mp hd with hd | hd
      · exact h4 r' hd
      · cases List.mem_singleton.mp hd
        exact absurd rfl (h3 worker hw)
    · intro hrun
      exact ⟨(h5 hrun).1, List.mem_append_left _ (h5 hrun).2⟩
  · intro pid hd hpid
    rcases List.mem_append.mp hd with hd | hd
    · exact h.down pid hd hpid
    · cases List.mem_singleton.mp hd
      exact hr rfl

theorem Story.fail (h : Story w) (ho : Ordered o w) (hw : worker ∈ w.alive) (hp : worker.point ≠ .done) (x : Fault) :
    Story (w.fail worker.pid x) := by
  have hsilent := (h.points worker hw).silent hp
  have hgone : ∀ y ∈ (w.fail worker.pid x).alive, y.pid ≠ worker.pid := by
    intro y hy
    simpa using (List.mem_filter.mp hy).2
  refine ⟨h.told, h.once, h.clients, ?_, ?_, ?_, ?_, ?_, ?_, h.idle, ?_⟩
  · intro y hy
    obtain ⟨queue, isOpen, terminating, hm⟩ := h.started y (List.mem_filter.mp hy).1
    exact ⟨queue, isOpen, terminating, List.mem_cons_of_mem _ hm⟩
  · exact fun y hy => (h.points y (List.mem_filter.mp hy).1).cons rfl
  · exact fun y hy => h.past y (List.mem_filter.mp hy).1
  · intro pid y hm
    rcases List.mem_cons.mp hm with heq | hm
    · cases heq
      refine ⟨ho.fresh worker hw, hsilent.cons rfl, hgone, ?_, ?_⟩
      · intro r hd
        rcases List.mem_append.mp hd with hd | hd
        · exact absurd rfl ((ho.gone _ _ hd).2 worker hw)
        · cases List.mem_singleton.mp hd
          rfl
      · exact fun _ => ⟨ho.worker worker hw, List.mem_append_right _ (List.mem_singleton.mpr rfl)⟩
    · obtain ⟨h1, h2, h3, h4, h5⟩ := h.failed pid y hm
      refine ⟨h1, h2.cons rfl, fun z hz => h3 z (List.mem_filter.mp hz).1, ?_, ?_⟩
      · intro r hd
        rcases List.mem_append.mp hd with hd | hd
        · exact h4 r hd
        · cases List.mem_singleton.mp hd
          exact absurd rfl (h3 worker hw)
      · intro hrun
        exact ⟨(h5 hrun).1, List.mem_append_left _ (h5 hrun).2⟩
  · intro pid client r hm
    rcases List.mem_cons.mp hm with heq | hm
    · cases heq
    · exact h.spoken pid client r hm
  · intro pid hd hpid
    rcases List.mem_append.mp hd with hd | hd
    · exact h.down pid hd hpid
    · cases List.mem_singleton.mp hd
  · intro pid job queue isOpen hm
    rcases List.mem_cons.mp hm with heq | hm
    · cases heq
    · exact h.closed pid job queue isOpen hm

/-- Two workers do not get the same transaction. -/
theorem started_client {pid pid' f f' client : Nat} {q q' : List Request} {b b' t t' : Bool}
    (hn : ((handed log).filterMap Request.client).Nodup) (h : .started pid (.transaction f client) q b t ∈ log)
    (h' : .started pid' (.transaction f' client) q' b' t' ∈ log) : pid = pid' := by
  have hmem : ∀ {log : List Event} {pid f : Nat} {q : List Request} {b t : Bool},
      .started pid (.transaction f client) q b t ∈ log → client ∈ (handed log).filterMap Request.client := by
    intro log pid f q b t hm
    induction log with
    | nil => cases hm
    | cons e log ih =>
      rcases List.mem_cons.mp hm with heq | hrest
      · subst heq
        simp [handed, Job.requests, Request.client]
      · cases e with
        | started pid' job q' b' t' =>
          rw [handed, List.filterMap_append]
          exact List.mem_append_left _ (ih hrest)
        | _ => exact ih hrest
  induction log with
  | nil => cases h
  | cons e log ih =>
    rcases List.mem_cons.mp h with heq | hrest
    · rcases List.mem_cons.mp h' with heq' | hrest'
      · rw [← heq'] at heq
        cases heq
        rfl
      · subst heq
        rw [handed, List.filterMap_append] at hn
        exact absurd rfl ((List.nodup_append.mp hn).2.2 client (hmem hrest') client (by simp [Job.requests, Request.client]))
    · rcases List.mem_cons.mp h' with heq' | hrest'
      · subst heq'
        rw [handed, List.filterMap_append] at hn
        exact absurd rfl ((List.nodup_append.mp hn).2.2 client (hmem hrest) client (by simp [Job.requests, Request.client]))
      · refine ih ?_ hrest hrest'
        cases e with
        | started pid'' job q'' b'' t'' =>
          rw [handed, List.filterMap_append] at hn
          exact (List.nodup_append.mp hn).1
        | _ => exact hn

theorem Told.started {pid client : Nat} {r : Reply} (h : Told log) (hm : .replied pid client r ∈ log) :
    ∃ f queue isOpen terminating, .started pid (.transaction f client) queue isOpen terminating ∈ log := by
  induction log with
  | nil => cases hm
  | cons e log ih =>
    rcases List.mem_cons.mp hm with heq | hm
    · subst heq
      obtain ⟨-, ⟨f, queue, isOpen, terminating, hs⟩, -⟩ := h
      exact ⟨f, queue, isOpen, terminating, List.mem_cons_of_mem _ hs⟩
    · have ht : Told log := by
        cases e with
        | replied pid' client' r' => exact h.2.2
        | _ => exact h
      obtain ⟨f, queue, isOpen, terminating, hs⟩ := ih ht hm
      exact ⟨f, queue, isOpen, terminating, List.mem_cons_of_mem _ hs⟩

/-- A worker replies to its client. -/
theorem Story.reply (h : Story w) (ho : Ordered o w) (hw : worker ∈ w.alive) {r : Reply} (hp : worker.point = .reply r)
    {f client : Nat} (hjob : worker.job = .transaction f client) :
    Story ((w.note (.replied worker.pid client r)).goto worker.pid .done) := by
  have ha := ho.alive_eq hw
  have hpoint := h.points worker hw
  rw [hp] at hpoint
  obtain ⟨hsilent, hjust⟩ := hpoint
  obtain ⟨queue, isOpen, terminating, hstart⟩ := h.started worker hw
  rw [hjob] at hstart
  have hfresh : client ∉ w.log.filterMap Event.client := by
    intro hc
    obtain ⟨e, he, hec⟩ := List.mem_filterMap.mp hc
    cases e with
    | replied pid client' r' =>
      cases hec
      obtain ⟨f', queue', isOpen', terminating', hstart'⟩ := h.told.started he
      have hn : ((handed w.log).filterMap Request.client).Nodup := by
        have hreq := h.clients
        rw [← ho.order, List.append_assoc, List.filterMap_append] at hreq
        exact (List.nodup_append.mp hreq).1
      have hpid := started_client hn hstart hstart'
      subst hpid
      exact hsilent client r' he
    | _ => cases hec
  have hgoto : ((w.note (.replied worker.pid client r)).goto worker.pid .done).alive = [{ worker with point := .done }] :=
    goto_alive (w := w.note (.replied worker.pid client r)) ha .done
  refine ⟨⟨hjust, ⟨f, queue, isOpen, terminating, hstart⟩, h.told⟩, ?_, h.clients, ?_, ?_, ?_, ?_, ?_, h.down, h.idle, ?_⟩
  · exact List.nodup_cons.mpr ⟨hfresh, h.once⟩
  · intro x hx
    rw [hgoto] at hx
    cases List.mem_singleton.mp hx
    dsimp only
    rw [hjob]
    exact ⟨queue, isOpen, terminating, List.mem_cons_of_mem _ hstart⟩
  · intro x hx
    rw [hgoto] at hx
    cases List.mem_singleton.mp hx
    trivial
  · intro x hx _
    exact h.past worker hw (by rw [hp]; rfl)
  · intro pid x hm
    rcases List.mem_cons.mp hm with heq | hm
    · cases heq
    · obtain ⟨h1, h2, h3, h4⟩ := h.failed pid x hm
      refine ⟨h1, ?_, ?_, h4⟩
      · intro client' r' hm'
        rcases List.mem_cons.mp hm' with heq | hm'
        · cases heq
          exact h3 worker hw rfl
        · exact h2 client' r' hm'
      · intro y hy
        rw [hgoto] at hy
        cases List.mem_singleton.mp hy
        exact h3 worker hw
  · intro pid client' r' hm
    rcases List.mem_cons.mp hm with heq | hm
    · cases heq
      exact ho.fresh worker hw
    · exact h.spoken pid client' r' hm
  · intro pid job queue' isOpen' hm
    rcases List.mem_cons.mp hm with heq | hm
    · cases heq
    · exact h.closed pid job queue' isOpen' hm

theorem Story.control (h : Story w) (ho : Ordered o w) (hw : worker ∈ w.alive) (hp : worker.point.isPast = false)
    {sql : Sql} {prepared : Bool} {elapsed : Nat} {attempts : List Attempt} {next : World → World}
    (ht : w.control worker.pid sql prepared elapsed attempts next = .ok w')
    (hnext : ∀ w₁, Story w₁ → w₁.alive = [worker] → w₁.log = w.log → w₁.isOpen = effect sql → Story (next w₁)) : Story w' := by
  have hdone : worker.point ≠ .done := by
    intro hd
    rw [hd] at hp
    cases hp
  obtain rfl | ⟨cache, -, ⟨x, -, rfl⟩ | rfl⟩ := World.control_cases ht
  · exact h.fail ho hw hdone _
  · exact Story.fail (h.uses ho hw hp cache (w.now + elapsed) w.isOpen) (ho.uses cache (w.now + elapsed) w.isOpen) hw hdone x
  · exact hnext _ (h.uses ho hw hp _ _ _) (ho.alive_eq hw) rfl rfl

theorem tried_returned {r : Result} {x : Datum} (h : x = r.tried) (hx : x.isCatch = false) : r = .returned x := by
  cases r with
  | returned v => rw [h, Result.tried]
  | raised y =>
    have hcatch : (Result.raised y).tried.isCatch = true := by
      cases y <;> rfl
    rw [h, hcatch] at hx
    cases hx

theorem Story.finish (h : Story w) (ha : w.alive = [worker]) {x : Datum} (hdone : (Point.finish x).Done w.log worker.pid)
    (hopen : w.isOpen = effect (ending x).1) :
    Story ((w.note (if x.isCatch then .rolledBack worker.pid else .committed worker.pid)).goto worker.pid (.reply (ending x).2)) := by
  obtain ⟨hsilent, r, hran, hx⟩ := hdone
  cases hc : x.isCatch with
  | true =>
    rw [ending, hc] at hopen
    rw [ending, hc]
    refine (h.note rfl).goto ha ⟨hsilent.cons rfl, [], w.log, r, rfl, hran, by rw [← hx]; exact hc, by rw [← hx]⟩ ?_
    exact fun _ => hopen.trans (show effect rollback = false by decide)
  | false =>
    rw [ending, hc] at hopen
    rw [ending, hc]
    refine (h.note rfl).goto ha ⟨hsilent.cons rfl, hc, [], w.log, rfl, ?_⟩ ?_
    · rw [← tried_returned hx hc]
      exact hran
    · exact fun _ => hopen.trans (show effect commit = false by decide)

theorem Story.work (h : Story w) (ho : Ordered o w) (hw : worker ∈ w.alive) {a : Work} (ht : w.work worker a = .ok w') :
    Story w' := by
  have ha := ho.alive_eq hw
  have hpoint := h.points worker hw
  unfold World.work at ht
  dsimp only at ht
  split at ht
  · rename_i hp
    cases ht
    rw [hp] at hpoint
    exact h.goto ha hpoint fun hh => (by cases hh)
  · rename_i l ls i vstmt vbind prepared elapsed hp
    have hdone : worker.point ≠ .done := by
      rw [hp]
      exact fun hh => (by cases hh)
    have hpast : worker.point.isPast = false := by
      rw [hp]
      rfl
    rw [hp] at hpoint
    split at ht
    · cases ht
      exact h.fail ho hw hdone _
    · rename_i cache hcache
      have huses := h.uses ho hw hpast cache (w.now + elapsed) w.isOpen
      split at ht
      · cases ht
        exact huses.goto ha hpoint fun hh => (by cases hh)
      · cases ht
        exact huses.fail (ho.uses cache (w.now + elapsed) w.isOpen) hw hdone _
  · rename_i vstmt vbind prepared elapsed attempts hp
    rw [hp] at hpoint
    refine h.control ho hw (by rw [hp]; rfl) ht ?_
    intro w₁ h₁ ha₁ hlog _
    exact h₁.goto ha₁ (by rw [hlog]; exact hpoint) fun hh => (by cases hh)
  · rename_i vstmt vbind ok isOpen hp
    have hdone : worker.point ≠ .done := by
      rw [hp]
      exact fun hh => (by cases hh)
    have huses := h.uses ho hw (by rw [hp]; rfl) w.cache w.now isOpen
    rw [hp] at hpoint
    cases ht
    split
    · exact huses.goto ha hpoint fun hh => (by cases hh)
    · exact huses.fail (ho.uses w.cache w.now isOpen) hw hdone _
  · rename_i prepared elapsed attempts hp
    rw [hp] at hpoint
    refine h.control ho hw (by rw [hp]; rfl) ht ?_
    intro w₁ h₁ ha₁ hlog hopen
    refine (h₁.note rfl).goto ha₁ ?_ fun _ => hopen.trans (by decide)
    refine Silent.cons ?_ rfl
    rw [hlog]
    exact hpoint
  · rename_i ok hp
    have hdone : worker.point ≠ .done := by
      rw [hp]
      exact fun hh => (by cases hh)
    cases ht
    split
    · exact h.goto ha trivial fun _ => h.past worker hw (by rw [hp]; rfl)
    · exact h.fail ho hw hdone _
  · rename_i prepared elapsed attempts hp
    rw [hp] at hpoint
    refine h.control ho hw (by rw [hp]; rfl) ht ?_
    intro w₁ h₁ ha₁ hlog _
    exact h₁.goto ha₁ (by rw [hlog]; exact hpoint) fun hh => (by cases hh)
  · rename_i sql prepared elapsed isOpen hp
    split at ht
    · cases ht
      exact h
    · cases ht
      exact h.uses ho hw (by rw [hp]; rfl) _ _ _
  · rename_i finalizes hp
    cases ht
    exact h.uses ho hw (by rw [hp]; rfl) _ w.now w.isOpen
  · rename_i r hp
    rw [hp] at hpoint
    cases ht
    exact (h.note rfl).goto ha ⟨Silent.cons hpoint rfl, r, List.mem_cons_self, rfl⟩ fun hh => (by cases hh)
  · rename_i x ok hp
    have hdone : worker.point ≠ .done := by
      rw [hp]
      exact fun hh => (by cases hh)
    rw [hp] at hpoint
    cases ht
    split
    · exact h.goto ha hpoint fun hh => (by cases hh)
    · exact h.fail ho hw hdone _
  · rename_i x prepared elapsed attempts hp
    rw [hp] at hpoint
    refine h.control ho hw (by rw [hp]; rfl) ht ?_
    intro w₁ h₁ ha₁ hlog hopen
    exact h₁.finish ha₁ (by rw [hlog]; exact hpoint) hopen
  · rename_i r hp
    split at ht
    · rename_i f client hjob
      cases ht
      exact h.reply ho hw hp hjob
    · cases ht
  · rename_i hp
    cases ht
    exact h.exit hw fun _ => h.past worker hw (by rw [hp]; rfl)
  · cases ht

/-! The server. -/

theorem Story.start (h : Story w) (ho : Ordered o w) (hw : w.state.worker = none) (queue : Queue Request) (job : Job)
    {terminating : Bool} (hopen : terminating = false → w.isOpen = false) : Story (w.start queue job terminating) := by
  have hempty : w.alive = [] := by
    refine List.eq_nil_iff_forall_not_mem.mpr ?_
    intro x hx
    have hpid := ho.worker x hx
    rw [hw] at hpid
    cases hpid
  have halive : (w.start queue job terminating).alive = [⟨w.nextPid, job, job.point⟩] := by
    rw [World.start, hempty]
    rfl
  have hsilent : Silent w.log w.nextPid := by
    intro client r hm
    exact absurd (h.spoken _ client r hm) (Nat.lt_irrefl _)
  refine ⟨h.told, h.once, h.clients, ?_, ?_, ?_, ?_, ?_, ?_, ?_, ?_⟩
  · intro x hx
    rw [halive] at hx
    cases List.mem_singleton.mp hx
    exact ⟨_, _, _, List.mem_cons_self⟩
  · intro x hx
    rw [halive] at hx
    cases List.mem_singleton.mp hx
    cases job <;> exact hsilent.cons rfl
  · intro x hx hpast
    rw [halive] at hx
    cases List.mem_singleton.mp hx
    cases job <;> cases hpast
  · intro pid x hm
    rcases List.mem_cons.mp hm with heq | hm
    · cases heq
    · obtain ⟨h1, h2, h3, h4, h5⟩ := h.failed pid x hm
      refine ⟨Nat.lt_succ_of_lt h1, h2.cons rfl, ?_, h4, ?_⟩
      · intro y hy
        rw [halive] at hy
        cases List.mem_singleton.mp hy
        exact Nat.ne_of_gt h1
      · intro hrun
        have hpid := (h5 hrun).1
        rw [hw] at hpid
        cases hpid
  · intro pid client r hm
    rcases List.mem_cons.mp hm with heq | hm
    · cases heq
    · exact Nat.lt_succ_of_lt (h.spoken pid client r hm)
  · intro pid hm hpid
    cases hpid
    exact absurd (ho.gone _ _ hm).1 (Nat.lt_irrefl _)
  · exact fun _ hnone => (by cases hnone)
  · intro pid job' queue' isOpen hm
    rcases List.mem_cons.mp hm with heq | hm
    · cases heq
      exact hopen rfl
    · exact h.closed pid job' queue' isOpen hm

theorem Story.noReply (h : Story w) (ho : Ordered o w) (hrun : w.status = .running) : Story (w.noReply o) := by
  have hresume : ∀ {w₁ : World}, Story w₁ → Story w₁.resume := fun h₁ =>
    ⟨h₁.told, h₁.once, h₁.clients, h₁.started, h₁.points, h₁.past, h₁.failed, h₁.spoken, h₁.down, h₁.idle, h₁.closed⟩
  unfold World.noReply
  rcases World.update_cases o ho.valid false with ⟨hu, -⟩ | ⟨queue', job, hu, hw, -, -, -⟩
  · rw [hu]
    exact hresume h
  · rw [hu]
    exact hresume (h.start ho hw queue' job fun _ => h.idle hrun hw)

/-- The server no longer runs. -/
theorem Story.status (h : Story w) {status : Status} (hs : status ≠ .running) : Story { w with status := status } := by
  refine ⟨h.told, h.once, h.clients, h.started, h.points, h.past, ?_, h.spoken, h.down, fun hr => absurd hr hs, h.closed⟩
  intro pid x hm
  obtain ⟨h1, h2, h3, h4, -⟩ := h.failed pid x hm
  exact ⟨h1, h2, h3, h4, fun hr => absurd hr hs⟩

theorem Story.terminate (h : Story w) (ho : Ordered o w) (r : Reason) : Story (w.terminate o r) := by
  have hstatus : ∀ b, (if b = true then Status.flushing r else .stopped r) ≠ .running := by
    intro b hr
    cases b <;> cases hr
  unfold World.terminate
  rcases World.update_cases o ho.valid true with ⟨hu, -⟩ | ⟨queue', job, hu, hw, -, -, -⟩
  · rw [hu]
    exact h.status (hstatus _)
  · rw [hu]
    exact (h.start ho hw queue' job fun ht => (by cases ht)).status (hstatus _)

/-- terminate does not look at the status. -/
theorem terminate_status (o : Options) (w : World) (r : Reason) (status : Status) :
    { w with status := status }.terminate o r = w.terminate o r := by
  unfold World.terminate World.update
  by_cases hidle : w.state.worker.isSome = true ∨ w.state.queue.isEmpty = true
  · simp only [hidle, if_true]
  · simp only [hidle, if_false]
    cases getWork w.state.queue o.commitLimit with
    | error e => rfl
    | ok x => rfl

/-- The server takes a message that is not the DOWN message of a worker that has failed. -/
theorem Story.pop (h : Story w) {m : Message} {inbox : List Message} (hin : w.inbox = m :: inbox)
    (hm : ∀ pid r, m = .down pid r → w.state.worker ≠ some pid) : Story { w with inbox := inbox } := by
  have hsub : ∀ {m'}, m' ∈ inbox → m' ∈ w.inbox := by
    intro m' h'
    rw [hin]
    exact List.mem_cons_of_mem _ h'
  refine ⟨h.told, h.once, h.clients, h.started, h.points, h.past, ?_, h.spoken, fun pid hd => h.down pid (hsub hd), h.idle, h.closed⟩
  intro pid x hx
  obtain ⟨h1, h2, h3, h4, h5⟩ := h.failed pid x hx
  refine ⟨h1, h2, h3, fun r hd => h4 r (hsub hd), ?_⟩
  intro hrun
  obtain ⟨hw, hd⟩ := h5 hrun
  refine ⟨hw, ?_⟩
  rw [hin] at hd
  rcases List.mem_cons.mp hd with heq | hd
  · exact absurd hw (hm pid _ heq.symm)
  · exact hd

theorem Story.queue (h : Story w) (queue : Queue Request) (logTimeout : Option Nat) :
    Story { w with state := ⟨queue, w.state.worker, logTimeout⟩ } :=
  ⟨h.told, h.once, h.clients, h.started, h.points, h.past, h.failed, h.spoken, h.down, h.idle, h.closed⟩

/-- The worker has come to its end. -/
theorem Story.downNormal (h : Story w) (hrun : w.status = .running) {pid : Nat} {inbox : List Message}
    (hin : w.inbox = .down pid .normal :: inbox) (hw : w.state.worker = some pid) :
    Story { w with inbox := inbox, state := { w.state with worker := none } } := by
  have hhead : .down pid .normal ∈ w.inbox := by
    rw [hin]
    exact List.mem_cons_self
  refine ⟨h.told, h.once, h.clients, h.started, h.points, h.past, ?_, h.spoken, fun _ _ hh => (by cases hh), ?_, h.closed⟩
  · intro pid' x hx
    obtain ⟨-, -, -, h4, h5⟩ := h.failed pid' x hx
    have hpid := (h5 hrun).1
    rw [hw] at hpid
    cases hpid
    cases h4 _ hhead
  · exact fun _ _ => h.down pid hhead hw

/-- The worker of a server that no longer runs is gone. -/
theorem Story.noWorker (h : Story w) (hrun : w.status ≠ .running) {inbox : List Message} (hsub : ∀ m ∈ inbox, m ∈ w.inbox) :
    Story { w with inbox := inbox, state := { w.state with worker := none } } := by
  refine ⟨h.told, h.once, h.clients, h.started, h.points, h.past, ?_, h.spoken, fun _ _ hh => (by cases hh),
    fun hr => absurd hr hrun, h.closed⟩
  intro pid x hx
  obtain ⟨h1, h2, h3, h4, -⟩ := h.failed pid x hx
  exact ⟨h1, h2, h3, fun r hd => h4 r (hsub _ hd), fun hr => absurd hr hrun⟩

theorem Story.handle (h : Story w) (ho : Ordered o w) (hrun : w.status = .running) {m : Message} {inbox : List Message}
    (hin : w.inbox = m :: inbox) : Story ({ w with inbox := inbox }.handle o m) := by
  cases m with
  | request r =>
    have hpop := h.pop hin fun _ _ hm => (by cases hm)
    have hadd := ho.popRequest hin
    cases r with
    | transaction f client => exact (hpop.queue _ _).noReply hadd hrun
    | log l =>
      have hlog : Ordered o { w with
          inbox := inbox
          state := ⟨w.state.queue.add (.log l), w.state.worker, w.state.logTimeout <|> some (w.now + o.commitDelay)⟩ } :=
        hadd.congr rfl rfl rfl rfl rfl rfl rfl
      have hstory := hpop.queue (w.state.queue.add (.log l)) (w.state.logTimeout <|> some (w.now + o.commitDelay))
      rw [World.handle]
      unfold World.noReplyDelay
      split
      · exact hstory.noReply hlog hrun
      · exact ⟨hstory.told, hstory.once, hstory.clients, hstory.started, hstory.points, hstory.past, hstory.failed,
          hstory.spoken, hstory.down, hstory.idle, hstory.closed⟩
  | filename client =>
    have hpop := h.pop hin fun _ _ hm => (by cases hm)
    exact ⟨hpop.told, hpop.once, hpop.clients, hpop.started, hpop.points, hpop.past, hpop.failed, hpop.spoken, hpop.down,
      hpop.idle, hpop.closed⟩
  | debug => exact h.pop hin fun _ _ hm => (by cases hm)
  | stop client => exact (h.pop hin fun _ _ hm => (by cases hm)).terminate (ho.pop hin rfl) _
  | exit pid r =>
    have hpop := h.pop hin fun _ _ hm => (by cases hm)
    rw [World.handle]
    split
    · exact hpop.noReply (ho.pop hin rfl) hrun
    · exact hpop.terminate (ho.pop hin rfl) _
  | down pid r =>
    rw [World.handle]
    split
    · rename_i hw
      have hgone := (ho.gone pid r (by rw [hin]; exact List.mem_cons_self)).2
      have hnone := (ho.pop hin rfl).noWorker hw hgone
      dsimp only
      split
      · rename_i hr
        subst hr
        exact (h.downNormal hrun hin hw).noReply hnone hrun
      · rw [← terminate_status o _ r (.stopped r)]
        have hstop : Status.stopped r ≠ .running := fun hh => (by cases hh)
        refine Story.terminate ?_ ?_ r
        · refine (h.status hstop).noWorker hstop ?_
          intro m hm
          dsimp only
          rw [hin]
          exact List.mem_cons_of_mem _ hm
        · exact hnone.congr rfl rfl rfl rfl rfl rfl rfl
    · rename_i hw
      refine (h.pop hin ?_).noReply (ho.pop hin rfl) hrun
      intro pid' r' hm
      cases hm
      exact hw

theorem Story.flush (h : Story w) (ho : Ordered o w) (hrun : w.status ≠ .running) {pid : Nat} {r : Reason}
    (hw : w.state.worker = some pid) (hin : .down pid r ∈ w.inbox) (reason : Reason) : Story (w.flush o pid r reason) := by
  have herase := ho.flush_inbox pid
  have hsub : ∀ m ∈ w.inbox.eraseP fun m => (m.downOf pid).isSome, m ∈ w.inbox := fun m hm => List.mem_of_mem_eraseP hm
  unfold World.flush
  dsimp only
  split
  · exact (h.noWorker hrun hsub).terminate (herase.noWorker hw (ho.gone pid r hin).2) _
  · have hstop : Status.stopped r ≠ .running := fun hh => (by cases hh)
    refine ⟨h.told, h.once, h.clients, h.started, h.points, h.past, ?_, h.spoken, fun q hd => h.down q (hsub _ hd),
      fun hr => absurd hr hstop, h.closed⟩
    intro q x hx
    obtain ⟨h1, h2, h3, h4, -⟩ := h.failed q x hx
    exact ⟨h1, h2, h3, fun r' hd => h4 r' (hsub _ hd), fun hr => absurd hr hstop⟩

/-- A message that is no DOWN message is sent to the server. -/
theorem Story.send (h : Story w) {m : Message} (hm : ∀ pid r, m ≠ .down pid r) {requests : List Request}
    (hr : (requests.filterMap Request.client).Nodup) : Story ({ w with requests := requests }.send m) := by
  have hold : ∀ {pid r}, .down pid r ∈ w.inbox ++ [m] → .down pid r ∈ w.inbox := by
    intro pid r hd
    rcases List.mem_append.mp hd with hd | hd
    · exact hd
    · exact absurd (List.mem_singleton.mp hd).symm (hm pid r)
  refine ⟨h.told, h.once, hr, h.started, h.points, h.past, ?_, h.spoken, fun pid hd => h.down pid (hold hd), h.idle, h.closed⟩
  intro pid x hx
  obtain ⟨h1, h2, h3, h4, h5⟩ := h.failed pid x hx
  exact ⟨h1, h2, h3, fun r hd => h4 r (hold hd), fun hrun => ⟨(h5 hrun).1, List.mem_append_left _ (h5 hrun).2⟩⟩

theorem Story.step (h : Story w) (ho : Ordered o w) {a : Action} (ht : w.step o a = .ok w') : Story w' := by
  cases a with
  | send r =>
    cases r with
    | transaction f client =>
      simp only [World.step] at ht
      split at ht
      · cases ht
      · rename_i hfresh
        cases ht
        refine h.send (fun _ _ hm => (by cases hm)) ?_
        rw [List.filterMap_append]
        refine List.nodup_append.mpr ⟨h.clients, by simp [Request.client], ?_⟩
        intro c hc c' hc' heq
        obtain ⟨x, hx, hxc⟩ := List.mem_filterMap.mp hc
        have hclient : c' = client := by simpa [Request.client] using hc'
        subst hclient
        subst heq
        refine hfresh (List.any_eq_true.mpr ⟨x, hx, ?_⟩)
        cases x with
        | log l => cases hxc
        | transaction f' client' => simpa [Request.client] using hxc
    | log l =>
      cases ht
      refine h.send (fun _ _ hm => (by cases hm)) ?_
      rw [List.filterMap_append, show [Request.log l].filterMap Request.client = [] from rfl, List.append_nil]
      exact h.clients
  | filename client =>
    cases ht
    exact h.send (fun _ _ hm => (by cases hm)) h.clients
  | debug =>
    cases ht
    exact h.send (fun _ _ hm => (by cases hm)) h.clients
  | stop client =>
    cases ht
    exact h.send (fun _ _ hm => (by cases hm)) h.clients
  | exits pid r =>
    cases ht
    exact h.send (fun _ _ hm => (by cases hm)) h.clients
  | tick elapsed =>
    cases ht
    exact ⟨h.told, h.once, h.clients, h.started, h.points, h.past, h.failed, h.spoken, h.down, h.idle, h.closed⟩
  | work pid a =>
    simp only [World.step] at ht
    split at ht
    · cases ht
    · rename_i worker hfind
      exact h.work ho (List.mem_of_find?_eq_some hfind) ht
  | kill pid x =>
    simp only [World.step] at ht
    split at ht
    · rename_i hw
      obtain ⟨y, hy, hp⟩ := List.any_eq_true.mp hw
      cases ht
      have hpid : y.pid = pid := by simpa using hp
      subst hpid
      exact h.exit hy fun hr => (by cases hr)
    · cases ht
  | turn =>
    simp only [World.step] at ht
    split at ht
    · rename_i m inbox hrun hin
      cases ht
      exact h.handle ho hrun hin
    · cases ht
  | timeout finalizes =>
    simp only [World.step] at ht
    split at ht
    · rename_i t hrun hin htimeout
      split at ht
      · cases ht
        have hcache : Story ({ w with cache := (w.cache.removeDeadEntries w.now (fun _ => false) finalizes).2 }.note
            (.expired w.state.worker)) := by
          refine Story.note ?_ rfl
          exact ⟨h.told, h.once, h.clients, h.started, h.points, h.past, h.failed, h.spoken, h.down, h.idle, h.closed⟩
        have hordered : Ordered o ({ w with cache := (w.cache.removeDeadEntries w.now (fun _ => false) finalizes).2 }.note
            (.expired w.state.worker)) := (ho.uses _ w.now w.isOpen).note rfl
        unfold World.handleTimeout
        split
        · dsimp only
          split
          · exact hcache.noReply hordered hrun
          · exact hcache.terminate hordered _
        · exact h.noReply ho hrun
      · cases ht
    · cases ht
  | flushDown =>
    simp only [World.step] at ht
    split at ht
    · rename_i reason pid hstatus hw
      split at ht
      · rename_i r hr
        cases ht
        obtain ⟨m, hm, hd⟩ := List.exists_of_findSome?_eq_some hr
        rw [downOf_some hd] at hm
        exact h.flush ho (by rw [hstatus]; exact fun hh => (by cases hh)) hw hm reason
      · cases ht
    · cases ht
  | flushTimeout =>
    simp only [World.step] at ht
    split at ht
    · cases ht
      exact h.status fun hr => (by cases hr)
    · cases ht
  | stopDown =>
    simp only [World.step] at ht
    split at ht
    · split at ht
      · cases ht
        exact h.status fun hr => (by cases hr)
      · cases ht
    · cases ht

theorem reach_story {expireTimeout start : Nat} {allowed : World → Action → Prop}
    (h : Reach (World.initial expireTimeout start) (World.step o) allowed w) : Story w := by
  have hboth : Ordered o w ∧ Story w := by
    induction h with
    | start =>
      refine ⟨reach_ordered (.start : Reach _ _ allowed _), trivial, List.nodup_nil, List.nodup_nil, ?_, ?_, ?_, ?_, ?_, ?_,
        fun _ _ => rfl, ?_⟩
      · exact fun _ hx => absurd hx List.not_mem_nil
      · exact fun _ hx => absurd hx List.not_mem_nil
      · exact fun _ hx => absurd hx List.not_mem_nil
      · exact fun _ _ hm => absurd hm List.not_mem_nil
      · exact fun _ _ _ hm => absurd hm List.not_mem_nil
      · exact fun _ hm => absurd hm List.not_mem_nil
      · exact fun _ _ _ _ hm => absurd hm List.not_mem_nil
    | step _ _ ht ih => exact ⟨ih.1.step ht, ih.2.step ih.1 ht⟩
  exact hboth.2

theorem Told.justified {newer older : List Event} {pid client : Nat} {r : Reply} (h : Told (newer ++ .replied pid client r :: older)) :
    Justified older pid r ∧ ∃ f queue isOpen terminating, .started pid (.transaction f client) queue isOpen terminating ∈ older := by
  induction newer with
  | nil => exact ⟨h.1, h.2.1⟩
  | cons e newer ih =>
    cases e with
    | replied pid' client' r' => exact ih h.2.2
    | _ => exact ih h

theorem terminate_not_running (ho : Ordered o w) (r : Reason) : (w.terminate o r).status ≠ .running := by
  obtain ⟨w', hu, -⟩ := ho.update true
  unfold World.terminate
  rw [hu]
  dsimp only
  split
  · exact fun hr => (by cases hr)
  · exact fun hr => (by cases hr)

/-- What the DOWN message of a failed worker does. -/
theorem turn_stops (ho : Ordered o w) (hrun : w.status = .running) {pid : Nat} {x : Fault} {inbox : List Message}
    (hw : w.state.worker = some pid) (hin : w.inbox = .down pid (.fault x) :: inbox) :
    ∃ w', w.step o .turn = .ok w' ∧ w'.status ≠ .running := by
  have hgone := (ho.gone pid _ (by rw [hin]; exact List.mem_cons_self)).2
  have hnone := (ho.pop hin rfl).noWorker hw hgone
  refine ⟨{ w with inbox := inbox }.handle o (.down pid (.fault x)), ?_, ?_⟩
  · simp only [World.step, hrun, hin]
  · rw [World.handle, if_pos hw]
    exact terminate_not_running hnone _

/-- A client gets ok with a result after its procedure has returned the result and COMMIT has
succeeded, and error after its procedure has raised an exception, or returned a trapped one, and
ROLLBACK has succeeded. No client gets two replies. A worker that fails sends no reply, and its DOWN
message stops the server. A worker that is started outside terminate finds no open transaction. -/
theorem replies_tell_the_truth (o : Options) (expireTimeout start : Nat) (w : World)
    (h : Reach (World.initial expireTimeout start) (World.step o) (fun _ _ => True) w) :
    (∀ newer older pid client r, w.log = newer ++ .replied pid client r :: older →
      ∃ f queue isOpen terminating, .started pid (.transaction f client) queue isOpen terminating ∈ older) ∧
    (∀ newer older pid client v, w.log = newer ++ .replied pid client (.ok v) :: older →
      ∃ after before, older = after ++ .committed pid :: before ∧ .ran pid (.returned v) ∈ before) ∧
    (∀ newer older pid client e, w.log = newer ++ .replied pid client (.error e) :: older →
      ∃ after before, older = after ++ .rolledBack pid :: before ∧
        ((∃ x, .ran pid (.raised x) ∈ before ∧ e = (Result.raised x).tried.err) ∨
          ∃ v, .ran pid (.returned v) ∈ before ∧ v.isCatch = true ∧ e = v.err)) ∧
    (w.log.filterMap Event.client).Nodup ∧
    (∀ pid x, .failed pid x ∈ w.log → (∀ client r, .replied pid client r ∉ w.log) ∧
      (w.status = .running → w.state.worker = some pid ∧ .down pid (.fault x) ∈ w.inbox)) ∧
    (∀ pid x inbox, w.status = .running → w.state.worker = some pid → w.inbox = .down pid (.fault x) :: inbox →
      ∃ w', w.step o .turn = .ok w' ∧ w'.status ≠ .running) ∧
    ∀ pid job queue isOpen, .started pid job queue isOpen false ∈ w.log → isOpen = false := by
  have hs := reach_story h
  have htold := hs.told
  refine ⟨?_, ?_, ?_, hs.once, ?_, ?_, hs.closed⟩
  · intro newer older pid client r hlog
    rw [hlog] at htold
    exact htold.justified.2
  · intro newer older pid client v hlog
    rw [hlog] at htold
    exact htold.justified.1.2
  · intro newer older pid client e hlog
    rw [hlog] at htold
    obtain ⟨after, before, r, hbefore, hran, hcatch, he⟩ := htold.justified.1
    refine ⟨after, before, hbefore, ?_⟩
    cases r with
    | raised x => exact .inl ⟨x, hran, he⟩
    | returned v => exact .inr ⟨v, hran, hcatch, he⟩
  · intro pid x hm
    obtain ⟨-, hsilent, -, -, hdown⟩ := hs.failed pid x hm
    exact ⟨hsilent, hdown⟩
  · intro pid x inbox hrun hw hin
    exact turn_stops (reach_ordered h) hrun hw hin

namespace Sample

/-- A transaction whose procedure ends with a result. -/
def transactionOf (r : Result) : List Action :=
  [.send (.transaction 0 0), .turn, .work 0 (.control true 0 [.ok]), .work 0 (.ends r),
    .work 0 (.finalizeLazyObjects true), .work 0 (.control true 0 [.ok]), .work 0 .reply]

/-- The value #(EXIT reason) that catch returns for an exception. -/
def trapped : Datum := .vector [.symbol .exit, .nil]

end Sample

theorem replies_tell_the_truth_committed :
    ∃ w older, Reach (World.initial 1000 0) (World.step Sample.options) (fun _ _ => True) w ∧
      w.log = .replied 0 0 (.ok .nil) :: older ∧
      ∃ after before, older = after ++ .committed 0 :: before ∧ .ran 0 (.returned .nil) ∈ before := by
  have hrun : ∃ w older, Reach.run (World.step Sample.options) (World.initial 1000 0) (Sample.transactionOf (.returned .nil)) = .ok w ∧
      w.log = .replied 0 0 (.ok .nil) :: older := ⟨_, _, rfl, rfl⟩
  obtain ⟨w, older, hw, hlog⟩ := hrun
  have hreach := Reach.of_run _ .start (Reach.along_of_forall (fun _ _ => trivial) _ _) hw
  obtain ⟨-, hok, -⟩ := replies_tell_the_truth Sample.options 1000 0 w hreach
  exact ⟨w, older, hreach, hlog, hok [] older 0 0 .nil hlog⟩

/-- A procedure that returns a trapped exception raises nothing, and its client gets an error. -/
theorem trapped_exception_returned :
    ∃ w, Reach (World.initial 1000 0) (World.step Sample.options) (fun _ _ => True) w ∧
      .replied 0 0 (.error .nil) ∈ w.log ∧ .ran 0 (.returned Sample.trapped) ∈ w.log ∧ ∀ x, .ran 0 (.raised x) ∉ w.log := by
  have hrun : ∃ w, Reach.run (World.step Sample.options) (World.initial 1000 0) (Sample.transactionOf (.returned Sample.trapped)) = .ok w ∧
      w.log = [.replied 0 0 (.error .nil), .rolledBack 0, .ran 0 (.returned Sample.trapped),
        .started 0 (.transaction 0 0) [.transaction 0 0] false false] := ⟨_, rfl, rfl⟩
  obtain ⟨w, hw, hlog⟩ := hrun
  refine ⟨w, .of_run _ .start (Reach.along_of_forall (fun _ _ => trivial) _ _) hw, ?_, ?_, ?_⟩
  · rw [hlog]
    simp
  · rw [hlog]
    simp
  · intro x hm
    rw [hlog] at hm
    simp at hm

end Swish.Db
