import Swish.Lib.Settles

/-!
The worker thread of a database in sqlite.c: the Scheme thread hands it one request
at a time, under a mutex, and learns by an async handle that it is done.
-/

set_option autoImplicit false

namespace Swish.Sqlite

open Swish.Lib

/-- The worker functions with their callbacks: close_worker and close_cb, and so on. -/
inductive Kind where
  | close
  | prepare
  | step
  | bulk
  deriving DecidableEq

/-- A call of osi_close_database, osi_prepare_statement, osi_step_statement or osi_bulk_execute; arg is the part of it
that goes into the union of database_t. -/
structure Request (κ α : Type) where
  kind : Kind
  callback : κ
  arg : α

/-- Where the worker is in database_worker. -/
inductive WorkerPc where
  /-- At the first uv_mutex_lock. -/
  | start
  /-- At the test of d->work, with the mutex. -/
  | test
  | work (kind : Kind)
  /-- At the second uv_mutex_lock. -/
  | relock (kind : Kind)
  /-- After uv_async_send, with the mutex. -/
  | check (kind : Kind)
  /-- In uv_cond_wait, before and after it is woken up. -/
  | waiting
  | woken
  | exited
  deriving DecidableEq

/-- Where the Scheme thread is. -/
inductive SchemePc (κ α : Type) where
  | idle
  /-- At uv_mutex_lock of a request. -/
  | lock (r : Request κ α)
  /-- At uv_cond_signal of a request. -/
  | signal
  /-- At uv_thread_join of close_cb. -/
  | join
  /-- database_t is given back. -/
  | freed

/-- database_t, the two threads, and what has happened: the requests that returned #t, the worker functions that were
run with what they found in the union, and the callbacks that were called. -/
structure Database (κ α : Type) where
  /-- The worker has the mutex. -/
  held : Bool
  busy : Bool
  work : Option Kind
  callback : Option κ
  arg : Option α
  data : Kind
  rcOk : Bool
  pending : Bool
  worker : WorkerPc
  scheme : SchemePc κ α
  accepted : List (Request κ α)
  executed : List (Kind × α)
  answered : List (Kind × κ)

inductive Act (κ α : Type) where
  | request (r : Request κ α)
  | lock
  | signal
  | callback
  | join
  | start
  | test
  | work (rcOk : Bool)
  | relock
  | check
  | wake
  | spurious

/-- A step that is not possible, a request that returns UV_EBUSY, or the use of a field that has no value. -/
inductive Fault where
  | disabled
  | busy
  | noValue
  deriving DecidableEq

/-- The worker has nothing left to do. -/
def ends (kind : Kind) (rcOk : Bool) : Bool := kind = .close && rcOk

namespace Database

variable {κ α : Type}

def step (d : Database κ α) : Act κ α → Except Fault (Database κ α)
  | .request r =>
    match d.scheme with
    | .idle => if d.busy then .error .busy else .ok { d with data := r.kind, scheme := .lock r }
    | _ => .error .disabled
  | .lock =>
    match d.scheme with
    | .lock r =>
      if d.held then .error .disabled
      else .ok { d with busy := true, work := some r.kind, callback := some r.callback, arg := some r.arg,
                        scheme := .signal, accepted := d.accepted ++ [r] }
    | _ => .error .disabled
  | .signal =>
    match d.scheme with
    | .signal => .ok { d with scheme := .idle, worker := if d.worker = .waiting then .woken else d.worker }
    | _ => .error .disabled
  | .callback =>
    match d.scheme with
    | .idle =>
      if d.pending then
        match d.callback with
        | some callback =>
          .ok { d with pending := false, busy := false, callback := none, arg := none,
                       answered := d.answered ++ [(d.data, callback)],
                       scheme := if ends d.data d.rcOk then .join else .idle }
        | none => .error .noValue
      else .error .disabled
    | _ => .error .disabled
  | .join =>
    match d.scheme with
    | .join => if d.worker = .exited then .ok { d with scheme := .freed } else .error .disabled
    | _ => .error .disabled
  | .start => if d.worker = .start ∧ d.held = false then .ok { d with worker := .test, held := true } else .error .disabled
  | .test =>
    if d.worker = .test then
      match d.work with
      | some kind => .ok { d with worker := .work kind, held := false }
      | none => .ok { d with worker := .waiting, held := false }
    else .error .disabled
  | .work rcOk =>
    match d.worker with
    | .work kind =>
      match d.arg with
      | some arg => .ok { d with worker := .relock kind, rcOk := rcOk, executed := d.executed ++ [(kind, arg)] }
      | none => .error .noValue
    | _ => .error .disabled
  | .relock =>
    match d.worker with
    | .relock kind =>
      if d.held then .error .disabled
      else .ok { d with worker := .check kind, held := true, work := none, pending := true }
    | _ => .error .disabled
  | .check =>
    match d.worker with
    | .check kind => .ok { d with worker := if ends kind d.rcOk then .exited else .waiting, held := false }
    | _ => .error .disabled
  | .wake => if d.worker = .woken ∧ d.held = false then .ok { d with worker := .test, held := true } else .error .disabled
  | .spurious => if d.worker = .waiting then .ok { d with worker := .woken } else .error .disabled

/-- As open_cb makes it. -/
def initial : Database κ α := ⟨false, false, none, none, none, .close, true, false, .start, .idle, [], [], []⟩

/-- What a step can do. -/
inductive Moves (d : Database κ α) : Act κ α → Database κ α → Prop where
  | request (r : Request κ α) (hs : d.scheme = .idle) (hbusy : d.busy = false) :
    Moves d (.request r) { d with data := r.kind, scheme := .lock r }
  | lock (r : Request κ α) (hs : d.scheme = .lock r) (hheld : d.held = false) :
    Moves d .lock { d with busy := true, work := some r.kind, callback := some r.callback, arg := some r.arg,
                           scheme := .signal, accepted := d.accepted ++ [r] }
  | signal (hs : d.scheme = .signal) :
    Moves d .signal { d with scheme := .idle, worker := if d.worker = .waiting then .woken else d.worker }
  | callback (c : κ) (hs : d.scheme = .idle) (hpending : d.pending = true) (hc : d.callback = some c) :
    Moves d .callback { d with pending := false, busy := false, callback := none, arg := none,
                               answered := d.answered ++ [(d.data, c)],
                               scheme := if ends d.data d.rcOk then .join else .idle }
  | join (hs : d.scheme = .join) (hw : d.worker = .exited) : Moves d .join { d with scheme := .freed }
  | start (hw : d.worker = .start) (hheld : d.held = false) : Moves d .start { d with worker := .test, held := true }
  | take (kind : Kind) (hw : d.worker = .test) (hwork : d.work = some kind) :
    Moves d .test { d with worker := .work kind, held := false }
  | rest (hw : d.worker = .test) (hwork : d.work = none) : Moves d .test { d with worker := .waiting, held := false }
  | work (rcOk : Bool) (kind : Kind) (arg : α) (hw : d.worker = .work kind) (harg : d.arg = some arg) :
    Moves d (.work rcOk) { d with worker := .relock kind, rcOk := rcOk, executed := d.executed ++ [(kind, arg)] }
  | relock (kind : Kind) (hw : d.worker = .relock kind) (hheld : d.held = false) :
    Moves d .relock { d with worker := .check kind, held := true, work := none, pending := true }
  | check (kind : Kind) (hw : d.worker = .check kind) :
    Moves d .check { d with worker := if ends kind d.rcOk then .exited else .waiting, held := false }
  | wake (hw : d.worker = .woken) (hheld : d.held = false) : Moves d .wake { d with worker := .test, held := true }
  | spurious (hw : d.worker = .waiting) : Moves d .spurious { d with worker := .woken }

theorem moves_of_step {d e : Database κ α} {a : Act κ α} (h : d.step a = .ok e) : d.Moves a e := by
  cases a with
  | request r =>
    simp only [step] at h
    split at h
    · split at h <;> cases h
      exact .request r ‹_› (by simp_all)
    · cases h
  | lock =>
    simp only [step] at h
    split at h
    · split at h <;> cases h
      exact .lock _ ‹_› (by simp_all)
    · cases h
  | signal =>
    simp only [step] at h
    split at h <;> cases h
    exact .signal ‹_›
  | callback =>
    simp only [step] at h
    split at h
    · split at h
      · split at h <;> cases h
        exact .callback _ ‹_› ‹_› ‹_›
      · cases h
    · cases h
  | join =>
    simp only [step] at h
    split at h
    · split at h <;> cases h
      exact .join ‹_› ‹_›
    · cases h
  | start =>
    simp only [step] at h
    split at h <;> cases h
    rename_i hc
    exact .start hc.1 hc.2
  | test =>
    simp only [step] at h
    split at h
    · split at h <;> cases h
      · exact .take _ ‹_› ‹_›
      · exact .rest ‹_› ‹_›
    · cases h
  | work rcOk =>
    simp only [step] at h
    split at h
    · split at h <;> cases h
      exact .work rcOk _ _ ‹_› ‹_›
    · cases h
  | relock =>
    simp only [step] at h
    split at h
    · split at h <;> cases h
      exact .relock _ ‹_› (by simp_all)
    · cases h
  | check =>
    simp only [step] at h
    split at h <;> cases h
    exact .check _ ‹_›
  | wake =>
    simp only [step] at h
    split at h <;> cases h
    rename_i hc
    exact .wake hc.1 hc.2
  | spurious =>
    simp only [step] at h
    split at h <;> cases h
    exact .spurious ‹_›

def Request.job (r : Request κ α) : Kind × α := (r.kind, r.arg)

def Request.answer (r : Request κ α) : Kind × κ := (r.kind, r.callback)

/-- No request is under way: all have been executed and answered. -/
structure Free (d : Database κ α) : Prop where
  work : d.work = none
  pending : d.pending = false
  worker : ∀ k, d.worker ≠ .work k ∧ d.worker ≠ .relock k
  executed : d.executed = d.accepted.map Request.job
  answered : d.answered = d.accepted.map Request.answer

/-- The request r is under way. -/
structure Underway (d : Database κ α) (past : List (Request κ α)) (r : Request κ α) : Prop where
  accepted : d.accepted = past ++ [r]
  callback : d.callback = some r.callback
  arg : d.arg = some r.arg
  data : d.data = r.kind
  answered : d.answered = past.map Request.answer
  scheme : d.scheme = .idle ∨ d.scheme = .signal

/-- It waits for the worker, or the worker is at it. -/
structure Given (d : Database κ α) (past : List (Request κ α)) (r : Request κ α) : Prop extends Underway d past r where
  work : d.work = some r.kind
  pending : d.pending = false
  worker : ((d.worker = .start ∨ d.worker = .test ∨ d.worker = .woken ∨ d.worker = .waiting ∧ d.scheme = .signal ∨
      d.worker = .work r.kind) ∧ d.executed = past.map Request.job) ∨
    d.worker = .relock r.kind ∧ d.executed = d.accepted.map Request.job

/-- It has been executed, and its callback is to be called. -/
structure Done (d : Database κ α) (past : List (Request κ α)) (r : Request κ α) : Prop extends Underway d past r where
  work : d.work = none
  pending : d.pending = true
  worker : d.worker = .check r.kind ∨ (if ends r.kind d.rcOk then d.worker = .exited
    else d.worker = .waiting ∨ d.worker = .woken ∨ d.worker = .test)
  executed : d.executed = d.accepted.map Request.job

structure Sound (d : Database κ α) : Prop where
  held : d.held = true ↔ d.worker = .test ∨ ∃ k, d.worker = .check k
  free : d.busy = false → d.Free
  busy : d.busy = true → ∃ past r, d.Given past r ∨ d.Done past r
  asked : ∀ r, d.scheme = .lock r → d.data = r.kind
  /-- The connection is closed. -/
  last : d.busy = false → (d.scheme = .join → d.worker = .exited ∨ d.worker = .check .close ∧ d.rcOk = true) ∧
    (d.scheme = .freed → d.worker = .exited) ∧
    (d.scheme ≠ .join → d.scheme ≠ .freed → d.worker ≠ .exited ∧ ∀ k, d.worker = .check k → ends k d.rcOk = false)

variable {d e : Database κ α} {a : Act κ α}

theorem held_step (h : d.Sound) (ht : d.Moves a e) : e.held = true ↔ e.worker = .test ∨ ∃ k, e.worker = .check k := by
  have hheld := h.held
  cases ht <;> grind [ends]

theorem Sound.initial : (initial : Database κ α).Sound where
  held := by simp [Database.initial]
  free _ := ⟨rfl, rfl, by simp [Database.initial], rfl, rfl⟩
  busy h := by cases h
  asked _ h := by cases h
  last _ := by simp [Database.initial]

/-- The Scheme thread is at a request only when the last one is answered. -/
theorem Sound.not_busy (h : d.Sound) (hi : d.scheme ≠ .idle) (hs : d.scheme ≠ .signal) : d.busy = false := by
  cases hb : d.busy with
  | false => rfl
  | true =>
    obtain ⟨past, r, hr | hr⟩ := h.busy hb
    · exact absurd hr.scheme (by simp [hi, hs])
    · exact absurd hr.scheme (by simp [hi, hs])

variable {past : List (Request κ α)} {r : Request κ α}

/-- Until the callback the fields that it reads stay. -/
theorem Underway.goOn (hu : d.Underway past r) (hb : d.busy = true) (ht : d.Moves a e) (he : e.busy = true) :
    e.Underway past r := by
  obtain ⟨haccepted, hcallback, harg, hdata, hanswered, hscheme⟩ := hu
  cases ht with
  | request r' hs hbusy => simp [hb] at hbusy
  | lock r' hs => simp [hs] at hscheme
  | join hs => simp [hs] at hscheme
  | callback => cases he
  | signal hs => exact ⟨haccepted, hcallback, harg, hdata, hanswered, .inl rfl⟩
  | _ => exact ⟨haccepted, hcallback, harg, hdata, hanswered, hscheme⟩

theorem Given.goOn (hr : d.Given past r) (hb : d.busy = true) (ht : d.Moves a e) (he : e.busy = true) :
    e.Given past r ∨ e.Done past r := by
  have hu := hr.toUnderway.goOn hb ht he
  obtain ⟨⟨haccepted, -, harg, -, -, hscheme⟩, hwork, hpending, hworker⟩ := hr
  cases ht with
  | request r' hs hbusy => simp [hb] at hbusy
  | lock r' hs => simp [hs] at hscheme
  | join hs => simp [hs] at hscheme
  | callback => cases he
  | relock kind hw hheld =>
    -- the request is done
    have hkind : kind = r.kind ∧ d.executed = d.accepted.map Request.job := by grind
    obtain ⟨rfl, hexecuted⟩ := hkind
    exact .inr ⟨hu, rfl, rfl, .inl rfl, hexecuted⟩
  | work rcOk kind arg hw hget =>
    have hkind : kind = r.kind ∧ d.executed = past.map Request.job := by grind
    have hsame : arg = r.arg := by simpa [harg] using hget.symm
    refine .inl ⟨hu, hwork, hpending, .inr ⟨by simp [hkind.1], ?_⟩⟩
    simp [haccepted, hkind, hsame, Request.job]
  | _ => exact .inl ⟨hu, hwork, hpending, by grind⟩

theorem Done.goOn (hr : d.Done past r) (hb : d.busy = true) (ht : d.Moves a e) (he : e.busy = true) :
    e.Done past r := by
  have hu := hr.toUnderway.goOn hb ht he
  obtain ⟨⟨haccepted, -, harg, -, -, hscheme⟩, hwork, hpending, hworker, hexecuted⟩ := hr
  cases ht with
  | request r' hs hbusy => simp [hb] at hbusy
  | lock r' hs => simp [hs] at hscheme
  | join hs => simp [hs] at hscheme
  | callback => cases he
  | _ => exact ⟨hu, by grind, by grind, by grind, by grind⟩

theorem busy_step (h : d.Sound) (ht : d.Moves a e) (he : e.busy = true) : ∃ past r, e.Given past r ∨ e.Done past r := by
  cases hb : d.busy with
  | true =>
    obtain ⟨past, r, hr | hr⟩ := h.busy hb
    · exact ⟨past, r, hr.goOn hb ht he⟩
    · exact ⟨past, r, .inr (hr.goOn hb ht he)⟩
  | false =>
    have hfree := h.free hb
    have hlast := (h.last hb).2.2
    have hheld := h.held
    cases ht with
    | lock r hs hheld' =>
      refine ⟨d.accepted, r, .inl ⟨⟨rfl, rfl, rfl, h.asked r hs, hfree.answered, .inr rfl⟩, rfl, hfree.pending, ?_⟩⟩
      have hw := hfree.worker
      have hexited := (hlast (by simp [hs]) (by simp [hs])).1
      refine .inl ⟨?_, hfree.executed⟩
      cases hworker : d.worker <;> simp_all
    | callback c hs hpending => simp [hfree.pending] at hpending
    | _ => simp [hb] at he

theorem free_step (h : d.Sound) (ht : d.Moves a e) (he : e.busy = false) : e.Free := by
  have hfree := h.free
  cases ht with
  | callback c hs hpending hc =>
    have hb : d.busy = true := by
      by_contra hb
      simp [(hfree (by simpa using hb)).pending] at hpending
    obtain ⟨past, r, hr | hr⟩ := h.busy hb
    · simp [hr.pending] at hpending
    · have hcallback := hr.callback
      have hdata := hr.data
      refine ⟨hr.work, rfl, ?_, hr.executed, ?_⟩
      · have hw := hr.worker
        grind
      · simp [hr.answered, hr.accepted, hr.data, Request.answer, show c = r.callback by simpa [hcallback] using hc.symm]
  | lock => cases he
  | take kind hw hwork => simp [(hfree he).work] at hwork
  | work rcOk kind arg hw => exact absurd hw ((hfree he).worker kind).1
  | relock kind hw => exact absurd hw ((hfree he).worker kind).2
  | request | join =>
    obtain ⟨hwork, hpending, hworker, hexecuted, hanswered⟩ := hfree he
    exact ⟨hwork, hpending, hworker, hexecuted, hanswered⟩
  | signal =>
    obtain ⟨hwork, hpending, hworker, hexecuted, hanswered⟩ := hfree he
    refine ⟨hwork, hpending, fun k => ?_, hexecuted, hanswered⟩
    by_cases hw : d.worker = .waiting
    · simp [hw]
    · simpa [hw] using hworker k
  | check kind =>
    obtain ⟨hwork, hpending, -, hexecuted, hanswered⟩ := hfree he
    refine ⟨hwork, hpending, fun k => ?_, hexecuted, hanswered⟩
    by_cases hend : ends kind d.rcOk = true
    · simp [hend]
    · simp [hend]
  | start | rest | wake | spurious =>
    obtain ⟨hwork, hpending, -, hexecuted, hanswered⟩ := hfree he
    exact ⟨hwork, hpending, fun k => ⟨nofun, nofun⟩, hexecuted, hanswered⟩

theorem last_step (h : d.Sound) (ht : d.Moves a e) (he : e.busy = false) :
    (e.scheme = .join → e.worker = .exited ∨ e.worker = .check .close ∧ e.rcOk = true) ∧
      (e.scheme = .freed → e.worker = .exited) ∧
      (e.scheme ≠ .join → e.scheme ≠ .freed → e.worker ≠ .exited ∧ ∀ k, e.worker = .check k → ends k e.rcOk = false) := by
  have hlast := h.last
  have hfree := h.free
  cases ht with
  | callback c hs hpending hc =>
    have hb : d.busy = true := by
      by_contra hb
      simp [(hfree (by simpa using hb)).pending] at hpending
    obtain ⟨past, r, hr | hr⟩ := h.busy hb
    · simp [hr.pending] at hpending
    · have hw := hr.worker
      have hdata := hr.data
      grind [ends]
  | lock => cases he
  | _ =>
    have hl := hlast he
    have hf := (hfree he).worker
    grind [ends]

theorem asked_step (h : d.Sound) (ht : d.Moves a e) (r : Request κ α) (he : e.scheme = .lock r) : e.data = r.kind := by
  have hasked := h.asked r
  cases ht <;> grind

theorem Sound.step (h : d.Sound) (ht : d.Moves a e) : e.Sound :=
  ⟨held_step h ht, free_step h ht, busy_step h ht, asked_step h ht, last_step h ht⟩

/-! Each request comes to its callback. -/

/-- No new requests and no spurious wake-ups. -/
def Quiet (_d : Database κ α) : Act κ α → Prop
  | .request _ => False
  | .spurious => False
  | _ => True

def workerSteps : WorkerPc → Nat
  | .start => 7
  | .woken => 7
  | .test => 6
  | .work _ => 5
  | .relock _ => 4
  | .check _ => 1
  | .waiting => 0
  | .exited => 0

def schemeSteps : SchemePc κ α → Nat
  | .lock _ => 9
  | .signal => 8
  | .join => 1
  | .idle => 0
  | .freed => 0

/-- How many steps may be left. -/
def steps (d : Database κ α) : Nat := schemeSteps d.scheme + (if d.pending then 2 else 0) + workerSteps d.worker

theorem workerSteps_le (w : WorkerPc) : workerSteps w ≤ 7 := by
  cases w <;> simp [workerSteps]

theorem schemeSteps_le (s : SchemePc κ α) : schemeSteps s ≤ 9 := by
  cases s <;> simp [schemeSteps]

theorem steps_le (d : Database κ α) : d.steps ≤ 18 := by
  have hw := workerSteps_le d.worker
  have hs := schemeSteps_le d.scheme
  unfold steps
  split <;> omega

theorem steps_fall (h : d.Sound) (hq : d.Quiet a) (ht : d.Moves a e) : e.steps < d.steps := by
  cases ht with
  | request | spurious => exact hq.elim
  | relock kind hw hheld =>
    have hpending : d.pending = false := by
      cases hb : d.busy with
      | false => exact (h.free hb).pending
      | true =>
        obtain ⟨past, r, hr | hr⟩ := h.busy hb
        · exact hr.pending
        · have hworker := hr.worker
          grind
    simp [steps, workerSteps, hw, hpending]
  | signal hs =>
    by_cases hw : d.worker = .waiting
    · simp only [steps, schemeSteps, workerSteps, hs, hw, if_true]
      omega
    · simp [steps, schemeSteps, hs, hw]
  | callback c hs hpending hc =>
    by_cases hend : ends d.data d.rcOk = true
    · simp [steps, schemeSteps, hs, hpending, hend]
    · simp [steps, schemeSteps, hs, hpending, hend]
  | check kind hw =>
    by_cases hend : ends kind d.rcOk = true
    · simp [steps, workerSteps, hw, hend]
    · simp [steps, workerSteps, hw, hend]
  | _ => simp [steps, workerSteps, schemeSteps, *]

def Goes (d : Database κ α) : Prop := ∃ a e, d.Quiet a ∧ d.step a = .ok e

/-- The worker with the mutex gives it back. -/
theorem goes_held (h : d.Sound) (hheld : d.held = true) : d.Goes := by
  rcases h.held.mp hheld with hw | ⟨k, hw⟩
  · cases hwork : d.work with
    | none => exact ⟨.test, _, trivial, by simp only [Database.step, hw, hwork]; rfl⟩
    | some k => exact ⟨.test, _, trivial, by simp only [Database.step, hw, hwork]; rfl⟩
  · exact ⟨.check, _, trivial, by simp only [Database.step, hw]; rfl⟩

theorem goes_on (h : d.Sound) (hd : ¬ (d.busy = false ∧ (d.scheme = .idle ∨ d.scheme = .freed))) : d.Goes := by
  by_cases hheld : d.held = true
  · exact goes_held h hheld
  · have hfree : d.held = false := by simpa using hheld
    cases hs : d.scheme with
    | lock r => exact ⟨.lock, _, trivial, by simp only [Database.step, hs, hfree]; rfl⟩
    | signal => exact ⟨.signal, _, trivial, by simp only [Database.step, hs]; rfl⟩
    | join =>
      have hb := h.not_busy (by simp [hs]) (by simp [hs])
      rcases (h.last hb).1 hs with hw | ⟨hw, -⟩
      · exact ⟨.join, _, trivial, by simp only [Database.step, hs, hw]; rfl⟩
      · exact ⟨.check, _, trivial, by simp only [Database.step, hw]; rfl⟩
    | freed => exact absurd ⟨h.not_busy (by simp [hs]) (by simp [hs]), .inr hs⟩ hd
    | idle =>
      have hb : d.busy = true := by
        by_contra hb
        exact hd ⟨by simpa using hb, .inl hs⟩
      obtain ⟨past, r, hr | hr⟩ := h.busy hb
      · have hwork := hr.worker
        have harg := hr.arg
        cases hw : d.worker with
        | start => exact ⟨.start, _, trivial, by simp only [Database.step, hw, hfree]; rfl⟩
        | woken => exact ⟨.wake, _, trivial, by simp only [Database.step, hw, hfree]; rfl⟩
        | work k => exact ⟨.work true, _, trivial, by simp only [Database.step, hw, harg]; rfl⟩
        | test => exact absurd (h.held.mpr (.inl hw)) hheld
        | relock k => exact ⟨.relock, _, trivial, by simp only [Database.step, hw, hfree]; rfl⟩
        | _ => simp_all
      · exact ⟨.callback, _, trivial, by simp only [Database.step, hs, hr.pending, hr.callback]; rfl⟩

/-- The states of a database that open_cb has made. -/
def Reachable : Database κ α → Prop := Reach initial step fun _ _ => True

theorem Reachable.sound (h : Reachable d) : d.Sound :=
  Reach.invariant Sound.initial (fun _ _ _ hd _ ht => hd.step (moves_of_step ht)) h

theorem settles : Settles (step : Database κ α → Act κ α → Except Fault (Database κ α)) Sound Quiet steps
    fun d => d.busy = false ∧ (d.scheme = .idle ∨ d.scheme = .freed) where
  keeps h _ ht := h.step (moves_of_step ht)
  falls h hq ht := steps_fall h hq (moves_of_step ht)
  goes h hd := goes_on h hd

theorem value_there (h : d.Sound) (a : Act κ α) : d.step a ≠ .error .noValue := by
  intro hstep
  cases a with
  | callback =>
    simp only [Database.step] at hstep
    split at hstep
    · split at hstep
      · rename_i hpending
        split at hstep
        · cases hstep
        · rename_i hc
          cases hb : d.busy with
          | false => simp [(h.free hb).pending] at hpending
          | true =>
            obtain ⟨past, r, hr | hr⟩ := h.busy hb
            · simp [hr.callback] at hc
            · simp [hr.callback] at hc
      · cases hstep
    · cases hstep
  | work rcOk =>
    simp only [Database.step] at hstep
    split at hstep
    · rename_i k hw
      split at hstep
      · cases hstep
      · rename_i harg
        cases hb : d.busy with
        | false => exact ((h.free hb).worker k).1 hw
        | true =>
          obtain ⟨past, r, hr | hr⟩ := h.busy hb
          · simp [hr.arg] at harg
          · simp [hr.arg] at harg
    · cases hstep
  | _ =>
    simp only [Database.step] at hstep
    repeat' split at hstep
    all_goals cases hstep

/-- The requests are executed in their order, each once and with what it put into the union, and their callbacks are
called in this order, each once; there is never more than one request that has not been answered. The worker is at the
connection only while the database is busy, and it has exited when the database is given back. -/
theorem requests_in_order (h : Reachable d) :
    (∀ a, d.step a ≠ .error .noValue) ∧ (d.busy = false → ∀ k, d.worker ≠ .work k) ∧
      (d.scheme = .freed → d.worker = .exited) ∧
      ∃ i j, j ≤ i ∧ i ≤ d.accepted.length ∧ d.accepted.length ≤ j + 1 ∧
        d.executed = (d.accepted.take i).map Request.job ∧ d.answered = (d.accepted.take j).map Request.answer := by
  have hs := h.sound
  refine ⟨value_there hs, fun hb k => ((hs.free hb).worker k).1, fun hf => ?_, ?_⟩
  · exact (hs.last (hs.not_busy (by simp [hf]) (by simp [hf]))).2.1 hf
  · cases hb : d.busy with
    | false =>
      have hfree := hs.free hb
      exact ⟨_, _, Nat.le_refl _, Nat.le_refl _, Nat.le_succ _, by rw [List.take_length, hfree.executed],
        by rw [List.take_length, hfree.answered]⟩
    | true =>
      obtain ⟨past, r, hr | hr⟩ := hs.busy hb
      · have hpast : d.accepted.take past.length = past := by simp [hr.accepted]
        rcases hr.worker with ⟨-, hexecuted⟩ | ⟨-, hexecuted⟩
        · exact ⟨past.length, past.length, Nat.le_refl _, by simp [hr.accepted], by simp [hr.accepted],
            by rw [hpast, hexecuted], by rw [hpast, hr.answered]⟩
        · exact ⟨d.accepted.length, past.length, by simp [hr.accepted], Nat.le_refl _, by simp [hr.accepted],
            by rw [List.take_length, hexecuted], by rw [hpast, hr.answered]⟩
      · have hpast : d.accepted.take past.length = past := by simp [hr.accepted]
        exact ⟨d.accepted.length, past.length, by simp [hr.accepted], Nat.le_refl _, by simp [hr.accepted],
          by rw [List.take_length, hr.executed], by rw [hpast, hr.answered]⟩

/-- No wake-up is lost: without new requests and spurious wake-ups at most 18 steps follow, and where none is possible
all requests have been executed and answered. -/
theorem requests_answered (h : Reachable d) (as : List (Act κ α)) (hquiet : Reach.Along step Quiet d as)
    (hrun : Reach.run step d as = .ok e) :
    as.length ≤ 18 ∧ ((∀ a e', e.Quiet a → e.step a ≠ .ok e') →
      e.busy = false ∧ e.executed = e.accepted.map Request.job ∧ e.answered = e.accepted.map Request.answer) := by
  obtain ⟨hlength, hsound⟩ := settles.run_length as h.sound hquiet hrun
  have hsteps := d.steps_le
  refine ⟨by omega, fun hstuck => ?_⟩
  have hb := (settles.good_of_stuck hsound hstuck).1
  exact ⟨hb, (hsound.free hb).executed, (hsound.free hb).answered⟩

/-- The connection is closed after a statement has been prepared. -/
def prepareAndClose : List (Act Nat Nat) :=
  [.request ⟨.prepare, 1, 10⟩, .start, .test, .lock, .signal, .wake, .test, .work true, .relock, .callback, .check,
    .request ⟨.close, 2, 0⟩, .lock]

def closing : List (Act Nat Nat) := [.signal, .wake, .test, .work true, .relock, .check, .callback, .join]

theorem requests_in_order_prepare : ∃ d : Database Nat Nat, d.executed = [(.prepare, 10)] ∧
    ∃ i j, j ≤ i ∧ i ≤ d.accepted.length ∧ d.accepted.length ≤ j + 1 ∧
      d.executed = (d.accepted.take i).map Request.job ∧ d.answered = (d.accepted.take j).map Request.answer := by
  obtain ⟨d, hd, hexecuted⟩ : ∃ d, Reach.run step initial prepareAndClose = .ok d ∧ d.executed = [(.prepare, 10)] :=
    ⟨_, rfl, rfl⟩
  have hreach : Reachable d := .of_run prepareAndClose .start (Reach.along_of_forall (fun _ _ => trivial) _ _) hd
  exact ⟨d, hexecuted, (requests_in_order hreach).2.2.2⟩

theorem requests_answered_close : ∃ e : Database Nat Nat, e.answered = [(.prepare, 1), (.close, 2)] ∧
    closing.length ≤ 18 ∧ ((∀ a e', e.Quiet a → e.step a ≠ .ok e') →
      e.busy = false ∧ e.executed = e.accepted.map Request.job ∧ e.answered = e.accepted.map Request.answer) := by
  obtain ⟨d, hd, e, he, hanswered⟩ : ∃ d, Reach.run step initial prepareAndClose = .ok d ∧
      ∃ e, Reach.run step d closing = .ok e ∧ e.answered = [(.prepare, 1), (.close, 2)] := ⟨_, rfl, _, rfl, rfl⟩
  have hreach : Reachable d := .of_run prepareAndClose .start (Reach.along_of_forall (fun _ _ => trivial) _ _) hd
  exact ⟨e, hanswered, requests_answered hreach closing (along_of_mem _ (by simp [closing, Quiet]) d) he⟩

end Database

end Swish.Sqlite
