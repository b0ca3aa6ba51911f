import Swish.Db.Server

/-!
The requests of the db server: they are handed to the workers in the order in which they
arrive, and one worker is alive at a time.
-/

set_option autoImplicit false

namespace Swish.Db

open Swish.Lib

def Job.requests : Job → List Request
  | .logs ls _ => ls.map .log
  | .transaction f client => [.transaction f client]

/-- The work that has been handed to workers. -/
def handed : List Event → List Request
  | [] => []
  | .started _ job _ _ _ :: log => handed log ++ job.requests
  | _ :: log => handed log

/-- What a worker gets from the queue. -/
def Job.Fits (o : Options) (queue : List Request) : Job → Prop
  | .logs ls count =>
    ls.map .log = (queue.takeWhile Request.isLog).take o.commitLimit ∧ ls ≠ [] ∧ ls.length ≤ o.commitLimit ∧ count = ls.length
  | .transaction f client => [.transaction f client] = queue.take 1

variable {o : Options} {w w' : World} {queue : Queue Request} {job : Job}

theorem getLogs_spec (limit : Nat) {fuel : Nat} {x : Request} {rest : List Request} (hv : queue.Valid)
    (hq : queue.toList = x :: rest) (hfuel : rest.length < fuel) (count : Nat) :
    ∃ logs queue', getLogs fuel queue count limit = .ok (logs, queue', count + 1 + logs.length) ∧ queue'.Valid ∧
      rest = logs.map .log ++ queue'.toList ∧ logs.map .log = (rest.takeWhile Request.isLog).take (limit - (count + 1)) := by
  induction fuel generalizing queue x rest count with
  | zero => omega
  | succ fuel ih =>
    obtain ⟨q, hdrop, hqv, hql⟩ := hv.drop_eq hq
    rw [getLogs, hdrop]
    dsimp only [bind, Except.bind]
    by_cases hend : q.isEmpty = true ∨ limit ≤ count + 1
    · rw [if_pos hend]
      refine ⟨[], q, rfl, hqv, by simp [hql], ?_⟩
      rcases hend with he | he
      · rw [hqv.isEmpty_iff, hql] at he
        rw [he]
        simp
      · rw [Nat.sub_eq_zero_of_le he]
        simp
    · rw [if_neg hend]
      obtain ⟨hne, hlt⟩ := not_or.mp hend
      cases rest with
      | nil =>
        rw [hqv.isEmpty_iff, hql] at hne
        exact absurd rfl hne
      | cons y rest =>
        rw [hqv.get_eq hql]
        dsimp only
        cases y with
        | transaction f client => exact ⟨[], q, rfl, hqv, by simp [hql], by simp [Request.isLog]⟩
        | log l =>
          rw [List.length_cons] at hfuel
          obtain ⟨logs, q', hlogs, hv', hrest, hmax⟩ := ih hqv hql (by omega) (count + 1)
          dsimp only
          rw [hlogs]
          refine ⟨l :: logs, q', ?_, hv', by rw [hrest]; rfl, ?_⟩
          · simp only [pure, Except.pure, List.length_cons]
            rw [show count + 1 + 1 + logs.length = count + 1 + (logs.length + 1) by omega]
          · rw [List.takeWhile_cons_of_pos rfl, List.map_cons, hmax,
              show limit - (count + 1) = limit - (count + 1 + 1) + 1 by omega, List.take_succ_cons]

/-- get-work splits the queue. -/
theorem getWork_spec (o : Options) (hv : queue.Valid) (hne : queue.isEmpty = false) :
    ∃ queue' job, getWork queue o.commitLimit = .ok (queue', job) ∧ queue'.Valid ∧
      queue.toList = job.requests ++ queue'.toList ∧ job.Fits o queue.toList := by
  cases hq : queue.toList with
  | nil =>
    rw [hv.isEmpty_iff.mpr hq] at hne
    cases hne
  | cons x rest =>
    rw [getWork, hv.get_eq hq]
    dsimp only [bind, Except.bind]
    cases x with
    | transaction f client =>
      obtain ⟨q, hdrop, hqv, hql⟩ := hv.drop_eq hq
      dsimp only
      rw [hdrop]
      exact ⟨q, .transaction f client, rfl, hqv, by rw [hql]; rfl, rfl⟩
    | log l =>
      obtain ⟨logs, q, hlogs, hqv, hrest, hmax⟩ :=
        getLogs_spec o.commitLimit hv hq (Nat.lt_succ_self rest.length) 0
      have hlimit := o.positive
      have hrun : (l :: logs).map Request.log = ((Request.log l :: rest).takeWhile Request.isLog).take o.commitLimit := by
        rw [List.takeWhile_cons_of_pos rfl, List.map_cons, hmax, show o.commitLimit = o.commitLimit - 1 + 1 by omega,
          List.take_succ_cons]
        rfl
      dsimp only
      rw [hq, List.length_cons, hlogs]
      refine ⟨q, .logs (l :: logs) (0 + 1 + logs.length), rfl, hqv, by rw [hrest]; rfl, hrun, by simp, ?_, ?_⟩
      · have hlen := congrArg List.length hrun
        rw [List.length_map, List.length_take] at hlen
        omega
      · rw [List.length_cons]
        omega

/-- All slots before i are set. -/
def Filled {α : Type} (i : Nat) (v : List (Option α)) : Prop := ∀ j < i, ∃ x, v[j]? = some (some x)

/-- The vectors of a log worker. -/
def Point.Ok : Point → Prop
  | .fill ls i vstmt vbind =>
    vstmt.length = i + ls.length ∧ vbind.length = i + ls.length ∧ Filled i vstmt ∧ Filled i vbind
  | .beginLogs vstmt vbind => Filled vstmt.length vstmt ∧ Filled vbind.length vbind
  | .bulkExecute vstmt vbind => Filled vstmt.length vstmt ∧ Filled vbind.length vbind
  | _ => True

/-- What holds in every state. -/
structure Ordered (o : Options) (w : World) : Prop where
  valid : w.state.queue.Valid
  order : handed w.log ++ w.state.queue.toList ++ w.inbox.filterMap Message.request? = w.requests
  single : w.alive.length ≤ 1
  worker : ∀ x ∈ w.alive, w.state.worker = some x.pid
  fresh : ∀ x ∈ w.alive, x.pid < w.nextPid
  gone : ∀ pid r, .down pid r ∈ w.inbox → pid < w.nextPid ∧ ∀ x ∈ w.alive, x.pid ≠ pid
  jobs : ∀ pid job queue isOpen terminating, .started pid job queue isOpen terminating ∈ w.log → job.Fits o queue
  points : ∀ x ∈ w.alive, x.point.Ok
  inRange : ∀ pid, .failed pid .outOfRange ∉ w.log

theorem Filled.set {α : Type} {i : Nat} {v : List (Option α)} (h : Filled i v) (hi : i < v.length) (x : α) :
    Filled (i + 1) (v.set i (some x)) := by
  intro j hj
  by_cases hji : j = i
  · subst hji
    exact ⟨x, List.getElem?_set_self hi⟩
  · rw [List.getElem?_set_ne (Ne.symm hji)]
    exact h j (by omega)

/-- Events that are neither the start of a worker nor an index out of range. -/
def Event.isPlain : Event → Bool
  | .started _ _ _ _ _ => false
  | .failed _ x => x ≠ .outOfRange
  | _ => true

theorem handed_cons {e : Event} {log : List Event} (h : e.isPlain = true) : handed (e :: log) = handed log := by
  cases e with
  | started pid job queue isOpen terminating => cases h
  | _ => rfl

theorem Ordered.note (h : Ordered o w) {e : Event} (he : e.isPlain = true) : Ordered o (w.note e) := by
  refine ⟨h.valid, ?_, h.single, h.worker, h.fresh, h.gone, ?_, h.points, ?_⟩
  · rw [World.note, handed_cons he]
    exact h.order
  · intro pid job queue isOpen terminating hm
    rcases List.mem_cons.mp hm with heq | hm
    · rw [← heq] at he
      cases he
    · exact h.jobs pid job queue isOpen terminating hm
  · intro pid hm
    rcases List.mem_cons.mp hm with heq | hm
    · rw [← heq] at he
      cases he
    · exact h.inRange pid hm

/-- The other fields of the world do not matter. -/
theorem Ordered.congr (h : Ordered o w) (hq : w'.state.queue = w.state.queue) (hw : w'.state.worker = w.state.worker)
    (hin : w'.inbox = w.inbox) (ha : w'.alive = w.alive) (hn : w'.nextPid = w.nextPid) (hr : w'.requests = w.requests)
    (hl : w'.log = w.log) : Ordered o w' := by
  refine ⟨?_, ?_, ?_, ?_, ?_, ?_, ?_, ?_, ?_⟩
  · rw [hq]
    exact h.valid
  · rw [hl, hq, hin, hr]
    exact h.order
  · rw [ha]
    exact h.single
  · rw [ha, hw]
    exact h.worker
  · rw [ha, hn]
    exact h.fresh
  · rw [hin, ha, hn]
    exact h.gone
  · rw [hl]
    exact h.jobs
  · rw [ha]
    exact h.points
  · rw [hl]
    exact h.inRange

theorem Ordered.uses (h : Ordered o w) (cache : Cache) (now : Nat) (isOpen : Bool) :
    Ordered o { w with cache := cache, now := now, isOpen := isOpen } := h.congr rfl rfl rfl rfl rfl rfl rfl

theorem mem_goto {pid : Nat} {point : Point} {x : Worker} (h : x ∈ (w.goto pid point).alive) :
    ∃ y ∈ w.alive, x.pid = y.pid ∧ x.job = y.job ∧ (x = y ∧ y.pid ≠ pid ∨ y.pid = pid ∧ x.point = point) := by
  obtain ⟨y, hy, rfl⟩ := List.mem_map.mp h
  refine ⟨y, hy, ?_⟩
  by_cases hp : y.pid = pid
  · rw [if_pos hp]
    exact ⟨rfl, rfl, .inr ⟨hp, rfl⟩⟩
  · rw [if_neg hp]
    exact ⟨rfl, rfl, .inl ⟨rfl, hp⟩⟩

theorem Ordered.goto (h : Ordered o w) (pid : Nat) {point : Point} (hp : point.Ok) : Ordered o (w.goto pid point) := by
  refine ⟨h.valid, h.order, ?_, ?_, ?_, ?_, h.jobs, ?_, h.inRange⟩
  · rw [World.goto, List.length_map]
    exact h.single
  · intro x hx
    obtain ⟨y, hy, hpid, -⟩ := mem_goto hx
    rw [hpid]
    exact h.worker y hy
  · intro x hx
    obtain ⟨y, hy, hpid, -⟩ := mem_goto hx
    rw [hpid]
    exact h.fresh y hy
  · intro pid' r hm
    refine ⟨(h.gone pid' r hm).1, ?_⟩
    intro x hx
    obtain ⟨y, hy, hpid, -⟩ := mem_goto hx
    rw [hpid]
    exact (h.gone pid' r hm).2 y hy
  · intro x hx
    obtain ⟨y, hy, -, -, ⟨rfl, -⟩ | ⟨-, hpoint⟩⟩ := mem_goto hx
    · exact h.points x hy
    · rw [hpoint]
      exact hp

theorem Ordered.exit (h : Ordered o w) {pid : Nat} (hpid : pid < w.nextPid) (r : Reason) : Ordered o (w.exit pid r) := by
  refine ⟨h.valid, ?_, ?_, ?_, ?_, ?_, h.jobs, ?_, h.inRange⟩
  · rw [World.exit, List.filterMap_append, show [Message.down pid r].filterMap Message.request? = [] from rfl, List.append_nil]
    exact h.order
  · exact Nat.le_trans (List.length_filter_le _ _) h.single
  · intro x hx
    exact h.worker x (List.mem_filter.mp hx).1
  · intro x hx
    exact h.fresh x (List.mem_filter.mp hx).1
  · intro pid' r' hm
    rcases List.mem_append.mp hm with hm | hm
    · obtain ⟨hlt, hne⟩ := h.gone pid' r' hm
      exact ⟨hlt, fun x hx => hne x (List.mem_filter.mp hx).1⟩
    · cases List.mem_singleton.mp hm
      exact ⟨hpid, fun x hx => by simpa using (List.mem_filter.mp hx).2⟩
  · intro x hx
    exact h.points x (List.mem_filter.mp hx).1

theorem Ordered.fail (h : Ordered o w) {pid : Nat} (hpid : pid < w.nextPid) {x : Fault} (hx : x ≠ .outOfRange) :
    Ordered o (w.fail pid x) := by
  refine (h.note ?_).exit hpid _
  simpa [Event.isPlain] using hx

/-! The server. -/

theorem Ordered.start (h : Ordered o w) (hw : w.state.worker = none) {queue' : Queue Request} (hv : queue'.Valid)
    (hq : w.state.queue.toList = job.requests ++ queue'.toList) (hf : job.Fits o w.state.queue.toList) (terminating : Bool) :
    Ordered o (w.start queue' job terminating) := by
  have hempty : w.alive = [] := by
    cases ha : w.alive with
    | nil => rfl
    | cons x rest =>
      have hx := h.worker x (by rw [ha]; exact List.mem_cons_self)
      rw [hw] at hx
      cases hx
  refine ⟨hv, ?_, ?_, ?_, ?_, ?_, ?_, ?_, ?_⟩
  · have horder := h.order
    rw [hq] at horder
    simpa [World.start, handed] using horder
  · simp [World.start, hempty]
  · intro x hx
    rw [World.start, hempty] at hx
    cases List.mem_singleton.mp hx
    rfl
  · intro x hx
    rw [World.start, hempty] at hx
    cases List.mem_singleton.mp hx
    exact Nat.lt_succ_self _
  · intro pid r hm
    obtain ⟨hlt, -⟩ := h.gone pid r hm
    refine ⟨Nat.lt_succ_of_lt hlt, ?_⟩
    intro x hx
    rw [World.start, hempty] at hx
    cases List.mem_singleton.mp hx
    exact Nat.ne_of_gt hlt
  · intro pid job' queue isOpen terminating' hm
    rcases List.mem_cons.mp hm with heq | hm
    · cases heq
      exact hf
    · exact h.jobs pid job' queue isOpen terminating' hm
  · intro x hx
    rw [World.start, hempty] at hx
    cases List.mem_singleton.mp hx
    cases job with
    | transaction f client => trivial
    | logs ls count =>
      obtain ⟨-, -, -, hcount⟩ := hf
      refine ⟨by simp [hcount], by simp [hcount], ?_, ?_⟩
      · exact fun j hj => (by omega)
      · exact fun j hj => (by omega)
  · intro pid hm
    rcases List.mem_cons.mp hm with heq | hm
    · cases heq
    · exact h.inRange pid hm

/-- update leaves the state alone or starts a worker. -/
theorem World.update_cases (o : Options) (hv : w.state.queue.Valid) (terminating : Bool) :
    w.update o terminating = .ok w ∧ (w.state.worker.isSome = true ∨ w.state.queue.isEmpty = true) ∨
      ∃ queue' job, w.update o terminating = .ok (w.start queue' job terminating) ∧ w.state.worker = none ∧ queue'.Valid ∧
        w.state.queue.toList = job.requests ++ queue'.toList ∧ job.Fits o w.state.queue.toList := by
  unfold World.update
  by_cases hidle : w.state.worker.isSome = true ∨ w.state.queue.isEmpty = true
  · rw [if_pos hidle]
    exact .inl ⟨rfl, hidle⟩
  · rw [if_neg hidle]
    obtain ⟨hw, hne⟩ := not_or.mp hidle
    obtain ⟨queue', job, hwork, hv', hq, hf⟩ := getWork_spec o hv (by simpa using hne)
    refine .inr ⟨queue', job, ?_, by simpa using hw, hv', hq, hf⟩
    rw [hwork]
    rfl

theorem Ordered.update (h : Ordered o w) (terminating : Bool) : ∃ w', w.update o terminating = .ok w' ∧ Ordered o w' := by
  rcases World.update_cases o h.valid terminating with ⟨hu, -⟩ | ⟨queue', job, hu, hw, hv, hq, hf⟩
  · exact ⟨w, hu, h⟩
  · exact ⟨_, hu, h.start hw hv hq hf terminating⟩

theorem Ordered.terminate (h : Ordered o w) (r : Reason) : Ordered o (w.terminate o r) := by
  obtain ⟨w', hu, h'⟩ := h.update true
  unfold World.terminate
  rw [hu]
  exact h'.congr rfl rfl rfl rfl rfl rfl rfl

theorem Ordered.noReply (h : Ordered o w) : Ordered o (w.noReply o) := by
  obtain ⟨w', hu, h'⟩ := h.update false
  unfold World.noReply
  rw [hu]
  exact h'.congr rfl rfl rfl rfl rfl rfl rfl

/-- The server takes a message that is no request. -/
theorem Ordered.pop (h : Ordered o w) {m : Message} {inbox : List Message} (hin : w.inbox = m :: inbox)
    (hm : m.request? = none) : Ordered o { w with inbox := inbox } := by
  refine ⟨h.valid, ?_, h.single, h.worker, h.fresh, ?_, h.jobs, h.points, h.inRange⟩
  · have horder := h.order
    rw [hin, List.filterMap_cons, hm] at horder
    exact horder
  · intro pid r hd
    exact h.gone pid r (by rw [hin]; exact List.mem_cons_of_mem _ hd)

/-- The server puts a request into its queue. -/
theorem Ordered.popRequest (h : Ordered o w) {r : Request} {inbox : List Message} (hin : w.inbox = .request r :: inbox) :
    Ordered o ({ w with inbox := inbox }.add r) := by
  refine ⟨h.valid.add r, ?_, h.single, h.worker, h.fresh, ?_, h.jobs, h.points, h.inRange⟩
  · have horder := h.order
    rw [hin, List.filterMap_cons, show (Message.request r).request? = some r from rfl] at horder
    simpa [World.add, Queue.toList_add] using horder
  · intro pid r' hd
    exact h.gone pid r' (by rw [hin]; exact List.mem_cons_of_mem _ hd)

/-- The DOWN message of the worker has come. -/
theorem Ordered.noWorker (h : Ordered o w) {pid : Nat} (hw : w.state.worker = some pid) (hgone : ∀ x ∈ w.alive, x.pid ≠ pid) :
    Ordered o { w with state := { w.state with worker := none } } := by
  have hnone : ∀ x ∈ w.alive, False := by
    intro x hx
    have hpid := h.worker x hx
    rw [hw] at hpid
    cases hpid
    exact hgone x hx rfl
  exact ⟨h.valid, h.order, h.single, fun x hx => (hnone x hx).elim, h.fresh, h.gone, h.jobs, h.points, h.inRange⟩

theorem Ordered.handle (h : Ordered o w) {m : Message} {inbox : List Message} (hin : w.inbox = m :: inbox) :
    Ordered o ({ w with inbox := inbox }.handle o m) := by
  cases m with
  | request r =>
    have hadd := h.popRequest hin
    cases r with
    | transaction f client => exact hadd.noReply
    | log l =>
      rw [World.handle]
      unfold World.noReplyDelay
      split
      · refine Ordered.noReply ?_
        exact hadd.congr rfl rfl rfl rfl rfl rfl rfl
      · exact hadd.congr rfl rfl rfl rfl rfl rfl rfl
  | filename client => exact (h.pop hin rfl).congr rfl rfl rfl rfl rfl rfl rfl
  | debug => exact h.pop hin rfl
  | stop client => exact (h.pop hin rfl).terminate _
  | down pid r =>
    have hpop := h.pop hin rfl
    rw [World.handle]
    split
    · rename_i hw
      have hgone := (h.gone pid r (by rw [hin]; exact List.mem_cons_self)).2
      have hnone := hpop.noWorker hw hgone
      dsimp only
      split
      · exact hnone.noReply
      · exact hnone.terminate _
    · exact hpop.noReply
  | exit pid r =>
    have hpop := h.pop hin rfl
    rw [World.handle]
    split
    · exact hpop.noReply
    · exact hpop.terminate _

theorem Ordered.handleTimeout (h : Ordered o w) (finalizes : Sql → Bool) : Ordered o (w.handleTimeout o finalizes) := by
  unfold World.handleTimeout
  split
  · have hnote : Ordered o ({ w with cache := (w.cache.removeDeadEntries w.now (fun _ => false) finalizes).2 }.note (.expired w.state.worker)) :=
      (h.uses _ _ _).note rfl
    dsimp only
    split
    · exact hnote.noReply
    · exact hnote.terminate _
  · exact h.noReply

/-! The workers. -/

theorem attempt_error {sql : Sql} {count : Nat} {attempts : List Attempt} {x : Fault}
    (h : attempt sql count attempts = some (.error x)) : x ≠ .outOfRange := by
  induction attempts generalizing count with
  | nil =>
    unfold attempt at h
    split at h
    · cases h
    · cases h
      exact fun he => (by cases he)
  | cons a attempts ih =>
    unfold attempt at h
    split at h
    · cases a with
      | ok => cases h
      | raises y =>
        cases h
        exact fun he => (by cases he)
      | dbError rc =>
        dsimp only at h
        split at h
        · exact ih h
        · cases h
          exact fun he => (by cases he)
    · cases h
      exact fun he => (by cases he)

/-- What execute-with-retry-on-busy may do in a worker. -/
theorem World.control_cases {pid : Nat} {sql : Sql} {prepared : Bool} {elapsed : Nat} {attempts : List Attempt}
    {next : World → World} (h : w.control pid sql prepared elapsed attempts next = .ok w') :
    w' = w.fail pid (.prepare sql) ∨
      ∃ cache, w.cache.getStatement w.now (w.now + elapsed) prepared sql = some cache ∧
        ((∃ x, x ≠ .outOfRange ∧ w' = { w with cache := cache, now := w.now + elapsed }.fail pid x) ∨
          w' = next { w with cache := cache, now := w.now + elapsed, isOpen := effect sql }) := by
  unfold World.control at h
  split at h
  · cases h
    exact .inl rfl
  · rename_i cache hcache
    refine .inr ⟨cache, hcache, ?_⟩
    dsimp only at h
    split at h
    · cases h
    · rename_i x hx
      cases h
      exact .inl ⟨x, attempt_error hx, rfl⟩
    · cases h
      exact .inr rfl

theorem Ordered.control (h : Ordered o w) {pid : Nat} (hpid : pid < w.nextPid) {sql : Sql} {prepared : Bool} {elapsed : Nat}
    {attempts : List Attempt} {next : World → World} (ht : w.control pid sql prepared elapsed attempts next = .ok w')
    (hnext : ∀ w₁, Ordered o w₁ → Ordered o (next w₁)) : Ordered o w' := by
  obtain rfl | ⟨cache, -, ⟨x, hx, rfl⟩ | rfl⟩ := World.control_cases ht
  · exact h.fail hpid fun he => (by cases he)
  · exact (h.uses cache (w.now + elapsed) w.isOpen).fail hpid hx
  · exact hnext _ (h.uses _ _ _)

theorem Ordered.work (h : Ordered o w) {worker : Worker} (hw : worker ∈ w.alive) {a : Work} (ht : w.work worker a = .ok w') :
    Ordered o w' := by
  have hpid := h.fresh worker hw
  have hpoint := h.points worker hw
  unfold World.work at ht
  dsimp only at ht
  split at ht
  · rename_i hp
    cases ht
    rw [hp] at hpoint
    obtain ⟨hs, hb, hfs, hfb⟩ := hpoint
    refine h.goto _ ⟨?_, ?_⟩
    · rw [hs]
      exact hfs
    · rw [hb]
      exact hfb
  · rename_i l ls i vstmt vbind prepared elapsed hp
    rw [hp] at hpoint
    obtain ⟨hs, hb, hfs, hfb⟩ := hpoint
    rw [List.length_cons] at hs hb
    split at ht
    · cases ht
      exact h.fail hpid fun he => (by cases he)
    · rename_i cache hcache
      rw [if_pos ⟨by omega, by omega⟩] at ht
      cases ht
      refine (h.uses cache (w.now + elapsed) w.isOpen).goto _ ⟨?_, ?_, hfs.set (by omega) _, hfb.set (by omega) _⟩
      · rw [List.length_set]
        omega
      · rw [List.length_set]
        omega
  · rename_i vstmt vbind prepared elapsed attempts hp
    rw [hp] at hpoint
    exact h.control hpid ht fun w₁ h₁ => h₁.goto _ hpoint
  · rename_i vstmt vbind ok isOpen hp
    cases ht
    have hopen := h.uses w.cache w.now isOpen
    split
    · exact hopen.goto _ trivial
    · exact hopen.fail hpid fun he => (by cases he)
  · refine h.control hpid ht fun w₁ h₁ => ?_
    exact (h₁.note rfl).goto _ trivial
  · cases ht
    split
    · exact h.goto _ trivial
    · exact h.fail hpid fun he => (by cases he)
  · exact h.control hpid ht fun w₁ h₁ => h₁.goto _ trivial
  · split at ht
    · cases ht
      exact h
    · cases ht
      exact h.uses _ _ _
  · cases ht
    exact h.uses _ _ _
  · cases ht
    exact (h.note rfl).goto _ trivial
  · cases ht
    split
    · exact h.goto _ trivial
    · exact h.fail hpid fun he => (by cases he)
  · refine h.control hpid ht fun w₁ h₁ => ?_
    refine (h₁.note ?_).goto _ trivial
    split
    · rfl
    · rfl
  · split at ht
    · cases ht
      exact (h.note rfl).goto _ trivial
    · cases ht
  · cases ht
    exact h.exit hpid _
  · cases ht

/-- A message that is no DOWN message is sent to the server. -/
theorem Ordered.send (h : Ordered o w) {m : Message} (hm : ∀ pid r, m ≠ .down pid r) (hr : m.request? = none) :
    Ordered o (w.send m) := by
  refine ⟨h.valid, ?_, h.single, h.worker, h.fresh, ?_, h.jobs, h.points, h.inRange⟩
  · rw [World.send, List.filterMap_append, List.filterMap_cons, hr, List.filterMap_nil, List.append_nil]
    exact h.order
  · intro pid r hd
    rcases List.mem_append.mp hd with hd | hd
    · exact h.gone pid r hd
    · exact absurd (List.mem_singleton.mp hd).symm (hm pid r)

theorem Ordered.sendRequest (h : Ordered o w) (r : Request) :
    Ordered o ({ w with requests := w.requests ++ [r] }.send (.request r)) := by
  refine ⟨h.valid, ?_, h.single, h.worker, h.fresh, ?_, h.jobs, h.points, h.inRange⟩
  · rw [World.send, List.filterMap_append, ← List.append_assoc]
    dsimp only
    rw [h.order]
    rfl
  · intro pid r' hd
    rcases List.mem_append.mp hd with hd | hd
    · exact h.gone pid r' hd
    · cases List.mem_singleton.mp hd

theorem downOf_some {m : Message} {pid : Nat} {r : Reason} (h : m.downOf pid = some r) : m = .down pid r := by
  cases m with
  | down q r' =>
    simp only [Message.downOf] at h
    split at h
    · rename_i hq
      cases h
      rw [hq]
    · cases h
  | _ => cases h

theorem filterMap_eraseP {inbox : List Message} (pid : Nat) :
    (inbox.eraseP fun m => (m.downOf pid).isSome).filterMap Message.request? = inbox.filterMap Message.request? := by
  induction inbox with
  | nil => rfl
  | cons m inbox ih =>
    rw [List.eraseP_cons]
    cases hm : m.downOf pid with
    | some r =>
      rw [downOf_some hm]
      rfl
    | none =>
      dsimp only [Option.isSome_none, cond_false]
      rw [List.filterMap_cons, List.filterMap_cons, ih]

theorem Ordered.flush_inbox (h : Ordered o w) (pid : Nat) :
    Ordered o { w with inbox := w.inbox.eraseP fun m => (m.downOf pid).isSome } := by
  refine ⟨h.valid, ?_, h.single, h.worker, h.fresh, ?_, h.jobs, h.points, h.inRange⟩
  · dsimp only
    rw [filterMap_eraseP]
    exact h.order
  · intro pid' r' hd
    exact h.gone pid' r' (List.mem_of_mem_eraseP hd)

theorem Ordered.flush (h : Ordered o w) {pid : Nat} {r : Reason} (hw : w.state.worker = some pid)
    (hin : .down pid r ∈ w.inbox) (reason : Reason) : Ordered o (w.flush o pid r reason) := by
  have herase := h.flush_inbox pid
  unfold World.flush
  dsimp only
  split
  · exact (herase.noWorker hw (h.gone pid r hin).2).terminate _
  · exact herase.congr rfl rfl rfl rfl rfl rfl rfl

theorem Ordered.step (h : Ordered o w) {a : Action} (ht : w.step o a = .ok w') : Ordered o w' := by
  cases a with
  | send r =>
    cases r with
    | transaction f client =>
      simp only [World.step] at ht
      split at ht
      · cases ht
      · cases ht
        exact h.sendRequest _
    | log l =>
      cases ht
      exact h.sendRequest _
  | filename client =>
    cases ht
    exact h.send (fun _ _ hm => (by cases hm)) rfl
  | debug =>
    cases ht
    exact h.send (fun _ _ hm => (by cases hm)) rfl
  | stop client =>
    cases ht
    exact h.send (fun _ _ hm => (by cases hm)) rfl
  | exits pid r =>
    cases ht
    exact h.send (fun _ _ hm => (by cases hm)) rfl
  | tick elapsed =>
    cases ht
    exact h.uses _ _ _
  | work pid a =>
    simp only [World.step] at ht
    split at ht
    · cases ht
    · rename_i worker hw
      exact h.work (List.mem_of_find?_eq_some hw) ht
  | kill pid x =>
    simp only [World.step] at ht
    split at ht
    · rename_i hw
      obtain ⟨y, hy, hp⟩ := List.any_eq_true.mp hw
      cases ht
      have hpid : y.pid = pid := by simpa using hp
      exact h.exit (hpid ▸ h.fresh y hy) _
    · cases ht
  | turn =>
    simp only [World.step] at ht
    split at ht
    · rename_i m inbox _ hin
      cases ht
      exact h.handle hin
    · cases ht
  | timeout finalizes =>
    simp only [World.step] at ht
    split at ht
    · split at ht
      · cases ht
        exact h.handleTimeout finalizes
      · cases ht
    · cases ht
  | flushDown =>
    simp only [World.step] at ht
    split at ht
    · rename_i hw
      split at ht
      · rename_i r hr
        cases ht
        obtain ⟨m, hm, hd⟩ := List.exists_of_findSome?_eq_some hr
        rw [downOf_some hd] at hm
        exact h.flush hw hm _
      · cases ht
    · cases ht
  | flushTimeout =>
    simp only [World.step] at ht
    split at ht
    · cases ht
      exact h.congr rfl rfl rfl rfl rfl rfl rfl
    · cases ht
  | stopDown =>
    simp only [World.step] at ht
    split at ht
    · split at ht
      · cases ht
        exact h.congr rfl rfl rfl rfl rfl rfl rfl
      · cases ht
    · cases ht

theorem reach_ordered {expireTimeout now : Nat} {allowed : World → Action → Prop}
    (h : Reach (World.initial expireTimeout now) (World.step o) allowed w) : Ordered o w := by
  refine h.invariant (I := Ordered o) ?_ fun _ _ _ hi _ ht => hi.step ht
  refine ⟨trivial, rfl, Nat.zero_le _, ?_, ?_, ?_, ?_, ?_, ?_⟩
  · exact fun _ hx => absurd hx List.not_mem_nil
  · exact fun _ hx => absurd hx List.not_mem_nil
  · exact fun _ _ hm => absurd hm List.not_mem_nil
  · exact fun _ _ _ _ _ hm => absurd hm List.not_mem_nil
  · exact fun _ hx => absurd hx List.not_mem_nil
  · exact fun _ hm => absurd hm List.not_mem_nil

/-- The vectors of a log worker have no unset slot when they are used. -/
def Worker.VectorsSet (x : Worker) : Prop :=
  ∀ vstmt vbind, x.point = .bulkExecute vstmt vbind → (∀ y ∈ vstmt, y ≠ none) ∧ ∀ y ∈ vbind, y ≠ none

theorem Filled.all {α : Type} {v : List (Option α)} (h : Filled v.length v) : ∀ y ∈ v, y ≠ none := by
  intro y hy he
  obtain ⟨j, hj, hyj⟩ := List.getElem_of_mem hy
  obtain ⟨x, hx⟩ := h j hj
  rw [List.getElem?_eq_getElem hj, hyj, he] at hx
  cases hx

/-- At most one worker is alive. The work handed to workers, the queue and the requests in the
inbox are all requests in their order. A log worker gets the longest run of log requests that
the limit allows, with its length, and fills its vectors in range. -/
theorem work_handed_in_order (o : Options) (expireTimeout now : Nat) (w : World)
    (h : Reach (World.initial expireTimeout now) (World.step o) (fun _ _ => True) w) :
    w.alive.length ≤ 1 ∧
    handed w.log ++ w.state.queue.toList ++ w.inbox.filterMap Message.request? = w.requests ∧
    (∀ pid ls count queue isOpen terminating, .started pid (.logs ls count) queue isOpen terminating ∈ w.log →
      ls.map .log = (queue.takeWhile Request.isLog).take o.commitLimit ∧ ls ≠ [] ∧ ls.length ≤ o.commitLimit ∧ count = ls.length) ∧
    (∀ pid f client queue isOpen terminating, .started pid (.transaction f client) queue isOpen terminating ∈ w.log →
      [.transaction f client] = queue.take 1) ∧
    (∀ pid, .failed pid .outOfRange ∉ w.log) ∧ ∀ x ∈ w.alive, x.VectorsSet := by
  have ho := reach_ordered h
  refine ⟨ho.single, ho.order, ?_, ?_, ho.inRange, ?_⟩
  · intro pid ls count queue isOpen terminating hm
    exact ho.jobs pid (.logs ls count) queue isOpen terminating hm
  · intro pid f client queue isOpen terminating hm
    exact ho.jobs pid (.transaction f client) queue isOpen terminating hm
  · intro x hx vstmt vbind hp
    have hok := ho.points x hx
    rw [hp] at hok
    exact ⟨hok.1.all, hok.2.all⟩

namespace Sample

def options : Options := ⟨0, 2, Nat.two_pos⟩

def log (n : Nat) : Request := .log ⟨"INSERT", n⟩

/-- Three log requests and a transaction come while the first log request is under way. -/
def requests : List Action :=
  [.send (log 0), .turn, .send (log 1), .send (log 2), .send (log 3), .send (.transaction 0 0), .turn, .turn, .turn, .turn]

/-- The first worker is done. -/
def first : List Action :=
  [.work 0 (.fill true 0), .work 0 (.fill true 0), .work 0 (.control true 0 [.ok]), .work 0 (.bulkExecute true true),
    .work 0 (.control true 0 [.ok]), .work 0 (.unmarshal true), .work 0 .exit, .turn]

end Sample

theorem work_handed_in_order_batches :
    ∃ w, Reach (World.initial 1000 0) (World.step Sample.options) (fun _ _ => True) w ∧
      handed w.log = [Sample.log 0, Sample.log 1, Sample.log 2] ∧
      w.state.queue.toList = [Sample.log 3, .transaction 0 0] ∧
      handed w.log ++ w.state.queue.toList ++ w.inbox.filterMap Message.request? = w.requests ∧ w.alive.length ≤ 1 := by
  have hrun : ∃ w, Reach.run (World.step Sample.options) (World.initial 1000 0) (Sample.requests ++ Sample.first) = .ok w ∧
      handed w.log = [Sample.log 0, Sample.log 1, Sample.log 2] ∧
      w.state.queue.toList = [Sample.log 3, .transaction 0 0] := ⟨_, rfl, rfl, rfl⟩
  obtain ⟨w, hw, hhanded, hqueue⟩ := hrun
  have hreach := Reach.of_run _ .start (Reach.along_of_forall (fun _ _ => trivial) _ _) hw
  obtain ⟨hone, horder, -⟩ := work_handed_in_order Sample.options 1000 0 w hreach
  exact ⟨w, hreach, hhanded, hqueue, horder, hone⟩

end Swish.Db
