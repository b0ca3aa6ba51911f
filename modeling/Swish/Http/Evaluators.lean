import Mathlib.Data.List.Nodup
import Swish.Http.Cache

/-!
The pages and the evaluators of the cache: what holds of them as other processes go on.
-/

set_option autoImplicit false

namespace Swish.Http.Cache

open Swish.Lib

def Page.waiters : Page → List Nat
  | .loaded _ => []
  | .loading _ _ waiters => waiters

def waiting (pages : List (Path × Page)) : List Nat := pages.flatMap fun x => x.2.waiters

def Message.clients : Message → List Nat
  | .getHandler client _ => [client]
  | .getMediaType client _ => [client]
  | _ => []

def Status.clients : Status → List Nat
  | .starting client _ => [client]
  | .linking client _ _ => [client]
  | _ => []

def Status.isStopped : Status → Bool
  | .stopped _ => true
  | _ => false

def World.queued (w : World) : List Nat := w.inbox.flatMap Message.clients

/-- Every call is in one place. -/
def World.Balanced (w : World) : Prop :=
  ∀ c, w.answered.count c + w.queued.count c + (waiting w.state.pages).count c + w.status.clients.count c = w.clients.count c

/-- No two keys are the same up to case. -/
def Site.Unique (s : Site) (pages : List (Path × Page)) : Prop := pages.Pairwise fun x y => s.foldcase x.1 ≠ s.foldcase y.1

variable {s : Site} {w w' : World} {pages : List (Path × Page)} {path key : Path} {page : Page} {disk : Disk}

theorem Site.Unique.delete (h : s.Unique pages) (path : Path) : s.Unique (s.delete pages path) := h.filter _

theorem mem_delete {x : Path × Page} : x ∈ s.delete pages path ↔ x ∈ pages ∧ s.foldcase x.1 ≠ s.foldcase path := by
  simp [Site.delete, Site.same]

theorem Site.Unique.set (h : s.Unique pages) (path : Path) (page : Page) : s.Unique (s.set pages path page) := by
  refine List.pairwise_cons.mpr ⟨?_, h.delete path⟩
  intro x hx
  exact Ne.symm (mem_delete.mp hx).2

theorem ref_some (h : s.ref pages path = some page) : ∃ key, (key, page) ∈ pages ∧ s.foldcase key = s.foldcase path := by
  obtain ⟨x, hx, hpage⟩ := Option.map_eq_some_iff.mp h
  obtain ⟨key, page'⟩ := x
  cases hpage
  exact ⟨key, List.mem_of_find?_eq_some hx, by simpa [Site.same] using List.find?_some hx⟩

theorem ref_none (h : s.ref pages path = none) (hk : (key, page) ∈ pages) : s.foldcase key ≠ s.foldcase path := by
  have hfind := List.find?_eq_none.mp (Option.map_eq_none_iff.mp h) _ hk
  simpa [Site.same] using hfind

theorem Site.Unique.eq_of_mem (h : s.Unique pages) {key' : Path} {page' : Page} (hk : (key, page) ∈ pages)
    (hk' : (key', page') ∈ pages) (he : s.foldcase key = s.foldcase key') : page = page' := by
  induction pages with
  | nil => cases hk
  | cons x pages ih =>
    obtain ⟨hx, hrest⟩ := List.pairwise_cons.mp h
    rcases List.mem_cons.mp hk with heq | hk
    · rcases List.mem_cons.mp hk' with heq' | hk'
      · rw [← heq'] at heq
        cases heq
        rfl
      · rw [← heq] at hx
        exact absurd he (hx _ hk')
    · rcases List.mem_cons.mp hk' with heq' | hk'
      · rw [← heq'] at hx
        exact absurd he.symm (hx _ hk)
      · exact ih hrest hk hk'

theorem ref_of_mem (h : s.Unique pages) (hk : (key, page) ∈ pages) : s.ref pages key = some page := by
  cases href : s.ref pages key with
  | none => exact absurd rfl (ref_none href hk)
  | some page' =>
    obtain ⟨key', hk', he⟩ := ref_some href
    rw [h.eq_of_mem hk hk' he.symm]

theorem waiting_cons (x : Path × Page) (pages : List (Path × Page)) : waiting (x :: pages) = x.2.waiters ++ waiting pages := by
  simp [waiting]

theorem delete_of_ref_none (h : s.ref pages path = none) : s.delete pages path = pages := by
  refine List.filter_eq_self.mpr ?_
  intro x hx
  have := ref_none h hx
  simpa [Site.same] using this

theorem count_waiting_delete (h : s.Unique pages) (hk : s.ref pages path = some page) (c : Nat) :
    (waiting pages).count c = page.waiters.count c + (waiting (s.delete pages path)).count c := by
  induction pages with
  | nil => cases hk
  | cons x pages ih =>
    obtain ⟨hx, hrest⟩ := List.pairwise_cons.mp h
    rw [Site.ref, List.find?_cons] at hk
    rw [waiting_cons, List.count_append, Site.delete, List.filter_cons]
    cases hsame : s.same path x with
    | true =>
      rw [hsame] at hk
      cases hk
      have hnone : s.ref pages path = none := by
        refine Option.map_eq_none_iff.mpr (List.find?_eq_none.mpr ?_)
        intro y hy
        have hne := hx y hy
        simp only [Site.same, decide_eq_true_eq] at hsame ⊢
        rw [← hsame]
        exact Ne.symm hne
      rw [if_neg (by simp), show pages.filter (fun x => !s.same path x) = pages from delete_of_ref_none hnone]
    | false =>
      rw [hsame] at hk
      rw [if_pos (by simp), waiting_cons, List.count_append, ih hrest hk, Site.delete]
      omega

theorem count_waiting_set (path : Path) (page : Page) (c : Nat) :
    (waiting (s.set pages path page)).count c = page.waiters.count c + (waiting (s.delete pages path)).count c := by
  rw [Site.set, waiting_cons, List.count_append]

/-! The evaluators. -/

theorem find_pid {pid : Nat} {e : Evaluator} (h : w.find pid = some e) : e.pid = pid := by
  simpa using List.find?_some h

theorem find_update {f : Evaluator → Evaluator} (hf : ∀ e, (f e).pid = e.pid) (pid pid' : Nat) :
    (w.update pid f).find pid' = if pid' = pid then (w.find pid').map f else w.find pid' := by
  unfold World.find World.update
  dsimp only
  induction w.evaluators with
  | nil => simp
  | cons e evaluators ih =>
    rw [List.map_cons, List.find?_cons, List.find?_cons, ih]
    by_cases he : e.pid = pid
    · rw [if_pos he, hf]
      by_cases hp : e.pid = pid'
      · simp [hp, ← he]
      · simp [hp]
    · rw [if_neg he]
      by_cases hp : e.pid = pid'
      · have hne : pid' ≠ pid := fun hh => he (hp.trans hh)
        simp [hp, hne]
      · simp [hp]

/-- Where the handlers come from. This holds after the end of the server, too. -/
structure Origin (w : World) : Prop where
  fresh : ∀ pid, w.nextPid ≤ pid → w.find pid = none
  message : ∀ pid path cookie handler, .loadFinished pid path cookie handler ∈ w.inbox →
    ∃ e value, w.find pid = some e ∧ e.path = path ∧ e.cookie = cookie ∧ handler = .evaluated pid value
  loaded : ∀ key pid value, (key, .loaded (.evaluated pid value)) ∈ w.state.pages →
    ∃ e, w.find pid = some e ∧ e.cookie = w.state.cookie

/-- The result of an evaluator is in the inbox. -/
def Evaluator.Delivered (inbox : List Message) (e : Evaluator) : Prop :=
  ∃ value, .loadFinished e.pid e.path e.cookie (.evaluated e.pid value) ∈ inbox

/-- What an evaluator has done is in the inbox. -/
structure Evaluator.Tended (inbox : List Message) (e : Evaluator) : Prop where
  sent : e.sent = true → e.Delivered inbox
  exit : ∀ r, r ≠ .normal → e.exit = some r → .exit e.pid r ∈ inbox

/-- What holds of a server that has not stopped. -/
structure Sound (s : Site) (w : World) : Prop where
  unique : s.Unique w.state.pages
  entry : ∀ key path pid waiters, (key, .loading path pid waiters) ∈ w.state.pages →
    key = path ∧ ∃ e, w.find pid = some e ∧ e.path = path ∧ e.linked = true ∧ e.Tended w.inbox
  starting : ∀ client path, w.status = .starting client path → s.ref w.state.pages path = none
  linking : ∀ client path pid, w.status = .linking client path pid → s.ref w.state.pages path = none ∧
    ∃ e, w.find pid = some e ∧ e.path = path ∧ e.linked = false ∧ (e.sent = true → e.Delivered w.inbox)

/-- A step of the environment changes an evaluator from e to e'. -/
structure Evaluator.To (inbox : List Message) (e e' : Evaluator) : Prop where
  pid : e'.pid = e.pid
  path : e'.path = e.path
  cookie : e'.cookie = e.cookie
  linked : e'.linked = e.linked
  sent : e'.sent = true → e.sent = true ∨ e'.Delivered inbox
  exit : ∀ r, e'.exit = some r → e.exit = some r ∨ e.linked = false ∨ .exit e.pid r ∈ inbox

theorem Evaluator.To.refl (inbox : List Message) (e : Evaluator) : e.To inbox e :=
  ⟨rfl, rfl, rfl, rfl, .inl, fun _ => .inl⟩

/-- A step that adds to the inbox and leaves the server alone. -/
structure Adds (w w' : World) : Prop where
  state : w'.state = w.state
  status : w'.status = w.status
  nextPid : w'.nextPid = w.nextPid
  inbox : ∀ m ∈ w.inbox, m ∈ w'.inbox
  find : ∀ pid, w.find pid = none ∧ w'.find pid = none ∨
    ∃ e e', w.find pid = some e ∧ w'.find pid = some e' ∧ e.To w'.inbox e'
  message : ∀ pid path cookie handler, .loadFinished pid path cookie handler ∈ w'.inbox →
    .loadFinished pid path cookie handler ∈ w.inbox ∨
      ∃ e value, w'.find pid = some e ∧ e.path = path ∧ e.cookie = cookie ∧ handler = .evaluated pid value

theorem Adds.found (h : Adds w w') {pid : Nat} {e : Evaluator} (he : w.find pid = some e) :
    ∃ e', w'.find pid = some e' ∧ e.To w'.inbox e' := by
  rcases h.find pid with ⟨hnone, -⟩ | ⟨e₁, e', he₁, he', hto⟩
  · rw [hnone] at he
    cases he
  · rw [he₁] at he
    cases he
    exact ⟨e', he', hto⟩

theorem Adds.origin (h : Adds w w') (ho : Origin w) : Origin w' := by
  refine ⟨?_, ?_, ?_⟩
  · intro pid hpid
    rw [h.nextPid] at hpid
    rcases h.find pid with ⟨-, hnone⟩ | ⟨e, e', he, -, -⟩
    · exact hnone
    · rw [ho.fresh pid hpid] at he
      cases he
  · intro pid path cookie handler hm
    rcases h.message pid path cookie handler hm with hold | hnew
    · obtain ⟨e, value, he, hpath, hcookie, hhandler⟩ := ho.message pid path cookie handler hold
      obtain ⟨e', he', hto⟩ := h.found he
      exact ⟨e', value, he', hto.path.trans hpath, hto.cookie.trans hcookie, hhandler⟩
    · exact hnew
  · intro key pid value hk
    rw [h.state] at hk
    obtain ⟨e, he, hcookie⟩ := ho.loaded key pid value hk
    obtain ⟨e', he', hto⟩ := h.found he
    rw [h.state]
    exact ⟨e', he', hto.cookie.trans hcookie⟩

theorem Evaluator.To.delivered {inbox inbox' : List Message} {e e' : Evaluator} (h : e.To inbox' e')
    (hin : ∀ m ∈ inbox, m ∈ inbox') (hd : e.sent = true → e.Delivered inbox) : e'.sent = true → e'.Delivered inbox' := by
  intro hsent
  rcases h.sent hsent with hold | hnew
  · obtain ⟨value, hm⟩ := hd hold
    refine ⟨value, ?_⟩
    rw [h.pid, h.path, h.cookie]
    exact hin _ hm
  · exact hnew

theorem Adds.sound (h : Adds w w') (hs : Sound s w) : Sound s w' := by
  refine ⟨?_, ?_, ?_, ?_⟩
  · rw [h.state]
    exact hs.unique
  · intro key path pid waiters hk
    rw [h.state] at hk
    obtain ⟨hkey, e, he, hpath, hlinked, htended⟩ := hs.entry key path pid waiters hk
    obtain ⟨e', he', hto⟩ := h.found he
    refine ⟨hkey, e', he', hto.path.trans hpath, hto.linked.trans hlinked, hto.delivered h.inbox htended.sent, ?_⟩
    intro r hr hexit
    rw [hto.pid]
    rcases hto.exit r hexit with hold | hnot | hnew
    · exact h.inbox _ (htended.exit r hr hold)
    · rw [hlinked] at hnot
      cases hnot
    · exact hnew
  · intro client path hstatus
    rw [h.status] at hstatus
    rw [h.state]
    exact hs.starting client path hstatus
  · intro client path pid hstatus
    rw [h.status] at hstatus
    obtain ⟨href, e, he, hpath, hlinked, hsent⟩ := hs.linking client path pid hstatus
    obtain ⟨e', he', hto⟩ := h.found he
    rw [h.state]
    exact ⟨href, e', he', hto.path.trans hpath, hto.linked.trans hlinked, hto.delivered h.inbox hsent⟩

theorem mem_send {m m' : Message} : m' ∈ (w.send m).inbox ↔ m' ∈ w.inbox ∨ m' = m := by
  simp [World.send]

theorem adds_send (clients : List Nat) {m : Message} (hm : ∀ pid path cookie handler, m ≠ .loadFinished pid path cookie handler) :
    Adds w ({ w with clients := clients }.send m) := by
  refine ⟨rfl, rfl, rfl, fun m' h => mem_send.mpr (.inl h), ?_, ?_⟩
  · intro pid
    cases he : w.find pid with
    | none => exact .inl ⟨rfl, he⟩
    | some e => exact .inr ⟨e, e, rfl, he, .refl _ e⟩
  · intro pid path cookie handler h
    rcases mem_send.mp h with hold | hnew
    · exact .inl hold
    · exact absurd hnew.symm (hm pid path cookie handler)

/-- An evaluator changes. -/
theorem find_cases_update {f : Evaluator → Evaluator} (hf : ∀ e, (f e).pid = e.pid) {pid : Nat} {e : Evaluator}
    {inbox : List Message} (he : w.find pid = some e) (hto : e.To inbox (f e)) (pid' : Nat) :
    w.find pid' = none ∧ (w.update pid f).find pid' = none ∨
      ∃ e e', w.find pid' = some e ∧ (w.update pid f).find pid' = some e' ∧ e.To inbox e' := by
  rw [find_update hf]
  by_cases hp : pid' = pid
  · rw [if_pos hp, hp, he]
    exact .inr ⟨e, f e, rfl, rfl, hto⟩
  · rw [if_neg hp]
    cases he' : w.find pid' with
    | none => exact .inl ⟨rfl, rfl⟩
    | some e' => exact .inr ⟨e', e', rfl, rfl, .refl _ e'⟩

theorem adds_finish {pid : Nat} {e : Evaluator} (he : w.find pid = some e) (value : Nat) :
    Adds w ((w.update pid Evaluator.finish).send (.loadFinished pid e.path e.cookie (.evaluated pid value))) := by
  have hpid := find_pid he
  refine ⟨rfl, rfl, rfl, fun m h => mem_send.mpr (.inl h), ?_, ?_⟩
  · refine find_cases_update (f := Evaluator.finish) (fun _ => rfl) he ⟨rfl, rfl, rfl, rfl, fun _ => .inr ⟨value, ?_⟩, fun _ => .inl⟩
    exact mem_send.mpr (.inr (by simp [Evaluator.finish, hpid]))
  · intro pid' path cookie handler h
    rcases mem_send.mp h with hold | hnew
    · exact .inl hold
    · cases hnew
      refine .inr ⟨e.finish, value, ?_, rfl, rfl, rfl⟩
      show (w.update pid Evaluator.finish).find pid = some e.finish
      rw [find_update (f := Evaluator.finish) (fun _ => rfl), if_pos rfl, he]
      rfl

theorem adds_die {pid : Nat} {e : Evaluator} (he : w.find pid = some e) (r : Reason) :
    Adds w (if e.linked then (w.update pid (Evaluator.die r)).send (.exit pid r)
      else w.update pid (Evaluator.die r)) := by
  have hpid := find_pid he
  cases hlinked : e.linked with
  | true =>
    rw [if_pos rfl]
    refine ⟨rfl, rfl, rfl, fun m h => mem_send.mpr (.inl h), ?_, ?_⟩
    · refine find_cases_update (f := Evaluator.die r) (fun _ => rfl) he ⟨rfl, rfl, rfl, rfl, .inl, fun r' hr => .inr (.inr ?_)⟩
      cases hr
      exact mem_send.mpr (.inr (by rw [hpid]))
    · intro pid' path cookie handler h
      rcases mem_send.mp h with hold | hnew
      · exact .inl hold
      · cases hnew
  | false =>
    rw [if_neg (by simp)]
    refine ⟨rfl, rfl, rfl, fun m h => h, ?_, fun _ _ _ _ => .inl⟩
    exact find_cases_update (f := Evaluator.die r) (fun _ => rfl) he ⟨rfl, rfl, rfl, rfl, .inl, fun _ _ => .inr (.inl hlinked)⟩

end Swish.Http.Cache
