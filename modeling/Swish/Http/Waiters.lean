import Swish.Http.Evaluators
import Swish.Lib.Except

/-!
Calls of get-handler: each one is answered once, or it waits for an evaluator.
-/

set_option autoImplicit false

namespace Swish.Http.Cache

open Swish.Lib

variable {s : Site} {w w' : World} {pages : List (Path × Page)} {path key : Path} {page : Page} {disk : Disk}

/-! One turn of the server. -/

/-- The evaluator that a message tells about. The normal exit of an evaluator is ignored. -/
def Message.about : Message → Option Nat
  | .loadFinished pid _ _ _ => some pid
  | .exit _ .normal => none
  | .exit pid _ => some pid
  | _ => none

theorem Evaluator.Tended.tail {inbox : List Message} {m : Message} {e : Evaluator} (h : e.Tended (m :: inbox))
    (hm : m.about ≠ some e.pid) : e.Tended inbox := by
  refine ⟨?_, ?_⟩
  · intro hsent
    obtain ⟨value, hv⟩ := h.sent hsent
    rcases List.mem_cons.mp hv with heq | hv
    · rw [← heq] at hm
      exact absurd rfl hm
    · exact ⟨value, hv⟩
  · intro r hr hexit
    rcases List.mem_cons.mp (h.exit r hr hexit) with heq | hv
    · rw [← heq] at hm
      cases r with
      | normal => exact absurd rfl hr
      | user n => exact absurd rfl hm
    · exact hv

/-- The server takes a message and still loads some of the pages. -/
structure Takes (s : Site) (m : Message) (w w' : World) : Prop where
  inbox : w.inbox = m :: w'.inbox
  evaluators : w'.evaluators = w.evaluators
  nextPid : w'.nextPid = w.nextPid
  unique : s.Unique w'.state.pages
  entry : ∀ key path pid waiters, (key, .loading path pid waiters) ∈ w'.state.pages →
    (∃ waiters', (key, .loading path pid waiters') ∈ w.state.pages) ∧ m.about ≠ some pid
  loaded : ∀ key pid value, (key, .loaded (.evaluated pid value)) ∈ w'.state.pages →
    (key, .loaded (.evaluated pid value)) ∈ w.state.pages ∧ w'.state.cookie = w.state.cookie ∨
      ∃ e, w.find pid = some e ∧ e.cookie = w'.state.cookie

theorem Takes.find {m : Message} (h : Takes s m w w') (pid : Nat) : w'.find pid = w.find pid := by
  unfold World.find
  rw [h.evaluators]

theorem Takes.origin {m : Message} (h : Takes s m w w') (ho : Origin w) : Origin w' := by
  refine ⟨?_, ?_, ?_⟩
  · intro pid hpid
    rw [h.nextPid] at hpid
    rw [h.find]
    exact ho.fresh pid hpid
  · intro pid path cookie handler hm
    rw [h.find]
    refine ho.message pid path cookie handler ?_
    rw [h.inbox]
    exact List.mem_cons_of_mem _ hm
  · intro key pid value hk
    rw [h.find]
    rcases h.loaded key pid value hk with ⟨hold, hcookie⟩ | hnew
    · rw [hcookie]
      exact ho.loaded key pid value hold
    · exact hnew

theorem Takes.sound {m : Message} (h : Takes s m w w') (hs : Sound s w)
    (hstarting : ∀ client path, w'.status = .starting client path → s.ref w'.state.pages path = none)
    (hlinking : ∀ client path pid, w'.status ≠ .linking client path pid) : Sound s w' := by
  refine ⟨h.unique, ?_, hstarting, fun client path pid hl => absurd hl (hlinking client path pid)⟩
  intro key path pid waiters hk
  obtain ⟨⟨waiters', hk'⟩, hm⟩ := h.entry key path pid waiters hk
  obtain ⟨hkey, e, he, hpath, hlinked, htended⟩ := hs.entry key path pid waiters' hk'
  rw [h.find]
  refine ⟨hkey, e, he, hpath, hlinked, ?_⟩
  rw [h.inbox] at htended
  refine htended.tail ?_
  rw [find_pid he]
  exact hm

theorem State.loadWatchers_pages {state state' : State} (h : state.loadWatchers s disk = .ok state') :
    state'.pages = state.pages ∧ state'.cookie = state.cookie := by
  unfold State.loadWatchers at h
  split at h
  · obtain ⟨dirs, hd, h⟩ := Lib.bind_ok h
    cases h
    exact ⟨rfl, rfl⟩
  · cases h
    exact ⟨rfl, rfl⟩

theorem State.updateMimeTypes_pages {state state' : State} (h : state.updateMimeTypes s disk = .ok state') :
    state'.pages = state.pages ∧ state'.cookie = state.cookie := by
  unfold State.updateMimeTypes at h
  split at h
  · cases h
    exact ⟨rfl, rfl⟩
  · obtain ⟨state₁, hw, h⟩ := Lib.bind_ok h
    obtain ⟨types, hm, h⟩ := Lib.bind_ok h
    cases h
    obtain ⟨hpages, hcookie⟩ := State.loadWatchers_pages hw
    exact ⟨hpages, hcookie⟩

theorem lookupHandler_none {paths : List Path} (h : s.lookupHandler pages paths = none) (hp : path ∈ paths) :
    s.ref pages path = none := List.findSome?_eq_none_iff.mp h path hp

/-- What handle-call may do to the pages. -/
inductive Turn.Ok (s : Site) (client : Nat) (state : State) : Turn → Prop where
  | same (answer : Answer) (state' : State) (hp : state'.pages = state.pages) (hc : state'.cookie = state.cookie) :
    Turn.Ok s client state (.reply answer state')
  | file (path : Path) (answer : Answer) (state' : State) (href : s.ref state.pages path = none)
    (hp : state'.pages = s.set state.pages path (.loaded (.file path))) (hc : state'.cookie = state.cookie) :
    Turn.Ok s client state (.reply answer state')
  | join (key path : Path) (pid : Nat) (waiters : List Nat) (hk : (key, .loading path pid waiters) ∈ state.pages) :
    Turn.Ok s client state (.noReply { state with pages := s.set state.pages path (.loading path pid (client :: waiters)) })
  | start (path : Path) (state' : State) (href : s.ref state.pages path = none) (hp : state'.pages = state.pages)
    (hc : state'.cookie = state.cookie) : Turn.Ok s client state (.startEvaluator path state')
  | raise (r : Reason) : Turn.Ok s client state (.raise r)

theorem State.getHandler_ok (s : Site) (disk : Disk) (client : Nat) (request : Request) (state : State) :
    (state.getHandler s disk client request).Ok s client state := by
  unfold State.getHandler
  generalize s.urlToAbsPaths request.path = x
  obtain ⟨paths, redirect⟩ := x
  dsimp only
  split
  · exact .same _ state rfl rfl
  · rename_i path pid waiters hlookup
    obtain ⟨path', -, href⟩ := List.exists_of_findSome?_eq_some hlookup
    obtain ⟨key, hk, -⟩ := ref_some href
    exact .join key path pid waiters hk
  · rename_i hlookup
    split
    · exact .raise _
    · rename_i state' hw
      obtain ⟨hpages, hcookie⟩ := State.loadWatchers_pages hw
      split
      · split
        · exact .same _ state' hpages hcookie
        · exact .same _ state' hpages hcookie
      · rename_i path hfind
        have href := lookupHandler_none hlookup (List.mem_of_find?_eq_some hfind)
        split
        · exact .raise _
        · exact .start path state' href hpages hcookie
        · split
          · refine .file path _ _ href ?_ hcookie
            rw [hpages]
          · exact .same _ state' hpages hcookie

theorem State.getMediaType_ok (s : Site) (disk : Disk) (client : Nat) (ext : List Char) (state : State) :
    (state.getMediaType s disk ext).Ok s client state := by
  unfold State.getMediaType
  split
  · exact .raise _
  · rename_i state' hu
    obtain ⟨hpages, hcookie⟩ := State.updateMimeTypes_pages hu
    split
    · exact .same _ state' hpages hcookie
    · exact .same _ state' hpages hcookie

/-- What holds in every state. -/
structure Good (s : Site) (w : World) : Prop where
  nodup : w.clients.Nodup
  origin : Origin w
  stopped : w.status.isStopped = true → ∀ c, w.answered.count c = w.clients.count c
  sound : w.status.isStopped = false → Sound s w ∧ w.Balanced

theorem stop_good (r : Reason) (hn : w.clients.Nodup) (ho : Origin w) (hle : ∀ c, w.answered.count c ≤ w.clients.count c) :
    Good s (w.stop r) := by
  refine ⟨hn, ⟨ho.fresh, ho.message, ho.loaded⟩, ?_, fun h => (by cases h)⟩
  intro _ c
  have hanswered : (w.stop r).answered = w.answered ++ w.clients.filter fun c => c ∉ w.answered := by
    simp [World.answered, World.stop, Function.comp_def]
  show (w.stop r).answered.count c = w.clients.count c
  rw [hanswered, List.count_append]
  by_cases hc : c ∈ w.answered
  · have hzero : (w.clients.filter fun c => c ∉ w.answered).count c = 0 := by
      refine List.count_eq_zero.mpr ?_
      simp [hc]
    have hpos := List.count_pos_iff.mpr hc
    have hone := List.nodup_iff_count_le_one.mp hn c
    have := hle c
    omega
  · rw [List.count_filter (by simpa using hc), List.count_eq_zero.mpr hc, Nat.zero_add]

theorem Takes.good {m : Message} (h : Takes s m w w') (hs : Sound s w) (ho : Origin w) (hn : w.clients.Nodup)
    (hclients : w'.clients = w.clients) (hb : w'.Balanced)
    (hstatus : w'.status = .running ∨ ∃ client path, w'.status = .starting client path ∧ s.ref w'.state.pages path = none) :
    Good s w' := by
  rw [← hclients] at hn
  refine ⟨hn, h.origin ho, ?_, fun _ => ⟨h.sound hs ?_ ?_, hb⟩⟩
  · intro hstop
    rcases hstatus with hr | ⟨client, path, hr, -⟩
    · rw [hr] at hstop
      cases hstop
    · rw [hr] at hstop
      cases hstop
  · intro client path hstart
    rcases hstatus with hr | ⟨client', path', hr, href⟩
    · rw [hr] at hstart
      cases hstart
    · rw [hr] at hstart
      cases hstart
      exact href
  · intro client path pid hlink
    rcases hstatus with hr | ⟨client', path', hr, -⟩
    · rw [hr] at hlink
      cases hlink
    · rw [hr] at hlink
      cases hlink

/-- The places of the calls before a turn. -/
theorem World.Balanced.before {m : Message} {inbox : List Message} (hb : w.Balanced) (hrun : w.status = .running)
    (hin : w.inbox = m :: inbox) (c : Nat) :
    w.answered.count c + (m.clients.count c + (inbox.flatMap Message.clients).count c) + (waiting w.state.pages).count c =
      w.clients.count c := by
  have hbal := hb c
  rw [World.queued, hin, List.flatMap_cons, List.count_append, hrun] at hbal
  simpa [Status.clients] using hbal

/-- The effect of a call that is taken from the inbox. -/
theorem act_good {m : Message} {inbox : List Message} {client : Nat} {turn : Turn} (hs : Sound s w) (ho : Origin w)
    (hb : w.Balanced) (hn : w.clients.Nodup) (hrun : w.status = .running) (hin : w.inbox = m :: inbox)
    (hclient : m.clients = [client]) (habout : m.about = none) (hturn : turn.Ok s client w.state) :
    Good s ({ w with inbox := inbox, timeout := some cacheTimeout }.act client turn) := by
  have hcount := hb.before hrun hin
  rw [hclient] at hcount
  have hnone : ∀ pid, m.about ≠ some pid := by
    intro pid
    rw [habout]
    exact fun h => (by cases h)
  have hkeep : ∀ state' status answers, state'.pages = w.state.pages → state'.cookie = w.state.cookie →
      Takes s m w { w with state := state', status := status, inbox := inbox, timeout := some cacheTimeout, answers := answers } := by
    intro state' status answers hp hc
    refine ⟨hin, rfl, rfl, hp ▸ hs.unique, ?_, ?_⟩
    · intro key path pid waiters hk
      exact ⟨⟨waiters, hp ▸ hk⟩, hnone pid⟩
    · intro key pid value hk
      exact .inl ⟨hp ▸ hk, hc⟩
  cases hturn with
  | same answer state' hp hc =>
    refine (hkeep state' w.status (w.answers ++ [(client, answer)]) hp hc).good hs ho hn rfl ?_ (.inl hrun)
    intro c
    have h1 := hcount c
    simp only [World.answered, World.queued, hp, hrun, Status.clients, List.map_append, List.map_cons, List.map_nil,
      List.count_append, List.count_nil] at h1 ⊢
    omega
  | file path answer state' href hp hc =>
    have htakes : Takes s m w ({ w with inbox := inbox, timeout := some cacheTimeout }.act client (.reply answer state')) := by
      refine ⟨hin, rfl, rfl, ?_, ?_, ?_⟩
      · simp only [World.act, hp]
        exact hs.unique.set path _
      · intro key path' pid waiters hk
        simp only [World.act, hp, Site.set, delete_of_ref_none href] at hk
        rcases List.mem_cons.mp hk with heq | hk
        · cases heq
        · exact ⟨⟨waiters, hk⟩, hnone pid⟩
      · intro key pid value hk
        simp only [World.act, hp, Site.set, delete_of_ref_none href] at hk
        rcases List.mem_cons.mp hk with heq | hk
        · cases heq
        · exact .inl ⟨hk, hc⟩
    refine htakes.good hs ho hn rfl ?_ (.inl hrun)
    intro c
    have h1 := hcount c
    simp only [World.act, World.answered, World.queued, hp, hrun, Status.clients, List.map_append, List.map_cons, List.map_nil,
      List.count_append, List.count_nil, count_waiting_set, delete_of_ref_none href, Page.waiters] at h1 ⊢
    omega
  | join key path pid waiters hk =>
    obtain ⟨hkey, -⟩ := hs.entry key path pid waiters hk
    subst hkey
    have href := ref_of_mem hs.unique hk
    have htakes : Takes s m w ({ w with inbox := inbox, timeout := some cacheTimeout }.act client
        (.noReply { w.state with pages := s.set w.state.pages key (.loading key pid (client :: waiters)) })) := by
      refine ⟨hin, rfl, rfl, hs.unique.set key _, ?_, ?_⟩
      · intro key' path' pid' waiters' hk'
        refine ⟨?_, hnone pid'⟩
        rcases List.mem_cons.mp hk' with heq | hk'
        · cases heq
          exact ⟨waiters, hk⟩
        · exact ⟨waiters', (mem_delete.mp hk').1⟩
      · intro key' pid' value hk'
        rcases List.mem_cons.mp hk' with heq | hk'
        · cases heq
        · exact .inl ⟨(mem_delete.mp hk').1, rfl⟩
    refine htakes.good hs ho hn rfl ?_ (.inl hrun)
    intro c
    have h1 := hcount c
    rw [count_waiting_delete hs.unique href] at h1
    simp only [World.act, World.answered, World.queued, hrun, Status.clients, List.count_nil, count_waiting_set,
      Page.waiters, List.count_cons] at h1 ⊢
    omega
  | start path state' href hp hc =>
    refine (hkeep state' (.starting client path) w.answers hp hc).good hs ho hn rfl ?_ (.inr ⟨client, path, rfl, hp ▸ href⟩)
    intro c
    have h1 := hcount c
    simp only [World.answered, World.queued, hp, Status.clients] at h1 ⊢
    omega
  | raise r =>
    have ho' := (hkeep w.state w.status w.answers rfl rfl).origin ho
    refine stop_good r hn ho' ?_
    intro c
    have h1 := hcount c
    simp only [World.answered] at h1 ⊢
    omega

/-- What handle-info may do. -/
structure InfoOk (s : Site) (m : Message) (w : World) (x : List (Nat × Answer) × State) : Prop where
  unique : s.Unique x.2.pages
  entry : ∀ key path pid waiters, (key, .loading path pid waiters) ∈ x.2.pages →
    (key, .loading path pid waiters) ∈ w.state.pages ∧ m.about ≠ some pid
  loaded : ∀ key pid value, (key, .loaded (.evaluated pid value)) ∈ x.2.pages →
    (key, .loaded (.evaluated pid value)) ∈ w.state.pages ∧ x.2.cookie = w.state.cookie ∨
      ∃ e, w.find pid = some e ∧ e.cookie = x.2.cookie
  count : ∀ c, (x.1.map Prod.fst).count c + (waiting x.2.pages).count c = (waiting w.state.pages).count c

theorem infoOk_same {m : Message} (hs : Sound s w)
    (hm : ∀ key path pid waiters, (key, .loading path pid waiters) ∈ w.state.pages → m.about ≠ some pid) :
    InfoOk s m w ([], w.state) := by
  refine ⟨hs.unique, fun key path pid waiters hk => ⟨hk, hm key path pid waiters hk⟩, fun _ _ _ hk => .inl ⟨hk, rfl⟩, ?_⟩
  intro c
  simp

theorem waiting_clear (pages : List (Path × Page)) : waiting (pages.filter fun x => !x.2.isLoaded) = waiting pages := by
  induction pages with
  | nil => rfl
  | cons x pages ih =>
    obtain ⟨key, page⟩ := x
    cases page with
    | loaded handler => simpa [waiting_cons, Page.isLoaded, Page.waiters] using ih
    | loading path pid waiters => simpa [waiting_cons, Page.isLoaded, Page.waiters] using ih

theorem infoOk_pathChanged (hs : Sound s w) (path filename : Path) :
    InfoOk s (.pathChanged path filename) w (w.state.handleInfo s (.pathChanged path filename)) := by
  rw [State.handleInfo]
  split
  · exact ⟨hs.unique, fun _ _ _ _ hk => ⟨hk, fun h => (by cases h)⟩, fun _ _ _ hk => .inl ⟨hk, rfl⟩, fun c => by simp⟩
  · refine ⟨hs.unique.filter _, ?_, ?_, ?_⟩
    · intro key path pid waiters hk
      exact ⟨(List.mem_filter.mp hk).1, fun h => (by cases h)⟩
    · intro key pid value hk
      cases (List.mem_filter.mp hk).2
    · intro c
      simp [State.clearCache, waiting_clear]

/-- The page that an evaluator loads. -/
theorem Sound.loading_ref (hs : Sound s w) {pid : Nat} {e : Evaluator} (he : w.find pid = some e) {waiters : List Nat}
    (hk : (key, .loading path pid waiters) ∈ w.state.pages) :
    path = e.path ∧ s.ref w.state.pages e.path = some (.loading e.path pid waiters) := by
  obtain ⟨hkey, e', he', hpath, -⟩ := hs.entry key path pid waiters hk
  rw [he] at he'
  cases he'
  subst hkey
  subst hpath
  exact ⟨rfl, ref_of_mem hs.unique hk⟩

/-- Without the page that an evaluator loads, nothing waits for it. -/
theorem Sound.delete_about (hs : Sound s w) {pid : Nat} {e : Evaluator} (he : w.find pid = some e) {waiters : List Nat}
    (hk : (key, .loading path pid waiters) ∈ s.delete w.state.pages e.path) : False := by
  obtain ⟨hmem, hne⟩ := mem_delete.mp hk
  obtain ⟨hkey, -⟩ := hs.entry key path pid waiters hmem
  obtain ⟨hpath, -⟩ := hs.loading_ref he hmem
  exact hne (by rw [hkey, hpath])

theorem infoOk_loadFinished (hs : Sound s w) {pid cookie value : Nat} {e : Evaluator} (he : w.find pid = some e)
    (hcookie : e.cookie = cookie) :
    InfoOk s (.loadFinished pid e.path cookie (.evaluated pid value)) w
      (w.state.loadFinished s pid e.path cookie (.evaluated pid value)) := by
  have hignored : (∀ waiters, s.ref w.state.pages e.path ≠ some (.loading e.path pid waiters)) →
      InfoOk s (.loadFinished pid e.path cookie (.evaluated pid value)) w ([], w.state) := by
    intro hno
    refine infoOk_same hs ?_
    intro key path pid' waiters hk h
    cases h
    exact hno waiters (hs.loading_ref he hk).2
  unfold State.loadFinished
  split
  · rename_i path loader waiters href
    obtain ⟨key, hk, hfold⟩ := ref_some href
    split
    · rename_i hloader
      subst hloader
      obtain ⟨hpath, -⟩ := hs.loading_ref he hk
      subst hpath
      have hentry : ∀ key path pid' waiters', (key, .loading path pid' waiters') ∈ s.delete w.state.pages e.path →
          (key, .loading path pid' waiters') ∈ w.state.pages ∧
            (Message.loadFinished loader e.path cookie (.evaluated loader value)).about ≠ some pid' := by
        intro key path pid' waiters' hk'
        refine ⟨(mem_delete.mp hk').1, ?_⟩
        intro h
        cases h
        exact hs.delete_about he hk'
      have hmap : ((waiters.map fun w => (w, Answer.handler (some (.evaluated loader value)))).map Prod.fst) = waiters := by
        simp [Function.comp_def]
      split
      · rename_i hcur
        refine ⟨hs.unique.set e.path _, ?_, ?_, ?_⟩
        · intro key path pid' waiters' hk'
          rcases List.mem_cons.mp hk' with heq | hk'
          · cases heq
          · exact hentry key path pid' waiters' hk'
        · intro key pid' value' hk'
          rcases List.mem_cons.mp hk' with heq | hk'
          · cases heq
            exact .inr ⟨e, he, hcookie.trans hcur.symm⟩
          · exact .inl ⟨(mem_delete.mp hk').1, rfl⟩
        · intro c
          rw [hmap, count_waiting_delete hs.unique href c]
          simp only [count_waiting_set, Page.waiters, List.count_nil]
          omega
      · refine ⟨hs.unique.delete e.path, hentry, fun key pid' value' hk' => .inl ⟨(mem_delete.mp hk').1, rfl⟩, ?_⟩
        intro c
        rw [hmap, count_waiting_delete hs.unique href c]
        rfl
    · rename_i hloader
      refine hignored ?_
      intro waiters' h
      rw [href] at h
      cases h
      exact hloader rfl
  · rename_i hno
    refine hignored ?_
    intro waiters h
    exact hno _ _ _ h

theorem findSome_waitersOf {pid : Nat} {waiters : List Nat}
    (h : pages.findSome? (fun x => (x.2.waitersOf pid).map fun waiters => (x.1, waiters)) = some (key, waiters)) :
    ∃ path, (key, .loading path pid waiters) ∈ pages := by
  obtain ⟨x, hx, hmap⟩ := List.exists_of_findSome?_eq_some h
  obtain ⟨key', page⟩ := x
  obtain ⟨ws, hws, heq⟩ := Option.map_eq_some_iff.mp hmap
  cases heq
  cases page with
  | loaded handler => cases hws
  | loading path loader waiters' =>
    simp only [Page.waitersOf] at hws
    split at hws
    · rename_i hloader
      cases hws
      subst hloader
      exact ⟨path, hx⟩
    · cases hws

theorem infoOk_exit (hs : Sound s w) (pid n : Nat) :
    InfoOk s (.exit pid (.user n)) w (w.state.evaluatorExit s pid (.user n)) := by
  unfold State.evaluatorExit
  split
  · rename_i key waiters hfind
    obtain ⟨path, hx⟩ := findSome_waitersOf hfind
    obtain ⟨hkey, e, he, hpath, -⟩ := hs.entry _ _ _ _ hx
    subst hkey
    subst hpath
    refine ⟨hs.unique.delete e.path, ?_, fun key pid' value' hk' => .inl ⟨(mem_delete.mp hk').1, rfl⟩, ?_⟩
    · intro key path pid' waiters' hk'
      refine ⟨(mem_delete.mp hk').1, ?_⟩
      intro h
      cases h
      exact hs.delete_about he hk'
    · intro c
      rw [count_waiting_delete hs.unique (ref_of_mem hs.unique hx) c]
      simp [Function.comp_def, Page.waiters]
  · rename_i hfind
    refine infoOk_same hs ?_
    intro key path pid' waiters hk h
    cases h
    have hnone := List.findSome?_eq_none_iff.mp hfind _ hk
    simp [Page.waitersOf] at hnone

theorem InfoOk.good {m : Message} {inbox : List Message} {x : List (Nat × Answer) × State} (h : InfoOk s m w x) (hs : Sound s w)
    (ho : Origin w) (hb : w.Balanced) (hn : w.clients.Nodup) (hrun : w.status = .running) (hin : w.inbox = m :: inbox)
    (hclients : m.clients = []) :
    Good s { w with inbox := inbox, timeout := some cacheTimeout, state := x.2, answers := w.answers ++ x.1 } := by
  have htakes : Takes s m w { w with inbox := inbox, timeout := some cacheTimeout, state := x.2, answers := w.answers ++ x.1 } := by
    refine ⟨hin, rfl, rfl, h.unique, ?_, h.loaded⟩
    intro key path pid waiters hk
    obtain ⟨hmem, hm⟩ := h.entry key path pid waiters hk
    exact ⟨⟨waiters, hmem⟩, hm⟩
  refine htakes.good hs ho hn rfl ?_ (.inl hrun)
  intro c
  have h1 := hb.before hrun hin c
  have h2 := h.count c
  simp only [World.answered, World.queued, hrun, hclients, Status.clients, List.count_nil, List.map_append,
    List.count_append] at h1 ⊢
  omega

theorem handle_good {m : Message} {inbox : List Message} (h : Good s w) (hrun : w.status = .running)
    (hin : w.inbox = m :: inbox) (disk : Disk) :
    Good s ({ w with inbox := inbox, timeout := some cacheTimeout }.handle s disk m) := by
  obtain ⟨hs, hb⟩ := h.sound (by rw [hrun]; rfl)
  cases m with
  | getHandler client request =>
    exact act_good hs h.origin hb h.nodup hrun hin rfl rfl (State.getHandler_ok s disk client request w.state)
  | getMediaType client ext =>
    exact act_good hs h.origin hb h.nodup hrun hin rfl rfl (State.getMediaType_ok s disk client ext w.state)
  | parentExit r =>
    have hsame : InfoOk s (.parentExit r) w ([], w.state) := infoOk_same hs (fun _ _ _ _ _ h => (by cases h))
    have hgood := hsame.good hs h.origin hb h.nodup hrun hin rfl
    refine stop_good r h.nodup ⟨hgood.origin.fresh, hgood.origin.message, hgood.origin.loaded⟩ ?_
    intro c
    have h1 := hb.before hrun hin c
    simp only [World.answered] at h1 ⊢
    omega
  | pathChanged path filename =>
    exact (infoOk_pathChanged hs path filename).good hs h.origin hb h.nodup hrun hin rfl
  | loadFinished pid path cookie handler =>
    obtain ⟨e, value, he, hpath, hcookie, hhandler⟩ := h.origin.message pid path cookie handler (by rw [hin]; exact List.mem_cons_self)
    subst hpath
    subst hhandler
    exact (infoOk_loadFinished hs he hcookie).good hs h.origin hb h.nodup hrun hin rfl
  | exit pid r =>
    cases r with
    | normal =>
      have hsame : InfoOk s (.exit pid .normal) w ([], w.state) := infoOk_same hs (fun _ _ _ _ _ h => (by cases h))
      exact hsame.good hs h.origin hb h.nodup hrun hin rfl
    | user n => exact (infoOk_exit hs pid n).good hs h.origin hb h.nodup hrun hin rfl

/-- A step that adds to the inbox. -/
theorem Adds.good (h : Adds w w') (hg : Good s w) (hrun : w.status.isStopped = false) (hn : w'.clients.Nodup)
    (hb : w.Balanced → w'.Balanced) : Good s w' := by
  obtain ⟨hs, hbal⟩ := hg.sound hrun
  refine ⟨hn, h.origin hg.origin, ?_, fun _ => ⟨h.sound hs, hb hbal⟩⟩
  intro hstop
  rw [h.status, hrun] at hstop
  cases hstop

theorem balanced_send {m : Message} (hb : w.Balanced) (hm : m.clients = []) : (w.send m).Balanced := by
  intro c
  have := hb c
  simpa [World.send, World.queued, World.answered, hm] using this

theorem balanced_call {m : Message} {client : Nat} (hb : w.Balanced) (hm : m.clients = [client]) :
    ({ w with clients := client :: w.clients }.send m).Balanced := by
  intro c
  have := hb c
  simp only [World.send, World.queued, World.answered, List.flatMap_append, List.flatMap_cons, List.flatMap_nil, hm,
    List.count_append, List.count_cons, List.count_nil] at this ⊢
  omega

theorem stop_good_of_good (h : Good s w) (hrun : w.status.isStopped = false) (r : Reason) : Good s (w.stop r) := by
  obtain ⟨-, hb⟩ := h.sound hrun
  refine stop_good r h.nodup h.origin ?_
  intro c
  have := hb c
  omega

theorem find_spawn (w : World) (e : Evaluator) (pid : Nat) :
    World.find { w with evaluators := e :: w.evaluators } pid = if e.pid = pid then some e else w.find pid := by
  unfold World.find
  rw [List.find?_cons]
  by_cases hp : e.pid = pid
  · simp [hp]
  · simp [hp]

theorem spawn_good (h : Good s w) {client : Nat} (hstatus : w.status = .starting client path) :
    Good s { w with
      status := .linking client path w.nextPid
      evaluators := ⟨w.nextPid, path, w.state.cookie, false, false, none⟩ :: w.evaluators
      nextPid := w.nextPid + 1 } := by
  obtain ⟨hs, hb⟩ := h.sound (by rw [hstatus]; rfl)
  have hfind := find_spawn w ⟨w.nextPid, path, w.state.cookie, false, false, none⟩
  have hold : ∀ pid e, w.find pid = some e → World.find { w with
      status := .linking client path w.nextPid
      evaluators := ⟨w.nextPid, path, w.state.cookie, false, false, none⟩ :: w.evaluators
      nextPid := w.nextPid + 1 } pid = some e := by
    intro pid e he
    refine (hfind pid).trans ?_
    by_cases hp : w.nextPid = pid
    · rw [h.origin.fresh pid (by omega)] at he
      cases he
    · rw [if_neg hp, he]
  refine ⟨h.nodup, ⟨?_, ?_, ?_⟩, fun hh => (by cases hh), fun _ => ⟨⟨hs.unique, ?_, fun _ _ hh => (by cases hh), ?_⟩, ?_⟩⟩
  · intro pid hpid
    dsimp only at hpid
    refine (hfind pid).trans ?_
    rw [if_neg (by dsimp only; omega)]
    exact h.origin.fresh pid (by omega)
  · intro pid path' cookie handler hm
    obtain ⟨e, value, he, hrest⟩ := h.origin.message pid path' cookie handler hm
    exact ⟨e, value, hold pid e he, hrest⟩
  · intro key pid value hk
    obtain ⟨e, he, hcookie⟩ := h.origin.loaded key pid value hk
    exact ⟨e, hold pid e he, hcookie⟩
  · intro key path' pid waiters hk
    obtain ⟨hkey, e, he, hrest⟩ := hs.entry key path' pid waiters hk
    exact ⟨hkey, e, hold pid e he, hrest⟩
  · intro client' path' pid hl
    cases hl
    refine ⟨hs.starting client path hstatus, _, (hfind w.nextPid).trans (if_pos rfl), rfl, rfl, fun hh => (by cases hh)⟩
  · intro c
    have := hb c
    rw [hstatus] at this
    exact this

theorem link_good (h : Good s w) {client pid : Nat} {e : Evaluator} (hstatus : w.status = .linking client path pid)
    (he : w.find pid = some e) : Good s (w.linkEvaluator s client path e) := by
  obtain ⟨hs, hb⟩ := h.sound (by rw [hstatus]; rfl)
  obtain ⟨href, e₁, he₁, hpath, hlinked, hsent⟩ := hs.linking client path pid hstatus
  rw [he] at he₁
  cases he₁
  have hpid := find_pid he
  subst hpid
  have hfind : ∀ pid, (w.linkEvaluator s client path e).find pid =
      if pid = e.pid then (w.find pid).map Evaluator.link else w.find pid := by
    intro pid
    have hup := find_update (w := w) (f := Evaluator.link) (fun _ => rfl) e.pid pid
    rw [← hup]
    unfold World.linkEvaluator
    cases e.exit <;> rfl
  have hinbox : ∀ m, m ∈ (w.linkEvaluator s client path e).inbox ↔ m ∈ w.inbox ∨ ∃ r, e.exit = some r ∧ m = .exit e.pid r := by
    intro m
    unfold World.linkEvaluator
    cases e.exit with
    | none => simp [World.update]
    | some r => simp [World.send, World.update]
  have hqueued : (w.linkEvaluator s client path e).queued = w.queued := by
    unfold World.linkEvaluator
    cases e.exit with
    | none => rfl
    | some r => simp [World.queued, World.send, World.update, Message.clients]
  have hstate : (w.linkEvaluator s client path e).state =
      { w.state with pages := (path, .loading path e.pid [client]) :: w.state.pages } := by
    unfold World.linkEvaluator
    cases e.exit with
    | none => simp only [World.update, Site.set, delete_of_ref_none href]
    | some r => simp only [World.update, World.send, Site.set, delete_of_ref_none href]
  have hother : (w.linkEvaluator s client path e).status = .running ∧ (w.linkEvaluator s client path e).answers = w.answers ∧
      (w.linkEvaluator s client path e).clients = w.clients ∧ (w.linkEvaluator s client path e).nextPid = w.nextPid := by
    unfold World.linkEvaluator
    cases e.exit <;> exact ⟨rfl, rfl, rfl, rfl⟩
  obtain ⟨hrun, hanswers, hclients, hnext⟩ := hother
  have hold : ∀ pid e', w.find pid = some e' → ∃ e'', (w.linkEvaluator s client path e).find pid = some e'' ∧
      e''.path = e'.path ∧ e''.cookie = e'.cookie := by
    intro pid e' he'
    rw [hfind, he']
    split
    · exact ⟨e'.link, rfl, rfl, rfl⟩
    · exact ⟨e', rfl, rfl, rfl⟩
  refine ⟨hclients ▸ h.nodup, ⟨?_, ?_, ?_⟩, ?_, fun _ => ⟨⟨?_, ?_, ?_, ?_⟩, ?_⟩⟩
  · intro pid hp
    rw [hnext] at hp
    rw [hfind, h.origin.fresh pid hp]
    split <;> rfl
  · intro pid path' cookie handler hm
    rcases (hinbox _).mp hm with hm | ⟨r, -, hm⟩
    · obtain ⟨e', value, he', hp, hc, hh⟩ := h.origin.message pid path' cookie handler hm
      obtain ⟨e'', he'', hp', hc'⟩ := hold pid e' he'
      exact ⟨e'', value, he'', hp'.trans hp, hc'.trans hc, hh⟩
    · cases hm
  · intro key pid value hk
    rw [hstate] at hk ⊢
    rcases List.mem_cons.mp hk with heq | hk
    · cases heq
    · obtain ⟨e', he', hc⟩ := h.origin.loaded key pid value hk
      obtain ⟨e'', he'', -, hc'⟩ := hold pid e' he'
      exact ⟨e'', he'', hc'.trans hc⟩
  · intro hstop
    rw [hrun] at hstop
    cases hstop
  · rw [hstate]
    refine List.pairwise_cons.mpr ⟨?_, hs.unique⟩
    intro x hx
    exact Ne.symm (ref_none href hx)
  · intro key path' pid waiters hk
    rw [hstate] at hk
    rcases List.mem_cons.mp hk with heq | hk
    · cases heq
      refine ⟨rfl, e.link, ?_, hpath, rfl, ?_, ?_⟩
      · rw [hfind, if_pos rfl, he]
        rfl
      · intro hs'
        obtain ⟨value, hv⟩ := hsent hs'
        exact ⟨value, (hinbox _).mpr (.inl hv)⟩
      · intro r _ hexit
        exact (hinbox _).mpr (.inr ⟨r, hexit, rfl⟩)
    · obtain ⟨hkey, e', he', hp, hl, htended⟩ := hs.entry key path' pid waiters hk
      have hne : pid ≠ e.pid := by
        intro hh
        rw [hh, he] at he'
        cases he'
        rw [hlinked] at hl
        cases hl
      refine ⟨hkey, e', ?_, hp, hl, ?_, ?_⟩
      · rw [hfind, if_neg hne, he']
      · intro hs'
        obtain ⟨value, hv⟩ := htended.sent hs'
        exact ⟨value, (hinbox _).mpr (.inl hv)⟩
      · intro r hr hexit
        exact (hinbox _).mpr (.inl (htended.exit r hr hexit))
  · intro _ _ hh
    rw [hrun] at hh
    cases hh
  · intro _ _ _ hh
    rw [hrun] at hh
    cases hh
  · intro c
    have := hb c
    rw [hstatus] at this
    simp only [World.answered, hanswers, hqueued, hstate, hrun, hclients, waiting_cons, Page.waiters, Status.clients,
      List.count_append, List.count_nil] at this ⊢
    omega

theorem step_good {a : Action} (h : Good s w) (ht : w.step s a = .ok w') : Good s w' := by
  have hrun : w.status.isStopped = false := by
    cases hst : w.status with
    | stopped r => simp [World.step, hst] at ht
    | running => rfl
    | starting client path => rfl
    | linking client path pid => rfl
  unfold World.step at ht
  split at ht
  · cases ht
  · split at ht
    · cases ht
    · rename_i hfresh
      cases ht
      exact (adds_send _ (fun _ _ _ _ hh => (by cases hh))).good h hrun (List.nodup_cons.mpr ⟨hfresh, h.nodup⟩)
        (fun hb => balanced_call hb rfl)
  · split at ht
    · cases ht
    · rename_i hfresh
      cases ht
      exact (adds_send _ (fun _ _ _ _ hh => (by cases hh))).good h hrun (List.nodup_cons.mpr ⟨hfresh, h.nodup⟩)
        (fun hb => balanced_call hb rfl)
  · cases ht
    exact (adds_send w.clients (fun _ _ _ _ hh => (by cases hh))).good h hrun h.nodup (fun hb => balanced_send hb rfl)
  · cases ht
    exact (adds_send w.clients (fun _ _ _ _ hh => (by cases hh))).good h hrun h.nodup (fun hb => balanced_send hb rfl)
  · split at ht
    · cases ht
    · rename_i e he
      split at ht
      · cases ht
      · cases ht
        exact (adds_finish he _).good h hrun h.nodup (fun hb => balanced_send hb rfl)
  · split at ht
    · cases ht
    · rename_i e he
      split at ht
      · cases ht
      · cases ht
        refine (adds_die he _).good h hrun ?_ ?_
        · cases e.linked <;> exact h.nodup
        · intro hb
          cases e.linked with
          | true => exact balanced_send hb rfl
          | false => exact hb
  · cases ht
    exact stop_good_of_good h hrun _
  · rename_i hst
    split at ht
    · cases ht
    · rename_i m inbox hin
      cases ht
      exact handle_good h hst hin _
  · split at ht
    · cases ht
      exact stop_good_of_good h hrun _
    · cases ht
  · rename_i hst
    cases ht
    exact spawn_good h hst
  · cases ht
    exact stop_good_of_good h hrun _
  · rename_i hst
    split at ht
    · cases ht
    · rename_i e he
      cases ht
      exact link_good h hst he
  · cases ht

theorem reach_good {allowed : World → Action → Prop} (h : Reach World.initial (World.step s) allowed w) : Good s w := by
  refine h.invariant (I := Good s) ?_ fun _ _ _ hi _ ht => step_good hi ht
  refine ⟨List.nodup_nil, ⟨fun _ _ => rfl, ?_, ?_⟩, fun hh => (by cases hh), fun _ => ⟨⟨List.Pairwise.nil, ?_, ?_, ?_⟩, fun _ => rfl⟩⟩
  · exact fun _ _ _ _ hm => absurd hm List.not_mem_nil
  · exact fun _ _ _ hk => absurd hk List.not_mem_nil
  · exact fun _ _ _ _ hk => absurd hk List.not_mem_nil
  · exact fun _ _ hh => (by cases hh)
  · exact fun _ _ _ hh => (by cases hh)

/-- An evaluator exits with the reason normal only after it has sent its result. -/
def Sends (w : World) (a : Action) : Prop := ∀ pid, a = .die pid .normal → ∃ e, w.find pid = some e ∧ e.sent = true

/-- The evaluators that have exited with the reason normal have sent their results. -/
def World.AllSent (w : World) : Prop := ∀ pid e, w.find pid = some e → e.exit = some .normal → e.sent = true

theorem AllSent.of_evaluators (h : w.AllSent) (he : w'.evaluators = w.evaluators) : w'.AllSent := by
  unfold World.AllSent World.find at h ⊢
  rw [he]
  exact h

theorem AllSent.update (h : w.AllSent) {f : Evaluator → Evaluator} (hf : ∀ e, (f e).pid = e.pid) (pid : Nat)
    (hnew : ∀ e, w.find pid = some e → (f e).exit = some .normal → (f e).sent = true) : (w.update pid f).AllSent := by
  intro pid' e' he' hexit
  rw [find_update hf] at he'
  split at he'
  · rename_i hp
    subst hp
    obtain ⟨e, he, heq⟩ := Option.map_eq_some_iff.mp he'
    subst heq
    exact hnew e he hexit
  · exact h pid' e' he' hexit

theorem handle_evaluators (m : Message) : (w.handle s disk m).evaluators = w.evaluators := by
  have hact : ∀ client turn, (w.act client turn).evaluators = w.evaluators := by
    intro client turn
    cases turn <;> rfl
  cases m with
  | getHandler client request => exact hact _ _
  | getMediaType client ext => exact hact _ _
  | pathChanged path filename => rfl
  | loadFinished pid path cookie handler => rfl
  | exit pid r => cases r <;> rfl
  | parentExit r => rfl

theorem step_allSent {a : Action} (h : w.AllSent) (ha : Sends w a) (ht : w.step s a = .ok w') : w'.AllSent := by
  unfold World.step at ht
  split at ht
  · cases ht
  · split at ht
    · cases ht
    · cases ht
      exact AllSent.of_evaluators h rfl
  · split at ht
    · cases ht
    · cases ht
      exact AllSent.of_evaluators h rfl
  · cases ht
    exact AllSent.of_evaluators h rfl
  · cases ht
    exact AllSent.of_evaluators h rfl
  · split at ht
    · cases ht
    · split at ht
      · cases ht
      · cases ht
        exact AllSent.of_evaluators (AllSent.update (f := Evaluator.finish) h (fun _ => rfl) _ (fun _ _ _ => rfl)) rfl
  · rename_i pid r _
    split at ht
    · cases ht
    · rename_i e he
      split at ht
      · cases ht
      · cases ht
        have hdie : (w.update pid (Evaluator.die r)).AllSent := by
          refine AllSent.update (f := Evaluator.die r) h (fun _ => rfl) pid ?_
          intro e' he' hexit
          cases hexit
          obtain ⟨e'', he'', hsent⟩ := ha pid rfl
          rw [he'] at he''
          cases he''
          exact hsent
        cases e.linked with
        | true => exact AllSent.of_evaluators hdie rfl
        | false => exact hdie
  · cases ht
    exact AllSent.of_evaluators h rfl
  · split at ht
    · cases ht
    · cases ht
      exact AllSent.of_evaluators h (handle_evaluators _)
  · split at ht
    · cases ht
      exact AllSent.of_evaluators h rfl
    · cases ht
  · cases ht
    intro pid e he hexit
    have hfind := (find_spawn w _ pid).symm.trans he
    split at hfind
    · cases hfind
      cases hexit
    · exact h pid e hfind hexit
  · cases ht
    exact AllSent.of_evaluators h rfl
  · split at ht
    · cases ht
    · rename_i e he
      cases ht
      have hlink : (w.update e.pid Evaluator.link).AllSent := by
        refine AllSent.update (f := Evaluator.link) h (fun _ => rfl) e.pid ?_
        intro e' he' hexit
        exact h e.pid e' he' hexit
      refine AllSent.of_evaluators hlink ?_
      unfold World.linkEvaluator
      cases e.exit <;> rfl
  · cases ht

theorem reach_allSent (h : Reach World.initial (World.step s) Sends w) : w.AllSent :=
  h.invariant (I := World.AllSent) (fun _ _ he => (by cases he)) fun _ _ _ hi ha ht => step_allSent hi ha ht

/-- The server answers a call when it takes a message. -/
def Message.Answers (s : Site) (state : State) (client : Nat) (m : Message) : Prop :=
  client ∈ (state.handleInfo s m).1.map Prod.fst

/-- A call waits for one page. The evaluator of the page is alive, or its result or its EXIT
message will answer the call. -/
structure Waits (s : Site) (w : World) (client : Nat) (path : Path) (pid : Nat) (waiters : List Nat) : Prop where
  entry : (path, .loading path pid waiters) ∈ w.state.pages
  once : waiters.count client = 1
  only : ∀ key page, (key, page) ∈ w.state.pages → client ∈ page.waiters → key = path ∧ page = .loading path pid waiters
  served : (∃ e, w.find pid = some e ∧ e.exit = none) ∨
    (∃ cookie handler, .loadFinished pid path cookie handler ∈ w.inbox ∧
      (Message.loadFinished pid path cookie handler).Answers s w.state client) ∨
    ∃ r, .exit pid r ∈ w.inbox ∧ (Message.exit pid r).Answers s w.state client

/-- A call has been answered once, or has not been handled, or waits. -/
def World.Attended (s : Site) (w : World) (client : Nat) : Prop :=
  (w.answered.count client = 1 ∧ (w.status.isStopped = false → client ∉ waiting w.state.pages)) ∨
    (w.answered.count client = 0 ∧ w.status.isStopped = false ∧
      ((client ∈ w.queued ++ w.status.clients ∧ client ∉ waiting w.state.pages) ∨
        ∃ path pid waiters, Waits s w client path pid waiters))

theorem mem_waiting {c : Nat} : c ∈ waiting pages ↔ ∃ key page, (key, page) ∈ pages ∧ c ∈ page.waiters := by
  simp [waiting]

/-- An EXIT message finds the page that the evaluator loads. -/
theorem Sound.findSome_waitersOf (hs : Sound s w) {pid : Nat} {waiters : List Nat}
    (hk : (path, .loading path pid waiters) ∈ w.state.pages) :
    w.state.pages.findSome? (fun x => (x.2.waitersOf pid).map fun waiters => (x.1, waiters)) = some (path, waiters) := by
  cases hfind : w.state.pages.findSome? (fun x => (x.2.waitersOf pid).map fun waiters => (x.1, waiters)) with
  | none =>
    have hnone := List.findSome?_eq_none_iff.mp hfind _ hk
    simp [Page.waitersOf] at hnone
  | some x =>
    obtain ⟨key, waiters'⟩ := x
    obtain ⟨path', hx⟩ := Cache.findSome_waitersOf hfind
    obtain ⟨hkey, e, he, hpath, -⟩ := hs.entry _ _ _ _ hx
    obtain ⟨hpath', -⟩ := hs.loading_ref he hk
    have hsame : key = path := by rw [hkey, ← hpath, hpath']
    subst hsame
    have hpage := hs.unique.eq_of_mem hx hk rfl
    cases hpage
    rfl

/-- A call among the waiters waits, if all evaluators send their results. -/
theorem Sound.waits (hs : Sound s w) (hsent : w.AllSent) {client : Nat} (hone : (waiting w.state.pages).count client = 1) :
    ∃ path pid waiters, Waits s w client path pid waiters := by
  obtain ⟨key, page, hk, hc⟩ := mem_waiting.mp (List.count_pos_iff.mp (by rw [hone]; exact Nat.one_pos))
  cases page with
  | loaded handler => cases hc
  | loading path pid waiters =>
    obtain ⟨hkey, e, he, hpath, -, htended⟩ := hs.entry key path pid waiters hk
    subst hkey
    subst hpath
    have hpid := find_pid he
    subst hpid
    have hmem : client ∈ waiters := hc
    have href := ref_of_mem hs.unique hk
    have hcount := count_waiting_delete hs.unique href client
    have hpos : 0 < waiters.count client := List.count_pos_iff.mpr hmem
    simp only [Page.waiters] at hcount
    refine ⟨e.path, e.pid, waiters, hk, by omega, ?_, ?_⟩
    · intro key' page' hk' hc'
      by_cases hsame : s.foldcase key' = s.foldcase e.path
      · have hpage := hs.unique.eq_of_mem hk' hk hsame
        subst hpage
        exact ⟨(hs.entry key' _ _ _ hk').1, rfl⟩
      · have hother : client ∈ waiting (s.delete w.state.pages e.path) :=
          mem_waiting.mpr ⟨key', page', mem_delete.mpr ⟨hk', hsame⟩, hc'⟩
        have := List.count_pos_iff.mpr hother
        omega
    · cases hexit : e.exit with
      | none => exact .inl ⟨e, he, hexit⟩
      | some r =>
        cases r with
        | normal =>
          obtain ⟨value, hm⟩ := htended.sent (hsent e.pid e he hexit)
          refine .inr (.inl ⟨_, _, hm, ?_⟩)
          simpa [Message.Answers, State.handleInfo, State.loadFinished, href] using hmem
        | user n =>
          refine .inr (.inr ⟨.user n, htended.exit _ (fun hh => (by cases hh)) hexit, ?_⟩)
          simpa [Message.Answers, State.handleInfo, State.evaluatorExit, hs.findSome_waitersOf hk] using hmem

/-- A handler in the cache comes from an evaluator that was started under the current cookie.
As long as no evaluator exits with the reason normal before it has sent its result, every call
is attended to. -/
theorem get_handler_calls_attended (s : Site) (w : World)
    (h : Reach World.initial (World.step s) (fun _ _ => True) w) :
    (∀ key pid value, (key, .loaded (.evaluated pid value)) ∈ w.state.pages →
      ∃ e, w.find pid = some e ∧ e.cookie = w.state.cookie) ∧
    (Reach World.initial (World.step s) Sends w → ∀ client ∈ w.clients, w.Attended s client) := by
  have hgood := reach_good h
  refine ⟨hgood.origin.loaded, ?_⟩
  intro hr client hclient
  have hone : w.clients.count client = 1 := List.count_eq_one_of_mem hgood.nodup hclient
  cases hstop : w.status.isStopped with
  | true =>
    refine .inl ⟨(hgood.stopped hstop client).trans hone, ?_⟩
    intro hh
    rw [hstop] at hh
    cases hh
  | false =>
    obtain ⟨hs, hb⟩ := hgood.sound hstop
    have hbal := hb client
    rw [hone] at hbal
    by_cases hanswered : w.answered.count client = 0
    · refine .inr ⟨hanswered, hstop, ?_⟩
      by_cases hwait : (waiting w.state.pages).count client = 0
      · refine .inl ⟨?_, List.count_eq_zero.mp hwait⟩
        refine List.count_pos_iff.mp ?_
        rw [List.count_append]
        omega
      · exact .inr (hs.waits (reach_allSent hr) (by omega))
    · refine .inl ⟨by omega, fun _ => List.count_eq_zero.mp (by omega)⟩

namespace Sample

def site : Site := ⟨[], fun _ path => path, fun path => path, fun _ => false, [], id⟩

/-- Every file is there and is to be evaluated. -/
def files : Disk := ⟨fun _ => true, .ok [], .ok [], fun _ => .ok true⟩

def request : Request := ⟨"GET".toList, "/page".toList, "/page".toList, [], none, none⟩

/-- A page is requested, and its evaluator is started. -/
def started : List Action := [.call 0 request, .turn files, .spawn, .link]

end Sample

theorem get_handler_calls_attended_waiting :
    ∃ w, Reach World.initial (World.step Sample.site) Sends w ∧ w.answers = [] ∧
      w.state.pages = [("/page".toList, .loading "/page".toList 0 [0])] ∧ w.Attended Sample.site 0 := by
  have hrun : ∃ w, Reach.run (World.step Sample.site) World.initial Sample.started = .ok w ∧ w.answers = [] ∧
      w.state.pages = [("/page".toList, .loading "/page".toList 0 [0])] ∧ 0 ∈ w.clients :=
    ⟨_, rfl, rfl, rfl, List.mem_cons_self⟩
  obtain ⟨w, hw, hanswers, hpages, hclient⟩ := hrun
  have hall : Reach.Along (World.step Sample.site) Sends World.initial Sample.started :=
    ⟨fun _ h => (by cases h), fun _ h => (by cases h), fun _ h => (by cases h), fun _ h => (by cases h), trivial⟩
  have hreach := Reach.of_run _ .start hall hw
  exact ⟨w, hreach, hanswers, hpages,
    (get_handler_calls_attended Sample.site w (hreach.mono fun _ _ _ => trivial)).2 hreach 0 hclient⟩

/-- The evaluator exits with the reason normal and has not sent its result. The call
waits for a process that is gone. -/
theorem normal_exit_leaves_waiter :
    ∃ w, Reach World.initial (World.step Sample.site) (fun _ _ => True) w ∧ 0 ∈ w.clients ∧ ¬ w.Attended Sample.site 0 := by
  have hrun : ∃ w, Reach.run (World.step Sample.site) World.initial (Sample.started ++ [.die 0 .normal, .turn Sample.files]) = .ok w ∧
      0 ∈ w.clients ∧ w.answered = [] ∧ w.inbox = [] ∧ w.queued ++ w.status.clients = [] ∧
      w.state.pages = [("/page".toList, .loading "/page".toList 0 [0])] ∧
      (w.find 0).map Evaluator.exit = some (some .normal) :=
    ⟨_, rfl, List.mem_cons_self, rfl, rfl, rfl, rfl, rfl⟩
  obtain ⟨w, hw, hclient, hanswered, hinbox, hqueued, hpages, hexit⟩ := hrun
  refine ⟨w, .of_run _ .start (Reach.along_of_forall (fun _ _ => trivial) _ _) hw, hclient, ?_⟩
  intro hattended
  rcases hattended with ⟨hone, -⟩ | ⟨-, -, ⟨hmem, -⟩ | ⟨path, pid, waiters, hwaits⟩⟩
  · rw [hanswered] at hone
    cases hone
  · rw [hqueued] at hmem
    cases hmem
  · have hentry := hwaits.entry
    rw [hpages] at hentry
    cases List.mem_singleton.mp hentry
    rcases hwaits.served with ⟨e, he, halive⟩ | ⟨cookie, handler, hm, -⟩ | ⟨r, hm, -⟩
    · rw [he] at hexit
      simp [halive] at hexit
    · rw [hinbox] at hm
      cases hm
    · rw [hinbox] at hm
      cases hm

end Swish.Http.Cache
