import Swish.Http.Request
import Swish.Lib.Reach

/-!
The gen-server http-cache of http.ss with the evaluators that it starts and the calls that
wait for it. Processes and calls are numbers.
-/

set_option autoImplicit false

namespace Swish.Http.Cache

abbrev Path := List Char

/-- An exit reason, without the fault condition around it. -/
inductive Reason where
  | normal
  | user (n : Nat)
  deriving DecidableEq

inductive Handler where
  /-- make-static-file-handler. -/
  | file (path : Path)
  | redirect (location : List Char)
  | invalidMethod (method path : List Char)
  /-- What eval-file returns in an evaluator. -/
  | evaluated (pid value : Nat)
  deriving DecidableEq

inductive Page where
  | loaded (handler : Handler)
  | loading (path : Path) (pid : Nat) (waiters : List Nat)
  deriving DecidableEq

/-- The functions on paths, and the options of the server. -/
structure Site where
  rootDir : Path
  pathCombine : Path → Path → Path
  pathExtension : Path → List Char
  directorySeparator : Char → Bool
  fileSearchExtensions : List (List Char)
  /-- What string-ci=? compares. -/
  foldcase : Path → Path

/-- The files as the server finds them in one turn. -/
structure Disk where
  regularFile : Path → Bool
  /-- The directories below root-dir, the last one first. -/
  directories : Except Reason (List Path)
  mimeTypes : Except Reason (List (List Char × List Char))
  /-- Whether file-transform returns a procedure. -/
  fileTransform : Path → Except Reason Bool

/-- The tuple <http-cache>. -/
structure State where
  cookie : Nat
  mimeTypes : Option (List (List Char × List Char))
  pages : List (Path × Page)
  watchers : List Path

inductive Answer where
  | handler (h : Option Handler)
  | mediaType (type : List Char)
  | error (r : Reason)
  | notFound
  /-- The monitor of gen-server:call sees the end of the server. -/
  | down (r : Reason)
  deriving DecidableEq

/-! The table of pages, which ignores the case of its keys. -/

def Site.same (s : Site) (path : Path) (x : Path × Page) : Bool := s.foldcase x.1 = s.foldcase path

/-- (ht:ref pages path #f). -/
def Site.ref (s : Site) (pages : List (Path × Page)) (path : Path) : Option Page := (pages.find? (s.same path)).map Prod.snd

def Site.delete (s : Site) (pages : List (Path × Page)) (path : Path) : List (Path × Page) :=
  pages.filter fun x => !s.same path x

def Site.set (s : Site) (pages : List (Path × Page)) (path : Path) (page : Page) : List (Path × Page) :=
  (path, page) :: s.delete pages path

def Site.urlToAbsPaths (s : Site) (path : Path) : List Path × Option (List Path) :=
  let path := s.pathCombine s.rootDir path
  if path.getLast?.any s.directorySeparator then
    (s.fileSearchExtensions.map fun ext => path ++ "index".toList ++ ext, none)
  else if s.pathExtension path = [] then
    (s.fileSearchExtensions.map fun ext => path ++ ext,
      some (s.fileSearchExtensions.map fun ext => path ++ "/index".toList ++ ext))
  else ([path], none)

def Site.lookupHandler (s : Site) (pages : List (Path × Page)) (paths : List Path) : Option Page :=
  paths.findSome? (s.ref pages)

/-- What handle-call does. A page that is to be evaluated needs start-evaluator. -/
inductive Turn where
  | reply (answer : Answer) (state : State)
  | noReply (state : State)
  | startEvaluator (path : Path) (state : State)
  | raise (r : Reason)

def State.loadWatchers (s : Site) (disk : Disk) (state : State) : Except Reason State :=
  match state.watchers with
  | [] => do return { state with watchers := (← disk.directories) ++ [s.rootDir] }
  | _ => .ok state

def State.getHandler (s : Site) (disk : Disk) (client : Nat) (request : Request) (state : State) : Turn :=
  let (paths, redirect) := s.urlToAbsPaths request.path
  match s.lookupHandler state.pages paths with
  | some (.loaded handler) => .reply (.handler (some handler)) state
  | some (.loading path pid waiters) =>
    .noReply { state with pages := s.set state.pages path (.loading path pid (client :: waiters)) }
  | none =>
    match state.loadWatchers s disk with
    | .error r => .raise r
    | .ok state =>
      match paths.find? disk.regularFile with
      | none =>
        if (redirect.getD []).any disk.regularFile then
          .reply (.handler (some (.redirect (request.originalPath ++ "/".toList)))) state
        else .reply (.handler none) state
      | some path =>
        match disk.fileTransform path with
        | .error r => .raise r
        | .ok true => .startEvaluator path state
        | .ok false =>
          if request.method = "GET".toList then
            .reply (.handler (some (.file path))) { state with pages := s.set state.pages path (.loaded (.file path)) }
          else .reply (.handler (some (.invalidMethod request.method request.path))) state

def State.updateMimeTypes (s : Site) (disk : Disk) (state : State) : Except Reason State :=
  match state.mimeTypes with
  | some _ => .ok state
  | none => do
    let state ← state.loadWatchers s disk
    return { state with mimeTypes := some (← disk.mimeTypes) }

def State.getMediaType (s : Site) (disk : Disk) (ext : List Char) (state : State) : Turn :=
  match state.updateMimeTypes s disk with
  | .error r => .raise r
  | .ok state =>
    match (state.mimeTypes.getD []).find? fun x => s.foldcase x.1 = s.foldcase ext with
    | none => .reply .notFound state
    | some (_, type) => .reply (.mediaType type) state

def Page.isLoaded : Page → Bool
  | .loaded _ => true
  | .loading _ _ _ => false

def State.clearCache (state : State) : State where
  cookie := if state.watchers = [] then state.cookie else state.cookie + 1
  mimeTypes := none
  pages := state.pages.filter fun x => !x.2.isLoaded
  watchers := []

inductive Message where
  | getHandler (client : Nat) (request : Request)
  | getMediaType (client : Nat) (ext : List Char)
  | pathChanged (path filename : Path)
  | loadFinished (pid : Nat) (path : Path) (cookie : Nat) (handler : Handler)
  | exit (pid : Nat) (r : Reason)
  | parentExit (r : Reason)

def State.loadFinished (s : Site) (pid : Nat) (path : Path) (cookie : Nat) (handler : Handler) (state : State) :
    List (Nat × Answer) × State :=
  match s.ref state.pages path with
  | some (.loading path loader waiters) =>
    if loader = pid then
      (waiters.map fun w => (w, .handler (some handler)),
        if state.cookie = cookie then { state with pages := s.set state.pages path (.loaded handler) }
        else { state with pages := s.delete state.pages path })
    else ([], state)
  | _ => ([], state)

/-- The waiters, if the page is being loaded by this evaluator. -/
def Page.waitersOf (pid : Nat) : Page → Option (List Nat)
  | .loading _ loader waiters => if loader = pid then some waiters else none
  | .loaded _ => none

def State.evaluatorExit (s : Site) (pid : Nat) (r : Reason) (state : State) : List (Nat × Answer) × State :=
  match state.pages.findSome? fun x => (x.2.waitersOf pid).map fun waiters => (x.1, waiters) with
  | some (key, waiters) => (waiters.map fun w => (w, .error r), { state with pages := s.delete state.pages key })
  | none => ([], state)

/-- handle-info with its replies, the timeout apart. -/
def State.handleInfo (s : Site) (state : State) : Message → List (Nat × Answer) × State
  | .pathChanged path filename =>
    ([], if path = s.rootDir ∧ filename = "mime-types".toList then { state with mimeTypes := none } else state.clearCache)
  | .loadFinished pid path cookie handler => state.loadFinished s pid path cookie handler
  | .exit _ .normal => ([], state)
  | .exit pid r => state.evaluatorExit s pid r
  | _ => ([], state)

structure Evaluator where
  pid : Nat
  path : Path
  cookie : Nat
  /-- It has sent load-finished. -/
  sent : Bool
  linked : Bool
  exit : Option Reason

def Evaluator.finish (e : Evaluator) : Evaluator := { e with sent := true }

def Evaluator.die (r : Reason) (e : Evaluator) : Evaluator := { e with exit := some r }

def Evaluator.link (e : Evaluator) : Evaluator := { e with linked := true }

inductive Status where
  | running
  /-- watcher:start-child is under way for this call. -/
  | starting (client : Nat) (path : Path)
  /-- The evaluator has been started, and is to be linked. -/
  | linking (client : Nat) (path : Path) (pid : Nat)
  | stopped (r : Reason)

structure World where
  state : State
  status : Status
  /-- The timeout that the loop waits with. -/
  timeout : Option Nat
  inbox : List Message
  evaluators : List Evaluator
  nextPid : Nat
  /-- All calls that have been made. -/
  clients : List Nat
  answers : List (Nat × Answer)

inductive Action where
  | call (client : Nat) (request : Request)
  | callMediaType (client : Nat) (ext : List Char)
  | pathChanged (path filename : Path)
  | parentExit (r : Reason)
  /-- An evaluator sends its result. -/
  | finish (pid value : Nat)
  /-- An evaluator exits. -/
  | die (pid : Nat) (r : Reason)
  | turn (disk : Disk)
  | spawn
  | link
  | startFails (r : Reason)
  | timeout
  /-- The server is killed. -/
  | killed (r : Reason)

def cacheTimeout : Nat := 5 * 60 * 1000

def World.send (w : World) (m : Message) : World := { w with inbox := w.inbox ++ [m] }

def World.answered (w : World) : List Nat := w.answers.map Prod.fst

/-- The server ends, and the monitors of the calls without an answer fire. -/
def World.stop (w : World) (r : Reason) : World :=
  { w with
    status := .stopped r
    answers := w.answers ++ (w.clients.filter fun c => c ∉ w.answered).map fun c => (c, .down r) }

def World.update (w : World) (pid : Nat) (f : Evaluator → Evaluator) : World :=
  { w with evaluators := w.evaluators.map fun e => if e.pid = pid then f e else e }

def World.find (w : World) (pid : Nat) : Option Evaluator := w.evaluators.find? fun e => e.pid = pid

def World.act (w : World) (client : Nat) : Turn → World
  | .reply answer state => { w with state := state, answers := w.answers ++ [(client, answer)] }
  | .noReply state => { w with state := state }
  | .startEvaluator path state => { w with state := state, status := .starting client path }
  | .raise r => w.stop r

def World.handle (s : Site) (disk : Disk) (w : World) : Message → World
  | .getHandler client request => w.act client (w.state.getHandler s disk client request)
  | .getMediaType client ext => w.act client (w.state.getMediaType s disk ext)
  | .parentExit r => w.stop r
  | m =>
    let (replies, state) := w.state.handleInfo s m
    { w with state := state, answers := w.answers ++ replies }

/-- The end of start-evaluator. The link to a process that is gone sends EXIT at once. -/
def World.linkEvaluator (s : Site) (w : World) (client : Nat) (path : Path) (e : Evaluator) : World :=
  let w := w.update e.pid Evaluator.link
  let w := match e.exit with
    | none => w
    | some r => w.send (.exit e.pid r)
  { w with
    state := { w.state with pages := s.set w.state.pages path (.loading path e.pid [client]) }
    status := .running }

/-- What other processes do to a server that has not stopped, and what it does itself. -/
def World.step (s : Site) (w : World) (a : Action) : Except Unit World :=
  match w.status, a with
  | .stopped _, _ => .error ()
  | _, .call client request =>
    if client ∈ w.clients then .error ()
    else .ok ({ w with clients := client :: w.clients }.send (.getHandler client request))
  | _, .callMediaType client ext =>
    if client ∈ w.clients then .error ()
    else .ok ({ w with clients := client :: w.clients }.send (.getMediaType client ext))
  | _, .pathChanged path filename => .ok (w.send (.pathChanged path filename))
  | _, .parentExit r => .ok (w.send (.parentExit r))
  | _, .finish pid value =>
    match w.find pid with
    | none => .error ()
    | some e =>
      if e.sent ∨ e.exit.isSome then .error ()
      else .ok ((w.update pid Evaluator.finish).send (.loadFinished pid e.path e.cookie (.evaluated pid value)))
  | _, .die pid r =>
    match w.find pid with
    | none => .error ()
    | some e =>
      if e.exit.isSome then .error ()
      else
        let w := w.update pid (Evaluator.die r)
        .ok (if e.linked then w.send (.exit pid r) else w)
  | _, .killed r => .ok (w.stop r)
  | .running, .turn disk =>
    match w.inbox with
    | [] => .error ()
    | m :: inbox => .ok ({ w with inbox := inbox, timeout := some cacheTimeout }.handle s disk m)
  | .running, .timeout => if w.inbox.isEmpty ∧ w.timeout.isSome then .ok (w.stop .normal) else .error ()
  | .starting client path, .spawn =>
    .ok { w with
      status := .linking client path w.nextPid
      evaluators := ⟨w.nextPid, path, w.state.cookie, false, false, none⟩ :: w.evaluators
      nextPid := w.nextPid + 1 }
  | .starting _ _, .startFails r => .ok (w.stop r)
  | .linking client path pid, .link =>
    match w.find pid with
    | none => .error ()
    | some e => .ok (w.linkEvaluator s client path e)
  | _, _ => .error ()

/-- The state after init. -/
def World.initial : World := ⟨⟨0, none, [], []⟩, .running, none, [], [], 0, [], []⟩

end Swish.Http.Cache
