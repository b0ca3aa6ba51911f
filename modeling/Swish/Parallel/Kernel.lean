import Swish.GenServer.Loop
import Swish.Lib.Reach

/-!
The kernel of a parallel call and its workers. The kernel starts the workers in
the order of an index vector and learns of their ends by EXIT messages; inputs
and results share one vector.
-/

set_option autoImplicit false

namespace Swish.Parallel

open Swish.GenServer.Loop

inductive Order where
  | random | left | right
  deriving DecidableEq, Repr

/-- parallel:options. The must-be clause of start-limit is its second field. -/
structure Options where
  startLimit : Nat
  positive : 0 < startLimit
  order : Order
  /-- In milliseconds. None is infinity. -/
  timeout : Option Nat

/-- The start limit is (most-positive-fixnum). -/
def defaultOptions : Options := ⟨1152921504606846975, Nat.succ_pos _, .random, none⟩

/-- The outcomes of (random i). -/
structure Random where
  draw : Nat → Nat
  lt : ∀ i, 0 < i → draw i < i

/-- Draws that give 0 each time. -/
def lowest : Random := ⟨fun _ => 0, fun _ h => h⟩

/-- The loop lp of shuffle-fxvector!. -/
def shuffleFrom (rnd : Random) : Nat → List Nat → List Nat
  | 0, v => v
  | 1, v => v
  | i + 2, v =>
    let j := rnd.draw (i + 2)
    let t := v.getD (i + 1) 0
    shuffleFrom rnd (i + 1) ((v.set (i + 1) (v.getD j 0)).set j t)

def shuffleFxvector (rnd : Random) (v : List Nat) : List Nat :=
  shuffleFrom rnd v.length v

def buildIndexVector (rnd : Random) (len : Nat) : Order → List Nat
  | .random => shuffleFxvector rnd (List.range len)
  | .left => List.range len
  | .right => (List.range len).map fun i => len - i - 1

/-! Exit reasons. -/

def normal : Datum := .symbol (.user 0)
def shutdown : Datum := .symbol (.user 1)
def killed : Datum := .symbol (.user 2)

/-- (eq? x 'normal). -/
def isNormal : Datum → Bool
  | .symbol s => s == .user 0
  | _ => false

def isShutdown : Datum → Bool
  | .symbol s => s == .user 1
  | _ => false

/-- (eq? x 'kill). -/
def isKill : Datum → Bool
  | .symbol s => s == .user 3
  | _ => false

def unwrapFaultCondition : Datum → Datum
  | .fault _ r => r
  | d => d

/-- The reason that the links of a process get when another process kills it. -/
def extended (raw : Datum) : Datum :=
  let reason := unwrapFaultCondition raw
  if isNormal reason || isShutdown reason then raw else .fault true reason

/-- Processes as the kernel tells them apart. A worker has the number of its start. -/
inductive Pid where
  | parent
  | worker (k : Nat)
  | other (n : Nat)
  deriving DecidableEq, Repr

/-- An EXIT message. -/
structure Exit where
  pid : Pid
  raw : Datum

/-- A worker that is alive. -/
structure Worker where
  no : Nat
  index : Nat
  input : Datum
  /-- The result of f is in the vector. -/
  stored : Bool
  trapExit : Bool

/-- What the kernel meets in wait-for-any. -/
inductive Received where
  | exit (x : Exit)
  | timeout

inductive Phase where
  /-- At the head of sg. -/
  | sg
  /-- In wait-for-any, called by sg. -/
  | waiting
  | caught (err : Datum)
  /-- Cleanup kills the workers, and will then wait n times. -/
  | killing (err : Datum) (pids : List Nat) (n : Nat)
  | draining (err : Datum) (n : Nat)
  /-- $scatter/gather! is over. -/
  | done (r : Result)

structure World where
  phase : Phase
  vec : List Datum
  indexVec : List Nat
  pidHt : List Nat
  started : Nat
  expireTime : Option Nat
  now : Nat
  /-- The EXIT messages in the inbox of the kernel. -/
  inbox : List Exit
  workers : List Worker
  /-- For the specification: the indices given to workers, the values that f returned for an
  index, and what the kernel met. -/
  starts : List Nat
  returned : List (Nat × Datum)
  received : List Received

namespace World

def find (w : World) (k : Nat) : Option Worker :=
  w.workers.find? fun x => x.no == k

def send (w : World) (x : Exit) : World := { w with inbox := w.inbox ++ [x] }

/-- A worker is dead. The kernel is linked to it and traps exits. -/
def die (w : World) (k : Nat) (raw : Datum) : World :=
  { w with workers := w.workers.filter fun x => x.no != k }.send ⟨.worker k, raw⟩

/-- The exit of a process that the worker is linked to. A worker that traps exits gets a message. -/
def linked (w : World) (k : Nat) (raw : Datum) : World :=
  match w.find k with
  | none => w
  | some x => if x.trapExit || isNormal (unwrapFaultCondition raw) then w else w.die k (extended raw)

/-- (kill p raw). -/
def kill (w : World) (k : Nat) (raw : Datum) : World :=
  if isKill (unwrapFaultCondition raw) then
    match w.find k with
    | none => w
    | some _ => w.die k (extended killed)
  else w.linked k raw

/-- The match on (try (sg 0)). -/
def tried (w : World) (d : Datum) : World :=
  if d.isCatch then { w with phase := .caught d.err } else { w with phase := .done (.returned d) }

/-- An exception leaves sg. -/
def raise (w : World) (x : Datum) : World := w.tried (Result.raised x).tried

def startWork (w : World) : World :=
  let i := w.indexVec.getD w.started 0
  let v := w.vec.getD i .nil
  { w with
    workers := w.workers ++ [⟨w.started, i, v, false, false⟩]
    pidHt := w.pidHt ++ [w.started]
    starts := w.starts ++ [i] }

def sg (o : Options) (w : World) : World :=
  let len := w.vec.length
  let running := w.pidHt.length
  if w.started = len ∧ running = 0 then w.tried (.vector w.vec)
  else if w.started < len ∧ running < o.startLimit then { w.startWork with started := w.started + 1 }
  else { w with phase := .waiting }

/-- Whether (eq-hashtable-ref pid-ht pid #f). -/
def knows (w : World) : Pid → Bool
  | .worker k => w.pidHt.contains k
  | _ => false

def forget (w : World) : Pid → World
  | .worker k => { w with pidHt := w.pidHt.erase k }
  | _ => w

/-- The clause of wait-for-any with raise? true. -/
def waitedForSg (w : World) (x : Exit) : World :=
  if x.pid = .parent then w.raise x.raw.err
  else if w.knows x.pid then
    let w := w.forget x.pid
    if isNormal x.raw.reason then { w with phase := .sg } else w.raise x.raw.err
  else w

/-- The clause of wait-for-any with raise? false. -/
def waitedForCleanup (w : World) (err : Datum) (n : Nat) (x : Exit) : World :=
  if w.knows x.pid then { w.forget x.pid with phase := .draining err n } else w

/-- The message is out of the inbox. -/
def take (w : World) (x : Exit) (inbox : List Exit) : World :=
  { w with inbox := inbox, received := w.received ++ [.exit x] }

/-- The kernel goes on as far as its next call of sg, wait-for-any or kill. -/
def kernel (o : Options) (w : World) : Except Unit World :=
  match w.phase with
  | .sg => .ok (w.sg o)
  | .waiting =>
    match w.inbox with
    | [] => .error ()
    | x :: inbox => .ok ((w.take x inbox).waitedForSg x)
  | .caught err =>
    if 0 < w.pidHt.length then .ok { w with phase := .killing err w.pidHt w.pidHt.length }
    else .ok { w with phase := .done (.raised err) }
  | .killing err [] n => .ok { w with phase := .draining err n }
  | .killing err (k :: pids) n => .ok ({ w with phase := .killing err pids n }.kill k err)
  | .draining err 0 => .ok { w with phase := .done (.raised err) }
  | .draining err (n + 1) =>
    match w.inbox with
    | [] => .error ()
    | x :: inbox => .ok ((w.take x inbox).waitedForCleanup err n x)
  | .done _ => .error ()

/-- (throw 'timeout) in a receive of sg that finds no message. -/
def expire (w : World) : Except Unit World :=
  match w.phase, w.inbox, w.expireTime with
  | .waiting, [], some t =>
    if t ≤ w.now then
      .ok ({ w with received := w.received ++ [Received.timeout] }.raise (.fault true (.symbol .timeout)))
    else .error ()
  | _, _, _ => .error ()

/-- (vector-set! vec i (f v)) as f returns y. -/
def store (w : World) (x : Worker) (y : Datum) : World :=
  { w with
    vec := w.vec.set x.index y
    workers := w.workers.map fun z => if z.no = x.no then { z with stored := true } else z
    returned := w.returned ++ [(x.index, y)] }

end World

inductive Action where
  | kernel
  | expire
  | tick (elapsed : Nat)
  /-- f returns in a worker. -/
  | store (k : Nat) (y : Datum)
  /-- A worker with its result stored comes to its end. -/
  | finish (k : Nat)
  /-- f raises an exception. -/
  | raise (k : Nat) (raw : Datum)
  /-- Another process kills a worker. -/
  | kill (k : Nat) (raw : Datum)
  /-- A process that a worker is linked to exits. -/
  | linked (k : Nat) (raw : Datum)
  | trapExit (k : Nat) (on : Bool)
  /-- A process calls kill on the kernel, or is linked to it and exits. -/
  | signal (p : Pid) (raw : Datum)

def World.step (o : Options) (w : World) (a : Action) : Except Unit World :=
  match a with
  | .kernel => w.kernel o
  | .expire => w.expire
  | .tick elapsed => .ok { w with now := w.now + elapsed }
  | .store k y =>
    match w.find k with
    | some x => if x.stored then .error () else .ok (w.store x y)
    | none => .error ()
  | .finish k =>
    match w.find k with
    | some x => if x.stored then .ok (w.die k normal) else .error ()
    | none => .error ()
  | .raise k raw =>
    match w.find k with
    | some x => if x.stored then .error () else .ok (w.die k raw)
    | none => .error ()
  | .kill k raw => .ok (w.kill k raw)
  | .linked k raw => .ok (w.linked k raw)
  | .trapExit k on =>
    .ok { w with workers := w.workers.map fun z => if z.no = k then { z with trapExit := on } else z }
  | .signal p raw =>
    match p with
    | .worker k =>
      -- a worker that is alive can only use kill, and the reason kill is the end of the kernel
      if (w.find k).isNone || isKill (unwrapFaultCondition raw) then .error ()
      else .ok (w.send ⟨.worker k, raw⟩)
    | p => .ok (w.send ⟨p, raw⟩)

/-- The err that catch binds when sg raises x. -/
def raisedErr (x : Datum) : Datum := (Result.raised x).tried.err

theorem raise_eq (w : World) (x : Datum) : w.raise x = { w with phase := .caught (raisedErr x) } := by
  have hc : (Result.raised x).tried.isCatch = true := by
    cases x <;> rfl
  unfold World.raise World.tried
  rw [if_pos hc]
  rfl

/-- A process that another one kills does not exit normally. -/
theorem extended_abnormal {raw : Datum} (h : isNormal (unwrapFaultCondition raw) = false) :
    isNormal (extended raw).reason = false := by
  unfold extended
  simp only [h, Bool.false_or]
  split
  · rename_i hs
    cases raw with
    | fault k r => exact h
    | symbol s => exact h
    | vector xs => cases hs
    | _ => rfl
  · exact h

theorem linked_rec {P : World → Prop} {w : World} {k : Nat} (raw : Datum) (h : P w)
    (hd : ∀ x raw', w.find k = some x → isNormal raw'.reason = false → P (w.die k raw')) : P (w.linked k raw) := by
  unfold World.linked
  split
  · exact h
  · split
    · exact h
    · rename_i hor
      simp only [Bool.or_eq_true, not_or] at hor
      exact hd _ _ ‹_› (extended_abnormal (eq_false_of_ne_true hor.2))

theorem kill_rec {P : World → Prop} {w : World} {k : Nat} (raw : Datum) (h : P w)
    (hd : ∀ x raw', w.find k = some x → isNormal raw'.reason = false → P (w.die k raw')) : P (w.kill k raw) := by
  unfold World.kill
  split
  · split
    · exact h
    · exact hd _ _ ‹_› (extended_abnormal rfl)
  · exact linked_rec raw h hd

/-- What a step can do. -/
inductive Move (o : Options) (w : World) : Action → World → Prop where
  | finished (hp : w.phase = .sg) (hs : w.started = w.vec.length) (hpids : w.pidHt = [])
      (hc : (Datum.vector w.vec).isCatch = false) :
      Move o w .kernel { w with phase := .done (.returned (.vector w.vec)) }
  | misread (hp : w.phase = .sg) (hs : w.started = w.vec.length) (hpids : w.pidHt = [])
      (hc : (Datum.vector w.vec).isCatch = true) :
      Move o w .kernel { w with phase := .caught (Datum.vector w.vec).err }
  | start (hp : w.phase = .sg) (hs : w.started < w.vec.length) (hl : w.pidHt.length < o.startLimit) :
      Move o w .kernel { w.startWork with started := w.started + 1 }
  | wait (hp : w.phase = .sg) (hne : ¬(w.started = w.vec.length ∧ w.pidHt.length = 0))
      (hge : ¬(w.started < w.vec.length ∧ w.pidHt.length < o.startLimit)) :
      Move o w .kernel { w with phase := .waiting }
  | parentExit (x : Exit) (inbox : List Exit) (hp : w.phase = .waiting) (hi : w.inbox = x :: inbox)
      (hx : x.pid = .parent) :
      Move o w .kernel { w.take x inbox with phase := .caught (raisedErr x.raw.err) }
  | workerExit (x : Exit) (inbox : List Exit) (k : Nat) (hp : w.phase = .waiting) (hi : w.inbox = x :: inbox)
      (hx : x.pid = .worker k) (hk : k ∈ w.pidHt) (hn : isNormal x.raw.reason = true) :
      Move o w .kernel { w.take x inbox with pidHt := w.pidHt.erase k, phase := .sg }
  | workerFailed (x : Exit) (inbox : List Exit) (k : Nat) (hp : w.phase = .waiting) (hi : w.inbox = x :: inbox)
      (hx : x.pid = .worker k) (hk : k ∈ w.pidHt) (hn : isNormal x.raw.reason = false) :
      Move o w .kernel { w.take x inbox with pidHt := w.pidHt.erase k, phase := .caught (raisedErr x.raw.err) }
  | ignored (x : Exit) (inbox : List Exit) (hp : w.phase = .waiting) (hi : w.inbox = x :: inbox)
      (hx : x.pid ≠ .parent) (hk : ∀ k ∈ w.pidHt, x.pid ≠ .worker k) : Move o w .kernel (w.take x inbox)
  | clean (err : Datum) (hp : w.phase = .caught err) (hpids : w.pidHt ≠ []) :
      Move o w .kernel { w with phase := .killing err w.pidHt w.pidHt.length }
  | failed (err : Datum) (hp : w.phase = .caught err) (hpids : w.pidHt = []) :
      Move o w .kernel { w with phase := .done (.raised err) }
  | killing (err : Datum) (k : Nat) (pids : List Nat) (n : Nat) (hp : w.phase = .killing err (k :: pids) n) :
      Move o w .kernel ({ w with phase := .killing err pids n }.kill k err)
  | drain (err : Datum) (n : Nat) (hp : w.phase = .killing err [] n) :
      Move o w .kernel { w with phase := .draining err n }
  | drained (err : Datum) (hp : w.phase = .draining err 0) : Move o w .kernel { w with phase := .done (.raised err) }
  | reaped (err : Datum) (n : Nat) (x : Exit) (inbox : List Exit) (k : Nat) (hp : w.phase = .draining err (n + 1))
      (hi : w.inbox = x :: inbox) (hx : x.pid = .worker k) (hk : k ∈ w.pidHt) :
      Move o w .kernel { w.take x inbox with pidHt := w.pidHt.erase k, phase := .draining err n }
  | skipped (err : Datum) (n : Nat) (x : Exit) (inbox : List Exit) (hp : w.phase = .draining err (n + 1))
      (hi : w.inbox = x :: inbox) (hk : ∀ k ∈ w.pidHt, x.pid ≠ .worker k) : Move o w .kernel (w.take x inbox)
  | expire (hp : w.phase = .waiting) (hi : w.inbox = []) :
      Move o w .expire
        { w with
          received := w.received ++ [Received.timeout]
          phase := .caught (raisedErr (.fault true (.symbol .timeout))) }
  | tick (elapsed : Nat) : Move o w (.tick elapsed) { w with now := w.now + elapsed }
  | store (k : Nat) (y : Datum) (x : Worker) (hf : w.find k = some x) (hs : x.stored = false) :
      Move o w (.store k y) (w.store x y)
  | finish (k : Nat) (x : Worker) (hf : w.find k = some x) (hs : x.stored = true) :
      Move o w (.finish k) (w.die k normal)
  | raise (k : Nat) (raw : Datum) (x : Worker) (hf : w.find k = some x) (hs : x.stored = false) :
      Move o w (.raise k raw) (w.die k raw)
  | kill (k : Nat) (raw : Datum) : Move o w (.kill k raw) (w.kill k raw)
  | linked (k : Nat) (raw : Datum) : Move o w (.linked k raw) (w.linked k raw)
  | trapExit (k : Nat) (on : Bool) :
      Move o w (.trapExit k on)
        { w with workers := w.workers.map fun z => if z.no = k then { z with trapExit := on } else z }
  | signal (p : Pid) (raw : Datum) : Move o w (.signal p raw) (w.send ⟨p, raw⟩)

variable {o : Options} {w w' : World}

theorem knows_iff {p : Pid} : w.knows p = true ↔ ∃ k, p = .worker k ∧ k ∈ w.pidHt := by
  cases p with
  | worker k => simp [World.knows]
  | parent => simp [World.knows]
  | other n => simp [World.knows]

theorem sg_move (hp : w.phase = .sg) : Move o w .kernel (w.sg o) := by
  unfold World.sg
  simp only
  split
  · rename_i hend
    have hpids := List.eq_nil_of_length_eq_zero hend.2
    unfold World.tried
    split
    · exact .misread hp hend.1 hpids ‹_›
    · rename_i hc
      exact .finished hp hend.1 hpids (eq_false_of_ne_true hc)
  · split
    · rename_i hlt
      exact .start hp hlt.1 hlt.2
    · exact .wait hp ‹_› ‹_›

theorem waitedForSg_move {x : Exit} {inbox : List Exit} (hp : w.phase = .waiting) (hi : w.inbox = x :: inbox) :
    Move o w .kernel ((w.take x inbox).waitedForSg x) := by
  unfold World.waitedForSg
  split
  · rw [raise_eq]
    exact .parentExit x inbox hp hi ‹_›
  · rename_i hx
    split
    · rename_i hknows
      obtain ⟨k, hk, hmem⟩ := knows_iff.mp hknows
      simp only [hk, World.forget]
      split
      · exact .workerExit x inbox k hp hi hk hmem ‹_›
      · rename_i hn
        rw [raise_eq]
        exact .workerFailed x inbox k hp hi hk hmem (eq_false_of_ne_true hn)
    · rename_i hknows
      exact .ignored x inbox hp hi hx fun k hk heq => hknows (knows_iff.mpr ⟨k, heq, hk⟩)

theorem waitedForCleanup_move {err : Datum} {n : Nat} {x : Exit} {inbox : List Exit}
    (hp : w.phase = .draining err (n + 1)) (hi : w.inbox = x :: inbox) :
    Move o w .kernel ((w.take x inbox).waitedForCleanup err n x) := by
  unfold World.waitedForCleanup
  split
  · rename_i hknows
    obtain ⟨k, hk, hmem⟩ := knows_iff.mp hknows
    simp only [hk, World.forget]
    exact .reaped err n x inbox k hp hi hk hmem
  · rename_i hknows
    exact .skipped err n x inbox hp hi fun k hk heq => hknows (knows_iff.mpr ⟨k, heq, hk⟩)

theorem kernel_move (h : w.kernel o = .ok w') : Move o w .kernel w' := by
  unfold World.kernel at h
  split at h
  · cases h
    exact sg_move ‹_›
  · split at h
    · cases h
    · cases h
      exact waitedForSg_move ‹_› ‹_›
  · split at h
    · rename_i hpos
      cases h
      exact .clean _ ‹_› (List.ne_nil_of_length_pos hpos)
    · rename_i hpos
      cases h
      exact .failed _ ‹_› (List.eq_nil_of_length_eq_zero (by omega))
  · cases h
    exact .drain _ _ ‹_›
  · cases h
    exact .killing _ _ _ _ ‹_›
  · cases h
    exact .drained _ ‹_›
  · split at h
    · cases h
    · cases h
      exact waitedForCleanup_move ‹_› ‹_›
  · cases h

theorem step_move {a : Action} (h : w.step o a = .ok w') : Move o w a w' := by
  cases a with
  | kernel => exact kernel_move h
  | expire =>
    simp only [World.step, World.expire] at h
    split at h
    · split at h
      · cases h
        rw [raise_eq]
        exact .expire ‹_› ‹_›
      · cases h
    · cases h
  | tick elapsed =>
    cases h
    exact .tick elapsed
  | store k y =>
    simp only [World.step] at h
    split at h
    · split at h
      · cases h
      · rename_i hs
        cases h
        exact .store k y _ ‹_› (eq_false_of_ne_true hs)
    · cases h
  | finish k =>
    simp only [World.step] at h
    split at h
    · split at h
      · cases h
        exact .finish k _ ‹_› ‹_›
      · cases h
    · cases h
  | raise k raw =>
    simp only [World.step] at h
    split at h
    · split at h
      · cases h
      · rename_i hs
        cases h
        exact .raise k raw _ ‹_› (eq_false_of_ne_true hs)
    · cases h
  | kill k raw =>
    cases h
    exact .kill k raw
  | linked k raw =>
    cases h
    exact .linked k raw
  | trapExit k on =>
    cases h
    exact .trapExit k on
  | signal p raw =>
    simp only [World.step] at h
    split at h
    · split at h
      · cases h
      · cases h
        exact .signal _ raw
    · cases h
      exact .signal p raw

/-- The kernel at its first call of sg. -/
def World.initial (o : Options) (rnd : Random) (now : Nat) (vec : List Datum) : World :=
  { phase := .sg
    vec := vec
    indexVec := buildIndexVector rnd vec.length o.order
    pidHt := []
    started := 0
    expireTime := o.timeout.map (now + ·)
    now := now
    inbox := []
    workers := []
    starts := []
    returned := []
    received := [] }

/-- (vector->list x). -/
def vectorToList : Datum → Datum
  | .vector xs => xs.foldr .pair .nil
  | d => d

/-- What the caller takes from its inbox. -/
inductive Taken where
  /-- (pid . (try ($scatter/gather! opt f vec))). -/
  | message (d : Datum)
  /-- The EXIT of its own parent, when it traps exits. -/
  | parentExit (raw : Datum)

/-- The receive in scatter/gather!. -/
def scatterGather (success : Datum → Datum) : Taken → Result
  | .message d => if d.isCatch then .raised d.err else .returned (success d)
  | .parentExit raw => .raised raw.err

/-- The end of $parallel-map1, which is also parallel:execute with thaw as f, for an end of the kernel. -/
def parallelMap1 (r : Result) : Result := scatterGather vectorToList (.message r.tried)

/-- The end of $parallel-vec1. -/
def parallelVec1 (r : Result) : Result := scatterGather id (.message r.tried)

end Swish.Parallel
