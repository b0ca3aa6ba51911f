import Swish.Gatekeeper.Exclusion
import Swish.Lib.Acyclic

/-!
Deadlock detection, in runs where a process that waits for the answer to an enter
request makes no further request. Then a process is in one queue at most, and the chain
that deadlock? follows is the whole of what its first owner waits for.
-/

set_option autoImplicit false

namespace Swish.Gatekeeper

open Swish.Lib Relation

variable {state : List Mutex} {mutex : Mutex} {p q r : Nat}

def Mutex.waiting (mutex : Mutex) : List Nat := mutex.waiters.map From.process

/-- A process is queued on a mutex that another one owns. -/
def Waits (state : List Mutex) (p q : Nat) : Prop := ∃ x ∈ state, p ∈ x.waiting ∧ x.process = q

/-- The state with a request added to the queue of a mutex. -/
def enqueue (f : From) (mutex : Mutex) (state : List Mutex) : List Mutex :=
  { mutex with waiters := mutex.waiters ++ [f] } :: remq mutex state

theorem waits_cons {x : Mutex} : Waits (x :: state) p q ↔ p ∈ x.waiting ∧ x.process = q ∨ Waits state p q := by
  simp [Waits]

theorem waits_split (hm : mutex ∈ state) :
    Waits state p q ↔ p ∈ mutex.waiting ∧ mutex.process = q ∨ Waits (remq mutex state) p q := by
  constructor
  · intro ⟨x, hx, h⟩
    by_cases hxm : x = mutex
    · exact .inl (hxm ▸ h)
    · exact .inr ⟨x, mem_remq.mpr ⟨hx, hxm⟩, h⟩
  · intro h
    rcases h with h | ⟨x, hx, h⟩
    · exact ⟨mutex, hm, h⟩
    · exact ⟨x, (mem_remq.mp hx).1, h⟩

theorem waits_enqueue {f : From} (hm : mutex ∈ state) :
    Waits (enqueue f mutex state) p q ↔ Waits state p q ∨ p = f.process ∧ q = mutex.process := by
  rw [enqueue, waits_cons, waits_split hm]
  simp only [Mutex.waiting, List.map_append, List.map_cons, List.map_nil, List.mem_append, List.mem_singleton]
  constructor
  · intro h
    rcases h with ⟨h | h, hq⟩ | h
    · exact .inl (.inl ⟨h, hq⟩)
    · exact .inr ⟨h, hq.symm⟩
    · exact .inl (.inr h)
  · intro h
    rcases h with (⟨h, hq⟩ | h) | ⟨h, hq⟩
    · exact .inl ⟨.inl h, hq⟩
    · exact .inr h
    · exact .inl ⟨.inr h, hq.symm⟩

/-- Queues in which a process stands once, and not behind itself. -/
structure Tidy (state : List Mutex) : Prop where
  nodup : ∀ x ∈ state, x.waiting.Nodup
  single : ∀ x ∈ state, ∀ y ∈ state, ∀ p, p ∈ x.waiting → p ∈ y.waiting → x = y
  acyclic : Acyclic (Waits state)

namespace Tidy

theorem functional {q' : Nat} (h : Tidy state) (h1 : Waits state p q) (h2 : Waits state p q') : q = q' := by
  obtain ⟨x, hx, hp, rfl⟩ := h1
  obtain ⟨y, hy, hp', rfl⟩ := h2
  rw [h.single x hx y hy p hp hp']

theorem cons {x' : Mutex} (h : Tidy state) (hn : x'.waiting.Nodup)
    (ho : ∀ p ∈ x'.waiting, ∀ y ∈ state, p ∉ y.waiting) (ha : Acyclic (Waits (x' :: state))) :
    Tidy (x' :: state) := by
  refine ⟨fun x hx => ?_, fun x hx y hy p hp hp' => ?_, ha⟩
  · rcases List.mem_cons.mp hx with rfl | hx
    · exact hn
    · exact h.nodup x hx
  · rcases List.mem_cons.mp hx with rfl | hxs
    · rcases List.mem_cons.mp hy with rfl | hy
      · rfl
      · exact absurd hp' (ho p hp y hy)
    · rcases List.mem_cons.mp hy with rfl | hy
      · exact absurd hp (ho p hp' x hxs)
      · exact h.single x hxs y hy p hp hp'

theorem remq (h : Tidy state) : Tidy (remq mutex state) := by
  refine ⟨fun x hx => h.nodup x (mem_remq.mp hx).1,
    fun x hx y hy => h.single x (mem_remq.mp hx).1 y (mem_remq.mp hy).1, ?_⟩
  exact h.acyclic.mono fun a b ⟨x, hx, hw⟩ => ⟨x, (mem_remq.mp hx).1, hw⟩

/-- Who waits for a mutex waits for no other. -/
theorem others (h : Tidy state) (hm : mutex ∈ state) : ∀ p ∈ mutex.waiting, ∀ y ∈ Gatekeeper.remq mutex state,
    p ∉ y.waiting := by
  intro p hp y hy hp'
  obtain ⟨hy, hne⟩ := mem_remq.mp hy
  exact hne (h.single y hy mutex hm p hp' hp)

/-- A mutex with a new count. -/
theorem recount {x' : Mutex} (h : Tidy state) (hm : mutex ∈ state) (hw : x'.waiters = mutex.waiters)
    (hp : x'.process = mutex.process) : Tidy (x' :: Gatekeeper.remq mutex state) := by
  have hwait : x'.waiting = mutex.waiting := by simp [Mutex.waiting, hw]
  refine h.remq.cons (hwait ▸ h.nodup mutex hm) (hwait ▸ h.others hm) ?_
  refine h.acyclic.mono fun a b hab => ?_
  rw [waits_cons, hwait, hp] at hab
  exact (waits_split hm).mpr hab

theorem grant {m : Nat} (h : Tidy state) : Tidy (⟨r, p, m, 1, []⟩ :: state) := by
  refine h.cons List.nodup_nil (fun p hp => by cases hp) ?_
  refine h.acyclic.mono fun a b hab => ?_
  rcases waits_cons.mp hab with ⟨hnil, -⟩ | hab
  · cases hnil
  · exact hab

/-- The first waiter becomes the owner, and the others now wait for it. It waits for
nothing, so no cycle goes through it. -/
theorem handOver {f : From} {waiters : List From} {m : Nat} (h : Tidy state) (hm : mutex ∈ state)
    (hw : mutex.waiters = f :: waiters) :
    Tidy (⟨mutex.resource, f.process, m, 1, waiters⟩ :: Gatekeeper.remq mutex state) := by
  have hwait : mutex.waiting = f.process :: waiters.map From.process := by simp [Mutex.waiting, hw]
  have hnodup := h.nodup mutex hm
  have hothers := h.others hm
  rw [hwait] at hnodup hothers
  refine h.remq.cons (List.nodup_cons.mp hnodup).2 (fun p hp => hothers p (List.mem_cons_of_mem _ hp)) ?_
  refine h.acyclic.redirect (q := f.process) (fun a b hab => ?_) fun b hb => ?_
  · rcases waits_cons.mp hab with ⟨-, hb⟩ | hab
    · exact .inr hb.symm
    · exact .inl ((waits_split hm).mpr (.inr hab))
  · rcases waits_cons.mp hb with ⟨hself, -⟩ | ⟨y, hy, hp, -⟩
    · exact (List.nodup_cons.mp hnodup).1 hself
    · exact hothers f.process (by simp) y hy hp

theorem enqueue {f : From} (h : Tidy state) (hm : mutex ∈ state) (hf : ∀ x ∈ state, f.process ∉ x.waiting)
    (ha : Acyclic (Waits (enqueue f mutex state))) : Tidy (enqueue f mutex state) := by
  refine h.remq.cons ?_ (fun p hp => ?_) ha
  · have hnodup := h.nodup mutex hm
    have hnot := hf mutex hm
    simp only [Mutex.waiting] at hnodup hnot ⊢
    rw [List.map_append]
    exact List.Nodup.append hnodup (by simp) (by simpa using hnot)
  · simp only [Mutex.waiting, List.map_append, List.mem_append] at hp
    rcases hp with hp | hp
    · exact h.others hm p hp
    · intro y hy
      have he : p = f.process := by simpa using hp
      exact he ▸ hf y (mem_remq.mp hy).1

end Tidy

/-- The mutex that deadlock? looks at after another. -/
def follows (process : Nat) (state : List Mutex) (x y : Mutex) : Prop :=
  x.process ≠ process ∧ findWaiting x.process state = some y

theorem findWaiting_some {y : Mutex} (h : findWaiting p state = some y) : y ∈ state ∧ p ∈ y.waiting := by
  refine ⟨List.mem_of_find?_eq_some h, ?_⟩
  have hany := List.find?_some h
  simpa [Mutex.waiting] using hany

theorem findWaiting_none (h : findWaiting p state = none) : ∀ q, ¬Waits state p q := by
  intro q ⟨x, hx, hp, _⟩
  have hall := List.find?_eq_none.mp h x hx
  obtain ⟨f, hf, rfl⟩ := List.mem_map.mp hp
  exact hall (by simpa using ⟨f, hf, rfl⟩)

theorem waits_of_follows {x y : Mutex} (h : follows p state x y) : Waits state x.process y.process :=
  ⟨y, (findWaiting_some h.2).1, (findWaiting_some h.2).2, rfl⟩

/-- A bound that is used up leaves the chain of the mutexes seen. -/
theorem deadlockFuel_none {n : Nat} (hm : mutex ∈ state) (h : deadlockFuel n p mutex state = none) :
    ∃ l : List Mutex, (mutex :: l).IsChain (follows p state) ∧ (∀ x ∈ mutex :: l, x ∈ state) ∧ l.length = n := by
  induction n generalizing mutex with
  | zero => exact ⟨[], by simp, by simpa using hm, rfl⟩
  | succ n ih =>
    rw [deadlockFuel] at h
    split at h
    · cases h
    · rename_i hp
      split at h
      · cases h
      · rename_i y hy
        obtain ⟨hys, -⟩ := findWaiting_some hy
        obtain ⟨l, hl, hs, hlen⟩ := ih hys h
        refine ⟨y :: l, List.isChain_cons_cons.mpr ⟨⟨hp, hy⟩, hl⟩, fun x hx => ?_, by simp [hlen]⟩
        rcases List.mem_cons.mp hx with rfl | hx
        · exact hm
        · exact hs x hx

theorem deadlock_none (hm : mutex ∈ state) (h : deadlock p mutex state = none) :
    ∃ l : List Mutex, (mutex :: l).IsChain (follows p state) ∧ ∃ x ∈ mutex :: l, TransGen (follows p state) x x := by
  obtain ⟨l, hl, hs, hlen⟩ := deadlockFuel_none hm h
  exact ⟨l, hl, exists_cycle_of_length_lt hl hs (by rw [List.length_cons, hlen]; omega)⟩

/-- From a mutex that leads into a cycle the chain goes on for every bound. -/
theorem deadlockFuel_of_cycle {x y : Mutex} (hxy : ReflTransGen (follows p state) x y)
    (hy : TransGen (follows p state) y y) (n : Nat) : deadlockFuel n p x state = none := by
  induction n generalizing x with
  | zero => rfl
  | succ n ih =>
    obtain ⟨z, hxz, hzy⟩ : ∃ z, follows p state x z ∧ ReflTransGen (follows p state) z y := by
      rcases hxy.cases_head with rfl | hxz
      · exact TransGen.head'_iff.mp hy
      · exact hxz
    rw [deadlockFuel, if_neg hxz.1, hxz.2]
    exact ih hzy

/-- The bound of deadlock is used up exactly where deadlock? does not come to an end. -/
theorem deadlock_eq_none_iff (hm : mutex ∈ state) :
    deadlock p mutex state = none ↔ ∀ n, deadlockFuel n p mutex state = none := by
  refine ⟨fun h n => ?_, fun h => h _⟩
  obtain ⟨l, hl, x, hx, hcyc⟩ := deadlock_none hm h
  have hpath : ReflTransGen (follows p state) mutex x := by
    rcases List.mem_cons.mp hx with rfl | hx
    · exact .refl
    · have hpair : (mutex :: l).Pairwise (TransGen (follows p state)) :=
        (hl.imp fun _ _ => TransGen.single).pairwise
      exact (List.rel_of_pairwise_cons hpair hx).to_reflTransGen
  exact deadlockFuel_of_cycle hpath hcyc n

theorem deadlock_isSome (h : Tidy state) (hm : mutex ∈ state) : (deadlock p mutex state).isSome := by
  rw [Option.isSome_iff_ne_none]
  intro hnone
  obtain ⟨l, -, x, -, hx⟩ := deadlock_none hm hnone
  exact h.acyclic x.process (hx.lift Mutex.process fun a b => waits_of_follows)

theorem deadlockFuel_iff {n : Nat} {b : Bool} (h : Tidy state) (hd : deadlockFuel n p mutex state = some b) :
    b = true ↔ ReflTransGen (Waits state) mutex.process p := by
  induction n generalizing mutex with
  | zero => cases hd
  | succ n ih =>
    rw [deadlockFuel] at hd
    split at hd
    · rename_i hp
      cases hd
      simp [hp, ReflTransGen.refl]
    · rename_i hp
      split at hd
      · rename_i hw
        cases hd
        refine ⟨fun he => Bool.noConfusion he, fun hpath => ?_⟩
        rcases hpath.cases_head with he | ⟨q, hq, -⟩
        · exact absurd he hp
        · exact absurd hq (findWaiting_none hw q)
      · rename_i y hy
        have hxy : Waits state mutex.process y.process := waits_of_follows ⟨hp, hy⟩
        rw [ih hd]
        refine ⟨fun hpath => hpath.head hxy, fun hpath => ?_⟩
        rcases hpath.cases_head with he | ⟨q, hq, hpath⟩
        · exact absurd he hp
        · exact h.functional hxy hq ▸ hpath

/-- The answer of deadlock? is whether the request would close a cycle. -/
theorem deadlock_iff {f : From} {b : Bool} (h : Tidy state) (hm : mutex ∈ state)
    (hd : deadlock f.process mutex state = some b) : b = true ↔ ¬Acyclic (Waits (enqueue f mutex state)) := by
  rw [deadlockFuel_iff h hd, h.acyclic.add_iff fun a b => waits_enqueue hm, not_not]

def Request.isEnter : Request → Bool
  | .enter _ => true
  | .leave _ => false

/-- The calls among the messages. -/
def calls (inbox : List Message) : List (From × Request) :=
  inbox.filterMap fun
    | .call f request => some (f, request)
    | .down _ => none

@[simp] theorem calls_append (xs ys : List Message) : calls (xs ++ ys) = calls xs ++ calls ys := by
  simp [calls]

@[simp] theorem calls_down (m : Nat) : calls [.down m] = [] := rfl

theorem calls_monitor (w : World) (p : Nat) : calls (w.monitor p).inbox = calls w.inbox := by
  unfold World.monitor
  dsimp only
  split
  · simp
  · rfl

theorem calls_enterMutex (w : World) (f : From) (waiters : List From) :
    calls (enterMutex w r f waiters state).inbox = calls w.inbox := calls_monitor _ _

theorem calls_demonitorFlush (w : World) (m : Nat) : calls (w.demonitorFlush m).inbox = calls w.inbox := by
  unfold World.demonitorFlush calls
  dsimp only
  induction w.inbox with
  | nil => rfl
  | cons x rest ih =>
    cases x with
    | call f request => simpa using ih
    | down m' => by_cases hm : m' = m <;> simpa [hm] using ih

theorem calls_die (w : World) (p : Nat) : calls (w.die p).inbox = calls w.inbox := by
  unfold World.die
  simp [calls, List.filterMap_map]

/-- A process that waits makes no call, and neither does one after an enter request. -/
structure Quiet (state : List Mutex) (calls : List (From × Request)) : Prop where
  silent : ∀ x ∈ state, ∀ c ∈ calls, c.1.process ∉ x.waiting
  last : calls.Pairwise fun c d => c.2.isEnter → d.1.process ≠ c.1.process

theorem Quiet.mono {state' : List Mutex} {cs cs' : List (From × Request)} (h : Quiet state cs)
    (hw : ∀ x ∈ state', ∀ p ∈ x.waiting, ∃ y ∈ state, p ∈ y.waiting) (hs : cs'.Sublist cs) :
    Quiet state' cs' := by
  refine ⟨fun x hx c hc hp => ?_, h.last.sublist hs⟩
  obtain ⟨y, hy, hp⟩ := hw x hx _ hp
  exact h.silent y hy c (hs.subset hc) hp

theorem Quiet.call {cs : List (From × Request)} {f : From} {request : Request} (h : Quiet state cs)
    (hw : ∀ x ∈ state, f.process ∉ x.waiting)
    (hc : ∀ c ∈ cs, c.2.isEnter → f.process ≠ c.1.process) : Quiet state (cs ++ [(f, request)]) := by
  refine ⟨fun x hx c hmem => ?_, List.pairwise_append.mpr ⟨h.last, by simp, fun c hmem d hd => ?_⟩⟩
  · rcases List.mem_append.mp hmem with hmem | hmem
    · exact h.silent x hx c hmem
    · rw [List.mem_singleton.mp hmem]
      exact hw x hx
  · rw [List.mem_singleton.mp hd]
    exact hc c hmem

/-- A request is queued, and its process has made no call after it. -/
theorem Quiet.enqueue {cs : List (From × Request)} {f : From} (h : Quiet state ((f, .enter r) :: cs))
    (hm : mutex ∈ state) : Quiet (enqueue f mutex state) cs := by
  obtain ⟨hlast, hrest⟩ := List.pairwise_cons.mp h.last
  refine ⟨fun x hx c hc hp => ?_, hrest⟩
  rcases List.mem_cons.mp hx with rfl | hx
  · simp only [Mutex.waiting, List.map_append, List.mem_append] at hp
    rcases hp with hp | hp
    · exact h.silent mutex hm c (by simp [hc]) hp
    · exact hlast c hc rfl (by simpa using hp)
  · exact h.silent x (mem_remq.mp hx).1 c (by simp [hc]) hp

/-- No request is made by a process with an unanswered enter request. -/
def Blocked (w : World) : Action → Prop
  | .call p _ => ∀ x ∈ w.unanswered, x.2.isEnter → x.1.process ≠ p
  | _ => True

instance (w : World) : (a : Action) → Decidable (Blocked w a)
  | .call p _ => inferInstanceAs (Decidable (∀ x ∈ w.unanswered, x.2.isEnter → x.1.process ≠ p))
  | .handle | .die _ | .timeout _ => .isTrue trivial

structure Orderly (w : World) : Prop where
  tidy : Tidy w.state
  quiet : Quiet w.state (calls w.inbox)

theorem unanswered_of_waiting {w : World} {x : Mutex} (hx : x ∈ w.state) (hp : p ∈ x.waiting) :
    ∃ y ∈ w.unanswered, y.2.isEnter ∧ y.1.process = p := by
  obtain ⟨f, hf, rfl⟩ := List.mem_map.mp hp
  refine ⟨(f, .enter x.resource), List.mem_append_left _ ?_, rfl, rfl⟩
  exact List.mem_flatMap.mpr ⟨x, hx, List.mem_map.mpr ⟨f, hf, rfl⟩⟩

theorem leaveMutex_orderly {w : World} (ht : Tidy state) (hq : Quiet state (calls w.inbox)) (hm : mutex ∈ state) :
    Orderly (leaveMutex w mutex state) := by
  unfold leaveMutex
  dsimp only
  split
  · refine ⟨ht.remq, ?_⟩
    rw [calls_demonitorFlush]
    exact hq.mono (fun x hx p hp => ⟨x, (mem_remq.mp hx).1, hp⟩) (List.Sublist.refl _)
  · rename_i f waiters hw
    refine ⟨ht.handOver hm hw, ?_⟩
    rw [calls_enterMutex, calls_demonitorFlush]
    refine hq.mono (fun x hx p hp => ?_) (List.Sublist.refl _)
    rcases List.mem_cons.mp hx with rfl | hx
    · refine ⟨mutex, hm, ?_⟩
      simp only [Mutex.waiting, hw, List.map_cons] at hp ⊢
      exact List.mem_cons_of_mem _ hp
    · exact ⟨x, (mem_remq.mp hx).1, hp⟩

theorem step_orderly {w w' : World} {a : Action} (h : Orderly w) (ha : Blocked w a) (hs : w.step a = .ok w') :
    Orderly w' := by
  obtain ⟨ht, hq⟩ := h
  -- what is left of the calls when the server takes the first
  have hrest : ∀ {f : From} {request : Request} {rest : List Message}, w.inbox = .call f request :: rest →
      Quiet w.state (calls rest) := by
    intro f request rest hi
    refine hq.mono (fun x hx p hp => ⟨x, hx, hp⟩) ?_
    simp [hi, calls]
  have hreplace : ∀ {x' mutex : Mutex} {cs : List (From × Request)}, Quiet w.state cs → mutex ∈ w.state →
      x'.waiters = mutex.waiters → Quiet (x' :: remq mutex w.state) cs := by
    intro x' mutex cs hqs hm hw
    refine hqs.mono (fun x hx p hp => ?_) (List.Sublist.refl _)
    rcases List.mem_cons.mp hx with rfl | hx
    · exact ⟨mutex, hm, by simpa [Mutex.waiting, hw] using hp⟩
    · exact ⟨x, (mem_remq.mp hx).1, hp⟩
  cases World.steps_of_step hs with
  | call p request hp =>
    refine ⟨ht, ?_⟩
    rw [calls_append]
    refine hq.call (fun x hx hpw => ?_) fun c hc he hpc => ?_
    · obtain ⟨y, hy, hye, hyp⟩ := unanswered_of_waiting hx hpw
      exact ha y hy hye hyp
    · exact ha c (List.mem_append_right _ hc) he hpc.symm
  | granted f r rest hi hr =>
    refine ⟨ht.grant, ?_⟩
    rw [calls_enterMutex]
    refine (hrest hi).mono (fun x hx p hp => ?_) (List.Sublist.refl _)
    rcases List.mem_cons.mp hx with rfl | hx
    · cases hp
    · exact ⟨x, hx, hp⟩
  | reentered f mutex rest hi hm hp => exact ⟨ht.recount hm rfl rfl, hreplace (hrest hi) hm rfl⟩
  | deadlock f mutex rest hi hm hp hd => exact ⟨ht, hrest hi⟩
  | queued f mutex rest hi hm hp hd =>
    have hq' : Quiet w.state ((f, .enter mutex.resource) :: calls rest) := by
      simpa [hi, calls] using hq
    have hacyclic : Acyclic (Waits (enqueue f mutex w.state)) := by
      by_contra hcyc
      exact Bool.noConfusion ((deadlock_iff ht hm hd).mpr hcyc)
    exact ⟨ht.enqueue hm (fun x hx => hq'.silent x hx _ (List.mem_cons_self ..)) hacyclic, hq'.enqueue hm⟩
  | unowned f r rest hi hr => exact ⟨ht, hrest hi⟩
  | left f mutex rest hi hm hp hc => exact ⟨ht.recount hm rfl rfl, hreplace (hrest hi) hm rfl⟩
  | last f mutex rest hi hm hp hc => exact leaveMutex_orderly ht (hrest hi) hm
  | down mutex rest hi hm =>
    refine leaveMutex_orderly ht ?_ hm
    simpa [hi, calls] using hq
  | die p hp => exact ⟨ht, by rwa [calls_die]⟩
  | timeout tag hx => exact ⟨ht, hq⟩

theorem reach_orderly {w : World} (h : Reach initial World.step Blocked w) : Orderly w := by
  refine h.invariant ⟨⟨?_, ?_, fun a ha => ?_⟩, ⟨?_, List.Pairwise.nil⟩⟩ fun _ _ _ ho ha hs => step_orderly ho ha hs
  · simp [initial]
  · simp [initial]
  · obtain ⟨b, ⟨x, hx, -⟩, -⟩ := TransGen.head'_iff.mp ha
    cases hx
  · simp [initial]

/-- The server answers deadlock exactly to a request that would close a cycle as a
waiter. A request of the owner itself never waits. -/
theorem enter_answer {w : World} {f : From} {rest : List Message} (hd : Distinct w.state) (ht : Tidy w.state)
    (hi : w.inbox = .call f (.enter r) :: rest) :
    ∃ w', w.step .handle = .ok w' ∧ (w'.log = .deadlock f r :: w.log ↔
      ∃ mutex ∈ w.state, mutex.resource = r ∧ mutex.process ≠ f.process ∧
        ¬Acyclic (Waits (enqueue f mutex w.state))) := by
  simp only [World.step, hi, handleCall]
  cases hr : findResource r w.state with
  | none =>
    refine ⟨_, rfl, fun hlog => ?_, fun hx => ?_⟩
    · rw [enterMutex_log] at hlog
      simp at hlog
    · obtain ⟨mutex, hm, he, -⟩ := hx
      exact absurd he (findResource_none hr mutex hm)
  | some mutex =>
    obtain ⟨hm, rfl⟩ := findResource_some hr
    have hthe : ∀ x ∈ w.state, x.resource = mutex.resource → x = mutex := fun x hx he => hd.eq hx hm he
    dsimp only
    split
    · rename_i hp
      refine ⟨_, rfl, fun hlog => by simp [World.record] at hlog, fun hx => ?_⟩
      obtain ⟨x, hx, he, hne, -⟩ := hx
      exact absurd hp (hthe x hx he ▸ hne)
    · rename_i hp
      obtain ⟨b, hb⟩ := Option.isSome_iff_exists.mp (deadlock_isSome ht hm (p := f.process))
      have hiff := deadlock_iff ht hm hb
      rw [hb]
      cases b with
      | true =>
        refine ⟨_, rfl, ⟨fun _ => ⟨mutex, hm, rfl, hp, hiff.mp rfl⟩, fun _ => rfl⟩⟩
      | false =>
        refine ⟨_, rfl, fun hlog => by simp [World.record] at hlog, fun hx => ?_⟩
        obtain ⟨x, hx, he, -, hcyc⟩ := hx
        exact Bool.noConfusion (hiff.mpr (hthe x hx he ▸ hcyc))

theorem deadlock_detection_exact {w : World} (h : Reach initial World.step Blocked w) :
    Acyclic (Waits w.state) ∧
    (∀ p, ∀ mutex ∈ w.state, (deadlock p mutex w.state).isSome) ∧
    ∀ f r rest, w.inbox = .call f (.enter r) :: rest →
      ∃ w', w.step .handle = .ok w' ∧ (w'.log = .deadlock f r :: w.log ↔
        ∃ mutex ∈ w.state, mutex.resource = r ∧ mutex.process ≠ f.process ∧
          ¬Acyclic (Waits (enqueue f mutex w.state))) := by
  have ho := reach_orderly h
  exact ⟨ho.tidy.acyclic, fun p mutex hm => deadlock_isSome ho.tidy hm,
    fun f r rest hi => enter_answer (reach_inv h).book.distinct ho.tidy hi⟩

/-- Process 1 owns 1 and waits for 2, and process 2 owns 2 and asks for 1. -/
def crossed : List Action :=
  [.call 1 (.enter 1), .call 2 (.enter 2), .handle, .handle, .call 1 (.enter 2), .handle, .call 2 (.enter 1)]

theorem deadlock_detection_exact_crossed :
    ∃ w, Reach.run World.step initial crossed = .ok w ∧ w.inbox = [.call ⟨2, 3⟩ (.enter 1)] ∧
      Acyclic (Waits w.state) ∧ ¬Acyclic (Waits (enqueue ⟨2, 3⟩ ⟨1, 1, 0, 1, []⟩ w.state)) := by
  obtain ⟨w, hw, hin, hm, hlog⟩ : ∃ w, Reach.run World.step initial crossed = .ok w ∧
      w.inbox = [.call ⟨2, 3⟩ (.enter 1)] ∧ w.state = [⟨2, 2, 1, 1, [⟨1, 2⟩]⟩, ⟨1, 1, 0, 1, []⟩] ∧
      (w.step .handle).toOption.map (·.log) = some (.deadlock ⟨2, 3⟩ 1 :: w.log) :=
    ⟨_, rfl, rfl, rfl, rfl⟩
  obtain ⟨hacyclic, -, hanswer⟩ := deadlock_detection_exact (.of_run crossed .start (by decide) hw)
  obtain ⟨w', hs, hiff⟩ := hanswer ⟨2, 3⟩ 1 [] hin
  rw [hs] at hlog
  obtain ⟨mutex, hmem, hr, -, hcyc⟩ := hiff.mp (by simpa [Except.toOption] using hlog)
  rw [hm] at hmem
  have he : mutex = ⟨1, 1, 0, 1, []⟩ := by
    rcases List.mem_cons.mp hmem with rfl | hmem
    · cases hr
    · exact List.mem_singleton.mp hmem
  exact ⟨w, hw, hin, hacyclic, he ▸ hcyc⟩

end Swish.Gatekeeper
