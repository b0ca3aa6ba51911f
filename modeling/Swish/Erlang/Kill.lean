import Mathlib.Logic.Relation
import Swish.Erlang.Queues
import Swish.Lib.Except

/-!
A run of @kill as a sequence of small moves, so that an invariant kept by each
move is kept by the whole cascade.
-/

set_option autoImplicit false

namespace Swish.Erlang

inductive KillMove : State → State → Prop where
  | send (s : State) (p : Nat) (x : Contents) : KillMove s (s.send p x)
  | sendExit (s : State) (target p : Nat) (r : RawReason) (h : s.alive target = true) :
      KillMove s (s.sendExit target p r)
  | die (s : State) (p : Nat) (r : RawReason) (h : p ≠ s.eventLoop) : KillMove s (s.die p r)
  | links (s : State) (p : Nat) (ls : List Nat) : KillMove s (s.setLinks p ls)
  | monitors (s : State) (p : Nat) (ms : List Mon) : KillMove s (s.setMonitors p ms)

abbrev KillMoves : State → State → Prop := Relation.ReflTransGen KillMove

theorem KillMoves.invariant {I : State → Prop} (hI : ∀ s s', KillMove s s' → I s → I s')
    {s s' : State} (h : KillMoves s s') (hs : I s) : I s' := by
  induction h with
  | refl => exact hs
  | tail _ hm ih => exact hI _ _ hm ih

/-- Sending is inserting and then scheduling. -/
theorem send_cases (s : State) (p : Nat) (x : Contents) :
    (s.alive p = false ∧ s.send p x = s) ∨
      (s.alive p = true ∧ SchedOnly (s.insertMsg p x) (s.send p x)) := by
  unfold State.send
  split
  · rename_i h
    exact .inr ⟨h, SchedOnly.wake _ _⟩
  · rename_i h
    exact .inl ⟨by simpa using h, rfl⟩

theorem removeLinks_moves (s : State) (ps : List Nat) (dest : Nat) :
    KillMoves s (s.removeLinks ps dest) := by
  induction ps generalizing s with
  | nil => exact .refl
  | cons p ps ih => exact .head (.links s p _) (ih _)

theorem fireMonitor_moves (s : State) (p : Nat) (r : RawReason) (m : Mon) :
    KillMoves s (s.fireMonitor p r m) := by
  unfold State.fireMonitor
  split
  · exact .single (.monitors s m.target _)
  · exact .head (.send s m.origin _) (.single (.monitors _ m.origin _))

theorem fireMonitors_moves (s : State) (p : Nat) (r : RawReason) (ms : List Mon) :
    KillMoves s (s.fireMonitors p r ms) := by
  induction ms generalizing s with
  | nil => exact .refl
  | cons m ms ih => exact (fireMonitor_moves s p r m).trans (ih _)

theorem killLinked_moves {kill : State → Nat → RawReason → Except Halt State}
    (hk : ∀ s p r s', kill s p r = .ok s' → KillMoves s s')
    (links : List Nat) (s s' : State) (p : Nat) (reason : Reason) (raw : RawReason)
    (h : s.killLinked kill links p reason raw = .ok s') : KillMoves s s' := by
  induction links generalizing s with
  | nil =>
    simp only [State.killLinked, Except.ok.injEq] at h
    subst h
    exact .refl
  | cons l ls ih =>
    unfold State.killLinked at h
    split at h
    · exact ih s h
    · rename_i hl
      split at h
      · exact .head (.sendExit s l p raw (by simpa using hl)) (ih _ h)
      · split at h
        · exact ih s h
        · obtain ⟨t, hr, h⟩ := Lib.bind_ok h
          exact (hk s l raw t hr).trans (ih t h)

/-- The state in which the links of the dead process are visited. -/
def unlinked (s : State) (p : Nat) (r : RawReason) : State :=
  ((s.die p r).setLinks p []).removeLinks (s.pcb p).links p

/-- The end of @kill: the monitors of the dead process. -/
def fired (s : State) (p : Nat) (r : RawReason) : State :=
  (s.setMonitors p []).fireMonitors p r (s.pcb p).monitors

/-- The result of @kill when it returns, step by step. -/
theorem killFuel_succ {n : Nat} {s s' : State} {p : Nat} {raw : RawReason}
    (h : State.killFuel (n + 1) s p raw = .ok s') :
    p ≠ s.eventLoop ∧ p ≠ s.finalizer ∧ ∃ t,
      (unlinked s p (s.extendReason p raw)).killLinked (State.killFuel n) (s.pcb p).links p
        raw.unwrap (s.extendReason p raw) = .ok t ∧ s' = fired t p (s.extendReason p raw) := by
  have hlinks : ((s.die p (s.extendReason p raw)).pcb p).links = (s.pcb p).links := by
    simp [Pcb.dead]
  unfold State.killFuel at h
  split at h
  · cases h
  · rename_i h1
    split at h
    · cases h
    · rename_i h2
      refine ⟨h1, h2, ?_⟩
      simp only [hlinks] at h
      unfold unlinked
      obtain ⟨t, hr, h⟩ := Lib.bind_ok h
      cases h
      exact ⟨t, hr, rfl⟩

theorem killFuel_moves (n : Nat) (s s' : State) (p : Nat) (raw : RawReason)
    (h : State.killFuel n s p raw = .ok s') : KillMoves s s' := by
  induction n generalizing s s' p raw with
  | zero => simp [State.killFuel] at h
  | succ n ih =>
    obtain ⟨h1, _, t, ht, rfl⟩ := killFuel_succ h
    have hk := killLinked_moves (fun s p r s' => ih s s' p r) _ _ _ _ _ _ ht
    have hd := (Relation.ReflTransGen.single (KillMove.die s p (s.extendReason p raw) h1)).tail
      (.links _ p [])
    exact ((hd.trans (removeLinks_moves _ _ _)).trans hk).trans
      (.head (.monitors t p []) (fireMonitors_moves _ _ _ _))

/-- A rule for what @kill does from state to state. It is enough to look at the
EXIT messages and, for each process that dies, at what is done before its links
are visited and after. -/
theorem kill_rule {R : State → State → Prop} (refl : ∀ s, R s s)
    (trans : ∀ s t u, R s t → R t u → R s u)
    (exit : ∀ s l p r, s.alive l = true → R s (s.sendExit l p r))
    (node : ∀ s t p r, s.alive p = true → p ≠ s.eventLoop → R (unlinked s p r) t → R s (fired t p r))
    {n : Nat} {s s' : State} {p : Nat} {raw : RawReason} (ha : s.alive p = true)
    (h : State.killFuel n s p raw = .ok s') : R s s' := by
  induction n generalizing s s' p raw with
  | zero => simp [State.killFuel] at h
  | succ n ih =>
    obtain ⟨h1, _, t, ht, rfl⟩ := killFuel_succ h
    refine node s t p _ ha h1 ?_
    generalize unlinked s p (s.extendReason p raw) = u at ht
    generalize (s.pcb p).links = ls at ht
    induction ls generalizing u with
    | nil =>
      simp only [State.killLinked, Except.ok.injEq] at ht
      subst ht
      exact refl u
    | cons l ls ihl =>
      unfold State.killLinked at ht
      split at ht
      · exact ihl u ht
      · rename_i hl
        have hl : u.alive l = true := by simpa using hl
        split at ht
        · exact trans _ _ _ (exit u l p _ hl) (ihl _ ht)
        · split at ht
          · exact ihl u ht
          · obtain ⟨v, hr, ht⟩ := Lib.bind_ok ht
            exact trans _ _ _ (ih hl hr) (ihl v ht)

theorem kill_moves {s s' : State} {p : Nat} {raw : RawReason} (h : s.kill p raw = .ok s') :
    KillMoves s s' := killFuel_moves _ _ _ _ _ h

end Swish.Erlang
