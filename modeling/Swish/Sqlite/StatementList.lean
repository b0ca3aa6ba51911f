import Swish.Lib.Chain
import Swish.Lib.Refine

/-!
The statements of a connection in sqlite.c: a doubly linked list that prepare_worker
adds to, osi_finalize_statement takes from and close_worker empties.
-/

set_option autoImplicit false

namespace Swish.Sqlite

open Swish.Lib

variable {σ : Type}

/-- statement_t. A null stmt is none, and database says whether that pointer is not null. -/
structure Statement (σ : Type) where
  stmt : Option σ
  database : Bool
  prev : Option Nat
  next : Option Nat

/-- The memory of the statements, the field statement of database_t, and how often memory was allocated. -/
structure Statements (σ : Type) where
  heap : Nat → Option (Statement σ)
  statement : Option Nat
  allocated : Nat

/-- A write through a pointer; nothing if it points to no memory. -/
def write (heap : Nat → Option (Statement σ)) (p : Nat) (f : Statement σ → Statement σ) :
    Option (Nat → Option (Statement σ)) :=
  (heap p).map fun s => Function.update heap p (some (f s))

namespace Statements

/-- The part of prepare_worker after sqlite3_prepare_v2, with the pointer that malloc returns. The result is what is
passed to sqlite3_finalize. -/
def prepareWorker (d : Statements σ) (stmt : σ) : Option Nat → Option (List σ × Statements σ)
  | none => some ([stmt], d)
  | some p =>
    if (d.heap p).isSome then none
    else
      let heap := Function.update d.heap p (some ⟨some stmt, true, none, d.statement⟩)
      match d.statement with
      | none => some ([], ⟨heap, some p, d.allocated + 1⟩)
      | some r => (write heap r fun s => { s with prev := some p }).map fun heap => ([], ⟨heap, some p, d.allocated + 1⟩)

/-- osi_finalize_statement, of a connection that is not busy. -/
def osiFinalizeStatement (d : Statements σ) (p : Nat) : Option (List σ × Statements σ) :=
  (d.heap p).bind fun s =>
    if s.database then
      let unlinked := match s.prev with
        | some q => (write d.heap q fun t => { t with next := s.next }).map fun heap => (heap, d.statement)
        | none => some (d.heap, s.next)
      unlinked.bind fun u =>
        let heap := match s.next with
          | some r => write u.1 r fun t => { t with prev := s.prev }
          | none => some u.1
        heap.map fun heap => (s.stmt.toList, ⟨Function.update heap p none, u.2, d.allocated⟩)
    else some ([], { d with heap := Function.update d.heap p none })

/-- The loop of close_worker, as often as memory can have been allocated. -/
def closeLoop : Nat → Statements σ → Option (List σ × Statements σ)
  | 0, _ => none
  | fuel + 1, d =>
    match d.statement with
    | none => some ([], d)
    | some p => (d.heap p).bind fun s =>
      (closeLoop fuel { d with heap := Function.update d.heap p (some ⟨none, false, none, none⟩), statement := s.next }).map
        fun r => (s.stmt.toList ++ r.1, r.2)

def closeWorker (d : Statements σ) : Option (List σ × Statements σ) := closeLoop (d.allocated + 1) d

inductive Op (σ : Type) where
  | prepare (stmt : σ) (malloc : Option Nat)
  | finalize (p : Nat)
  | close

def step (d : Statements σ) : Op σ → Option (List σ × Statements σ)
  | .prepare stmt malloc => d.prepareWorker stmt malloc
  | .finalize p => d.osiFinalizeStatement p
  | .close => d.closeWorker

/-- As open_cb makes it. -/
def initial : Statements σ := ⟨fun _ => none, none, 0⟩

end Statements

/-! What the list is for. -/

/-- The open statements with their pointers, the newest first, and the pointers of statements that the closing of their
connection has finalized. -/
structure Handles (σ : Type) where
  live : List (Nat × σ)
  orphans : List Nat

namespace Handles

/-- Each call, for pointers that are in use as the call expects it. -/
def step (h : Handles σ) : Statements.Op σ → Option (List σ × Handles σ)
  | .prepare stmt none => some ([stmt], h)
  | .prepare stmt (some p) =>
    if p ∈ h.live.map Prod.fst ∨ p ∈ h.orphans then none else some ([], { h with live := (p, stmt) :: h.live })
  | .finalize p =>
    if p ∈ h.live.map Prod.fst then
      some ((h.live.filter fun x => x.1 = p).map Prod.snd, { h with live := h.live.filter fun x => x.1 ≠ p })
    else if p ∈ h.orphans then some ([], { h with orphans := h.orphans.filter fun q => q ≠ p })
    else none
  | .close => some (h.live.map Prod.snd, ⟨[], h.live.map Prod.fst ++ h.orphans⟩)

end Handles

/-- The memory holds the handles. -/
structure Holds (d : Statements σ) (h : Handles σ) : Prop where
  chain : IsChain (fun p => (d.heap p).bind Statement.next) (fun p => (d.heap p).bind Statement.prev) d.statement
    (h.live.map Prod.fst)
  live : ∀ x ∈ h.live, ∃ prev next, d.heap x.1 = some ⟨some x.2, true, prev, next⟩
  orphans : ∀ p ∈ h.orphans, d.heap p = some ⟨none, false, none, none⟩
  free : ∀ p, p ∉ h.live.map Prod.fst → p ∉ h.orphans → d.heap p = none
  count : h.live.length ≤ d.allocated

variable {d : Statements σ} {h : Handles σ}

theorem Holds.initial : Holds (Statements.initial : Statements σ) ⟨[], []⟩ where
  chain := ⟨rfl, ⟨nofun, nofun⟩, List.nodup_nil⟩
  live := nofun
  orphans := nofun
  free _ _ _ := rfl
  count := Nat.zero_le _

theorem Holds.isSome (hd : Holds d h) (p : Nat) : (d.heap p).isSome ↔ p ∈ h.live.map Prod.fst ∨ p ∈ h.orphans := by
  constructor
  · intro hp
    by_contra hno
    rw [hd.free p (fun hl => hno (.inl hl)) fun ho => hno (.inr ho)] at hp
    cases hp
  · rintro (hp | hp)
    · obtain ⟨x, hx, rfl⟩ := List.mem_map.mp hp
      obtain ⟨prev, next, hx⟩ := hd.live x hx
      rw [hx]
      rfl
    · rw [hd.orphans p hp]
      rfl

theorem Holds.apart (hd : Holds d h) {x : Nat × σ} (hx : x ∈ h.live) : x.1 ∉ h.orphans := by
  intro ho
  obtain ⟨prev, next, hlive⟩ := hd.live x hx
  rw [hd.orphans x.1 ho] at hlive
  cases hlive

/-- The first statement is in the memory. -/
theorem Holds.head (hd : Holds d h) {r : Nat} (hr : d.statement = some r) : ∃ x, x ∈ h.live ∧ x.1 = r := by
  have hhead := hd.chain.head
  rw [hr] at hhead
  cases hl : h.live with
  | nil => simp [hl] at hhead
  | cons x xs => exact ⟨x, by simp, by simpa [hl] using hhead.symm⟩

/-- A write through a pointer that may be null. -/
def patch (o : Option Nat) (f : Statement σ → Statement σ) (heap : Nat → Option (Statement σ)) (z : Nat) :
    Option (Statement σ) :=
  if o = some z then (heap z).map f else heap z

theorem write_eq {heap : Nat → Option (Statement σ)} {q : Nat} (f : Statement σ → Statement σ) (hq : (heap q).isSome) :
    write heap q f = some (patch (some q) f heap) := by
  obtain ⟨s, hs⟩ := Option.isSome_iff_exists.mp hq
  rw [write, hs, Option.map_some]
  congr 1
  funext z
  rw [patch, Function.update_apply]
  by_cases hz : z = q
  · rw [if_pos hz, if_pos (by rw [hz]), hz, hs, Option.map_some]
  · rw [if_neg hz, if_neg (by simpa [eq_comm] using hz)]

theorem patch_none (f : Statement σ → Statement σ) (heap : Nat → Option (Statement σ)) : patch none f heap = heap := by
  funext z
  simp [patch]

theorem prepareWorker_eq (hd : Holds d h) (stmt : σ) {p : Nat} (hp : ¬ (d.heap p).isSome) :
    d.prepareWorker stmt (some p) = some ([], ⟨patch d.statement (fun s => { s with prev := some p })
      (Function.update d.heap p (some ⟨some stmt, true, none, d.statement⟩)), some p, d.allocated + 1⟩) := by
  rw [Statements.prepareWorker, if_neg hp]
  cases hr : d.statement with
  | none => simp [patch_none]
  | some r =>
    obtain ⟨x, hx, rfl⟩ := hd.head hr
    have hlive := (hd.isSome x.1).mpr (.inl (List.mem_map_of_mem hx))
    have hne : x.1 ≠ p := fun he => hp (he ▸ hlive)
    have hsome : (Function.update d.heap p (some ⟨some stmt, true, none, some x.1⟩) x.1).isSome := by
      rwa [Function.update_of_ne hne]
    simp only [write_eq _ hsome, Option.map_some]

theorem prepare_holds (hd : Holds d h) (stmt : σ) (malloc : Option Nat) :
    Option.Rel (Same Holds) (d.prepareWorker stmt malloc) (h.step (.prepare stmt malloc)) := by
  cases malloc with
  | none => exact .some ⟨rfl, hd⟩
  | some p =>
    rw [Handles.step]
    by_cases hp : p ∈ h.live.map Prod.fst ∨ p ∈ h.orphans
    · rw [if_pos hp, Statements.prepareWorker, if_pos ((hd.isSome p).mpr hp)]
      exact .none
    · rw [if_neg hp, prepareWorker_eq hd stmt (mt (hd.isSome p).mp hp)]
      have hnot : p ∉ h.live.map Prod.fst ∧ p ∉ h.orphans := not_or.mp hp
      have hhead : d.statement ≠ some p := by
        intro hr
        obtain ⟨x, hx, rfl⟩ := hd.head hr
        exact hnot.1 (List.mem_map_of_mem hx)
      refine .some ⟨rfl, ?_, ?_, ?_, ?_, ?_⟩
      · have hsome : ∀ y, d.statement = some y → ∃ s, d.heap y = some s := by
          intro y hy
          obtain ⟨x, hx, rfl⟩ := hd.head hy
          exact Option.isSome_iff_exists.mp ((hd.isSome x.1).mpr (.inl (List.mem_map_of_mem hx)))
        refine hd.chain.push hnot.1 ?_ ?_ ?_ ?_ ?_
        · simp [patch, hhead]
        · simp [patch, hhead]
        · intro y hy
          obtain ⟨s, hs⟩ := hsome y hy
          have hne : y ≠ p := fun he => hhead (he ▸ hy)
          simp [patch, hy, hne, hs]
        · intro z hz
          simp only [patch, Function.update_of_ne hz]
          split
          · simp only [Option.bind_map, Function.comp_def]
          · rfl
        · intro z hz hz'
          simp [patch, hz, hz']
      · intro x hx
        rcases List.mem_cons.mp hx with rfl | hx
        · exact ⟨none, d.statement, by simp [patch, hhead]⟩
        · have hne : x.1 ≠ p := fun he => hnot.1 (he ▸ List.mem_map_of_mem hx)
          obtain ⟨prev, next, hs⟩ := hd.live x hx
          simp only [patch, Function.update_of_ne hne, hs, Option.map_some]
          split
          · exact ⟨_, _, rfl⟩
          · exact ⟨_, _, rfl⟩
      · intro q hq
        have hne : q ≠ p := fun he => hnot.2 (he ▸ hq)
        have hfirst : d.statement ≠ some q := by
          intro hr
          obtain ⟨x, hx, rfl⟩ := hd.head hr
          exact hd.apart hx hq
        simp [patch, hne, hfirst, hd.orphans q hq]
      · intro z hz hz'
        have hne : z ≠ p := by
          rintro rfl
          simp at hz
        have hnone : d.heap z = none := hd.free z (fun hl => hz (by simp [hl])) hz'
        simp [patch, hne, hnone]
      · simpa using hd.count

/-- The pointers of a statement of the list. -/
theorem Holds.pointers (hd : Holds d h) {xs ys : List (Nat × σ)} {x : Nat × σ} (hl : h.live = xs ++ x :: ys) :
    d.heap x.1 = some ⟨some x.2, true, (xs.map Prod.fst).getLast?, (ys.map Prod.fst).head?⟩ := by
  obtain ⟨prev, next, hs⟩ := hd.live x (by simp [hl])
  have hpath := hd.chain.path
  rw [hl, List.map_append, List.map_cons, Path.append] at hpath
  have hlast := hpath.1.last
  have hfirst := hpath.2.first
  simp only [hs, Option.bind_some, Option.or_none] at hlast hfirst
  rw [hs, hlast, hfirst]

theorem finalize_eq (hd : Holds d h) {xs ys : List (Nat × σ)} {x : Nat × σ} (hl : h.live = xs ++ x :: ys)
    {prev next : Option Nat} (hprev : prev = (xs.map Prod.fst).getLast?) (hnext : next = (ys.map Prod.fst).head?) :
    d.osiFinalizeStatement x.1 = some ([x.2], ⟨Function.update (patch next (fun t => { t with prev := prev })
      (patch prev (fun t => { t with next := next }) d.heap)) x.1 none, if prev = none then next else d.statement,
        d.allocated⟩) := by
  have hs := hd.pointers hl
  rw [← hprev, ← hnext] at hs
  have hmem : ∀ q, prev = some q ∨ next = some q → (d.heap q).isSome := by
    intro q hq
    refine (hd.isSome q).mpr (.inl ?_)
    rw [hl, List.map_append, List.map_cons]
    rcases hq with hq | hq
    · have := List.mem_of_getLast? (hprev ▸ hq)
      simp only [List.mem_append]
      exact .inl this
    · have := List.mem_of_head? (hnext ▸ hq)
      simp only [List.mem_append, List.mem_cons]
      exact .inr (.inr this)
  have hpatch : ∀ q, next = some q → (patch prev (fun t => { t with next := next }) d.heap q).isSome := by
    intro q hq
    have hq := hmem q (.inr hq)
    unfold patch
    split <;> simpa using hq
  rw [Statements.osiFinalizeStatement, hs]
  cases prev with
  | none =>
    cases next with
    | none => simp [patch_none]
    | some r =>
      have hr := hpatch r rfl
      simp only [patch_none] at hr ⊢
      simp [write_eq _ hr]
  | some q =>
    have hq := hmem q (.inl rfl)
    cases next with
    | none => simp [write_eq _ hq, patch_none]
    | some r => simp [write_eq _ hq, write_eq _ (hpatch r rfl)]

theorem filter_split {xs ys : List (Nat × σ)} {x : Nat × σ} (hnodup : ((xs ++ x :: ys).map Prod.fst).Nodup) :
    (xs ++ x :: ys).filter (fun y => y.1 = x.1) = [x] ∧ (xs ++ x :: ys).filter (fun y => y.1 ≠ x.1) = xs ++ ys := by
  have hxs : ∀ y ∈ xs ++ ys, y.1 ≠ x.1 := by
    intro y hy heq
    rw [List.map_append, List.map_cons] at hnodup
    refine (List.nodup_cons.mp (List.perm_middle.nodup_iff.mp hnodup)).1 ?_
    rw [← List.map_append, ← heq]
    exact List.mem_map_of_mem hy
  have hfront : ∀ y ∈ xs, y.1 ≠ x.1 := fun y hy => hxs y (List.mem_append_left _ hy)
  have hback : ∀ y ∈ ys, y.1 ≠ x.1 := fun y hy => hxs y (List.mem_append_right _ hy)
  constructor
  · rw [List.filter_append, List.filter_cons_of_pos (by simp), List.filter_eq_nil_iff.mpr (by simpa using hfront),
      List.filter_eq_nil_iff.mpr (by simpa using hback), List.nil_append]
  · rw [List.filter_append, List.filter_cons_of_neg (by simp), List.filter_eq_self.mpr (by simpa using hfront),
      List.filter_eq_self.mpr (by simpa using hback)]

theorem finalize_holds (hd : Holds d h) (p : Nat) :
    Option.Rel (Same Holds) (d.osiFinalizeStatement p) (h.step (.finalize p)) := by
  rw [Handles.step]
  by_cases hp : p ∈ h.live.map Prod.fst
  · obtain ⟨x, hx, rfl⟩ := List.mem_map.mp hp
    obtain ⟨xs, ys, hl⟩ := List.append_of_mem hx
    have hnodup := hd.chain.nodup
    have hchain := hd.chain
    have hs := hd.pointers hl
    obtain ⟨prev, hprev⟩ : ∃ prev, prev = (xs.map Prod.fst).getLast? := ⟨_, rfl⟩
    obtain ⟨next, hnext⟩ : ∃ next, next = (ys.map Prod.fst).head? := ⟨_, rfl⟩
    rw [← hprev, ← hnext] at hs
    rw [hl] at hnodup
    obtain ⟨hsame, hother⟩ := filter_split hnodup
    rw [if_pos hp, finalize_eq hd hl hprev hnext, hl, hsame, hother]
    have hne : ∀ y ∈ xs ++ ys, y.1 ≠ x.1 := by
      intro y hy
      rw [← hother] at hy
      simpa using (List.mem_filter.mp hy).2
    have hmem : ∀ y ∈ xs ++ ys, y ∈ h.live := by
      intro y hy
      rw [hl]
      exact (List.sublist_cons_self x ys).append_left xs |>.subset hy
    have hother : ∀ q, q ∉ h.live.map Prod.fst → prev ≠ some q ∧ next ≠ some q := by
      intro q hq
      rw [hl, List.map_append, List.map_cons] at hq
      refine ⟨fun he => hq ?_, fun he => hq ?_⟩
      · exact List.mem_append_left _ (List.mem_of_getLast? (hprev ▸ he))
      · exact List.mem_append_right _ (List.mem_cons_of_mem _ (List.mem_of_head? (hnext ▸ he)))
    refine .some ⟨rfl, ?_, ?_, ?_, ?_, ?_⟩
    · rw [hl, List.map_append, List.map_cons] at hchain
      rw [List.map_append]
      have hremove := hchain.remove
        (fun q => (Function.update (patch next (fun t => { t with prev := prev })
          (patch prev (fun t => { t with next := next }) d.heap)) x.1 none q).bind Statement.next)
        (fun q => (Function.update (patch next (fun t => { t with prev := prev })
          (patch prev (fun t => { t with next := next }) d.heap)) x.1 none q).bind Statement.prev)
        (fun z hz => ?_) fun z hz => ?_
      · simpa only [hs, Option.bind_some] using hremove
      · obtain ⟨y, hy, rfl⟩ := List.mem_map.mp (List.map_append ▸ hz)
        obtain ⟨p, n, hy'⟩ := hd.live y (hmem y hy)
        simp only [Function.update_of_ne (hne y hy), patch, hy', hs, Option.bind_some]
        split <;> split <;> rfl
      · obtain ⟨y, hy, rfl⟩ := List.mem_map.mp (List.map_append ▸ hz)
        obtain ⟨p, n, hy'⟩ := hd.live y (hmem y hy)
        simp only [Function.update_of_ne (hne y hy), patch, hy', hs, Option.bind_some]
        split <;> split <;> rfl
    · intro y hy
      obtain ⟨p, n, hy'⟩ := hd.live y (hmem y hy)
      simp only [Function.update_of_ne (hne y hy), patch, hy']
      split <;> split <;> exact ⟨_, _, rfl⟩
    · intro q hq
      have hnot : q ∉ h.live.map Prod.fst := by
        intro hm
        obtain ⟨y, hy, rfl⟩ := List.mem_map.mp hm
        exact hd.apart hy hq
      have hqx : q ≠ x.1 := fun he => hnot (he ▸ List.mem_map_of_mem hx)
      obtain ⟨h1, h2⟩ := hother q hnot
      simp [Function.update_of_ne hqx, patch, h1, h2, hd.orphans q hq]
    · intro z hz hz'
      by_cases hzx : z = x.1
      · simp [hzx]
      · have hnot : z ∉ h.live.map Prod.fst := by
          rw [hl, List.map_append, List.map_cons]
          simp_all
        obtain ⟨h1, h2⟩ := hother z hnot
        simp [Function.update_of_ne hzx, patch, h1, h2, hd.free z hnot hz']
    · have hcount := hd.count
      simp only [hl, List.length_append, List.length_cons] at hcount ⊢
      omega
  · rw [if_neg hp]
    by_cases ho : p ∈ h.orphans
    · have hne : ∀ z ∈ h.live.map Prod.fst, z ≠ p := fun z hz he => hp (he ▸ hz)
      rw [if_pos ho, Statements.osiFinalizeStatement, hd.orphans p ho]
      refine .some ⟨rfl, ⟨hd.chain.head, ?_, hd.chain.nodup⟩, ?_, ?_, ?_, hd.count⟩
      · refine hd.chain.path.congr (fun z hz => ?_) fun z hz => ?_
        · have hz := hne z (by simpa using hz)
          simp [hz]
        · have hz := hne z (by simpa using hz)
          simp [hz]
      · intro y hy
        have hy' := hne y.1 (List.mem_map_of_mem hy)
        simpa [Function.update_of_ne hy'] using hd.live y hy
      · intro q hq
        have hq := List.mem_filter.mp hq
        have hqp : q ≠ p := by simpa using hq.2
        simpa [Function.update_of_ne hqp] using hd.orphans q hq.1
      · intro z hz hz'
        by_cases hzp : z = p
        · simp [hzp]
        · simp only [Function.update_of_ne hzp]
          exact hd.free z hz fun hzo => hz' (List.mem_filter.mpr ⟨hzo, by simpa using hzp⟩)
    · rw [if_neg ho, Statements.osiFinalizeStatement, hd.free p hp ho]
      exact .none

/-- The list by its next pointers; close_worker does not keep the others. -/
def Forward (heap : Nat → Option (Statement σ)) : Option Nat → List (Nat × σ) → Prop
  | head, [] => head = none
  | head, x :: xs =>
    head = some x.1 ∧ ∃ prev next, heap x.1 = some ⟨some x.2, true, prev, next⟩ ∧ Forward heap next xs

theorem Forward.congr {heap heap' : Nat → Option (Statement σ)} {head : Option Nat} {l : List (Nat × σ)}
    (hf : Forward heap head l) (h : ∀ x ∈ l, heap' x.1 = heap x.1) : Forward heap' head l := by
  induction l generalizing head with
  | nil => exact hf
  | cons x xs ih =>
    obtain ⟨hhead, prev, next, hx, hrest⟩ := hf
    exact ⟨hhead, prev, next, by rw [h x (by simp), hx], ih hrest fun y hy => h y (List.mem_cons_of_mem _ hy)⟩

theorem Holds.forward (hd : Holds d h) : Forward d.heap d.statement h.live := by
  have hsuffix : ∀ ys xs, h.live = xs ++ ys → Forward d.heap (ys.map Prod.fst).head? ys := by
    intro ys
    induction ys with
    | nil => intro xs _; rfl
    | cons y ys ih => exact fun xs hl => ⟨rfl, _, _, hd.pointers hl, ih (xs ++ [y]) (by simp [hl])⟩
  rw [hd.chain.head]
  exact hsuffix h.live [] rfl

theorem closeLoop_eq {l : List (Nat × σ)} {fuel : Nat} (hf : Forward d.heap d.statement l)
    (hnodup : (l.map Prod.fst).Nodup) (hfuel : l.length < fuel) :
    Statements.closeLoop fuel d = some (l.map Prod.snd, ⟨fun z => if z ∈ l.map Prod.fst then some ⟨none, false, none, none⟩
      else d.heap z, none, d.allocated⟩) := by
  induction l generalizing d fuel with
  | nil =>
    obtain ⟨n, rfl⟩ : ∃ n, fuel = n + 1 := ⟨fuel - 1, by simp at hfuel; omega⟩
    have hhead : d.statement = none := hf
    rw [Statements.closeLoop, hhead]
    simp [← hhead]
  | cons x xs ih =>
    obtain ⟨n, rfl⟩ : ∃ n, fuel = n + 1 := ⟨fuel - 1, by simp at hfuel; omega⟩
    obtain ⟨hhead, prev, next, hx, hrest⟩ := hf
    have hnot : x.1 ∉ xs.map Prod.fst := (List.nodup_cons.mp hnodup).1
    have hrest' : Forward (Function.update d.heap x.1 (some ⟨none, false, none, none⟩)) next xs :=
      hrest.congr fun y hy => Function.update_of_ne (fun he : y.1 = x.1 => hnot (he ▸ List.mem_map_of_mem hy)) _ _
    have hloop := @ih { d with heap := Function.update d.heap x.1 (some ⟨none, false, none, none⟩), statement := next } n
      hrest' (List.nodup_cons.mp hnodup).2 (by simpa using hfuel)
    rw [Statements.closeLoop, hhead]
    simp only [hx, Option.bind_some, hloop, Option.map_some, Option.toList_some, List.singleton_append, List.map_cons]
    congr 4
    funext z
    by_cases hz : z = x.1
    · simp [hz, hnot]
    · simp only [Function.update_of_ne hz, List.mem_cons, hz, false_or]

theorem close_holds (hd : Holds d h) : Option.Rel (Same Holds) d.closeWorker (h.step .close) := by
  rw [Statements.closeWorker, closeLoop_eq hd.forward hd.chain.nodup (Nat.lt_succ_of_le hd.count)]
  refine .some ⟨rfl, ⟨rfl, ⟨nofun, nofun⟩, List.nodup_nil⟩, nofun, fun q hq => ?_, fun z _ hz => ?_, Nat.zero_le _⟩
  · have hq : q ∈ h.live.map Prod.fst ∨ q ∈ h.orphans := List.mem_append.mp hq
    by_cases hl : q ∈ h.live.map Prod.fst
    · exact if_pos hl
    · exact (if_neg hl).trans (hd.orphans q (hq.resolve_left hl))
  · have hz : z ∉ h.live.map Prod.fst ∧ z ∉ h.orphans := by simpa [not_or] using hz
    exact (if_neg hz.1).trans (hd.free z hz.1 hz.2)

theorem step_refines : Refines (Holds (σ := σ)) Statements.step Handles.step := by
  intro d h op hd
  cases op with
  | prepare stmt malloc => exact prepare_holds hd stmt malloc
  | finalize p => exact finalize_holds hd p
  | close => exact close_holds hd

/-- The statements that sqlite3_prepare_v2 made. -/
def prepared : List (Statements.Op σ) → List σ
  | [] => []
  | .prepare stmt _ :: ops => stmt :: prepared ops
  | _ :: ops => prepared ops

/-- What one call finalizes is no longer open. -/
theorem step_perm {op : Statements.Op σ} {finalized : List σ} {h' : Handles σ} (hnodup : (h.live.map Prod.fst).Nodup)
    (hstep : h.step op = some (finalized, h')) :
    (prepared [op] ++ h.live.map Prod.snd).Perm (finalized ++ h'.live.map Prod.snd) ∧ (h'.live.map Prod.fst).Nodup := by
  cases op with
  | prepare stmt malloc =>
    cases malloc with
    | none =>
      cases hstep
      exact ⟨.refl _, hnodup⟩
    | some p =>
      simp only [Handles.step] at hstep
      split at hstep
      · cases hstep
      · rename_i hp
        cases hstep
        exact ⟨.refl _, List.nodup_cons.mpr ⟨(not_or.mp hp).1, hnodup⟩⟩
  | finalize p =>
    simp only [Handles.step] at hstep
    split at hstep
    · cases hstep
      refine ⟨?_, hnodup.sublist (List.filter_sublist.map _)⟩
      have hsplit := List.filter_append_perm (fun x : Nat × σ => decide (x.1 = p)) h.live
      simpa [prepared] using (hsplit.map Prod.snd).symm
    · split at hstep <;> cases hstep
      exact ⟨.refl _, hnodup⟩
  | close =>
    cases hstep
    simp [prepared]

theorem calls_perm (ops : List (Statements.Op σ)) {h : Handles σ} {finalized : List (List σ)} {h' : Handles σ}
    (hnodup : (h.live.map Prod.fst).Nodup) (hcalls : calls Handles.step h ops = some (finalized, h')) :
    (prepared ops ++ h.live.map Prod.snd).Perm (finalized.flatten ++ h'.live.map Prod.snd) := by
  induction ops generalizing h finalized with
  | nil =>
    cases hcalls
    exact .refl _
  | cons op ops ih =>
    obtain ⟨⟨first, h₁⟩, hstep, hrest⟩ := Option.bind_eq_some_iff.mp hcalls
    obtain ⟨⟨rest, h₂⟩, hlater, heq⟩ := Option.map_eq_some_iff.mp hrest
    cases heq
    obtain ⟨hperm, hnodup'⟩ := step_perm hnodup hstep
    have hops : prepared (op :: ops) = prepared [op] ++ prepared ops := by cases op <;> rfl
    rw [hops, List.flatten_cons, List.append_assoc, List.append_assoc]
    calc
      (prepared [op] ++ (prepared ops ++ h.live.map Prod.snd)).Perm (prepared ops ++ (prepared [op] ++ h.live.map Prod.snd)) :=
        List.perm_append_comm_assoc ..
      List.Perm _ (prepared ops ++ (first ++ h₁.live.map Prod.snd)) := hperm.append_left _
      List.Perm _ (first ++ (prepared ops ++ h₁.live.map Prod.snd)) := List.perm_append_comm_assoc ..
      List.Perm _ (first ++ (rest.flatten ++ h₂.live.map Prod.snd)) := (ih hnodup' hlater).append_left _

/-- The calls of a connection do what they do to a list of handles: none of them touches memory that is not allocated
unless malloc returns a pointer that is in use or a statement is finalized twice, and each prepared statement is open
or has been passed to sqlite3_finalize, once. -/
theorem statements_finalized_once (ops : List (Statements.Op σ)) :
    match calls Handles.step ⟨[], []⟩ ops with
    | none => calls Statements.step Statements.initial ops = none
    | some (finalized, h) => ∃ d, calls Statements.step Statements.initial ops = some (finalized, d) ∧ Holds d h ∧
        (prepared ops).Perm (finalized.flatten ++ h.live.map Prod.snd) := by
  have hrel := step_refines.calls ops (Holds.initial (σ := σ))
  cases hcalls : calls Handles.step (⟨[], []⟩ : Handles σ) ops with
  | none =>
    rw [hcalls] at hrel
    generalize calls Statements.step Statements.initial ops = x at hrel ⊢
    cases hrel
    rfl
  | some r =>
    obtain ⟨finalized, h⟩ := r
    rw [hcalls] at hrel
    obtain ⟨d, hd, hholds⟩ := exists_of_rel hrel
    have hperm := calls_perm ops (by simp) hcalls
    exact ⟨d, hd, hholds, by simpa using hperm⟩

end Swish.Sqlite
