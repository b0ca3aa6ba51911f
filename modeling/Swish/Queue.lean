import Mathlib.Data.List.Basic

/-!
The functional queue of queue.ss.
-/

set_option autoImplicit false

namespace Swish

/-- A queue is the constant queue:empty or a pair that has been made since. The two differ
for eq?, even if the lists of the pair are empty. -/
inductive Queue (α : Type) where
  | empty
  | pair (ins outs : List α)
  deriving DecidableEq

namespace Queue

inductive Failure where
  | empty
  | badMatch
  deriving DecidableEq

variable {α : Type}

/-- The list in which elements arrive, the last one first. -/
def ins : Queue α → List α
  | .empty => []
  | .pair ins _ => ins

def outs : Queue α → List α
  | .empty => []
  | .pair _ outs => outs

def isEmpty : Queue α → Bool
  | .empty => true
  | .pair _ _ => false

def add (x : α) (q : Queue α) : Queue α :=
  match q.ins, q.outs with
  | [y], [] => .pair [x] [y]
  | ins, outs => .pair (x :: ins) outs

def addFront (x : α) (q : Queue α) : Queue α :=
  match q.ins, q.outs with
  | [], [y] => .pair [y] [x]
  | ins, outs => .pair ins (x :: outs)

def get (q : Queue α) : Except Failure α :=
  if q.isEmpty then .error .empty
  else
    match q.ins, q.outs with
    | _, h :: _ => .ok h
    | [h], [] => .ok h
    | _, _ => .error .badMatch

def r2f : List α → Queue α
  | [] => .empty
  | [x] => .pair [] [x]
  | [x, y] => .pair [x] [y]
  | x :: y :: r => .pair [x, y] r.reverse

def drop (q : Queue α) : Except Failure (Queue α) :=
  if q.isEmpty then .error .empty
  else
    match q.ins, q.outs with
    | [_], [] => .ok .empty
    | r, [_] => .ok (r2f r)
    | r, _ :: f => .ok (.pair r f)
    | _, _ => .error .badMatch

/-- The elements, the next one to be dropped first. -/
def toList (q : Queue α) : List α := q.outs ++ q.ins.reverse

/-- A pair without elements to drop at once has one element. -/
def Valid : Queue α → Prop
  | .empty => True
  | .pair ins outs => outs = [] → ins.length = 1

variable {q : Queue α} {x : α}

@[simp] theorem toList_empty : (empty : Queue α).toList = [] := rfl

theorem toList_pair (ins outs : List α) : (pair ins outs).toList = outs ++ ins.reverse := rfl

theorem Valid.isEmpty_iff (h : q.Valid) : q.isEmpty = true ↔ q.toList = [] := by
  cases q with
  | empty => exact ⟨fun _ => rfl, fun _ => rfl⟩
  | pair ins outs =>
    refine ⟨fun he => (by cases he), ?_⟩
    intro hl
    rw [toList_pair, List.append_eq_nil_iff, List.reverse_eq_nil_iff] at hl
    have hlen := h hl.1
    rw [hl.2] at hlen
    cases hlen

theorem toList_add (x : α) (q : Queue α) : (q.add x).toList = q.toList ++ [x] := by
  unfold add
  split
  · rename_i y hin hout
    have hq : q.toList = [y] := by
      rw [toList, hin, hout]
      rfl
    rw [hq]
    rfl
  · rw [toList_pair, List.reverse_cons, ← List.append_assoc]
    rfl

theorem Valid.add (h : q.Valid) (x : α) : (q.add x).Valid := by
  unfold Queue.add
  split
  · exact fun he => (by cases he)
  · rename_i hno
    intro hout
    cases q with
    | empty => rfl
    | pair ins outs =>
      have hlen := h hout
      obtain ⟨y, hy⟩ := List.length_eq_one_iff.mp hlen
      exact absurd hout (hno y hy)

theorem r2f_spec (ls : List α) : (r2f ls).Valid ∧ (r2f ls).toList = ls.reverse := by
  unfold r2f
  split
  · exact ⟨trivial, rfl⟩
  · exact ⟨fun he => (by cases he), rfl⟩
  · exact ⟨fun he => (by cases he), rfl⟩
  · rename_i x y r hr
    refine ⟨?_, by simp [toList_pair]⟩
    intro he
    exact absurd (List.reverse_eq_nil_iff.mp he) hr

theorem Valid.get_eq (h : q.Valid) {xs : List α} (hq : q.toList = x :: xs) : q.get = .ok x := by
  cases q with
  | empty => cases hq
  | pair ins outs =>
    rw [toList_pair] at hq
    cases outs with
    | cons y outs =>
      cases hq
      rfl
    | nil =>
      obtain ⟨y, hy⟩ := List.length_eq_one_iff.mp (h rfl)
      subst hy
      cases hq
      rfl

theorem Valid.drop_eq (h : q.Valid) {xs : List α} (hq : q.toList = x :: xs) :
    ∃ q', q.drop = .ok q' ∧ q'.Valid ∧ q'.toList = xs := by
  cases q with
  | empty => cases hq
  | pair ins outs =>
    rw [toList_pair] at hq
    cases outs with
    | nil =>
      obtain ⟨y, hy⟩ := List.length_eq_one_iff.mp (h rfl)
      subst hy
      cases hq
      exact ⟨.empty, rfl, trivial, rfl⟩
    | cons y outs =>
      cases outs with
      | nil =>
        cases hq
        refine ⟨r2f ins, ?_, r2f_spec ins⟩
        cases ins with
        | nil => rfl
        | cons a ins => cases ins <;> rfl
      | cons z outs =>
        cases hq
        refine ⟨.pair ins (z :: outs), ?_, fun he => (by cases he), rfl⟩
        cases ins with
        | nil => rfl
        | cons a ins => cases ins <;> rfl

theorem toList_addFront (x : α) (q : Queue α) : (q.addFront x).toList = x :: q.toList := by
  unfold addFront
  split
  · rename_i y hin hout
    have hq : q.toList = [y] := by
      rw [toList, hin, hout]
      rfl
    rw [hq]
    rfl
  · rfl

theorem valid_addFront (x : α) (q : Queue α) : (q.addFront x).Valid := by
  unfold addFront
  split
  · exact fun he => (by cases he)
  · exact fun he => (by cases he)

theorem Valid.eq_empty_iff (h : q.Valid) : q = .empty ↔ q.toList = [] := by
  rw [← h.isEmpty_iff]
  cases q with
  | empty => exact ⟨fun _ => rfl, fun _ => rfl⟩
  | pair ins outs => exact ⟨fun he => (by cases he), fun he => (by cases he)⟩

inductive Op (α : Type) where
  | add (x : α)
  | addFront (x : α)
  | get
  | drop

/-- The queue that is there after an operation. One that throws leaves the queue as it was. -/
def Op.onQueue (q : Queue α) : Op α → Queue α
  | .add x => q.add x
  | .addFront x => q.addFront x
  | .get => q
  | .drop =>
    match q.drop with
    | .ok q' => q'
    | .error _ => q

/-- What get is for: the head of a list, or empty. -/
def head : List α → Except Failure α
  | [] => .error .empty
  | x :: _ => .ok x

def tail : List α → Except Failure (List α)
  | [] => .error .empty
  | _ :: xs => .ok xs

/-- What an operation is for, on a list. -/
def Op.onList (xs : List α) : Op α → List α
  | .add x => xs ++ [x]
  | .addFront x => x :: xs
  | .get => xs
  | .drop => xs.drop 1

theorem Valid.get_toList (h : q.Valid) : q.get = head q.toList := by
  cases hq : q.toList with
  | nil =>
    rw [h.eq_empty_iff.mpr hq]
    rfl
  | cons x xs => exact h.get_eq hq

theorem Valid.drop_toList (h : q.Valid) : q.drop.map toList = tail q.toList := by
  cases hq : q.toList with
  | nil =>
    rw [h.eq_empty_iff.mpr hq]
    rfl
  | cons x xs =>
    obtain ⟨q', hd, _, hq'⟩ := h.drop_eq hq
    rw [hd]
    exact congrArg Except.ok hq'

theorem onQueue_step (h : q.Valid) (op : Op α) :
    (op.onQueue q).Valid ∧ (op.onQueue q).toList = op.onList q.toList := by
  cases op with
  | add x => exact ⟨h.add x, toList_add x q⟩
  | addFront x => exact ⟨valid_addFront x q, toList_addFront x q⟩
  | get => exact ⟨h, rfl⟩
  | drop =>
    cases hq : q.toList with
    | nil =>
      have he := h.eq_empty_iff.mpr hq
      subst he
      exact ⟨trivial, rfl⟩
    | cons x xs =>
      obtain ⟨q', hd, hv, hq'⟩ := h.drop_eq hq
      have hon : Op.drop.onQueue q = q' := by
        simp only [Op.onQueue, hd]
      rw [hon]
      exact ⟨hv, hq'⟩

theorem onQueue_run (ops : List (Op α)) (h : q.Valid) :
    (ops.foldl Op.onQueue q).Valid ∧ (ops.foldl Op.onQueue q).toList = ops.foldl Op.onList q.toList := by
  induction ops generalizing q with
  | nil => exact ⟨h, rfl⟩
  | cons op ops ih =>
    obtain ⟨hv, hl⟩ := onQueue_step h op
    rw [List.foldl_cons, List.foldl_cons, ← hl]
    exact ih hv

/-- After any operations on queue:empty the queue is the list that the operations on a list give. -/
theorem queue_is_a_deque (ops : List (Op α)) :
    (ops.foldl Op.onQueue .empty).toList = ops.foldl Op.onList [] ∧
    (ops.foldl Op.onQueue .empty).get = head (ops.foldl Op.onList []) ∧
    (ops.foldl Op.onQueue .empty).drop.map toList = tail (ops.foldl Op.onList []) ∧
    (ops.foldl Op.onQueue .empty = .empty ↔ ops.foldl Op.onList [] = []) ∧
    ((ops.foldl Op.onQueue .empty).isEmpty = true ↔ ops.foldl Op.onList [] = []) := by
  have hempty : (empty : Queue α).Valid := trivial
  obtain ⟨hv, hl⟩ := onQueue_run ops hempty
  rw [toList_empty] at hl
  rw [← hl]
  exact ⟨rfl, hv.get_toList, hv.drop_toList, hv.eq_empty_iff, hv.isEmpty_iff⟩

end Queue

end Swish
