import Mathlib.Data.List.Induction
import Mathlib.Data.List.Nodup

/-!
Circular doubly linked lists with a sentinel, over an arbitrary type of node
names. A heap gives every node its two pointers; the list that a heap holds
behind a sentinel is a separate, logical object.
-/

set_option autoImplicit false

namespace CircularList

structure Node (α : Type) where
  prev : Option α
  next : Option α
  deriving DecidableEq, Repr

abbrev Heap (α : Type) := α → Node α

section Shape

variable {α : Type} {h h' : Heap α} {a b s : α} {xs ys : List α}

/-- A doubly linked path from the first node through the list to the last. -/
def Linked (h : Heap α) : α → List α → α → Prop
  | a, [], b => (h a).next = some b ∧ (h b).prev = some a
  | a, x :: xs, b => ((h a).next = some x ∧ (h x).prev = some a) ∧ Linked h x xs b

structure IsRing (h : Heap α) (s : α) (xs : List α) : Prop where
  linked : Linked h s xs s
  nodup : (s :: xs).Nodup

theorem Linked.append {y : α} :
    Linked h a (xs ++ y :: ys) b ↔ Linked h a xs y ∧ Linked h y ys b := by
  induction xs generalizing a with
  | nil => simp [Linked]
  | cons x xs ih => simp [Linked, ih, and_assoc]

/-- A path uses the next pointers of its nodes but the last and the prev
pointers of its nodes but the first. -/
theorem Linked.congr (hl : Linked h a xs b)
    (hn : ∀ x ∈ a :: xs, (h' x).next = (h x).next)
    (hp : ∀ x ∈ xs ++ [b], (h' x).prev = (h x).prev) : Linked h' a xs b := by
  induction xs generalizing a with
  | nil =>
    obtain ⟨h1, h2⟩ := hl
    exact ⟨by rw [hn a (by simp)]; exact h1, by rw [hp b (by simp)]; exact h2⟩
  | cons x xs ih =>
    obtain ⟨⟨h1, h2⟩, h3⟩ := hl
    refine ⟨⟨by rw [hn a (by simp)]; exact h1, by rw [hp x (by simp)]; exact h2⟩, ?_⟩
    exact ih h3 (fun y hy => hn y (by simp_all)) (fun y hy => hp y (by simp_all))

theorem Linked.prev_mem (hl : Linked h a xs b) {x : α} (hx : x ∈ xs ++ [b]) :
    ∃ p ∈ a :: xs, (h x).prev = some p := by
  induction xs generalizing a with
  | nil => exact ⟨a, by simp, by simp_all [Linked]⟩
  | cons y xs ih =>
    obtain ⟨⟨_, h2⟩, h3⟩ := hl
    rcases List.mem_cons.mp hx with rfl | hx
    · exact ⟨a, by simp, h2⟩
    · obtain ⟨p, hp, he⟩ := ih h3 hx
      exact ⟨p, by simp_all, he⟩

theorem Linked.next_mem (hl : Linked h a xs b) {x : α} (hx : x ∈ a :: xs) :
    ∃ n ∈ xs ++ [b], (h x).next = some n := by
  induction xs generalizing a with
  | nil => exact ⟨b, by simp, by simp_all [Linked]⟩
  | cons y xs ih =>
    obtain ⟨⟨h1, _⟩, h3⟩ := hl
    rcases List.mem_cons.mp hx with rfl | hx
    · exact ⟨y, by simp, h1⟩
    · obtain ⟨n, hn, he⟩ := ih h3 hx
      exact ⟨n, by simp_all, he⟩

/-- Taking the node between two paths out of the middle. -/
theorem Linked.bypass {x p n : α} (h1 : Linked h a xs x) (h2 : Linked h x ys b)
    (hp : (h x).prev = some p) (hn : (h x).next = some n)
    (hp' : (h' p).next = some n) (hn' : (h' n).prev = some p)
    (hN : ∀ y ∈ a :: xs ++ ys, y ≠ p → (h' y).next = (h y).next)
    (hP : ∀ y ∈ xs ++ ys ++ [b], y ≠ n → (h' y).prev = (h y).prev)
    (hnd : (a :: xs).Nodup) (hnd' : (ys ++ [b]).Nodup) (hnx : n ∉ xs) (hpy : p ∉ ys) :
    Linked h' a (xs ++ ys) b := by
  induction xs generalizing a with
  | nil =>
    have ha : p = a := by simpa [hp] using h1.2
    subst ha
    cases ys with
    | nil =>
      have hb : n = b := by simpa [hn] using h2.1
      subst hb
      exact ⟨hp', hn'⟩
    | cons y ys =>
      have hy : n = y := by simpa [hn] using h2.1.1
      subst hy
      refine ⟨⟨hp', hn'⟩, h2.2.congr (fun z hz => hN z (by simp_all) ?_)
        (fun z hz => hP z (by simp_all) ?_)⟩
      · rintro rfl; exact hpy hz
      · rintro rfl; simp at hnd'; simp_all
  | cons z xs ih =>
    obtain ⟨⟨h3, h4⟩, h5⟩ := h1
    obtain ⟨q, hq, hxq⟩ := h5.prev_mem (x := x) (by simp)
    have hqp : q = p := by simpa [hp] using hxq.symm
    subst hqp
    have hap : a ≠ q := by rintro rfl; simp at hnd; simp_all
    have hzn : z ≠ n := by rintro rfl; simp at hnx
    refine ⟨⟨by rw [hN a (by simp) hap]; exact h3, by rw [hP z (by simp) hzn]; exact h4⟩, ?_⟩
    exact ih h5 (fun y hy => hN y (by simp_all)) (fun y hy => hP y (by simp_all))
      (List.Nodup.of_cons hnd) (by simp_all)

/-- Extending a path by one node in front of its end. -/
theorem Linked.insert {x p : α} (hl : Linked h a xs b) (hp : (h b).prev = some p)
    (hp' : (h' p).next = some x) (hx : (h' x).prev = some p) (hx' : (h' x).next = some b)
    (hb : (h' b).prev = some x)
    (hN : ∀ y ∈ a :: xs, y ≠ p → (h' y).next = (h y).next)
    (hP : ∀ y ∈ xs, (h' y).prev = (h y).prev)
    (hnd : (a :: xs).Nodup) : Linked h' a (xs ++ [x]) b := by
  induction xs generalizing a with
  | nil =>
    have ha : p = a := by simpa [hp] using hl.2
    subst ha
    exact ⟨⟨hp', hx⟩, hx', hb⟩
  | cons z xs ih =>
    obtain ⟨⟨h3, h4⟩, h5⟩ := hl
    obtain ⟨q, hq, hxq⟩ := h5.prev_mem (x := b) (by simp)
    have hqp : q = p := by simpa [hp] using hxq.symm
    subst hqp
    have hap : a ≠ q := by rintro rfl; simp at hnd; simp_all
    refine ⟨⟨by rw [hN a (by simp) hap]; exact h3, by rw [hP z (by simp)]; exact h4⟩, ?_⟩
    exact ih h5 (fun y hy => hN y (by simp_all)) (fun y hy => hP y (by simp_all))
      (List.Nodup.of_cons hnd)

namespace IsRing

theorem congr (hr : IsRing h s xs) (he : ∀ x ∈ s :: xs, h' x = h x) : IsRing h' s xs := by
  refine ⟨hr.linked.congr (fun x hx => by rw [he x hx]) (fun x hx => ?_), hr.nodup⟩
  rw [he x (by simp at hx ⊢; tauto)]

theorem head_next {x : α} (hr : IsRing h s (x :: xs)) : (h s).next = some x := hr.linked.1.1

theorem nil_next (hr : IsRing h s []) : (h s).next = some s := hr.linked.1

theorem prev_mem (hr : IsRing h s xs) {x : α} (hx : x ∈ s :: xs) :
    ∃ p ∈ s :: xs, (h x).prev = some p :=
  hr.linked.prev_mem (by simp at hx ⊢; tauto)

theorem next_mem (hr : IsRing h s xs) {x : α} (hx : x ∈ s :: xs) :
    ∃ n ∈ s :: xs, (h x).next = some n := by
  obtain ⟨n, hn, he⟩ := hr.linked.next_mem hx
  exact ⟨n, by simp at hn ⊢; tauto, he⟩

/-- The successor of a ring node is the next element, or the sentinel. -/
theorem next_eq {x : α} (hr : IsRing h s (xs ++ x :: ys)) :
    (h x).next = some (ys.headD s) := by
  obtain ⟨_, h2⟩ := Linked.append.mp hr.linked
  cases ys with
  | nil => simpa using h2.1
  | cons y ys => simpa using h2.1.1

theorem sentinel_next (hr : IsRing h s xs) : (h s).next = some (xs.headD s) := by
  cases xs with
  | nil => exact hr.nil_next
  | cons x xs => exact hr.head_next

end IsRing

end Shape

section Operations

variable {α : Type} [DecidableEq α]

def Heap.setPrev (h : Heap α) (a : α) (b : Option α) : Heap α :=
  fun x => if x = a then { h x with prev := b } else h x

def Heap.setNext (h : Heap α) (a : α) (b : Option α) : Heap α :=
  fun x => if x = a then { h x with next := b } else h x

/-- A fresh sentinel points at itself. -/
def Heap.fresh (h : Heap α) (s : α) : Heap α :=
  (h.setPrev s (some s)).setNext s (some s)

def Heap.insertBefore (h : Heap α) (x next : α) : Heap α :=
  match (h next).prev with
  | none => h
  | some prev =>
    (((h.setNext prev (some x)).setPrev x (some prev)).setNext x (some next)).setPrev next (some x)

/-- Take a node out but leave its own next pointer as it was. -/
def Heap.splice (h : Heap α) (x : α) : Heap α :=
  match (h x).prev, (h x).next with
  | some prev, some next =>
    ((h.setNext prev (some next)).setPrev next (some prev)).setPrev x none
  | _, _ => h

/-- Take a node out and clear both its pointers. -/
def Heap.unlink (h : Heap α) (x : α) : Heap α :=
  match (h x).prev, (h x).next with
  | some prev, some next =>
    (((h.setNext prev (some next)).setPrev next (some prev)).setPrev x none).setNext x none
  | _, _ => h

/-- Walk backwards from `next` and stop behind the first node that is the
sentinel or satisfies `stop`; the result is the node to insert before. -/
def Heap.findBack (h : Heap α) (s : α) (stop : α → Bool) : Nat → α → α
  | 0, next => next
  | n+1, next =>
    match (h next).prev with
    | none => next
    | some prev => if prev = s ∨ stop prev = true then next else h.findBack s stop n prev

/-- The nodes reached by next pointers from `a`, up to the sentinel. -/
def Heap.toList (h : Heap α) (s : α) : Nat → α → List α
  | 0, _ => []
  | n+1, a =>
    match (h a).next with
    | none => []
    | some b => if b = s then [] else b :: h.toList s n b

@[simp] theorem setPrev_prev (h : Heap α) (a : α) (b : Option α) (x : α) :
    (h.setPrev a b x).prev = if x = a then b else (h x).prev := by
  unfold Heap.setPrev; split <;> rfl

@[simp] theorem setPrev_next (h : Heap α) (a : α) (b : Option α) (x : α) :
    (h.setPrev a b x).next = (h x).next := by
  unfold Heap.setPrev; split <;> rfl

@[simp] theorem setNext_next (h : Heap α) (a : α) (b : Option α) (x : α) :
    (h.setNext a b x).next = if x = a then b else (h x).next := by
  unfold Heap.setNext; split <;> rfl

@[simp] theorem setNext_prev (h : Heap α) (a : α) (b : Option α) (x : α) :
    (h.setNext a b x).prev = (h x).prev := by
  unfold Heap.setNext; split <;> rfl

theorem setPrev_of_ne (h : Heap α) {a x : α} (b : Option α) (hx : x ≠ a) :
    h.setPrev a b x = h x := by simp [Heap.setPrev, hx]

theorem setNext_of_ne (h : Heap α) {a x : α} (b : Option α) (hx : x ≠ a) :
    h.setNext a b x = h x := by simp [Heap.setNext, hx]

variable {h : Heap α} {s : α} {xs ys : List α}

theorem IsRing.fresh (h : Heap α) (s : α) : IsRing (h.fresh s) s [] :=
  ⟨by simp [Heap.fresh, Linked], by simp⟩

theorem fresh_of_ne (h : Heap α) {s x : α} (hx : x ≠ s) : h.fresh s x = h x := by
  simp [Heap.fresh, setNext_of_ne, setPrev_of_ne, hx]

theorem insertBefore_of_ne {x n a : α} (hx : a ≠ x) (hn : a ≠ n) (hp : (h n).prev ≠ some a) :
    h.insertBefore x n a = h a := by
  unfold Heap.insertBefore
  cases hq : (h n).prev with
  | none => rfl
  | some p =>
    have hap : a ≠ p := by rintro rfl; exact hp hq
    simp [setNext_of_ne, setPrev_of_ne, hx, hn, hap]

theorem insertBefore_next {x n p : α} (hp : (h n).prev = some p) (a : α) :
    (h.insertBefore x n a).next =
      if a = x then some n else if a = p then some x else (h a).next := by
  simp [Heap.insertBefore, hp]

theorem insertBefore_prev {x n p : α} (hp : (h n).prev = some p) (a : α) :
    (h.insertBefore x n a).prev =
      if a = n then some x else if a = x then some p else (h a).prev := by
  simp [Heap.insertBefore, hp]

theorem splice_next {x p n : α} (hp : (h x).prev = some p) (hn : (h x).next = some n) (a : α) :
    (h.splice x a).next = if a = p then some n else (h a).next := by
  simp [Heap.splice, hp, hn]

theorem splice_prev {x p n : α} (hp : (h x).prev = some p) (hn : (h x).next = some n) (a : α) :
    (h.splice x a).prev = if a = x then none else if a = n then some p else (h a).prev := by
  simp [Heap.splice, hp, hn]

theorem splice_of_ne {x a : α} (hx : a ≠ x) (hp : (h x).prev ≠ some a) (hn : (h x).next ≠ some a) :
    h.splice x a = h a := by
  cases hq : (h x).prev with
  | none => simp [Heap.splice, hq]
  | some p =>
    cases hm : (h x).next with
    | none => simp [Heap.splice, hq, hm]
    | some n =>
      have hap : a ≠ p := by rintro rfl; exact hp hq
      have han : a ≠ n := by rintro rfl; exact hn hm
      simp [Heap.splice, hq, hm, setNext_of_ne, setPrev_of_ne, hx, hap, han]

theorem unlink_eq {x p n : α} (hp : (h x).prev = some p) (hn : (h x).next = some n) :
    h.unlink x = (h.splice x).setNext x none := by
  simp [Heap.unlink, Heap.splice, hp, hn]

theorem unlink_prev {x p n : α} (hp : (h x).prev = some p) (hn : (h x).next = some n) (a : α) :
    (h.unlink x a).prev = if a = x then none else if a = n then some p else (h a).prev := by
  rw [unlink_eq hp hn, setNext_prev, splice_prev hp hn]

/-- Inserting in front of the first node of the second half (the sentinel when
that half is empty) appends to the first half. -/
theorem IsRing.insertBefore {x : α} (hr : IsRing h s (xs ++ ys)) (hx : x ∉ s :: (xs ++ ys)) :
    IsRing (h.insertBefore x (ys.headD s)) s (xs ++ x :: ys) := by
  have hnd := hr.nodup
  obtain ⟨p, hp, hpe⟩ := hr.prev_mem (x := ys.headD s) (by cases ys <;> simp)
  have hN := insertBefore_next (x := x) hpe
  have hP := insertBefore_prev (x := x) hpe
  have hnd' : (s :: (xs ++ x :: ys)).Nodup := by
    simp only [List.nodup_cons, List.nodup_append, List.mem_append] at hnd ⊢
    grind
  refine ⟨?_, hnd'⟩
  cases ys with
  | nil =>
    simp only [List.append_nil, List.headD_nil, List.mem_cons, not_or] at *
    exact hr.linked.insert hpe (by grind) (by grind) (by grind) (by grind)
      (fun y hy hyp => by grind) (fun y hy => by grind) hnd
  | cons n ys =>
    simp only [List.headD_cons] at *
    obtain ⟨h1, h2⟩ := Linked.append.mp hr.linked
    obtain ⟨q, hq, hqe⟩ := h1.prev_mem (x := n) (by simp)
    have hqp : q = p := by simpa [hpe] using hqe.symm
    subst hqp
    have hsplit : xs ++ x :: n :: ys = (xs ++ [x]) ++ n :: ys := by simp
    rw [hsplit, Linked.append]
    simp only [List.nodup_cons, List.nodup_append, List.mem_append, List.mem_cons] at hnd hx hq
    exact ⟨h1.insert hpe (by grind) (by grind) (by grind) (by grind)
        (fun y hy hyp => by grind) (fun y hy => by grind) (by simp; grind),
      h2.congr (fun y hy => by grind) (fun y hy => by grind)⟩

theorem IsRing.splice {x : α} (hr : IsRing h s (xs ++ x :: ys)) :
    IsRing (h.splice x) s (xs ++ ys) := by
  have hnd := hr.nodup
  simp only [List.nodup_cons, List.nodup_append, List.mem_append, List.mem_cons] at hnd
  obtain ⟨h1, h2⟩ := Linked.append.mp hr.linked
  obtain ⟨p, hp, hpe⟩ := h1.prev_mem (x := x) (by simp)
  obtain ⟨n, hn, hne⟩ := h2.next_mem (x := x) (by simp)
  have hN := splice_next hpe hne
  have hP := splice_prev hpe hne
  simp only [List.mem_append, List.mem_cons, List.not_mem_nil, or_false] at hn hp
  have hl : Linked (h.splice x) s (xs ++ ys) s :=
    h1.bypass h2 hpe hne (by grind) (by grind) (fun y hy hyp => by grind)
      (fun y hy hyn => by grind) (by simp; grind) (by simp [List.nodup_append]; grind)
      (by grind) (by grind)
  exact ⟨hl, by simp only [List.nodup_cons, List.nodup_append, List.mem_append]; grind⟩

theorem IsRing.unlink {x : α} (hr : IsRing h s (xs ++ x :: ys)) :
    IsRing (h.unlink x) s (xs ++ ys) := by
  obtain ⟨p, _, hpe⟩ := hr.prev_mem (x := x) (by simp)
  obtain ⟨n, _, hne⟩ := hr.next_mem (x := x) (by simp)
  rw [unlink_eq hpe hne]
  refine hr.splice.congr (fun y hy => setNext_of_ne _ _ ?_)
  rintro rfl
  have hnd := hr.nodup
  simp only [List.nodup_cons, List.nodup_append, List.mem_append, List.mem_cons] at hnd hy
  grind

/-- A ring is untouched by work on another one that shares no node with it. -/
theorem IsRing.unlink_frame {t x : α} {zs : List α} (hr : IsRing h s xs) (hx : x ∈ xs)
    (hz : IsRing h t zs) (hd : ∀ a ∈ s :: xs, a ∉ t :: zs) : IsRing (h.unlink x) t zs := by
  obtain ⟨p, hp, hpe⟩ := hr.prev_mem (x := x) (by simp [hx])
  obtain ⟨n, hn, hne⟩ := hr.next_mem (x := x) (by simp [hx])
  have hxz := hd x (by simp [hx])
  refine hz.congr (fun a ha => ?_)
  have hax : a ≠ x := by rintro rfl; exact hxz ha
  rw [unlink_eq hpe hne, setNext_of_ne _ _ hax]
  refine splice_of_ne hax ?_ ?_
  · rw [hpe]; rintro ⟨rfl⟩; exact hd _ hp ha
  · rw [hne]; rintro ⟨rfl⟩; exact hd _ hn ha

theorem IsRing.insertBefore_frame {t x n : α} {zs : List α} (hr : IsRing h s xs)
    (hn : n ∈ s :: xs) (hz : IsRing h t zs) (hx : x ∉ t :: zs) (hd : ∀ a ∈ s :: xs, a ∉ t :: zs) :
    IsRing (h.insertBefore x n) t zs := by
  obtain ⟨p, hp, hpe⟩ := hr.prev_mem hn
  refine hz.congr (fun a ha => insertBefore_of_ne ?_ ?_ ?_)
  · rintro rfl; exact hx ha
  · rintro rfl; exact hd _ hn ha
  · rw [hpe]; rintro ⟨rfl⟩; exact hd _ hp ha

theorem IsRing.splice_frame {t x : α} {zs : List α} (hr : IsRing h s xs) (hx : x ∈ xs)
    (hz : IsRing h t zs) (hd : ∀ a ∈ s :: xs, a ∉ t :: zs) : IsRing (h.splice x) t zs := by
  obtain ⟨p, hp, hpe⟩ := hr.prev_mem (x := x) (by simp [hx])
  obtain ⟨n, hn, hne⟩ := hr.next_mem (x := x) (by simp [hx])
  have hxz := hd x (by simp [hx])
  refine hz.congr (fun a ha => splice_of_ne ?_ ?_ ?_)
  · rintro rfl; exact hxz ha
  · rw [hpe]; rintro ⟨rfl⟩; exact hd _ hp ha
  · rw [hne]; rintro ⟨rfl⟩; exact hd _ hn ha

theorem toList_of_linked {a : α} {n : Nat} (hl : Linked h a xs s) (hs : s ∉ xs)
    (hn : xs.length ≤ n) : h.toList s (n + 1) a = xs := by
  induction xs generalizing a n with
  | nil => simp [Heap.toList, hl.1]
  | cons x xs ih =>
    obtain ⟨⟨h1, _⟩, h2⟩ := hl
    simp only [List.mem_cons, not_or] at hs
    cases n with
    | zero => simp at hn
    | succ n =>
      rw [Heap.toList, h1]
      simp only [Ne.symm hs.1, if_false]
      rw [ih h2 hs.2 (by simpa using hn)]

theorem IsRing.toList {n : Nat} (hr : IsRing h s xs) (hn : xs.length ≤ n) :
    h.toList s (n + 1) s = xs :=
  toList_of_linked hr.linked (List.nodup_cons.mp hr.nodup).1 hn

theorem IsRing.unique (hr : IsRing h s xs) (hr' : IsRing h s ys) : xs = ys := by
  exact (hr.toList (Nat.le_max_left xs.length ys.length)).symm.trans
    (hr'.toList (Nat.le_max_right xs.length ys.length))

/-- The backward search ends in front of the second half when no node of that
half stops it and the last node of the first half does. -/
theorem IsRing.findBack {stop : α → Bool} {n : Nat} (hr : IsRing h s (xs ++ ys))
    (hx : ∀ x ∈ xs.getLast?, stop x = true) (hy : ∀ y ∈ ys, stop y = false)
    (hn : ys.length ≤ n) : h.findBack s stop (n + 1) s = ys.headD s := by
  have key : ∀ (zs ws : List α) (m : Nat), ys = zs ++ ws → zs.length ≤ m →
      h.findBack s stop (m + 1) (ws.headD s) = ys.headD s := by
    intro zs
    induction zs using List.reverseRecOn with
    | nil =>
      intro ws m hz _
      simp only [List.nil_append] at hz
      subst hz
      rcases List.eq_nil_or_concat xs with rfl | ⟨xs', x, rfl⟩
      · have hp : (h (ys.headD s)).prev = some s := by
          cases ys with
          | nil => exact hr.linked.2
          | cons y ys => exact hr.linked.1.2
        rw [Heap.findBack, hp]
        simp only [true_or, if_true]
      · have hp : (h (ys.headD s)).prev = some x := by
          have hl := hr.linked
          cases ys with
          | nil =>
            simp only [List.append_nil, List.concat_eq_append] at hl
            exact (Linked.append.mp hl).2.2
          | cons y ys =>
            simp only [List.concat_eq_append, List.append_assoc, List.singleton_append] at hl
            exact ((Linked.append.mp hl).2.1).2
        have hs : stop x = true := hx x (by simp)
        rw [Heap.findBack, hp]
        simp only [hs, or_true, if_true]
    | append_singleton zs z ih =>
      intro ws m hz hm
      have hp : (h (ws.headD s)).prev = some z := by
        have hl := hr.linked
        subst hz
        cases ws with
        | nil =>
          simp only [List.append_nil, ← List.append_assoc] at hl
          exact (Linked.append.mp hl).2.2
        | cons w ws =>
          have he : xs ++ (zs ++ [z] ++ w :: ws) = (xs ++ zs) ++ z :: (w :: ws) := by simp
          rw [he] at hl
          exact ((Linked.append.mp hl).2.1).2
      have hzs : z ≠ s := by
        rintro rfl
        have hnd := hr.nodup
        simp [hz] at hnd
      have hst : stop z = false := hy z (by simp [hz])
      cases m with
      | zero => simp at hm
      | succ m =>
        rw [Heap.findBack, hp]
        simp only [hzs, hst, false_or, Bool.false_eq_true, if_false]
        exact ih (z :: ws) m (by simp [hz]) (by simpa using hm)
  exact key ys [] n (by simp) hn

end Operations

end CircularList
