import Swish.Lib.TableHeap

/-!
The operations on paths of json.ss: json:ref, json:set!, json:update! and json:delete!. An object
is a table of a heap.
-/

set_option autoImplicit false

namespace Swish.Json.Paths

open Swish.Lib

variable {α σ : Type} [DecidableEq σ]

/-- Any Scheme object, as far as walk-path looks at it. -/
inductive Path (σ : Type) where
  | symbol (k : σ)
  | null
  | pair (first rest : Path σ)
  | other
  deriving DecidableEq

inductive Who where
  | ref
  | set
  | update
  | delete
  deriving DecidableEq

/-- The exceptions bad-arg. -/
inductive Fault (α σ : Type) where
  | object (who : Who) (obj : Val α)
  | path (who : Who) (path : Path σ)
  deriving DecidableEq

inductive Result (α : Type) where
  | value (v : Val α)
  | void
  deriving DecidableEq

/-- What found does with the last table of a path and its last key. -/
abbrev Found (α σ : Type) := Heap α σ → Nat → σ → Heap α σ × Result α

/-- The loop of walk-path. -/
def lp (who : Who) (fullPath : Path σ) (extend : Bool) (default : Result α) (found : Found α σ) :
    Path σ → Heap α σ → Nat → Heap α σ × Except (Fault α σ) (Result α)
  | .pair first more, h, a =>
    match first with
    | .symbol k =>
      match more with
      | .null => ((found h a k).1, .ok (found h a k).2)
      | more =>
        match h.table a k with
        | some (.object b) => lp who fullPath extend default found more h b
        | _ =>
          if extend then
            lp who fullPath extend default found more (h.make.write a k (some (.object h.next))) h.next
          else (h, .ok default)
    | _ => (h, .error (.path who fullPath))
  | _, h, _ => (h, .error (.path who fullPath))

def walkPath (who : Who) (h : Heap α σ) (obj : Val α) (fullPath : Path σ) (extend : Bool) (default : Result α)
    (found : Found α σ) : Heap α σ × Except (Fault α σ) (Result α) :=
  match obj with
  | .atom _ => (h, .error (.object who obj))
  | .object a =>
    match fullPath with
    | .null => (h, .error (.path who fullPath))
    | .symbol k => ((found h a k).1, .ok (found h a k).2)
    | _ => lp who fullPath extend default found fullPath h a

def jsonRef (h : Heap α σ) (obj : Val α) (path : Path σ) (default : Val α) :
    Heap α σ × Except (Fault α σ) (Result α) :=
  walkPath .ref h obj path false (.value default) fun h a k => (h, .value ((h.table a k).getD default))

def jsonSet (h : Heap α σ) (obj : Val α) (path : Path σ) (value : Val α) :
    Heap α σ × Except (Fault α σ) (Result α) :=
  walkPath .set h obj path true (.value value) fun h a k => (h.write a k (some value), .void)

/-- A function of a value. It may make objects, and it changes none that exists. -/
structure Function (α σ : Type) where
  apply : Heap α σ → Val α → Heap α σ × Val α
  next_le : ∀ h v, h.next ≤ (apply h v).1.next
  keeps : ∀ h v a, a < h.next → (apply h v).1.table a = h.table a

def jsonUpdate (h : Heap α σ) (obj : Val α) (path : Path σ) (f : Function α σ) (default : Val α) :
    Heap α σ × Except (Fault α σ) (Result α) :=
  walkPath .update h obj path true (.value default) fun h a k =>
    ((f.apply h ((h.table a k).getD default)).1.write a k (some (f.apply h ((h.table a k).getD default)).2), .void)

def jsonDelete (h : Heap α σ) (obj : Val α) (path : Path σ) : Heap α σ × Except (Fault α σ) (Result α) :=
  walkPath .delete h obj path false .void fun h a k => (h.write a k none, .void)

/-- The heap in which json:update! calls its function: the objects on the way have been made. -/
def interior (h : Heap α σ) (obj : Val α) (path : Path σ) : Heap α σ :=
  (walkPath .update h obj path true .void fun h _ _ => (h, .void)).1

def Path.list : List σ → Path σ
  | [] => .null
  | k :: ks => .pair (.symbol k) (.list ks)

/-- A path of symbols: one symbol by itself, or a list of them that is not empty. -/
inductive IsPath : Path σ → List σ → Prop where
  | symbol (k : σ) : IsPath (.symbol k) [k]
  | list (k : σ) (ks : List σ) : IsPath (.list (k :: ks)) (k :: ks)

omit [DecidableEq σ] in
theorem IsPath.cons {p : Path σ} {ks : List σ} (hp : IsPath p ks) : ∃ k is, ks = k :: is := by
  cases hp with
  | symbol k => exact ⟨k, [], rfl⟩
  | list k is => exact ⟨k, is, rfl⟩

/-- The place where a path ends: the heap, the last table, and the last key. -/
structure Place (α σ : Type) where
  heap : Heap α σ
  addr : Nat
  key : σ

/-- The way of walk-path along the keys after k, where objects are made. -/
def descend : List σ → Heap α σ → Nat → σ → Place α σ
  | [], h, a, k => ⟨h, a, k⟩
  | j :: ks, h, a, k =>
    match h.table a k with
    | some (.object b) => descend ks h b j
    | _ => descend ks (h.make.write a k (some (.object h.next))) h.next j

/-- The way of walk-path if no objects are made. -/
def locate (h : Heap α σ) : List σ → Nat → σ → Option (Nat × σ)
  | [], a, k => some (a, k)
  | j :: ks, a, k =>
    match h.table a k with
    | some (.object b) => locate h ks b j
    | _ => none

variable {h h' : Heap α σ} {a : Nat} {k : σ} {ks : List σ} {p : Path σ} {found : Found α σ} {who : Who}
  {default : Result α} {o : Option (Val α)}

/-- The loop goes on in the object that a key has. -/
theorem lp_object {fullPath : Path σ} {extend : Bool} {j : σ} {b : Nat} (ht : h.table a k = some (.object b)) :
    lp who fullPath extend default found (.list (k :: j :: ks)) h a =
      lp who fullPath extend default found (.list (j :: ks)) h b := by
  simp only [Path.list, lp, ht]

/-- Where a key has no object, the loop makes one and goes on in it. -/
theorem lp_make {fullPath : Path σ} {j : σ} (ht : ∀ b, h.table a k ≠ some (.object b)) :
    lp who fullPath true default found (.list (k :: j :: ks)) h a =
      lp who fullPath true default found (.list (j :: ks)) (h.make.write a k (some (.object h.next))) h.next := by
  cases hv : h.table a k with
  | none => simp only [Path.list, lp, hv, if_true]
  | some v =>
    cases v with
    | object b => exact absurd hv (ht b)
    | atom x => simp only [Path.list, lp, hv, if_true]

theorem lp_extend (fullPath : Path σ) (ks : List σ) (h : Heap α σ) (a : Nat) (k : σ) :
    lp who fullPath true default found (.list (k :: ks)) h a =
      ((found (descend ks h a k).heap (descend ks h a k).addr (descend ks h a k).key).1,
        .ok (found (descend ks h a k).heap (descend ks h a k).addr (descend ks h a k).key).2) := by
  induction ks generalizing h a k with
  | nil => rfl
  | cons j ks ih =>
    rw [descend]
    split
    · rename_i b ht
      rw [lp_object ht]
      exact ih h b j
    · rename_i ht
      rw [lp_make ht]
      exact ih _ _ j

theorem lp_locate (fullPath : Path σ) (ks : List σ) (a : Nat) (k : σ) :
    lp who fullPath false default found (.list (k :: ks)) h a =
      ((locate h ks a k).elim (h, .ok default) fun x => ((found h x.1 x.2).1, .ok (found h x.1 x.2).2)) := by
  induction ks generalizing a k with
  | nil => rfl
  | cons j ks ih =>
    rw [locate]
    cases ht : h.table a k with
    | none => simp [Path.list, lp, ht]
    | some v =>
      cases v with
      | object b =>
        rw [lp_object ht]
        exact ih b j
      | atom x => simp [Path.list, lp, ht]

theorem walkPath_extend (hp : IsPath p (k :: ks)) (h : Heap α σ) (a : Nat) :
    walkPath who h (.object a) p true default found =
      ((found (descend ks h a k).heap (descend ks h a k).addr (descend ks h a k).key).1,
        .ok (found (descend ks h a k).heap (descend ks h a k).addr (descend ks h a k).key).2) := by
  cases hp with
  | symbol => rfl
  | list => exact lp_extend (.list (k :: ks)) ks h a k

theorem walkPath_locate (hp : IsPath p (k :: ks)) (h : Heap α σ) (a : Nat) :
    walkPath who h (.object a) p false default found =
      ((locate h ks a k).elim (h, .ok default) fun x => ((found h x.1 x.2).1, .ok (found h x.1 x.2).2)) := by
  cases hp with
  | symbol => rfl
  | list => exact lp_locate (.list (k :: ks)) ks a k

/-- The place is the one where the way with new objects ends, and there is no way without it. -/
theorem locate_spec (h : Heap α σ) (ks : List σ) (a : Nat) (k : σ) :
    (∃ b j, locate h ks a k = some (b, j) ∧ descend ks h a k = ⟨h, b, j⟩ ∧
      h.get (k :: ks) (.object a) = h.table b j) ∨
    (locate h ks a k = none ∧ h.get (k :: ks) (.object a) = none) := by
  induction ks generalizing a k with
  | nil =>
    refine .inl ⟨a, k, rfl, rfl, ?_⟩
    rw [Heap.get_cons]
    cases h.table a k with
    | none => rfl
    | some v => rfl
  | cons j ks ih =>
    rw [locate, descend, Heap.get_cons]
    cases ht : h.table a k with
    | none => exact .inr ⟨rfl, rfl⟩
    | some v =>
      cases v with
      | object b => exact ih b j
      | atom x => exact .inr ⟨rfl, rfl⟩

/-- What a write at the end of a path changes: the value there, and no value to which neither path
leads through the other. -/
structure Changes (h h' : Heap α σ) (a : Nat) (ks : List σ) (o : Option (Val α)) : Prop where
  here : h'.get ks (.object a) = o
  apart : ∀ js, ¬ks <+: js → ¬js <+: ks → h'.get js (.object a) = h.get js (.object a)
  frame : ∀ b, b < h.next → (∀ js, h.get js (.object a) ≠ some (.object b)) → h'.table b = h.table b

/-- The step from the table c to the table a that has it under the key k. -/
theorem Changes.up {c : Nat} (hn : h.Nested a) (ht : h.table a k = some (.object c))
    (hc : Changes h h' c ks o) : Changes h h' a (k :: ks) o := by
  have hsame : h'.table a = h.table a := hc.frame a hn.lt (hn.not_below ht)
  have ht' : h'.table a k = some (.object c) := by rw [hsame, ht]
  refine ⟨(Heap.get_cons_of_table ht').trans hc.here, ?_, ?_⟩
  · intro js hno hno'
    cases js with
    | nil => exact absurd List.nil_prefix hno'
    | cons i js =>
      rw [Heap.get_cons, Heap.get_cons, hsame]
      by_cases hi : i = k
      · subst hi
        rw [ht]
        exact hc.apart js (fun he => hno (List.cons_prefix_cons.mpr ⟨rfl, he⟩))
          (fun he => hno' (List.cons_prefix_cons.mpr ⟨rfl, he⟩))
      · cases hw : h.table a i with
        | none => rfl
        | some w =>
          refine Heap.get_frame ?_ js
          intro is b hb
          exact hc.frame b (hn.below (i :: is) b ((Heap.get_cons_of_table hw).trans hb)) (hn.apart ht hw hi hb)
  · intro b hb hno
    refine hc.frame b hb ?_
    intro js hjs
    exact hno (k :: js) ((Heap.get_cons_of_table ht).trans hjs)

omit [DecidableEq σ] in
theorem Changes.last (hn : h.Nested a) (he : Heap.Edits h h' a k o) : Changes h h' a [k] o := by
  refine ⟨?_, ?_, ?_⟩
  · rw [Heap.get_cons, he.here]
    cases o with
    | none => rfl
    | some v => rfl
  · intro js hno hno'
    cases js with
    | nil => exact absurd List.nil_prefix hno'
    | cons i js =>
      have hi : i ≠ k := fun hi => hno (List.cons_prefix_cons.mpr ⟨hi.symm, List.nil_prefix⟩)
      rw [Heap.get_cons, Heap.get_cons, he.key i hi]
      cases hw : h.table a i with
      | none => rfl
      | some w =>
        refine Heap.get_frame ?_ js
        intro is b hb
        refine he.other b (hn.below (i :: is) b ((Heap.get_cons_of_table hw).trans hb)) ?_
        intro hba
        exact hn.not_below hw is (hba ▸ hb)
  · intro b hb hno
    exact he.other b hb fun hba => hno [] (hba ▸ rfl)

/-- The heap with a new object under the key k of the table a. -/
def withNew (h : Heap α σ) (a : Nat) (k : σ) : Heap α σ := h.make.write a k (some (.object h.next))

theorem withNew_here (h : Heap α σ) (a : Nat) (k : σ) : (withNew h a k).table a k = some (.object h.next) :=
  if_pos ⟨rfl, rfl⟩

theorem withNew_key {i : σ} (ha : a < h.next) (hi : i ≠ k) : (withNew h a k).table a i = h.table a i := by
  have hwrite : (withNew h a k).table a i = h.make.table a i := if_neg fun he => hi he.2
  have hmake : h.make.table a i = h.table a i := if_neg (Nat.ne_of_lt ha)
  rw [hwrite, hmake]

theorem withNew_other {b : Nat} (hb : b < h.next) (hba : b ≠ a) : (withNew h a k).table b = h.table b := by
  funext i
  have hwrite : (withNew h a k).table b i = h.make.table b i := if_neg fun he => hba he.1
  have hmake : h.make.table b i = h.table b i := if_neg (Nat.ne_of_lt hb)
  rw [hwrite, hmake]

theorem withNew_empty (ha : a < h.next) (i : σ) : (withNew h a k).table h.next i = none := by
  have hwrite : (withNew h a k).table h.next i = h.make.table h.next i := if_neg fun he => Nat.ne_of_gt ha he.1
  have hmake : h.make.table h.next i = none := if_pos rfl
  rw [hwrite, hmake]

theorem withNew_nested (ha : a < h.next) : (withNew h a k).Nested h.next :=
  Heap.nested_of_empty (Nat.lt_succ_self h.next) (withNew_empty ha)

/-- The step from a new object to the table a that has got it under the key k. -/
theorem Changes.new {j : σ} (hn : h.Nested a) (hno : ∀ is, is ≠ [] → h.get (k :: is) (.object a) = none)
    (hc : Changes (withNew h a k) h' h.next (j :: ks) o) : Changes h h' a (k :: j :: ks) o := by
  have hlt : ∀ {b}, b < h.next → b < (withNew h a k).next := fun hb => Nat.lt_succ_of_lt hb
  have hempty : ∀ {b}, b < h.next → ∀ is, (withNew h a k).get is (.object h.next) ≠ some (.object b) := by
    intro b hb is he
    cases is with
    | nil =>
      cases he
      exact Nat.lt_irrefl _ hb
    | cons i is =>
      rw [Heap.get_of_empty (withNew_empty hn.lt) (List.cons_ne_nil i is)] at he
      cases he
  have hframe : ∀ {b}, b < h.next → h'.table b = (withNew h a k).table b := fun hb => hc.frame _ (hlt hb) (hempty hb)
  have ht' : h'.table a k = some (.object h.next) := by rw [hframe hn.lt, withNew_here]
  refine ⟨(Heap.get_cons_of_table ht').trans hc.here, ?_, ?_⟩
  · intro js hno1 hno2
    cases js with
    | nil => exact absurd List.nil_prefix hno2
    | cons i js =>
      by_cases hi : i = k
      · subst hi
        have hjs : js ≠ [] := by
          intro hjs
          subst hjs
          exact hno2 (List.cons_prefix_cons.mpr ⟨rfl, List.nil_prefix⟩)
        have hrest := hc.apart js (fun he => hno1 (List.cons_prefix_cons.mpr ⟨rfl, he⟩))
          (fun he => hno2 (List.cons_prefix_cons.mpr ⟨rfl, he⟩))
        rw [hno js hjs, Heap.get_cons_of_table ht', hrest]
        exact Heap.get_of_empty (withNew_empty hn.lt) hjs
      · rw [Heap.get_cons, Heap.get_cons, hframe hn.lt, withNew_key hn.lt hi]
        cases hw : h.table a i with
        | none => rfl
        | some w =>
          refine Heap.get_frame ?_ js
          intro is b hb
          have hbn := hn.below (i :: is) b ((Heap.get_cons_of_table hw).trans hb)
          have hba : b ≠ a := fun hba => hn.not_below hw is (hba ▸ hb)
          rw [hframe hbn, withNew_other hbn hba]
  · intro b hb hno'
    have hba : b ≠ a := fun hba => hno' [] (hba ▸ rfl)
    rw [hframe hb, withNew_other hb hba]

/-- A write at the place where a path ends changes the value at the end of the path. -/
theorem descend_changes (ks : List σ) (hn : h.Nested a)
    (he : Heap.Edits (descend ks h a k).heap h' (descend ks h a k).addr (descend ks h a k).key o) :
    (descend ks h a k).heap.table (descend ks h a k).addr (descend ks h a k).key = h.get (k :: ks) (.object a) ∧
    Changes h h' a (k :: ks) o := by
  induction ks generalizing h a k with
  | nil =>
    refine ⟨?_, .last hn he⟩
    have hget := (Changes.last (o := h.table a k) hn ⟨Nat.le_refl _, rfl, fun _ _ => rfl, fun _ _ _ => rfl⟩).here
    exact hget.symm
  | cons j ks ih =>
    have hnew : (∀ b, h.table a k ≠ some (.object b)) → descend (j :: ks) h a k = descend ks (withNew h a k) h.next j →
        (descend (j :: ks) h a k).heap.table (descend (j :: ks) h a k).addr (descend (j :: ks) h a k).key =
          h.get (k :: j :: ks) (.object a) ∧ Changes h h' a (k :: j :: ks) o := by
      intro hno hdesc
      have hnone : ∀ is, is ≠ [] → h.get (k :: is) (.object a) = none := by
        intro is his
        rw [Heap.get_cons]
        cases ht : h.table a k with
        | none => rfl
        | some v =>
          cases v with
          | atom x => exact Heap.get_atom h x his
          | object b => exact absurd ht (hno b)
      rw [hdesc] at he ⊢
      obtain ⟨hv, hc⟩ := ih (withNew_nested hn.lt) he
      refine ⟨?_, hc.new hn hnone⟩
      rw [hv, hnone _ (List.cons_ne_nil j ks)]
      exact Heap.get_of_empty (withNew_empty hn.lt) (List.cons_ne_nil j ks)
    cases ht : h.table a k with
    | none =>
      refine hnew ?_ ?_
      · intro b hb
        rw [ht] at hb
        cases hb
      · rw [descend, ht]
        rfl
    | some v =>
      cases v with
      | atom x =>
        refine hnew ?_ ?_
        · intro b hb
          rw [ht] at hb
          cases hb
        · rw [descend, ht]
          rfl
      | object b =>
        have hdesc : descend (j :: ks) h a k = descend ks h b j := by rw [descend, ht]
        rw [hdesc] at he ⊢
        obtain ⟨hv, hc⟩ := ih (hn.child ht) he
        exact ⟨hv.trans (Heap.get_cons_of_table ht).symm, hc.up hn ht⟩

theorem descend_lt (ks : List σ) (hn : h.Nested a) : (descend ks h a k).addr < (descend ks h a k).heap.next := by
  induction ks generalizing h a k with
  | nil => exact hn.lt
  | cons j ks ih =>
    rw [descend]
    split
    · rename_i b ht
      exact ih (hn.child ht)
    · exact ih (withNew_nested hn.lt)

theorem jsonRef_eq (hp : IsPath p ks) (h : Heap α σ) (a : Nat) (d : Val α) :
    jsonRef h (.object a) p d = (h, .ok (.value ((h.get ks (.object a)).getD d))) := by
  obtain ⟨k, is, he⟩ := hp.cons
  subst he
  rw [jsonRef, walkPath_locate hp]
  cases locate_spec h is a k with
  | inl hs =>
    obtain ⟨b, j, hloc, _, hget⟩ := hs
    rw [hloc, hget]
    rfl
  | inr hs =>
    rw [hs.1, hs.2]
    rfl

/-- What the operations on the path p do to the object a. -/
structure Laws (h : Heap α σ) (a : Nat) (p : Path σ) (ks : List σ) : Prop where
  set_ref : ∀ v d, (jsonSet h (.object a) p v).2 = .ok .void ∧
    (jsonRef (jsonSet h (.object a) p v).1 (.object a) p d).2 = .ok (.value v)
  update_ref : ∀ f d, ∃ v, (jsonRef h (.object a) p d).2 = .ok (.value v) ∧
    (jsonUpdate h (.object a) p f d).2 = .ok .void ∧
    ∀ d', (jsonRef (jsonUpdate h (.object a) p f d).1 (.object a) p d').2 =
      .ok (.value (f.apply (interior h (.object a) p) v).2)
  delete_ref : ∀ d, (jsonDelete h (.object a) p).2 = .ok .void ∧
    (jsonRef (jsonDelete h (.object a) p).1 (.object a) p d).2 = .ok (.value d)
  apart : ∀ q js d, IsPath q js → ¬ks <+: js → ¬js <+: ks →
    (∀ v, (jsonRef (jsonSet h (.object a) p v).1 (.object a) q d).2 = (jsonRef h (.object a) q d).2) ∧
    (∀ f d', (jsonRef (jsonUpdate h (.object a) p f d').1 (.object a) q d).2 = (jsonRef h (.object a) q d).2) ∧
    (jsonRef (jsonDelete h (.object a) p).1 (.object a) q d).2 = (jsonRef h (.object a) q d).2
  delete_absent : (∀ d, (jsonRef h (.object a) p d).2 = .ok (.value d)) → (jsonDelete h (.object a) p).1 = h
  ref_same : ∀ d, (jsonRef h (.object a) p d).1 = h

/-- json:delete! takes away the value at the end of a path, and makes no object on the way. -/
theorem jsonDelete_spec (hn : h.Nested a) (hp : IsPath p (k :: ks)) :
    (jsonDelete h (.object a) p).2 = .ok .void ∧ Changes h (jsonDelete h (.object a) p).1 a (k :: ks) none ∧
      (h.get (k :: ks) (.object a) = none → (jsonDelete h (.object a) p).1 = h) := by
  rw [jsonDelete, walkPath_locate hp]
  cases locate_spec h ks a k with
  | inl hs =>
    obtain ⟨b, j, hloc, hdesc, hget⟩ := hs
    rw [hloc]
    have hed : Heap.Edits (descend ks h a k).heap (h.write b j none) (descend ks h a k).addr (descend ks h a k).key
        none := by
      rw [hdesc]
      exact Heap.write_edits h b j none
    refine ⟨rfl, (descend_changes ks hn hed).2, ?_⟩
    intro hnone
    rw [hget] at hnone
    have hsame : (h.write b j none).table = h.table := by
      funext c i
      unfold Heap.write
      dsimp only
      split
      · rename_i he
        rw [he.1, he.2, hnone]
      · rfl
    exact congrArg (Heap.mk h.next) hsame
  | inr hs =>
    rw [hs.1]
    exact ⟨rfl, ⟨hs.2, fun _ _ _ => rfl, fun _ _ _ => rfl⟩, fun _ => rfl⟩

theorem jsonSet_spec (hn : h.Nested a) (hp : IsPath p (k :: ks)) (v : Val α) :
    (jsonSet h (.object a) p v).2 = .ok .void ∧ Changes h (jsonSet h (.object a) p v).1 a (k :: ks) (some v) := by
  rw [jsonSet, walkPath_extend hp]
  exact ⟨rfl, (descend_changes ks hn (Heap.write_edits _ _ _ _)).2⟩

theorem jsonUpdate_spec (hn : h.Nested a) (hp : IsPath p (k :: ks)) (f : Function α σ) (d : Val α) :
    (jsonUpdate h (.object a) p f d).2 = .ok .void ∧
    Changes h (jsonUpdate h (.object a) p f d).1 a (k :: ks)
      (some (f.apply (interior h (.object a) p) ((h.get (k :: ks) (.object a)).getD d)).2) := by
  have hinterior : interior h (.object a) p = (descend ks h a k).heap := by
    rw [interior, walkPath_extend hp]
  have hvalue := (descend_changes (o := (descend ks h a k).heap.table (descend ks h a k).addr (descend ks h a k).key)
    ks hn ⟨Nat.le_refl _, rfl, fun _ _ => rfl, fun _ _ _ => rfl⟩).1
  rw [jsonUpdate, walkPath_extend hp, hinterior, ← hvalue]
  refine ⟨rfl, (descend_changes ks hn ?_).2⟩
  -- the function has made objects, and then the value is written
  exact (Heap.write_edits _ _ _ _).after (f.next_le _ _) (f.keeps _ _) (descend_lt ks hn)

/-- The operations on paths satisfy the laws of lenses in an object without shared parts. -/
theorem path_operations_are_lenses (hn : h.Nested a) (hp : IsPath p ks) : Laws h a p ks := by
  obtain ⟨k, is, he⟩ := hp.cons
  subst he
  obtain ⟨hdel, hdelete, habsent⟩ := jsonDelete_spec hn hp
  refine ⟨?_, ?_, ?_, ?_, ?_, ?_⟩
  · intro v d
    obtain ⟨hset, hc⟩ := jsonSet_spec hn hp v
    refine ⟨hset, ?_⟩
    rw [jsonRef_eq hp, hc.here, Option.getD_some]
  · intro f d
    obtain ⟨hupdate, hc⟩ := jsonUpdate_spec hn hp f d
    refine ⟨(h.get (k :: is) (.object a)).getD d, ?_, hupdate, ?_⟩
    · rw [jsonRef_eq hp]
    · intro d'
      rw [jsonRef_eq hp, hc.here, Option.getD_some]
  · intro d
    refine ⟨hdel, ?_⟩
    rw [jsonRef_eq hp, hdelete.here, Option.getD_none]
  · intro q js d hq hno hno'
    have hsame : ∀ {h' : Heap α σ} {o : Option (Val α)}, Changes h h' a (k :: is) o →
        (jsonRef h' (.object a) q d).2 = (jsonRef h (.object a) q d).2 := by
      intro h' o hc
      rw [jsonRef_eq hq, jsonRef_eq hq, hc.apart js hno hno']
    exact ⟨fun v => hsame (jsonSet_spec hn hp v).2, fun f d' => hsame (jsonUpdate_spec hn hp f d').2, hsame hdelete⟩
  · intro hall
    refine habsent ?_
    cases hget : h.get (k :: is) (.object a) with
    | none => rfl
    | some v =>
      have h0 := hall (.object 0)
      have h1 := hall (.object 1)
      rw [jsonRef_eq hp, hget] at h0 h1
      cases h0
      cases h1
  · intro d
    rw [jsonRef_eq hp]

/-- An object under one key of another. -/
def oneInside : Heap Nat String :=
  { next := 2, table := fun a k => if a = 0 ∧ k = "a" then some (.object 1) else none }

theorem oneInside_nested : oneInside.Nested 0 := by
  have hinner : ∀ ks b, oneInside.get ks (.object 1) = some (.object b) → ks = [] ∧ b = 1 := by
    intro ks b hb
    cases ks with
    | nil =>
      cases hb
      exact ⟨rfl, rfl⟩
    | cons k ks => cases hb
  have hall : ∀ ks b, oneInside.get ks (.object 0) = some (.object b) → (ks = [] ∧ b = 0) ∨ (ks = ["a"] ∧ b = 1) := by
    intro ks b hb
    cases ks with
    | nil =>
      cases hb
      exact .inl ⟨rfl, rfl⟩
    | cons k ks =>
      by_cases hk : k = "a"
      · subst hk
        obtain ⟨hks, hb1⟩ := hinner ks b hb
        subst hks
        exact .inr ⟨rfl, hb1⟩
      · have hnone : oneInside.table 0 k = none := if_neg fun he => hk he.2
        rw [Heap.get_cons, hnone] at hb
        cases hb
  refine ⟨?_, ?_⟩
  · intro ks b hb
    rcases hall ks b hb with h | h
    · rw [h.2]
      decide
    · rw [h.2]
      decide
  · intro ks js b hks hjs
    rcases hall ks b hks with h | h
    · rcases hall js b hjs with h' | h'
      · rw [h.1, h'.1]
      · rw [h.2] at h'
        cases h'.2
    · rcases hall js b hjs with h' | h'
      · rw [h.2] at h'
        cases h'.2
      · rw [h.1, h'.1]

theorem path_operations_are_lenses_inside : Laws oneInside 0 (.list ["a", "b", "c"]) ["a", "b", "c"] :=
  path_operations_are_lenses oneInside_nested (.list "a" ["b", "c"])

end Swish.Json.Paths
