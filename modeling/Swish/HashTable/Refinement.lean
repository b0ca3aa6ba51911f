import Mathlib.Data.List.Pairwise
import Swish.HashTable.Layout

/-!
The table as a finite map: what is in it after any operations is what an
association list would hold.
-/

set_option autoImplicit false

namespace Swish.HashTable
open LinearHashing

variable {K V : Type} {hash : K → Int} {eq : K → K → Bool} {valid : K → Bool}

/-- What ht:make is promised about keys. -/
structure KeyOk (hash : K → Int) (eq : K → K → Bool) (valid : K → Bool) : Prop where
  refl : ∀ a, valid a = true → eq a a = true
  symm : ∀ a b, valid a = true → valid b = true → eq a b = true → eq b a = true
  trans : ∀ a b c, valid a = true → valid b = true → valid c = true →
    eq a b = true → eq b c = true → eq a c = true
  hash : ∀ a b, valid a = true → valid b = true → eq a b = true → hash a = hash b

/-- Two bindings of different keys. -/
def Apart (eq : K → K → Bool) (a b : K × V) : Prop := eq a.1 b.1 = false ∧ eq b.1 a.1 = false

theorem Apart.symm {a b : K × V} (h : Apart eq a b) : Apart eq b a := ⟨h.2, h.1⟩

instance : Std.Symm (Apart eq : K × V → K × V → Prop) := ⟨fun _ _ => Apart.symm⟩

/-- An association list without bindings of equal keys. -/
structure Assoc (eq : K → K → Bool) (valid : K → Bool) (l : List (K × V)) : Prop where
  valid : ∀ kv ∈ l, valid kv.1 = true
  apart : l.Pairwise (Apart eq)

/-- The bindings of keys other than key. -/
def others (eq : K → K → Bool) (key : K) (l : List (K × V)) : List (K × V) :=
  l.filter fun kv => !eq kv.1 key

/-- The list after some operations, the latest first. -/
def bindings (eq : K → K → Bool) (valid : K → Bool) : List (Op K V) → List (K × V)
  | [] => []
  | .set key val :: ops =>
    if valid key then (key, val) :: others eq key (bindings eq valid ops) else bindings eq valid ops
  | .delete key :: ops =>
    if valid key then others eq key (bindings eq valid ops) else bindings eq valid ops

/-- The value of the last set of an equal key that no delete follows, the latest
operation first. -/
def lastSet (eq : K → K → Bool) (valid : K → Bool) : List (Op K V) → K → Option V
  | [], _ => none
  | .set k v :: ops, key => if valid k && eq k key then some v else lastSet eq valid ops key
  | .delete k :: ops, key => if valid k && eq k key then none else lastSet eq valid ops key

variable {l : List (K × V)} {key : K}

theorem mem_others {kv : K × V} : kv ∈ others eq key l ↔ kv ∈ l ∧ eq kv.1 key = false := by
  simp [others]

theorem KeyOk.eq_comm (hk : KeyOk hash eq valid) {a b : K} (ha : valid a = true) (hb : valid b = true) :
    eq a b = eq b a := by
  cases h1 : eq a b with
  | true => exact (hk.symm a b ha hb h1).symm
  | false =>
    cases h2 : eq b a with
    | false => rfl
    | true => rw [hk.symm b a hb ha h2] at h1; cases h1

namespace Assoc

theorem others (h : Assoc eq valid l) (key : K) : Assoc eq valid (others eq key l) :=
  ⟨fun kv hkv => h.valid kv (mem_others.mp hkv).1, h.apart.filter _⟩

theorem cons (h : Assoc eq valid l) (hk : KeyOk hash eq valid) (hv : valid key = true) (val : V) :
    Assoc eq valid ((key, val) :: HashTable.others eq key l) := by
  have ho := h.others key
  refine ⟨fun kv hkv => ?_, List.pairwise_cons.mpr ⟨fun kv hkv => ?_, ho.apart⟩⟩
  · rcases List.mem_cons.mp hkv with rfl | h1
    · exact hv
    · exact ho.valid kv h1
  · have h1 := (mem_others.mp hkv).2
    refine ⟨?_, h1⟩
    rw [hk.eq_comm hv (ho.valid kv hkv)]
    exact h1

theorem perm {l' : List (K × V)} (h : Assoc eq valid l) (hp : l.Perm l') : Assoc eq valid l' :=
  ⟨fun kv hkv => h.valid kv (hp.mem_iff.mpr hkv), hp.pairwise h.apart fun hab => hab.symm⟩

end Assoc

theorem bindings_assoc (hk : KeyOk hash eq valid) (ops : List (Op K V)) :
    Assoc eq valid (bindings eq valid ops) := by
  induction ops with
  | nil => exact ⟨by simp [bindings], .nil⟩
  | cons op ops ih =>
    cases op with
    | set k v =>
      unfold bindings
      split
      · rename_i hv
        exact ih.cons hk hv v
      · exact ih
    | delete k =>
      unfold bindings
      split
      · exact ih.others k
      · exact ih

/-- The list and the history agree. -/
theorem mem_bindings (hk : KeyOk hash eq valid) (ops : List (Op K V)) (hv : valid key = true) (val : V) :
    lastSet eq valid ops key = some val ↔ ∃ kv ∈ bindings eq valid ops, eq kv.1 key = true ∧ kv.2 = val := by
  induction ops with
  | nil => simp [lastSet, bindings]
  | cons op ops ih =>
    have hval := (bindings_assoc hk ops).valid
    -- bindings of a key that is not equal to k are not touched
    have hkeep : ∀ k, valid k = true → eq k key = false →
        ((∃ kv ∈ others eq k (bindings eq valid ops), eq kv.1 key = true ∧ kv.2 = val) ↔
          ∃ kv ∈ bindings eq valid ops, eq kv.1 key = true ∧ kv.2 = val) := by
      intro k hvk hne
      refine ⟨fun h => ?_, fun h => ?_⟩
      · obtain ⟨kv, h1, h2⟩ := h
        exact ⟨kv, (mem_others.mp h1).1, h2⟩
      · obtain ⟨kv, h1, h2, h3⟩ := h
        refine ⟨kv, mem_others.mpr ⟨h1, ?_⟩, h2, h3⟩
        cases he : eq kv.1 k with
        | false => rfl
        | true =>
          have h4 := hk.symm _ _ (hval kv h1) hvk he
          rw [hk.trans k kv.1 key hvk (hval kv h1) hv h4 h2] at hne
          cases hne
    have hgone : ∀ k, valid k = true → eq k key = true →
        ∀ kv ∈ others eq k (bindings eq valid ops), eq kv.1 key = false := by
      intro k hvk he kv hkv
      obtain ⟨h1, h2⟩ := mem_others.mp hkv
      cases h3 : eq kv.1 key with
      | false => rfl
      | true =>
        have h4 := hk.symm k key hvk hv he
        rw [hk.trans kv.1 key k (hval kv h1) hv hvk h3 h4] at h2
        cases h2
    cases op with
    | set k v =>
      unfold lastSet bindings
      cases hvk : valid k with
      | false => simpa using ih
      | true =>
        cases he : eq k key with
        | true =>
          have hg := hgone k hvk he
          simp only [Bool.and_self, if_true, Option.some.injEq, List.mem_cons, exists_eq_or_imp, he,
            true_and]
          refine ⟨.inl, fun h => ?_⟩
          rcases h with h | ⟨kv, h1, h2, _⟩
          · exact h
          · rw [hg kv h1] at h2; cases h2
        | false =>
          simp only [Bool.and_false, Bool.false_eq_true, if_false, if_true, List.mem_cons,
            exists_eq_or_imp, he, false_and, false_or]
          rw [hkeep k hvk he]
          exact ih
    | delete k =>
      unfold lastSet bindings
      cases hvk : valid k with
      | false => simpa using ih
      | true =>
        cases he : eq k key with
        | true =>
          have hg := hgone k hvk he
          simp only [Bool.and_self, if_true]
          refine ⟨fun h => (by cases h), fun h => ?_⟩
          obtain ⟨kv, h1, h2, -⟩ := h
          rw [hg kv h1] at h2
          cases h2
        | false =>
          simp only [Bool.and_false, Bool.false_eq_true, if_false, if_true]
          rw [hkeep k hvk he]
          exact ih

/-- What internal-find finds in a list without bindings of equal keys. -/
theorem internalFind_eq (h : ∀ kv ∈ l, ∀ kv' ∈ l, eq kv.1 key = true → eq kv'.1 key = true → kv.2 = kv'.2)
    {val : V} : (∃ kv ∈ l, eq kv.1 key = true ∧ kv.2 = val) ↔
      (internalFind key eq l).map Prod.snd = some val := by
  induction l with
  | nil => simp [internalFind]
  | cons a l ih =>
    unfold internalFind
    cases ha : eq a.1 key with
    | true =>
      simp only [if_true, Option.map_some, Option.some.injEq]
      constructor
      · rintro ⟨kv, h1, h2, h3⟩
        rw [← h3]
        exact h a (by simp) kv h1 ha h2
      · intro h1
        exact ⟨a, by simp, ha, h1⟩
    | false =>
      simp only [Bool.false_eq_true, if_false]
      rw [← ih fun x hx y hy => h x (by simp [hx]) y (by simp [hy])]
      simp [ha]

/-- A bucket with at most one binding of the key. -/
theorem internalRemove_eq (hp : ∀ kv ∈ l, valid kv.1 = true) (hk : KeyOk hash eq valid)
    (hv : valid key = true) (ha : l.Pairwise (Apart eq)) :
    (internalRemove key eq l).bucket = others eq key l ∧
      (internalRemove key eq l).count = l.length - (others eq key l).length ∧
      ((internalRemove key eq l).same = true → others eq key l = l) := by
  induction l with
  | nil => simp [internalRemove, others]
  | cons a l ih =>
    obtain ⟨h1, h2⟩ := List.pairwise_cons.mp ha
    obtain ⟨i1, i2, i3⟩ := ih (fun kv hkv => hp kv (by simp [hkv])) h2
    unfold internalRemove
    cases hak : eq a.1 key with
    | true =>
      -- the rest has no other binding of the key
      have hrest : others eq key (a :: l) = l := by
        unfold others
        rw [List.filter_cons]
        simp only [hak, Bool.not_true, Bool.false_eq_true, if_false]
        refine List.filter_eq_self.mpr fun kv hkv => ?_
        have hva := hp a (by simp)
        have hvk := hp kv (by simp [hkv])
        cases he : eq kv.1 key with
        | false => rfl
        | true =>
          have h3 := hk.trans a.1 key kv.1 hva hv hvk hak (hk.symm _ _ hvk hv he)
          rw [(h1 kv hkv).1] at h3
          cases h3
      rw [hrest]
      simp
    | false =>
      have hcons : others eq key (a :: l) = a :: others eq key l := by
        simp [others, hak]
      simp only [Bool.false_eq_true, if_false]
      rw [hcons]
      split
      · rename_i hc
        rw [i2] at hc
        have hsub : (others eq key l).Sublist l := List.filter_sublist
        have hl : others eq key l = l := hsub.eq_of_length (by omega)
        rw [hl]
        simp
      · refine ⟨by rw [i1], ?_, by simp⟩
        rw [i2]
        simp

theorem internalSet_eq (hp : ∀ kv ∈ l, valid kv.1 = true) (hk : KeyOk hash eq valid)
    (hv : valid key = true) (ha : l.Pairwise (Apart eq)) (val : V) :
    (internalSet key val eq l).bucket.Perm ((key, val) :: others eq key l) ∧
      (internalSet key val eq l).count = (internalSet key val eq l).bucket.length - l.length ∧
      (internalSet key val eq l).same = false := by
  induction l with
  | nil => simp [internalSet, others]
  | cons a l ih =>
    obtain ⟨h1, h2⟩ := List.pairwise_cons.mp ha
    obtain ⟨i1, i2, i3⟩ := ih (fun kv hkv => hp kv (by simp [hkv])) h2
    have hva := hp a (by simp)
    unfold internalSet
    cases hak : eq key a.1 with
    | true =>
      have hka := hk.symm key a.1 hv hva hak
      have hrest : others eq key (a :: l) = l := by
        unfold others
        rw [List.filter_cons]
        simp only [hka, Bool.not_true, Bool.false_eq_true, if_false]
        refine List.filter_eq_self.mpr fun kv hkv => ?_
        have hvk := hp kv (by simp [hkv])
        cases he : eq kv.1 key with
        | false => rfl
        | true =>
          have h3 := hk.trans kv.1 key a.1 hvk hv hva he hak
          rw [(h1 kv hkv).2] at h3
          cases h3
      rw [hrest]
      simp
    | false =>
      have hka : eq a.1 key = false := by rw [hk.eq_comm hva hv]; exact hak
      have hcons : others eq key (a :: l) = a :: others eq key l := by
        simp [others, hka]
      simp only [Bool.false_eq_true, if_false]
      rw [hcons]
      refine ⟨(i1.cons a).trans (List.Perm.swap _ _ _), ?_, trivial⟩
      rw [i2]
      simp

/-- The shape of a table between operations. -/
structure Shape (hash : K → Int) (eq : K → K → Bool) (valid : K → Bool) (t : Ht K V) : Prop where
  hashKey : t.hashKey = hash
  equalKey : t.equalKey = eq
  validKey : t.validKey = valid
  layout : Layout hash t.segments t.bso t.n
  maxN : t.maxN = 2 * t.bso
  bso : t.bso < t.n
  n : 16 ≤ t.n

/-- The bindings in all buckets. -/
def Ht.entries (t : Ht K V) : List (K × V) := t.segments.flatten.flatten

/-- The table holds the bindings of l. -/
structure Fits (hash : K → Int) (eq : K → K → Bool) (valid : K → Bool) (t : Ht K V) (l : List (K × V)) :
    Prop extends Shape hash eq valid t where
  entries : t.entries.Perm l
  size : t.size = l.length
  assoc : Assoc eq valid l

variable {t : Ht K V}

theorem Shape.getSlot (h : Shape hash eq valid t) (key : K) :
    t.getSlot key = slot t.bso t.n (hash key) + 1 := by
  have h0 := h.layout.pos
  unfold Ht.getSlot slot
  rw [h.hashKey, h.maxN, phash_eq hash key (by omega)]
  dsimp only
  split <;> split <;> omega

/-- The bucket of a key, and what the other buckets hold. -/
theorem Fits.bucket (h : Fits hash eq valid t l) (hk : KeyOk hash eq valid) (hv : valid key = true) :
    ∃ (i : Nat) (b : Bucket K V), t.getSlot key = i + 1 ∧ t.segments.flatten[i]? = some b ∧
      slot t.bso t.n (hash key) = i ∧ l.Perm (b ++ (t.segments.flatten.set i []).flatten) ∧
      ∀ kv ∈ (t.segments.flatten.set i []).flatten, eq kv.1 key = false := by
  have h0 := h.layout.pos
  have h1 := slot_nonneg (h := hash key) h0 h.layout.lo
  have h2 := slot_lt (h := hash key) h0 h.layout.lo
  have h3 := h.layout.hi
  obtain ⟨i, b, hi, hb⟩ := h.layout.bucket h1 (by omega)
  have hp : l.Perm (b ++ (t.segments.flatten.set i []).flatten) := h.entries.symm.trans (flatten_perm hb)
  refine ⟨i, b, by rw [h.getSlot, hi], hb, hi.symm, hp, fun kv hkv => ?_⟩
  obtain ⟨k, c, hki, hc, hkc⟩ := mem_flatten_set_nil hkv
  have h4 := h.layout.placed k c hc kv hkc
  have hvk := h.assoc.valid kv (hp.mem_iff.mpr (List.mem_append_right _ hkv))
  cases he : eq kv.1 key with
  | false => rfl
  | true =>
    rw [hk.hash _ _ hvk hv he] at h4
    omega

theorem others_append (key : K) (l₁ l₂ : List (K × V)) :
    others eq key (l₁ ++ l₂) = others eq key l₁ ++ others eq key l₂ := List.filter_append ..

theorem others_eq_self (h : ∀ kv ∈ l, eq kv.1 key = false) : others eq key l = l :=
  List.filter_eq_self.mpr fun kv hkv => by simp [h kv hkv]

theorem Fits.maybeExpand (h : Shape hash eq valid t) {segs : Segments K V} (size : Int)
    (hl : Layout hash segs t.bso t.n) :
    ∃ t', t.maybeExpand size segs = .ok t' ∧ Shape hash eq valid t' ∧ t'.size = size ∧
      t'.entries.Perm segs.flatten.flatten := by
  have h0 := hl.pos
  have hn := h.n
  have hb := h.bso
  unfold Ht.maybeExpand
  split
  · by_cases hfull : t.n = t.maxN
    · -- every slot is in use
      have hfull' : t.n = 2 * t.bso := by rw [hfull, h.maxN]
      rw [hfull'] at hl
      obtain ⟨segs₀, he, hl₀, hf₀⟩ := hl.double
      obtain ⟨b, b₁, b₂, segs₁, segs₂, h1, h2, h3, h4, h5, h6⟩ := hl₀.split (by omega)
      rw [← hfull'] at h1 h2 h3 h4 h5
      rw [if_pos hfull, he, ok_bind, pure_ok, ok_bind]
      dsimp only
      rw [show t.n + 1 - 2 * t.bso = t.n + 1 - t.n from by omega, h1, ok_bind, h.hashKey, h.maxN,
        ← hfull', h2, ok_bind, h3, ok_bind, h4, ok_bind]
      refine ⟨_, rfl, ⟨rfl, h.equalKey, h.validKey, h5, ?_, ?_, ?_⟩, rfl, by rw [← hf₀]; exact h6⟩
      · rfl
      · simp
      · dsimp only
        omega
    · have hlt : t.n < 2 * t.bso := by
        have := hl.hi
        rw [h.maxN] at hfull
        omega
      obtain ⟨b, b₁, b₂, segs₁, segs₂, h1, h2, h3, h4, h5, h6⟩ := hl.split hlt
      rw [if_neg hfull, pure_ok, ok_bind]
      dsimp only
      rw [h1, ok_bind, h.hashKey, h.maxN, h2, ok_bind, h3, ok_bind, h4, ok_bind]
      refine ⟨_, rfl, ⟨rfl, h.equalKey, h.validKey, h5, rfl, ?_, ?_⟩, rfl, h6⟩
      · dsimp only
        omega
      · dsimp only
        omega
  · exact ⟨_, rfl, ⟨h.hashKey, h.equalKey, h.validKey, hl, h.maxN, h.bso, h.n⟩, rfl, .refl _⟩

theorem Fits.maybeContract (h : Shape hash eq valid t) {segs : Segments K V} (size : Int)
    (hl : Layout hash segs t.bso t.n) :
    ∃ t', t.maybeContract size segs false = .ok t' ∧ Shape hash eq valid t' ∧ t'.size = size ∧
      t'.entries.Perm segs.flatten.flatten := by
  have h0 := hl.pos
  have hn := h.n
  unfold Ht.maybeContract
  rw [if_neg (by simp)]
  split
  · rename_i hc
    have hgt : 16 < t.n := hc.2
    obtain ⟨b₁, b₂, segs₁, segs₂, h1, h2, h3, h4, h5, h6⟩ := hl.merge h.bso
    dsimp only
    rw [h1, ok_bind, h2, ok_bind, h3, ok_bind, h4, ok_bind]
    by_cases hlast : t.n - 1 = t.bso
    · -- the upper half is empty now
      rw [hlast] at h5
      obtain ⟨segs₃, he, hl₃, hf₃⟩ := h5.halve (by omega)
      have heven : t.bso = 2 * (t.bso / 2) := by
        obtain ⟨j, _, hj⟩ := hl₃.size
        obtain ⟨a, _, ha⟩ := h5.size
        have := hl₃.hi
        omega
      rw [if_pos hlast, he, ok_bind]
      refine ⟨_, rfl, ⟨h.hashKey, h.equalKey, h.validKey, by dsimp only; rw [hlast]; exact hl₃, ?_, ?_, ?_⟩,
        rfl, ?_⟩
      · dsimp only
        rw [h.maxN]
        omega
      · dsimp only
        omega
      · dsimp only
        omega
      · unfold Ht.entries
        rw [hf₃]
        exact h6
    · rw [if_neg hlast]
      refine ⟨_, rfl, ⟨h.hashKey, h.equalKey, h.validKey, h5, h.maxN, ?_, ?_⟩, rfl, h6⟩
      · have := h.bso
        dsimp only
        omega
      · dsimp only
        omega
  · exact ⟨_, rfl, ⟨h.hashKey, h.equalKey, h.validKey, hl, h.maxN, h.bso, h.n⟩, rfl, .refl _⟩

/-- ht:set. -/
theorem Fits.set (h : Fits hash eq valid t l) (hk : KeyOk hash eq valid) (hv : valid key = true) (val : V) :
    ∃ t', t.set key val = .ok t' ∧ Fits hash eq valid t' ((key, val) :: others eq key l) := by
  obtain ⟨i, b, hs, hb, hslot, hp, hoth⟩ := h.bucket hk hv
  have hab : Assoc eq valid (b ++ (t.segments.flatten.set i []).flatten) := h.assoc.perm hp
  obtain ⟨hi, _⟩ := List.getElem?_eq_some_iff.mp hb
  obtain ⟨c1, c2, c3⟩ := internalSet_eq (fun kv hkv => hab.valid kv (List.mem_append_left _ hkv)) hk hv
    (List.pairwise_append.mp hab.apart).1 val
  obtain ⟨segs, ho, hu, hlen, hf⟩ := onBucket_ok h.layout.uniform hb (internalSet key val eq)
  rw [c3] at ho hf
  simp only [Bool.false_eq_true, if_false] at hf
  have hl : Layout hash segs t.bso t.n := by
    refine h.layout.update hu hlen hf fun kv hkv => ?_
    rcases List.mem_cons.mp (c1.mem_iff.mp hkv) with rfl | h1
    · exact hslot
    · exact h.layout.placed i b hb kv (mem_others.mp h1).1
  have hentries : segs.flatten.flatten.Perm ((key, val) :: others eq key l) := by
    rw [hf]
    refine (flatten_set_perm hi _).trans ((c1.append_right _).trans ?_)
    rw [List.cons_append]
    refine List.Perm.cons _ ?_
    have h1 : (others eq key l).Perm (others eq key (b ++ (t.segments.flatten.set i []).flatten)) :=
      hp.filter _
    rw [others_append, others_eq_self hoth] at h1
    exact h1.symm
  have hsize : t.size + (internalSet key val eq b).count = ((key, val) :: others eq key l).length := by
    have h1 := hentries.length_eq
    have h2 := (flatten_set_perm hi (internalSet key val eq b).bucket).length_eq
    have h3 := hp.length_eq
    rw [← hf, List.length_append] at h2
    rw [List.length_append] at h3
    rw [h.size, c2, h3, ← h1, h2]
    push_cast
    omega
  obtain ⟨t', h1, h2, h3, h4⟩ := Fits.maybeExpand h.toShape (t.size + (internalSet key val eq b).count) hl
  refine ⟨t', ?_, h2, h4.trans hentries, h3.trans hsize, h.assoc.cons hk hv val⟩
  unfold Ht.set
  rw [h.validKey, hv, hs, h.equalKey, ho]
  simpa using h1

/-- ht:delete. -/
theorem Fits.delete (h : Fits hash eq valid t l) (hk : KeyOk hash eq valid) (hv : valid key = true) :
    ∃ t', t.delete key = .ok t' ∧ Fits hash eq valid t' (others eq key l) := by
  obtain ⟨i, b, hs, hb, hslot, hp, hoth⟩ := h.bucket hk hv
  have hab : Assoc eq valid (b ++ (t.segments.flatten.set i []).flatten) := h.assoc.perm hp
  obtain ⟨hi, _⟩ := List.getElem?_eq_some_iff.mp hb
  obtain ⟨c1, c2, c3⟩ := internalRemove_eq (fun kv hkv => hab.valid kv (List.mem_append_left _ hkv)) hk hv
    (List.pairwise_append.mp hab.apart).1
  obtain ⟨segs, ho, hu, hlen, hf⟩ := onBucket_ok h.layout.uniform hb (internalRemove key eq)
  have hrest : (others eq key l).Perm (others eq key b ++ (t.segments.flatten.set i []).flatten) := by
    have h1 : (others eq key l).Perm (others eq key (b ++ (t.segments.flatten.set i []).flatten)) :=
      hp.filter _
    rwa [others_append, others_eq_self hoth] at h1
  have hrun : t.delete key = t.maybeContract (t.size - (internalRemove key eq b).count) segs
      (internalRemove key eq b).same := by
    unfold Ht.delete
    rw [h.validKey, hv, hs, h.equalKey, ho]
    rfl
  cases hsame : (internalRemove key eq b).same with
  | true =>
    -- there is no binding of the key
    rw [hrun, hsame]
    refine ⟨t, by simp [Ht.maybeContract], ?_⟩
    rw [c3 hsame] at hrest
    have hself : (others eq key l).Perm l := hrest.trans hp.symm
    exact ⟨h.toShape, h.entries.trans hself.symm, by rw [hself.length_eq]; exact h.size, h.assoc.others key⟩
  | false =>
    rw [hsame] at hf hrun
    simp only [Bool.false_eq_true, if_false] at hf
    have hl : Layout hash segs t.bso t.n := by
      refine h.layout.update hu hlen hf fun kv hkv => ?_
      rw [c1] at hkv
      exact h.layout.placed i b hb kv (mem_others.mp hkv).1
    have hentries : segs.flatten.flatten.Perm (others eq key l) := by
      rw [hf, c1]
      exact (flatten_set_perm hi _).trans hrest.symm
    have hsize : t.size - (internalRemove key eq b).count = (others eq key l).length := by
      have h1 := hrest.length_eq
      have h2 := hp.length_eq
      rw [List.length_append] at h1 h2
      rw [h.size, c2, h1, h2]
      push_cast
      omega
    obtain ⟨t', h1, h2, h3, h4⟩ :=
      Fits.maybeContract h.toShape (t.size - (internalRemove key eq b).count) hl
    exact ⟨t', hrun.trans h1, h2, h4.trans hentries, h3.trans hsize, h.assoc.others key⟩

theorem Assoc.unique (h : Assoc eq valid l) (hk : KeyOk hash eq valid) (hv : valid key = true) :
    ∀ kv ∈ l, ∀ kv' ∈ l, eq kv.1 key = true → eq kv'.1 key = true → kv.2 = kv'.2 := by
  intro a ha b hb h1 h2
  by_contra hne
  have hab : a ≠ b := fun he => hne (by rw [he])
  have h3 := (h.apart.forall ha hb hab).1
  have h4 := hk.trans a.1 key b.1 (h.valid a ha) hv (h.valid b hb) h1
    (hk.symm b.1 key (h.valid b hb) hv h2)
  rw [h3] at h4
  cases h4

/-- ht:ref. -/
theorem Fits.ref (h : Fits hash eq valid t l) (hk : KeyOk hash eq valid) (hv : valid key = true) :
    ∃ o : Option V, (∀ default, t.ref key default = .ok (o.getD default)) ∧
      ∀ val, o = some val ↔ ∃ kv ∈ l, eq kv.1 key = true ∧ kv.2 = val := by
  obtain ⟨i, b, hs, hb, _, hp, hoth⟩ := h.bucket hk hv
  have hab : Assoc eq valid (b ++ (t.segments.flatten.set i []).flatten) := h.assoc.perm hp
  refine ⟨(internalFind key eq b).map Prod.snd, fun default => ?_, fun val => ?_⟩
  · unfold Ht.ref
    rw [h.validKey, hv, hs, h.equalKey, getBucketS_ok h.layout.uniform hb, ok_bind]
    cases internalFind key eq b <;> rfl
  · rw [← internalFind_eq fun kv hkv kv' hkv' => hab.unique hk hv kv (by simp [hkv]) kv' (by simp [hkv'])]
    constructor
    · rintro ⟨kv, h1, h2⟩
      exact ⟨kv, hp.mem_iff.mpr (List.mem_append_left _ h1), h2⟩
    · rintro ⟨kv, h1, h2, h3⟩
      rcases List.mem_append.mp (hp.mem_iff.mp h1) with h4 | h4
      · exact ⟨kv, h4, h2, h3⟩
      · rw [hoth kv h4] at h2
        cases h2

section Fold

variable {α : Type} (f : K → V → α → α)

theorem foldBucket_eq (b : Bucket K V) (acc : α) :
    Ht.foldBucket f acc b = b.foldl (fun acc kv => f kv.1 kv.2 acc) acc := by
  induction b generalizing acc with
  | nil => rfl
  | cons kv b ih => exact ih _

/-- The buckets of a segment are visited from the last to the first. -/
theorem foldSegment_eq (seg : List (Bucket K V)) (i : Nat) (hi : i ≤ seg.length) (acc : α) :
    Ht.foldSegment f seg i acc =
      .ok ((seg.take i).reverse.flatten.foldl (fun acc kv => f kv.1 kv.2 acc) acc) := by
  induction i generalizing acc with
  | zero => rfl
  | succ i ih =>
    have hlt : i < seg.length := hi
    have hget : seg[i]? = some seg[i] := List.getElem?_eq_getElem hlt
    rw [Ht.foldSegment, element_ok hget, ok_bind, ih (by omega), foldBucket_eq,
      List.take_succ_eq_append_getElem hlt, List.reverse_append]
    simp [List.foldl_append]

/-- The order in which ht:fold visits the bindings. -/
def visits (segs : Segments K V) : List (K × V) :=
  (segs.reverse.map fun seg => seg.reverse.flatten).flatten

theorem visits_concat (segs : Segments K V) (seg : List (Bucket K V)) :
    visits (segs ++ [seg]) = seg.reverse.flatten ++ visits segs := by
  unfold visits
  rw [List.reverse_append]
  rfl

theorem foldSegments_eq (segs : Segments K V) (i : Nat) (hi : i ≤ segs.length) (acc : α) :
    Ht.foldSegments f segs i acc =
      .ok ((visits (segs.take i)).foldl (fun acc kv => f kv.1 kv.2 acc) acc) := by
  induction i generalizing acc with
  | zero => rfl
  | succ i ih =>
    have hlt : i < segs.length := hi
    have hget : segs[i]? = some segs[i] := List.getElem?_eq_getElem hlt
    rw [Ht.foldSegments, element_ok hget, ok_bind, foldSegment_eq f _ _ (Nat.le_refl _), ok_bind,
      ih (by omega), List.take_length, List.take_succ_eq_append_getElem hlt, visits_concat,
      List.foldl_append]

theorem visits_perm (segs : Segments K V) : (visits segs).Perm segs.flatten.flatten := by
  unfold visits
  rw [List.flatten_flatten]
  have h1 : (segs.reverse.map fun seg => seg.reverse.flatten).Perm
      (segs.map fun seg => seg.reverse.flatten) := (List.reverse_perm segs).map _
  refine h1.flatten.trans ?_
  clear h1
  induction segs with
  | nil => exact .refl _
  | cons seg segs ih =>
    rw [List.map_cons, List.map_cons, List.flatten_cons, List.flatten_cons]
    exact ((List.reverse_perm seg).flatten).append ih

/-- ht:fold. -/
theorem Ht.fold_eq (t : Ht K V) (init : α) :
    t.fold f init = .ok ((visits t.segments).foldl (fun acc kv => f kv.1 kv.2 acc) init) := by
  unfold Ht.fold
  rw [foldSegments_eq f _ _ (Nat.le_refl _), List.take_length]

end Fold

/-- ht:keys. -/
theorem Ht.keys_eq (t : Ht K V) : t.keys = .ok ((visits t.segments).map Prod.fst).reverse := by
  unfold Ht.keys
  rw [Ht.fold_eq]
  have h : ∀ (l : List (K × V)) acc,
      l.foldl (fun acc kv => kv.1 :: acc) acc = (l.map Prod.fst).reverse ++ acc := by
    intro l
    induction l with
    | nil => simp
    | cons kv l ih => simp [ih]
  rw [h, List.append_nil]

theorem make_fits : Fits hash eq valid (make hash eq valid : Ht K V) [] := by
  have hflat : ∀ (i : Nat) b, ((emptySegments : Segments K V).flatten)[i]? = some b → b = [] := by
    intro i b hb
    have hm : b ∈ (emptySegments : Segments K V).flatten := List.mem_of_getElem? hb
    obtain ⟨seg, h1, h2⟩ := List.mem_flatten.mp hm
    rw [List.mem_singleton.mp h1] at h2
    exact (List.mem_replicate.mp h2).2
  have hbso : (make hash eq valid : Ht K V).bso = 8 := rfl
  have hn : (make hash eq valid : Ht K V).n = 16 := rfl
  have hmax : (make hash eq valid : Ht K V).maxN = 16 := rfl
  refine ⟨⟨rfl, rfl, rfl, ⟨fun seg hs => ?_, ⟨0, rfl, rfl⟩, by omega, by omega, fun i b hb kv hkv => ?_⟩,
    by omega, by omega, by omega⟩, ?_, rfl, by simp, .nil⟩
  · rw [List.mem_singleton.mp hs]
    rfl
  · rw [hflat i b hb] at hkv
    cases hkv
  · exact .refl _

theorem Fits.step (h : Fits hash eq valid t l) (hk : KeyOk hash eq valid) {ops : List (Op K V)}
    (hl : l = bindings eq valid ops) (op : Op K V) :
    ∃ t', t.step op = .ok t' ∧ Fits hash eq valid t' (bindings eq valid (op :: ops)) := by
  subst hl
  cases op with
  | set key val =>
    unfold bindings Ht.step
    dsimp only
    cases hv : valid key with
    | true =>
      obtain ⟨t', h1, h2⟩ := h.set hk hv val
      exact ⟨t', by rw [h1], h2⟩
    | false =>
      have h1 : t.set key val = .error (.badArg .set key) := by
        unfold Ht.set
        rw [h.validKey, hv]
        rfl
      exact ⟨t, by rw [h1], h⟩
  | delete key =>
    unfold bindings Ht.step
    dsimp only
    cases hv : valid key with
    | true =>
      obtain ⟨t', h1, h2⟩ := h.delete hk hv
      exact ⟨t', by rw [h1], h2⟩
    | false =>
      have h1 : t.delete key = .error (.badArg .delete key) := by
        unfold Ht.delete
        rw [h.validKey, hv]
        rfl
      exact ⟨t, by rw [h1], h⟩

theorem Fits.run {done : List (Op K V)} (h : Fits hash eq valid t (bindings eq valid done))
    (hk : KeyOk hash eq valid) (ops : List (Op K V)) :
    ∃ t', t.run ops = .ok t' ∧ Fits hash eq valid t' (bindings eq valid (ops.reverse ++ done)) := by
  induction ops generalizing t done with
  | nil => exact ⟨t, rfl, h⟩
  | cons op ops ih =>
    obtain ⟨t₁, h1, h2⟩ := h.step hk rfl op
    obtain ⟨t₂, h3, h4⟩ := ih h2
    refine ⟨t₂, by rw [Ht.run, h1, ok_bind, h3], ?_⟩
    simpa using h4

/-- After any operations the table answers as the history of the operations
says, and the bindings it visits are those of the keys that are present, one for
each. No assertion fails and no index is out of range: the run ends well. -/
theorem ht_refines_map (hk : KeyOk hash eq valid) (ops : List (Op K V)) :
    ∃ t, (make hash eq valid : Ht K V).run ops = .ok t ∧
      (∀ key default, valid key = true →
        t.ref key default = .ok ((lastSet eq valid ops.reverse key).getD default)) ∧
      ∃ l : List (K × V),
        (∀ kv ∈ l, valid kv.1 = true ∧ lastSet eq valid ops.reverse kv.1 = some kv.2) ∧
        (∀ key, valid key = true → (lastSet eq valid ops.reverse key).isSome = true →
          ∃ kv ∈ l, eq kv.1 key = true) ∧
        l.Pairwise (fun a b => eq a.1 b.1 = false) ∧
        t.size = l.length ∧
        (∀ (α : Type) (f : K → V → α → α) (init : α),
          t.fold f init = .ok (l.foldl (fun acc kv => f kv.1 kv.2 acc) init)) ∧
        t.keys = .ok (l.map Prod.fst).reverse := by
  have hstart : Fits hash eq valid (make hash eq valid : Ht K V) (bindings eq valid []) := make_fits
  obtain ⟨t, hrun, hfit⟩ := hstart.run hk ops
  rw [List.append_nil] at hfit
  have hp : (visits t.segments).Perm (bindings eq valid ops.reverse) :=
    (visits_perm t.segments).trans hfit.entries
  have hassoc := hfit.assoc.perm hp.symm
  refine ⟨t, hrun, fun key default hv => ?_, visits t.segments, fun kv hkv => ?_, fun key hv hs => ?_, ?_,
    ?_, fun α f init => t.fold_eq f init, t.keys_eq⟩
  · obtain ⟨o, h1, h2⟩ := hfit.ref hk hv
    have ho : o = lastSet eq valid ops.reverse key :=
      Option.ext fun val => (h2 val).trans (mem_bindings hk ops.reverse hv val).symm
    rw [h1, ho]
  · have hv := hassoc.valid kv hkv
    exact ⟨hv, (mem_bindings hk ops.reverse hv kv.2).mpr ⟨kv, hp.mem_iff.mp hkv, hk.refl kv.1 hv, rfl⟩⟩
  · obtain ⟨val, hval⟩ := Option.isSome_iff_exists.mp hs
    obtain ⟨kv, h1, h2, _⟩ := (mem_bindings hk ops.reverse hv val).mp hval
    exact ⟨kv, hp.mem_iff.mpr h1, h2⟩
  · exact hassoc.apart.imp fun h => h.1
  · rw [hfit.size, hp.length_eq]

/-- Keys that hash alike, one of which is deleted and one set again. -/
theorem ht_refines_map_numbers : ∃ t : Ht Nat Nat,
    (make (fun k : Nat => (k : Int)) (fun a b => a = b) (fun k => k < 100)).run
      [.set 1 10, .set 17 20, .set 200 5, .set 33 30, .delete 1, .set 17 21] = .ok t ∧
    t.ref 17 0 = .ok 21 ∧ t.ref 1 0 = .ok 0 := by
  have hk : KeyOk (fun k : Nat => (k : Int)) (fun a b => a = b) (fun k => k < 100) :=
    ⟨by simp, by simp; omega, by simp; omega, by simp⟩
  obtain ⟨t, h1, h2, _⟩ := ht_refines_map hk
    [.set 1 10, .set 17 20, .set 200 5, .set 33 30, .delete 1, .set 17 21]
  exact ⟨t, h1, h2 17 0 (by decide), h2 1 0 (by decide)⟩

end Swish.HashTable
