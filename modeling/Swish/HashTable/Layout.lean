import Swish.HashTable.Table
import Swish.Lib.LinearHashing

/-!
Where the buckets are: the operations on segments, and the growing and shrinking
of the table by one slot.
-/

set_option autoImplicit false

namespace Swish.HashTable
open LinearHashing

variable {K V α : Type}

@[simp] theorem ok_bind {ε β : Type} (a : α) (f : α → Except ε β) : (Except.ok a >>= f) = f a := rfl

@[simp] theorem error_bind {ε β : Type} (e : ε) (f : α → Except ε β) :
    (Except.error e >>= f) = Except.error e := rfl

@[simp] theorem pure_ok {ε : Type} (a : α) : (pure a : Except ε α) = .ok a := rfl

theorem vectorRef_ok {v : List α} {i : Nat} {x : α} (h : v[i]? = some x) :
    vectorRef (K := K) v i = .ok x := by
  unfold vectorRef
  rw [if_pos (by omega), Int.toNat_natCast, h]

theorem vectorSet_ok {v : List α} {i : Nat} (h : i < v.length) (x : α) :
    vectorSet (K := K) v i x = .ok (v.set i x) := by
  unfold vectorSet
  rw [Int.toNat_natCast, if_pos ⟨by omega, h⟩]

theorem element_ok {v : List α} {i : Nat} {x : α} (h : v[i]? = some x) :
    element (K := K) (i + 1) v = .ok x := by
  unfold element
  rw [Int.add_sub_cancel]
  exact vectorRef_ok h

theorem setElement_ok {v : List α} {i : Nat} (h : i < v.length) (x : α) :
    setElement (K := K) (i + 1) v x = .ok (v.set i x) := by
  unfold setElement
  rw [Int.add_sub_cancel]
  exact vectorSet_ok h x

theorem segIndex_eq (i : Nat) : segIndex (i + 1) = ((i / 16 : Nat) : Int) + 1 := by
  unfold segIndex segSize
  omega

theorem bucketIndex_eq (i : Nat) : bucketIndex (i + 1) = ((i % 16 : Nat) : Int) + 1 := by
  unfold bucketIndex segSize
  rw [Int.add_sub_cancel, Int.tmod_eq_emod_of_nonneg (by omega)]
  omega

variable {segs : Segments K V} {i : Nat} {b : Bucket K V}

/-- The segment and the place in it of slot i. -/
theorem Uniform.segment (h : Uniform 16 segs) (hb : segs.flatten[i]? = some b) :
    ∃ seg, segs[i / 16]? = some seg ∧ seg[i % 16]? = some b ∧ seg.length = 16 := by
  obtain ⟨hi, _⟩ := List.getElem?_eq_some_iff.mp hb
  rw [h.length] at hi
  have hlt : i / 16 < segs.length := by omega
  have hseg : segs[i / 16]? = some segs[i / 16] := List.getElem?_eq_getElem hlt
  refine ⟨segs[i / 16], hseg, ?_, h _ (List.getElem_mem hlt)⟩
  rw [← h.getElem? (Nat.mod_lt i (by omega)) hseg, Nat.div_add_mod]
  exact hb

theorem getBucketS_ok (h : Uniform 16 segs) (hb : segs.flatten[i]? = some b) :
    getBucketS segs (i + 1) = .ok b := by
  obtain ⟨seg, h1, h2, _⟩ := Uniform.segment h hb
  unfold getBucketS
  rw [segIndex_eq, bucketIndex_eq, element_ok h1, ok_bind, element_ok h2]

theorem putBucketS_ok (h : Uniform 16 segs) (hb : segs.flatten[i]? = some b) (b' : Bucket K V) :
    ∃ segs', putBucketS segs (i + 1) b' = .ok segs' ∧ Uniform 16 segs' ∧
      segs'.length = segs.length ∧ segs'.flatten = segs.flatten.set i b' := by
  obtain ⟨seg, h1, h2, h3⟩ := Uniform.segment h hb
  obtain ⟨hlt, _⟩ := List.getElem?_eq_some_iff.mp h1
  have hm : i % 16 < 16 := Nat.mod_lt i (by omega)
  refine ⟨segs.set (i / 16) (seg.set (i % 16) b'), ?_, h.set (by simpa using h3), by simp, ?_⟩
  · unfold putBucketS
    rw [segIndex_eq, bucketIndex_eq, element_ok h1, ok_bind, setElement_ok (by omega), ok_bind,
      setElement_ok hlt]
  · rw [h.flatten_set hm h1, Nat.div_add_mod]

theorem onBucket_ok (h : Uniform 16 segs) (hb : segs.flatten[i]? = some b)
    (f : Bucket K V → Change K V) :
    ∃ segs', onBucket f segs (i + 1) = .ok (segs', (f b).count, (f b).same) ∧ Uniform 16 segs' ∧
      segs'.length = segs.length ∧
      segs'.flatten = if (f b).same then segs.flatten else segs.flatten.set i (f b).bucket := by
  obtain ⟨seg, h1, h2, h3⟩ := Uniform.segment h hb
  obtain ⟨hlt, _⟩ := List.getElem?_eq_some_iff.mp h1
  have hm : i % 16 < 16 := Nat.mod_lt i (by omega)
  unfold onBucket
  rw [segIndex_eq, bucketIndex_eq, element_ok h1, ok_bind, element_ok h2, ok_bind]
  cases hs : (f b).same with
  | true => exact ⟨segs, by simp [hs], h, rfl, by simp⟩
  | false =>
    refine ⟨segs.set (i / 16) (seg.set (i % 16) (f b).bucket), ?_, h.set (by simpa using h3),
      by simp, ?_⟩
    · simp only [hs, Bool.false_eq_true, if_false]
      rw [setElement_ok (by omega), ok_bind, setElement_ok hlt, ok_bind, pure_ok]
    · simp only [Bool.false_eq_true, if_false]
      rw [h.flatten_set hm h1, Nat.div_add_mod]

/-- The loop has copied the segments up to i into v. -/
theorem copySegments_ok (segs : Segments K V) (k : Nat) {i : Nat} {v : Segments K V}
    (h1 : i + k ≤ segs.length) (h2 : i + k ≤ v.length) (h3 : v.take i = segs.take i) :
    copySegments segs k i v = .ok (segs.take (i + k) ++ v.drop (i + k)) := by
  induction k generalizing i v with
  | zero => rw [copySegments, Nat.add_zero, ← h3, List.take_append_drop]
  | succ k ih =>
    have hi : i < segs.length := by omega
    have hv : i < v.length := by omega
    have hseg : segs[i]? = some segs[i] := List.getElem?_eq_getElem hi
    have hnext : (v.set i segs[i]).take (i + 1) = segs.take (i + 1) := by
      rw [List.take_succ_eq_append_getElem hi, ← h3, List.take_succ_eq_append_getElem (by simpa using hv),
        List.take_set_of_le (Nat.le_refl i)]
      simp
    have h4 := ih (i := i + 1) (v := v.set i segs[i]) (by omega) (by simp; omega) hnext
    rw [copySegments, vectorRef_ok hseg, ok_bind, vectorSet_ok hv, ok_bind]
    rw [show ((i : Int) + 1) = ((i + 1 : Nat) : Int) from by omega, h4,
      List.drop_set_of_lt (by omega)]
    rw [show i + 1 + k = i + (k + 1) from by omega]

theorem expandSegments_ok (segs : Segments K V) :
    expandSegments segs = .ok (segs ++ List.replicate segs.length empty) := by
  have h := copySegments_ok segs segs.length (i := 0)
    (v := List.replicate (segs.length * 2) (empty : List (Bucket K V))) (by omega)
    (by simp; omega) (by simp)
  unfold expandSegments
  rw [Int.natCast_zero] at h
  rw [h]
  simp only [Nat.zero_add, List.take_length, List.drop_replicate]
  rw [show segs.length * 2 - segs.length = segs.length from by omega]

theorem contractSegments_ok (segs : Segments K V) :
    contractSegments segs = .ok (segs.take (segs.length / 2)) := by
  have h := copySegments_ok segs (segs.length / 2) (i := 0)
    (v := List.replicate (segs.length / 2) ([] : List (Bucket K V))) (by omega) (by simp) (by simp)
  unfold contractSegments
  rw [Int.natCast_zero] at h
  rw [h]
  simp

theorem phash_eq (hash : K → Int) (key : K) {range : Int} (h : 0 ≤ range) :
    phash hash key range = hash key % range + 1 := by
  unfold phash
  rw [Int.fmod_eq_emod_of_nonneg _ h]

/-- The assertion holds when every key belongs to one of the two slots. -/
theorem rehash_ok {slot1 slot2 maxN : Int} {hash : K → Int} (b : Bucket K V)
    (h : ∀ kv ∈ b, phash hash kv.1 maxN = slot1 ∨ phash hash kv.1 maxN = slot2) :
    rehash slot1 slot2 maxN hash b =
      .ok (b.filter fun kv => phash hash kv.1 maxN = slot1, b.filter fun kv => ¬ phash hash kv.1 maxN = slot1) := by
  induction b with
  | nil => rfl
  | cons kv b ih =>
    rw [rehash, ih fun x hx => h x (by simp [hx]), ok_bind]
    by_cases h1 : phash hash kv.1 maxN = slot1
    · simp [h1]
    · have h2 := (h kv (by simp)).resolve_left h1
      dsimp only
      rw [if_neg h1, if_pos h2]
      simp [h1]

/-- A table of n active slots, half of them or more below the buddy offset. The
offset is also half of what the segments hold. -/
structure Layout (hash : K → Int) (segs : Segments K V) (bso n : Int) : Prop where
  uniform : Uniform 16 segs
  size : ∃ j : Nat, segs.length = 2 ^ j ∧ bso = 8 * 2 ^ j
  lo : bso ≤ n
  hi : n ≤ 2 * bso
  placed : ∀ (i : Nat) b, segs.flatten[i]? = some b → ∀ kv ∈ b, slot bso n (hash kv.1) = i

namespace Layout

variable {hash : K → Int} {bso n : Int}

theorem pos (h : Layout hash segs bso n) : 0 < bso := by
  obtain ⟨j, _, h2⟩ := h.size
  have : (0 : Int) < 2 ^ j := by positivity
  omega

theorem length (h : Layout hash segs bso n) : (segs.flatten.length : Int) = 2 * bso := by
  obtain ⟨j, h1, h2⟩ := h.size
  rw [h.uniform.length, h1, h2]
  push_cast
  omega

/-- Every slot below the end has a bucket. -/
theorem bucket (h : Layout hash segs bso n) {x : Int} (h0 : 0 ≤ x) (hx : x < 2 * bso) :
    ∃ (i : Nat) (b : Bucket K V), (i : Int) = x ∧ segs.flatten[i]? = some b := by
  have hlen := h.length
  have hi : x.toNat < segs.flatten.length := by omega
  exact ⟨x.toNat, segs.flatten[x.toNat], by omega, List.getElem?_eq_getElem hi⟩

/-- The slots that are not in use are empty. -/
theorem unused (h : Layout hash segs bso n) {i : Nat} {b : Bucket K V} (hi : n ≤ i)
    (hb : segs.flatten[i]? = some b) : b = [] := by
  cases b with
  | nil => rfl
  | cons kv b =>
    have h1 := h.placed i _ hb kv (by simp)
    have h2 := slot_lt (h := hash kv.1) h.pos h.lo
    omega

/-- One bucket is replaced by one whose keys belong there. -/
theorem update (h : Layout hash segs bso n) {segs' : Segments K V} {i : Nat} {b : Bucket K V}
    (hu : Uniform 16 segs') (hl : segs'.length = segs.length)
    (hf : segs'.flatten = segs.flatten.set i b) (hb : ∀ kv ∈ b, slot bso n (hash kv.1) = i) :
    Layout hash segs' bso n := by
  refine ⟨hu, by rw [hl]; exact h.size, h.lo, h.hi, fun k c hc kv hkv => ?_⟩
  rw [hf, List.getElem?_set] at hc
  split at hc
  · rename_i hik
    split at hc
    · cases hc
      rw [← hik]
      exact hb kv hkv
    · cases hc
  · exact h.placed k c hc kv hkv

/-- What the segments look like after one more slot has been opened. -/
theorem split (h : Layout hash segs bso n) (hn : n < 2 * bso) :
    ∃ b b₁ b₂ segs₁ segs₂, getBucketS segs (n + 1 - bso) = .ok b ∧
      rehash (n + 1 - bso) (n + 1) (2 * bso) hash b = .ok (b₁, b₂) ∧
      putBucketS segs (n + 1 - bso) b₁ = .ok segs₁ ∧ putBucketS segs₁ (n + 1) b₂ = .ok segs₂ ∧
      Layout hash segs₂ bso (n + 1) ∧ segs₂.flatten.flatten.Perm segs.flatten.flatten := by
  have h0 := h.pos
  have hlo := h.lo
  obtain ⟨i, b, hi, hb⟩ := h.bucket (x := n - bso) (by omega) (by omega)
  obtain ⟨j, e, hj, he⟩ := h.bucket (x := n) (by omega) hn
  have hnil : e = [] := h.unused (by omega) he
  subst hnil
  have hij : i ≠ j := by omega
  have hslot : n + 1 - bso = (i : Int) + 1 := by omega
  have hph : ∀ kv ∈ b, phash hash kv.1 (2 * bso) = (i : Int) + 1 ∨ phash hash kv.1 (2 * bso) = n + 1 := by
    intro kv hkv
    rw [phash_eq hash kv.1 (by omega)]
    have h1 := h.placed i b hb kv hkv
    rcases slot_eq_buddy (by omega : slot bso n (hash kv.1) = n - bso) with h2 | h2
    · exact .inl (by omega)
    · exact .inr (by omega)
  have hre := rehash_ok b hph
  generalize hb₁ : (b.filter fun kv => phash hash kv.1 (2 * bso) = (i : Int) + 1) = b₁ at hre
  generalize hb₂ : (b.filter fun kv => ¬ phash hash kv.1 (2 * bso) = (i : Int) + 1) = b₂ at hre
  obtain ⟨segs₁, hp₁, hu₁, hl₁, hf₁⟩ := putBucketS_ok h.uniform hb b₁
  have he₁ : segs₁.flatten[j]? = some [] := by rw [hf₁, List.getElem?_set_ne hij, he]
  obtain ⟨segs₂, hp₂, hu₂, hl₂, hf₂⟩ := putBucketS_ok hu₁ he₁ b₂
  refine ⟨b, b₁, b₂, segs₁, segs₂, by rw [hslot]; exact getBucketS_ok h.uniform hb,
    by rw [hslot]; exact hre, by rw [hslot]; exact hp₁, by rw [← hj]; exact hp₂, ⟨hu₂, ?_, by omega,
    by omega, fun k c hc kv hkv => ?_⟩, ?_⟩
  · obtain ⟨a, ha, hb⟩ := h.size
    exact ⟨a, by omega, hb⟩
  · rw [hf₂, hf₁] at hc
    rw [slot_succ]
    by_cases hkj : k = j
    · -- what hashes to the new slot
      subst hkj
      rw [List.getElem?_set_self (by simpa using (List.getElem?_eq_some_iff.mp he).1)] at hc
      cases hc
      rw [← hb₂] at hkv
      obtain ⟨hm, hne⟩ := List.mem_filter.mp hkv
      have h1 := (hph kv hm).resolve_left (by simpa using hne)
      rw [phash_eq hash kv.1 (by omega)] at h1
      rw [if_pos (by omega)]
      exact hj.symm
    · rw [List.getElem?_set_ne (Ne.symm hkj)] at hc
      by_cases hki : k = i
      · subst hki
        rw [List.getElem?_set_self (List.getElem?_eq_some_iff.mp hb).1] at hc
        cases hc
        rw [← hb₁] at hkv
        obtain ⟨hm, heq⟩ := List.mem_filter.mp hkv
        have h1 : phash hash kv.1 (2 * bso) = (k : Int) + 1 := by simpa using heq
        rw [phash_eq hash kv.1 (by omega)] at h1
        rw [if_neg (by omega)]
        exact h.placed k b hb kv hm
      · rw [List.getElem?_set_ne (Ne.symm hki)] at hc
        have h1 := h.placed k c hc kv hkv
        have h2 : hash kv.1 % (2 * bso) ≠ n := by
          intro he
          rw [slot_of_eq he] at h1
          omega
        rw [if_neg h2]
        exact h1
  · rw [hf₂, hf₁]
    refine split_perm hij hb he ?_
    rw [← hb₁, ← hb₂]
    simpa using (List.filter_append_perm (fun kv => decide (phash hash kv.1 (2 * bso) = (i : Int) + 1)) b).symm

/-- The last slot is closed and its bucket goes to the buddy. -/
theorem merge (h : Layout hash segs bso n) (hn : bso < n) :
    ∃ b₁ b₂ segs₁ segs₂, getBucketS segs (n - bso) = .ok b₁ ∧ getBucketS segs n = .ok b₂ ∧
      putBucketS segs (n - bso) (b₁ ++ b₂) = .ok segs₁ ∧ putBucketS segs₁ n [] = .ok segs₂ ∧
      Layout hash segs₂ bso (n - 1) ∧ segs₂.flatten.flatten.Perm segs.flatten.flatten := by
  have h0 := h.pos
  have hhi := h.hi
  obtain ⟨i, b₁, hi, hb₁⟩ := h.bucket (x := n - 1 - bso) (by omega) (by omega)
  obtain ⟨j, b₂, hj, hb₂⟩ := h.bucket (x := n - 1) (by omega) (by omega)
  have hij : i ≠ j := by omega
  have hs₁ : n - bso = (i : Int) + 1 := by omega
  have hs₂ : n = (j : Int) + 1 := by omega
  obtain ⟨segs₁, hp₁, hu₁, hl₁, hf₁⟩ := putBucketS_ok h.uniform hb₁ (b₁ ++ b₂)
  have he₁ : segs₁.flatten[j]? = some b₂ := by rw [hf₁, List.getElem?_set_ne hij, hb₂]
  obtain ⟨segs₂, hp₂, hu₂, hl₂, hf₂⟩ := putBucketS_ok hu₁ he₁ []
  refine ⟨b₁, b₂, segs₁, segs₂, by rw [hs₁]; exact getBucketS_ok h.uniform hb₁,
    by rw [hs₂]; exact getBucketS_ok h.uniform hb₂, by rw [hs₁]; exact hp₁, by rw [hs₂]; exact hp₂,
    ⟨hu₂, ?_, by omega, by omega, fun k c hc kv hkv => ?_⟩, ?_⟩
  · obtain ⟨a, ha, hb⟩ := h.size
    exact ⟨a, by omega, hb⟩
  · rw [hf₂, hf₁] at hc
    have hsucc : slot bso n (hash kv.1) =
        if hash kv.1 % (2 * bso) = n - 1 then n - 1 else slot bso (n - 1) (hash kv.1) := by
      have hsum : slot bso (n - 1 + 1) (hash kv.1) = _ := slot_succ
      rwa [Int.sub_add_cancel] at hsum
    by_cases hkj : k = j
    · subst hkj
      rw [List.getElem?_set_self (by simpa using (List.getElem?_eq_some_iff.mp hb₂).1)] at hc
      cases hc
      cases hkv
    · rw [List.getElem?_set_ne (Ne.symm hkj)] at hc
      by_cases hki : k = i
      · subst hki
        rw [List.getElem?_set_self (List.getElem?_eq_some_iff.mp hb₁).1] at hc
        cases hc
        rcases List.mem_append.mp hkv with hm | hm
        · have h1 := h.placed k b₁ hb₁ kv hm
          rw [hsucc] at h1
          split at h1
          · omega
          · exact h1
        · have h1 := h.placed j b₂ hb₂ kv hm
          rw [hsucc] at h1
          split at h1
          · rename_i hm
            rw [slot_of_eq hm]
            omega
          · have := slot_lt (h := hash kv.1) h0 (by omega : bso ≤ n - 1)
            omega
      · rw [List.getElem?_set_ne (Ne.symm hki)] at hc
        have h1 := h.placed k c hc kv hkv
        rw [hsucc] at h1
        split at h1
        · omega
        · exact h1
  · rw [hf₂, hf₁]
    exact merge_perm hij hb₁ hb₂

/-- A full table gets twice the segments. -/
theorem double (h : Layout hash segs bso (2 * bso)) :
    ∃ segs', expandSegments segs = .ok segs' ∧ Layout hash segs' (2 * bso) (2 * bso) ∧
      segs'.flatten.flatten = segs.flatten.flatten := by
  have h0 := h.pos
  obtain ⟨j, hj, hb⟩ := h.size
  have hempty : (empty : List (Bucket K V)).length = 16 := rfl
  have hflat : (segs ++ List.replicate segs.length empty).flatten =
      segs.flatten ++ (List.replicate segs.length (empty : List (Bucket K V))).flatten := by
    rw [List.flatten_append]
  have hnil : ∀ b ∈ (List.replicate segs.length (empty : List (Bucket K V))).flatten, b = [] := by
    intro b hm
    obtain ⟨seg, hseg, hbm⟩ := List.mem_flatten.mp hm
    rw [(List.mem_replicate.mp hseg).2] at hbm
    exact (List.mem_replicate.mp hbm).2
  refine ⟨_, expandSegments_ok segs, ⟨fun seg hs => ?_, ⟨j + 1, ?_, ?_⟩, by omega, by omega,
    fun i b hib kv hkv => ?_⟩, ?_⟩
  · rcases List.mem_append.mp hs with h1 | h1
    · exact h.uniform seg h1
    · rw [(List.mem_replicate.mp h1).2]
      exact hempty
  · rw [List.length_append, List.length_replicate, hj, Nat.pow_succ]
    omega
  · rw [hb, Int.pow_succ]
    omega
  · rw [slot_double h0]
    rw [hflat] at hib
    by_cases hi : i < segs.flatten.length
    · rw [List.getElem?_append_left hi] at hib
      exact h.placed i b hib kv hkv
    · rw [List.getElem?_append_right (by omega)] at hib
      rw [hnil b (List.mem_of_getElem? hib)] at hkv
      cases hkv
  · rw [hflat, List.flatten_append, List.flatten_eq_nil_iff.mpr hnil, List.append_nil]

/-- A table whose upper half is not in use gives it up. -/
theorem halve (h : Layout hash segs bso bso) (hb : 16 ≤ bso) :
    ∃ segs', contractSegments segs = .ok segs' ∧ Layout hash segs' (bso / 2) bso ∧
      segs'.flatten.flatten = segs.flatten.flatten := by
  have h0 := h.pos
  have hlen := h.length
  obtain ⟨j, hj, hbj⟩ := h.size
  obtain ⟨a, rfl⟩ : ∃ a, j = a + 1 := by
    cases j with
    | zero => rw [hbj] at hb; simp at hb
    | succ a => exact ⟨a, rfl⟩
  have hhalf : bso / 2 = 8 * 2 ^ a := by
    rw [hbj, Int.pow_succ]
    omega
  have htwo : bso = 2 * (bso / 2) := by
    rw [hbj, Int.pow_succ]
    omega
  have hk : segs.length / 2 = 2 ^ a := by
    rw [hj, Nat.pow_succ]
    omega
  have htake := h.uniform.take (segs.length / 2)
  have hcut : ((16 * (segs.length / 2) : Nat) : Int) = bso := by
    have := h.uniform.length
    rw [hj, Nat.pow_succ] at this
    rw [hk]
    push_cast
    omega
  refine ⟨_, contractSegments_ok segs, ⟨fun seg hs => h.uniform seg (List.mem_of_mem_take hs),
    ⟨a, ?_, hhalf⟩, by omega, by omega, fun i b hib kv hkv => ?_⟩, ?_⟩
  · rw [List.length_take, hk, hj, Nat.pow_succ]
    omega
  · rw [htake, List.getElem?_take] at hib
    split at hib
    · have h1 := h.placed i b hib kv hkv
      rw [htwo, slot_double (by omega)] at h1
      rw [← htwo] at h1
      exact h1
    · cases hib
  · rw [htake]
    have hdrop : (segs.flatten.drop (16 * (segs.length / 2))).flatten = [] := by
      refine List.flatten_eq_nil_iff.mpr fun b hm => ?_
      obtain ⟨i, hi⟩ := List.mem_iff_getElem?.mp hm
      rw [List.getElem?_drop] at hi
      exact h.unused (by omega) hi
    conv => rhs; rw [← List.take_append_drop (16 * (segs.length / 2)) segs.flatten]
    rw [List.flatten_append, hdrop, List.append_nil]

end Layout

end Swish.HashTable
