import Swish.Parallel.Kernel
import Mathlib.Data.List.GetD
import Mathlib.Data.List.Nodup
import Mathlib.Data.List.Perm.Basic

/-!
Where the results go. Every worker has an index of its own, and a slot of the
vector holds its input until the worker of that slot has stored a result.
-/

set_option autoImplicit false

namespace Swish.Parallel

open Swish.GenServer.Loop
open Swish.Lib

theorem shuffleFrom_perm (rnd : Random) (i : Nat) (v : List Nat) (hi : i ≤ v.length) :
    (shuffleFrom rnd i v).Perm v := by
  induction i, v using shuffleFrom.induct rnd with
  | case1 v => exact .refl v
  | case2 v => exact .refl v
  | case3 i v j t ih =>
    have hj : j < v.length := Nat.lt_of_lt_of_le (rnd.lt (i + 2) (by omega)) hi
    have hl : i + 1 < v.length := by omega
    have hswap : ((v.set (i + 1) (v.getD j 0)).set j (v.getD (i + 1) 0)).Perm v := by
      rw [List.getD_eq_getElem v 0 hj, List.getD_eq_getElem v 0 hl]
      exact List.set_set_perm hl hj
    rw [shuffleFrom]
    refine (ih ?_).trans hswap
    rw [List.length_set, List.length_set]
    omega

theorem buildIndexVector_perm (rnd : Random) (len : Nat) (order : Order) :
    (buildIndexVector rnd len order).Perm (List.range len) := by
  cases order with
  | random => exact shuffleFrom_perm rnd _ _ (Nat.le_refl _)
  | left => exact .refl _
  | right =>
    have hrev : (List.range len).map (fun i => len - i - 1) = (List.range len).reverse := by
      apply List.ext_getElem
      · simp
      · intro i h1 h2
        simp at h1
        simp
        omega
    rw [buildIndexVector, hrev]
    exact List.reverse_perm _

/-! The list of workers. -/

variable {o : Options} {w w' : World} {input : List Datum}

theorem find_some {k : Nat} {x : Worker} (h : w.find k = some x) : x ∈ w.workers ∧ x.no = k := by
  unfold World.find at h
  have hp := List.find?_some h
  exact ⟨List.mem_of_find?_eq_some h, by simpa using hp⟩

theorem find_eq_some {x : Worker} (hn : (w.workers.map (·.no)).Nodup) (hx : x ∈ w.workers) : w.find x.no = some x := by
  cases hf : w.find x.no with
  | none =>
    unfold World.find at hf
    rw [List.find?_eq_none] at hf
    have := hf x hx
    simp at this
  | some y =>
    obtain ⟨hy, hno⟩ := find_some hf
    rw [List.inj_on_of_nodup_map hn hy hx hno]

theorem perm_cons_filter {x : Worker} {xs : List Worker} (hn : (xs.map (·.no)).Nodup) (hx : x ∈ xs) :
    xs.Perm (x :: xs.filter fun y => y.no != x.no) := by
  induction xs with
  | nil => cases hx
  | cons y ys ih =>
    rw [List.map_cons, List.nodup_cons] at hn
    rcases List.mem_cons.mp hx with heq | hmem
    · rw [heq, List.filter_cons_of_neg (by simp), List.filter_eq_self.mpr]
      intro z hz
      have hne : z.no ≠ y.no := fun he => hn.1 (he ▸ List.mem_map_of_mem hz)
      simpa using hne
    · have hne : y.no ≠ x.no := fun he => hn.1 (he ▸ List.mem_map_of_mem hmem)
      rw [List.filter_cons_of_pos (by simpa using hne)]
      exact ((ih hn.2 hmem).cons y).trans (.swap _ _ _)

/-- What the phases and the inbox do not touch. -/
structure Placed (input : List Datum) (w : World) : Prop where
  perm : w.indexVec.Perm (List.range input.length)
  length : w.vec.length = input.length
  le : w.started ≤ input.length
  starts : w.starts = w.indexVec.take w.started
  worker : ∀ x ∈ w.workers, x.no < w.started ∧ w.indexVec[x.no]? = some x.index ∧ input[x.index]? = some x.input
  nodup : (w.workers.map (·.no)).Nodup
  once : (w.returned.map (·.1)).Nodup
  stored : ∀ x ∈ w.workers, x.stored = true ↔ x.index ∈ w.returned.map (·.1)
  begun : ∀ i ∈ w.returned.map (·.1), i ∈ w.starts
  slot : ∀ e ∈ w.returned, w.vec[e.1]? = some e.2
  rest : ∀ i, i ∉ w.returned.map (·.1) → w.vec[i]? = input[i]?

namespace Placed

theorem indexVec_nodup (h : Placed input w) : w.indexVec.Nodup :=
  h.perm.nodup_iff.mpr List.nodup_range

theorem indexVec_length (h : Placed input w) : w.indexVec.length = input.length := by
  rw [h.perm.length_eq, List.length_range]

theorem index_lt (h : Placed input w) {k i : Nat} (hi : w.indexVec[k]? = some i) : i < input.length := by
  have := h.perm.subset (List.mem_of_getElem? hi)
  simpa using this

theorem index_inj (h : Placed input w) {k l i : Nat} (hk : w.indexVec[k]? = some i) (hl : w.indexVec[l]? = some i) :
    k = l := by
  obtain ⟨hk', -⟩ := List.getElem?_eq_some_iff.mp hk
  exact (List.getElem?_inj hk' h.indexVec_nodup).mp (hk.trans hl.symm)

theorem no_inj (h : Placed input w) {x y : Worker} (hx : x ∈ w.workers) (hy : y ∈ w.workers)
    (hi : x.index = y.index) : x.no = y.no := by
  apply h.index_inj (h.worker x hx).2.1
  rw [hi]
  exact (h.worker y hy).2.1

/-- The next index is in no earlier start. -/
theorem fresh (h : Placed input w) {i : Nat} (hi : w.indexVec[w.started]? = some i) : i ∉ w.starts := by
  intro hmem
  rw [h.starts] at hmem
  obtain ⟨k, hk⟩ := List.mem_iff_getElem?.mp hmem
  rw [List.getElem?_take] at hk
  split at hk
  · rename_i hlt
    have := h.index_inj hk hi
    omega
  · cases hk

theorem initial (rnd : Random) (now : Nat) : Placed input (World.initial o rnd now input) where
  perm := buildIndexVector_perm rnd _ _
  length := rfl
  le := Nat.zero_le _
  starts := by simp [World.initial]
  worker := by simp [World.initial]
  nodup := List.nodup_nil
  once := List.nodup_nil
  stored := by simp [World.initial]
  begun := by simp [World.initial]
  slot := by simp [World.initial]
  rest := by simp [World.initial]

/-- Only these fields count. -/
theorem frame (h : Placed input w) (h1 : w'.vec = w.vec) (h2 : w'.indexVec = w.indexVec)
    (h3 : w'.started = w.started) (h4 : w'.workers = w.workers) (h5 : w'.starts = w.starts)
    (h6 : w'.returned = w.returned) : Placed input w' where
  perm := by rw [h2]; exact h.perm
  length := by rw [h1]; exact h.length
  le := by rw [h3]; exact h.le
  starts := by rw [h5, h2, h3]; exact h.starts
  worker := by rw [h4, h3, h2]; exact h.worker
  nodup := by rw [h4]; exact h.nodup
  once := by rw [h6]; exact h.once
  stored := by rw [h4, h6]; exact h.stored
  begun := by rw [h6, h5]; exact h.begun
  slot := by rw [h6, h1]; exact h.slot
  rest := by rw [h6, h1]; exact h.rest

theorem send (h : Placed input w) (x : Exit) : Placed input (w.send x) :=
  h.frame rfl rfl rfl rfl rfl rfl

/-- Some workers are dead. -/
theorem filter (h : Placed input w) (p : Worker → Bool) : Placed input { w with workers := w.workers.filter p } where
  perm := h.perm
  length := h.length
  le := h.le
  starts := h.starts
  worker := fun x hx => h.worker x (List.mem_of_mem_filter hx)
  nodup := h.nodup.sublist (List.filter_sublist.map _)
  once := h.once
  stored := fun x hx => h.stored x (List.mem_of_mem_filter hx)
  begun := h.begun
  slot := h.slot
  rest := h.rest

theorem die (h : Placed input w) (k : Nat) (raw : Datum) : Placed input (w.die k raw) :=
  (h.filter _).send _

/-- The flags of some workers change, but for what is stored. -/
theorem map (h : Placed input w) (g : Worker → Worker)
    (hg : ∀ x, (g x).no = x.no ∧ (g x).index = x.index ∧ (g x).input = x.input ∧ (g x).stored = x.stored) :
    Placed input { w with workers := w.workers.map g } where
  perm := h.perm
  length := h.length
  le := h.le
  starts := h.starts
  worker := by
    intro y hy
    obtain ⟨x, hx, rfl⟩ := List.mem_map.mp hy
    rw [(hg x).1, (hg x).2.1, (hg x).2.2.1]
    exact h.worker x hx
  nodup := by
    rw [List.map_map]
    have hno : ((fun x : Worker => x.no) ∘ g) = (·.no) := funext fun x => (hg x).1
    rw [hno]
    exact h.nodup
  once := h.once
  stored := by
    intro y hy
    obtain ⟨x, hx, rfl⟩ := List.mem_map.mp hy
    rw [(hg x).2.1, (hg x).2.2.2]
    exact h.stored x hx
  begun := h.begun
  slot := h.slot
  rest := h.rest

theorem startWork (h : Placed input w) (hlt : w.started < input.length) :
    Placed input { w.startWork with started := w.started + 1 } := by
  have hlen := h.indexVec_length
  obtain ⟨i, hi⟩ : ∃ i, w.indexVec[w.started]? = some i := ⟨_, List.getElem?_eq_getElem (by omega)⟩
  have hil := h.index_lt hi
  obtain ⟨v, hv⟩ : ∃ v, input[i]? = some v := ⟨_, List.getElem?_eq_getElem hil⟩
  have hfresh := h.fresh hi
  have hnot : i ∉ w.returned.map (·.1) := fun hm => hfresh (h.begun i hm)
  have hvec : w.vec[i]? = some v := (h.rest i hnot).trans hv
  have hgi : w.indexVec.getD w.started 0 = i := by rw [List.getD_eq_getElem?_getD, hi]; rfl
  have hgv : w.vec.getD i .nil = v := by rw [List.getD_eq_getElem?_getD, hvec]; rfl
  simp only [World.startWork, hgi, hgv]
  refine { perm := h.perm, length := h.length, le := hlt, starts := ?_, worker := ?_, nodup := ?_, once := h.once,
           stored := ?_, begun := ?_, slot := h.slot, rest := h.rest }
  · simp only [h.starts]
    rw [List.take_add_one, hi]
    rfl
  · intro x hx
    rcases List.mem_append.mp hx with hx | hx
    · obtain ⟨h1, h2⟩ := h.worker x hx
      exact ⟨Nat.lt_succ_of_lt h1, h2⟩
    · cases List.mem_singleton.mp hx
      exact ⟨Nat.lt_succ_self _, hi, hv⟩
  · simp only [List.map_append, List.map_cons, List.map_nil]
    refine List.nodup_append.mpr ⟨h.nodup, List.nodup_singleton _, ?_⟩
    intro k hk l hl
    obtain ⟨x, hx, rfl⟩ := List.mem_map.mp hk
    rw [List.mem_singleton.mp hl]
    exact Nat.ne_of_lt (h.worker x hx).1
  · intro x hx
    rcases List.mem_append.mp hx with hx | hx
    · exact h.stored x hx
    · cases List.mem_singleton.mp hx
      simp only [Bool.false_eq_true, false_iff]
      exact hnot
  · intro j hj
    exact List.mem_append_left _ (h.begun j hj)

theorem index_mem_starts (h : Placed input w) {x : Worker} (hx : x ∈ w.workers) : x.index ∈ w.starts := by
  obtain ⟨hlt, hi, -⟩ := h.worker x hx
  rw [h.starts, List.mem_iff_getElem?]
  exact ⟨x.no, by rw [List.getElem?_take, if_pos hlt, hi]⟩

theorem store (h : Placed input w) {x : Worker} (hx : x ∈ w.workers) (hs : x.stored = false) (y : Datum) :
    Placed input (w.store x y) := by
  have hnot : x.index ∉ w.returned.map (·.1) := by
    intro hm
    have := (h.stored x hx).mpr hm
    rw [hs] at this
    cases this
  have hil : x.index < w.vec.length := by
    rw [h.length]
    exact h.index_lt (h.worker x hx).2.1
  have hno : ((fun z : Worker => z.no) ∘ fun z => if z.no = x.no then { z with stored := true } else z) = (·.no) := by
    funext z
    simp only [Function.comp_apply]
    split
    · rfl
    · rfl
  unfold World.store
  refine { perm := h.perm, length := ?_, le := h.le, starts := h.starts, worker := ?_, nodup := ?_, once := ?_,
           stored := ?_, begun := ?_, slot := ?_, rest := ?_ }
  · simp only [List.length_set]
    exact h.length
  · intro z' hz'
    obtain ⟨z, hz, rfl⟩ := List.mem_map.mp hz'
    split
    · exact h.worker z hz
    · exact h.worker z hz
  · simp only [List.map_map]
    rw [hno]
    exact h.nodup
  · simp only [List.map_append, List.map_cons, List.map_nil]
    refine List.nodup_append.mpr ⟨h.once, List.nodup_singleton _, ?_⟩
    intro i hi j hj heq
    rw [heq, List.mem_singleton.mp hj] at hi
    exact hnot hi
  · intro z' hz'
    obtain ⟨z, hz, rfl⟩ := List.mem_map.mp hz'
    simp only [List.map_append, List.map_cons, List.map_nil, List.mem_append, List.mem_singleton]
    split
    · rename_i heq
      have : z = x := List.inj_on_of_nodup_map h.nodup hz hx heq
      rw [this]
      simp
    · rename_i hne
      rw [h.stored z hz]
      exact ⟨.inl, fun hr => hr.resolve_right fun heq => hne (h.no_inj hz hx heq)⟩
  · intro i hi
    simp only [List.map_append, List.map_cons, List.map_nil, List.mem_append, List.mem_singleton] at hi
    rcases hi with hi | hi
    · exact h.begun i hi
    · rw [hi]
      exact h.index_mem_starts hx
  · intro e he
    rcases List.mem_append.mp he with he | he
    · have hne : x.index ≠ e.1 := fun heq => hnot (heq ▸ List.mem_map_of_mem he)
      simp only [List.getElem?_set_ne hne]
      exact h.slot e he
    · rw [List.mem_singleton.mp he]
      simp only [List.getElem?_set_self hil]
  · intro i hi
    simp only [List.map_append, List.map_cons, List.map_nil, List.mem_append, List.mem_singleton, not_or] at hi
    simp only [List.getElem?_set_ne (fun heq => hi.2 heq.symm)]
    exact h.rest i hi.1

theorem step (h : Placed input w) {a : Action} (ht : w.step o a = .ok w') : Placed input w' := by
  cases step_move ht with
  | start hp hs hl =>
    rw [h.length] at hs
    exact h.startWork hs
  | killing err k pids n hp =>
    have hk : Placed input { w with phase := .killing err pids n } := h.frame rfl rfl rfl rfl rfl rfl
    exact kill_rec err hk fun _ raw _ _ => hk.die k raw
  | store k y x hf hs => exact h.store (find_some hf).1 hs y
  | finish k x hf hs => exact h.die k normal
  | raise k raw x hf hs => exact h.die k raw
  | kill k raw => exact kill_rec raw h fun _ raw _ _ => h.die k raw
  | linked k raw => exact linked_rec raw h fun _ raw _ _ => h.die k raw
  | trapExit k on =>
    refine h.map _ fun x => ?_
    split
    · exact ⟨rfl, rfl, rfl, rfl⟩
    · exact ⟨rfl, rfl, rfl, rfl⟩
  | signal p raw => exact h.send _
  | _ => exact h.frame rfl rfl rfl rfl rfl rfl

end Placed

theorem reach_placed {rnd : Random} {now : Nat} {allowed : World → Action → Prop}
    (h : Reach (World.initial o rnd now input) (World.step o) allowed w) : Placed input w :=
  h.invariant (Placed.initial rnd now) fun _ _ _ hs _ ht => hs.step ht

end Swish.Parallel
