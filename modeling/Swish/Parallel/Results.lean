import Swish.Parallel.Table

/-!
The results of a parallel call. The kernel takes a normal exit for a result, so
the values are real as long as no worker exits normally without one.
-/

set_option autoImplicit false

namespace Swish.Parallel

open Swish.GenServer.Loop
open Swish.Lib

variable {o : Options} {w w' : World} {input : List Datum}

/-- f has returned in the worker with this number. -/
def Stored (w : World) (k : Nat) : Prop :=
  ∃ i, w.indexVec[k]? = some i ∧ i ∈ w.returned.map (·.1)

theorem stored_of_find (hpl : Placed input w) {k : Nat} {x : Worker} (hf : w.find k = some x) (hs : x.stored = true) :
    Stored w k := by
  obtain ⟨hx, rfl⟩ := find_some hf
  exact ⟨x.index, (hpl.worker x hx).2.1, (hpl.stored x hx).mp hs⟩

/-- Every index has a worker, so once all of them have stored a value all slots are results. -/
theorem slots_returned (hpl : Placed input w) (hall : ∀ k < w.vec.length, Stored w k) {i : Nat} (hi : i < w.vec.length) :
    ∃ y, w.vec[i]? = some y ∧ (i, y) ∈ w.returned := by
  have hmem : i ∈ w.indexVec := by
    rw [hpl.perm.mem_iff, List.mem_range, ← hpl.length]
    exact hi
  obtain ⟨k, hk⟩ := List.mem_iff_getElem?.mp hmem
  have hlt : k < w.vec.length := by
    rw [hpl.length, ← hpl.indexVec_length]
    exact (List.getElem?_eq_some_iff.mp hk).1
  obtain ⟨j, hj, hret⟩ := hall k hlt
  cases hk.symm.trans hj
  obtain ⟨e, he, rfl⟩ := List.mem_map.mp hret
  exact ⟨e.2, hpl.slot e he, he⟩

structure Sound (w : World) : Prop where
  silent : ∀ x ∈ w.inbox, ∀ k, x.pid = .worker k → isNormal x.raw.reason = true → Stored w k
  gone : w.phase = .sg ∨ w.phase = .waiting → ∀ k < w.started, k ∉ w.pidHt → Stored w k
  result : ∀ d, w.phase = .done (.returned d) →
    ∃ ys, d = .vector ys ∧ ys.length = w.vec.length ∧ ∀ i < ys.length, ∃ y, ys[i]? = some y ∧ (i, y) ∈ w.returned

namespace Sound

theorem initial (rnd : Random) (now : Nat) : Sound (World.initial o rnd now input) where
  silent := by simp [World.initial]
  gone := by simp [World.initial]
  result := by simp [World.initial]

theorem frame (h : Sound w) (h1 : w'.phase = w.phase) (h2 : w'.inbox = w.inbox) (h3 : w'.indexVec = w.indexVec)
    (h4 : w'.returned = w.returned) (h5 : w'.started = w.started) (h6 : w'.pidHt = w.pidHt)
    (h7 : w'.vec.length = w.vec.length) : Sound w' := by
  refine ⟨?_, ?_, ?_⟩
  · unfold Stored
    rw [h2, h3, h4]
    exact h.silent
  · unfold Stored
    rw [h1, h3, h4, h5, h6]
    exact h.gone
  · rw [h1, h4, h7]
    exact h.result

/-- The kernel is out of sg with no result. -/
theorem leave (h : Sound w) (h1 : w'.indexVec = w.indexVec) (h2 : w'.returned = w.returned)
    (h3 : ∀ x ∈ w'.inbox, x ∈ w.inbox) (h4 : w'.phase ≠ .sg) (h5 : w'.phase ≠ .waiting)
    (h6 : ∀ d, w'.phase ≠ .done (.returned d)) : Sound w' := by
  refine ⟨?_, fun hp => ?_, fun d hd => absurd hd (h6 d)⟩
  · unfold Stored
    rw [h1, h2]
    exact fun x hx => h.silent x (h3 x hx)
  · rcases hp with hp | hp
    · exact absurd hp h4
    · exact absurd hp h5

theorem send (h : Sound w) {x : Exit} (hx : ∀ k, x.pid = .worker k → isNormal x.raw.reason = true → Stored w k) :
    Sound (w.send x) := by
  refine ⟨?_, h.gone, h.result⟩
  intro y hy k hk hn
  rcases List.mem_append.mp hy with hy | hy
  · exact h.silent y hy k hk hn
  · rw [List.mem_singleton.mp hy] at hk hn
    exact hx k hk hn

theorem die (h : Sound w) {k : Nat} {raw : Datum} (hr : isNormal raw.reason = true → Stored w k) :
    Sound (w.die k raw) := by
  have hf : Sound { w with workers := w.workers.filter fun x => x.no != k } := h.frame rfl rfl rfl rfl rfl rfl rfl
  refine hf.send ?_
  intro l hl hn
  cases hl
  exact hr hn

theorem dieAbnormal (h : Sound w) {k : Nat} {raw : Datum} (hr : isNormal raw.reason = false) : Sound (w.die k raw) :=
  h.die fun hn => by rw [hr] at hn; cases hn

theorem store (h : Sound w) (x : Worker) (y : Datum) : Sound (w.store x y) := by
  have hmono : ∀ k, Stored w k → Stored (w.store x y) k := by
    intro k hk
    obtain ⟨i, hi, hr⟩ := hk
    exact ⟨i, hi, by simp only [World.store, List.map_append, List.mem_append]; exact .inl hr⟩
  refine ⟨fun z hz k hk hn => hmono k (h.silent z hz k hk hn), fun hp k hk hnot => hmono k (h.gone hp k hk hnot), ?_⟩
  intro d hd
  obtain ⟨ys, hys, hlen, hres⟩ := h.result d hd
  refine ⟨ys, hys, ?_, fun i hi => ?_⟩
  · simpa [World.store] using hlen
  · obtain ⟨z, hz, hr⟩ := hres i hi
    exact ⟨z, hz, List.mem_append_left _ hr⟩

end Sound

/-- No worker that has no result yet exits, or signals the kernel, for the reason normal. -/
def quiet (w : World) : Action → Bool
  | .raise _ raw => !isNormal raw.reason
  | .signal (.worker k) raw => !isNormal raw.reason || (w.find k).any (·.stored)
  | _ => true

theorem Sound.step (h : Sound w) (hpl : Placed input w) {a : Action} (ha : quiet w a = true)
    (ht : w.step o a = .ok w') : Sound w' := by
  cases step_move ht with
  | finished hp hs hpids hc =>
    refine ⟨h.silent, by simp, ?_⟩
    intro d hd
    cases hd
    have hall : ∀ k < w.vec.length, Stored w k := by
      intro k hk
      exact h.gone (.inl hp) k (by omega) (by simp [hpids])
    exact ⟨w.vec, rfl, rfl, fun i hi => slots_returned hpl hall hi⟩
  | start hp hs hl =>
    refine ⟨h.silent, ?_, ?_⟩
    · intro _ k hk hnot
      have hnot : k ∉ w.pidHt ++ [w.started] := hnot
      simp only [List.mem_append, List.mem_singleton, not_or] at hnot
      have hk : k < w.started + 1 := hk
      exact h.gone (.inl hp) k (by omega) hnot.1
    · intro d hd
      exact absurd (hp.symm.trans hd) (by simp)
  | wait hp hne hge => exact ⟨h.silent, fun _ => h.gone (.inl hp), by simp⟩
  | workerExit x inbox k hp hi hx hk hn =>
    have hx' : x ∈ w.inbox := by rw [hi]; exact List.mem_cons_self
    have hsub : ∀ y ∈ inbox, y ∈ w.inbox := fun y hy => by rw [hi]; exact List.mem_cons_of_mem _ hy
    refine ⟨fun y hy => h.silent y (hsub y hy), ?_, by simp⟩
    intro _ l hl hnot
    by_cases hlk : l = k
    · rw [hlk]
      exact h.silent x hx' k hx hn
    · exact h.gone (.inr hp) l hl fun hmem => hnot ((List.mem_erase_of_ne hlk).mpr hmem)
  | ignored x inbox hp hi hx hk =>
    have hsub : ∀ y ∈ inbox, y ∈ w.inbox := fun y hy => by rw [hi]; exact List.mem_cons_of_mem _ hy
    exact ⟨fun y hy => h.silent y (hsub y hy), h.gone, h.result⟩
  | misread hp hs hpids hc => exact h.leave rfl rfl (fun _ hx => hx) (by simp) (by simp) (by simp)
  | parentExit x inbox hp hi hx =>
    exact h.leave rfl rfl (fun y hy => by rw [hi]; exact List.mem_cons_of_mem _ hy) (by simp) (by simp) (by simp)
  | workerFailed x inbox k hp hi hx hk hn =>
    exact h.leave rfl rfl (fun y hy => by rw [hi]; exact List.mem_cons_of_mem _ hy) (by simp) (by simp) (by simp)
  | clean err hp hpids => exact h.leave rfl rfl (fun _ hx => hx) (by simp) (by simp) (by simp)
  | failed err hp hpids => exact h.leave rfl rfl (fun _ hx => hx) (by simp) (by simp) (by simp)
  | killing err k pids n hp =>
    have hk : Sound { w with phase := .killing err pids n } :=
      h.leave rfl rfl (fun _ hx => hx) (by simp) (by simp) (by simp)
    exact kill_rec err hk fun _ _ _ hr => hk.dieAbnormal hr
  | drain err n hp => exact h.leave rfl rfl (fun _ hx => hx) (by simp) (by simp) (by simp)
  | drained err hp => exact h.leave rfl rfl (fun _ hx => hx) (by simp) (by simp) (by simp)
  | reaped err n x inbox k hp hi hx hk =>
    exact h.leave rfl rfl (fun y hy => by rw [hi]; exact List.mem_cons_of_mem _ hy) (by simp) (by simp) (by simp)
  | skipped err n x inbox hp hi hk =>
    have hsub : ∀ y ∈ inbox, y ∈ w.inbox := fun y hy => by rw [hi]; exact List.mem_cons_of_mem _ hy
    exact ⟨fun y hy => h.silent y (hsub y hy), h.gone, h.result⟩
  | expire hp hi => exact h.leave rfl rfl (fun _ hx => hx) (by simp) (by simp) (by simp)
  | tick elapsed => exact h.frame rfl rfl rfl rfl rfl rfl rfl
  | store k y x hf hs => exact h.store x y
  | finish k x hf hs => exact h.die fun _ => stored_of_find hpl hf hs
  | raise k raw x hf hs => exact h.dieAbnormal (by simpa [quiet] using ha)
  | kill k raw => exact kill_rec raw h fun _ _ _ hr => h.dieAbnormal hr
  | linked k raw => exact linked_rec raw h fun _ _ _ hr => h.dieAbnormal hr
  | trapExit k on => exact h.frame rfl rfl rfl rfl rfl rfl rfl
  | signal p raw =>
    refine h.send ?_
    intro k hk hn
    have hk : p = .worker k := hk
    have hn : isNormal raw.reason = true := hn
    rw [hk] at ha
    simp only [quiet, hn, Bool.not_true, Bool.false_or] at ha
    cases hf : w.find k with
    | none => simp [hf] at ha
    | some x => exact stored_of_find hpl hf (by simpa [hf] using ha)

/-- If the caller returns, its value is made of one value of f for each index. -/
def RealResults (input : List Datum) (w : World) : Prop :=
  ∀ r success v, w.phase = .done r → scatterGather success (.message r.tried) = .returned v →
    ∃ ys, v = success (.vector ys) ∧ ys.length = input.length ∧
      ∀ i < input.length, ∃ y, ys[i]? = some y ∧ (i, y) ∈ w.returned ∧ ∀ z, (i, z) ∈ w.returned → z = y

theorem scatterGather_returned {success : Datum → Datum} {d v : Datum}
    (h : scatterGather success (.message d) = .returned v) : d.isCatch = false ∧ v = success d := by
  rw [scatterGather] at h
  by_cases hc : d.isCatch = true
  · rw [if_pos hc] at h
    cases h
  · rw [if_neg hc] at h
    cases h
    exact ⟨eq_false_of_ne_true hc, rfl⟩

theorem raised_isCatch (x : Datum) : (Result.raised x).tried.isCatch = true := by
  cases x <;> rfl

/-- As long as no worker exits normally with no result, a parallel call returns values of f only. It
does not wait when all workers have ended. -/
theorem parallel_returns_real_results (o : Options) (rnd : Random) (now : Nat) (input : List Datum) (w : World)
    (h : Reach (World.initial o rnd now input) (World.step o) (fun w a => quiet w a = true) w) :
    RealResults input w ∧
      ((∀ r, w.phase ≠ .done r) → w.workers = [] → ∃ w', w.step o .kernel = .ok w') := by
  have hboth : Placed input w ∧ Sound w := by
    refine h.invariant (I := fun w => Placed input w ∧ Sound w)
      ⟨Placed.initial rnd now, Sound.initial rnd now⟩ fun s a t hs ha ht => ?_
    exact ⟨hs.1.step ht, hs.2.step hs.1 ha ht⟩
  obtain ⟨hpl, hs⟩ := hboth
  refine ⟨?_, kernel_enabled (reach_awaited h)⟩
  intro r success v hr hv
  cases r with
  | raised x => exact absurd ((raised_isCatch x).symm.trans (scatterGather_returned hv).1) (by simp)
  | returned d =>
    obtain ⟨ys, rfl, hlen, hres⟩ := hs.result d hr
    rw [hpl.length] at hlen
    refine ⟨ys, ?_, hlen, fun i hi => ?_⟩
    · exact (scatterGather_returned hv).2
    · obtain ⟨y, hy, hmem⟩ := hres i (by omega)
      refine ⟨y, hy, hmem, fun z hz => ?_⟩
      have hpair := List.inj_on_of_nodup_map hpl.once hz hmem rfl
      cases hpair
      rfl

theorem parallel_returns_real_results_pair :
    ∃ w, RealResults [.integer 1, .integer 2] w ∧
      ∃ r, w.phase = .done r ∧ parallelMap1 r = .returned (.pair (.integer 10) (.pair (.integer 20) .nil)) := by
  let as : List Action :=
    [.kernel, .kernel, .kernel, .store 0 (.integer 20), .store 1 (.integer 10), .finish 1, .kernel, .kernel, .finish 0,
      .kernel, .kernel]
  have hrun : Reach (World.initial defaultOptions lowest 0 [.integer 1, .integer 2]) (World.step defaultOptions)
      (fun w a => quiet w a = true) _ := Reach.of_run as .start (by decide) rfl
  exact ⟨_, (parallel_returns_real_results defaultOptions lowest 0 _ _ hrun).1, _, rfl, rfl⟩

/-- Both calls of f raise the exception normal, and parallel:map returns its input. -/
theorem normal_exit_keeps_input :
    ∃ w, Reach (World.initial defaultOptions lowest 0 [.integer 1, .integer 2]) (World.step defaultOptions)
        (fun _ _ => True) w ∧
      w.returned = [] ∧
      (∃ r, w.phase = .done r ∧ parallelMap1 r = .returned (.pair (.integer 1) (.pair (.integer 2) .nil))) ∧
      ¬ RealResults [.integer 1, .integer 2] w := by
  let as : List Action :=
    [.kernel, .kernel, .kernel, .raise 0 normal, .raise 1 normal, .kernel, .kernel, .kernel, .kernel]
  have hrun : Reach (World.initial defaultOptions lowest 0 [.integer 1, .integer 2]) (World.step defaultOptions)
      (fun _ _ => True) _ :=
    Reach.of_run as .start (Reach.along_of_forall (fun _ _ => trivial) as _) rfl
  refine ⟨_, hrun, rfl, ⟨_, rfl, rfl⟩, ?_⟩
  intro hreal
  obtain ⟨ys, -, -, hys⟩ := hreal _ id _ rfl rfl
  obtain ⟨y, -, hmem, -⟩ := hys 0 (by decide)
  cases hmem

end Swish.Parallel
