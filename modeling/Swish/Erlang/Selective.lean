import Swish.Erlang.Script

/-!
$receive with a matcher that receives nothing itself. All that it leaves behind its
cursor has been refused, and nobody else takes messages out of the inbox, so the first
message that is accepted is the earliest of those.
-/

set_option autoImplicit false

namespace Swish.Erlang
open CircularList Lib

section

variable {s t : State} {a : Action} {p k : Nat} {c : Consumer} {b : Bool}

theorem posts_consume (h : Posts s t) (hc : Event.consume k c b ∈ t.log) : Event.consume k c b ∈ s.log := by
  induction h with
  | refl => exact hc
  | tail _ hp ih =>
    refine ih ?_
    cases hp with
    | calm hcalm =>
      obtain ⟨es, hl, hes⟩ := hcalm.log
      rw [hl, List.mem_append] at hc
      rcases hc with h1 | h1
      · have := hes _ h1
        cases this
      · exact h1
    | make => exact hc
    | insert p x ha =>
      rcases List.mem_cons.mp hc with h1 | h1
      · cases h1
      · exact h1

theorem works_sched_consume (h : SchedOnly s t) (hc : Event.consume k c b ∈ t.log) :
    Event.consume k c b ∈ s.log := posts_consume (.single (.calm (Calm.sched h))) hc

theorem handleTrapExitHelp_consume {box : Nat → List Nat} {W : Matcher → Contents → Prop} (h : MailOk W s box)
    (ha : s.alive s.self = true) (hc : Event.consume k c b ∈ s.handleTrapExitHelp.log) :
    Event.consume k c b ∈ s.log ∨ Event.insert s.self k ∈ s.log := by
  unfold State.handleTrapExitHelp at hc
  split at hc
  · split at hc
    · rename_i k' hk
      rcases List.mem_cons.mp hc with h1 | h1
      · cases h1
        exact .inr (h.boxes.inserted _ _ (MailOk.getExitMsg_mem h.boxes ha (by simp) hk))
      · exact .inl h1
    · exact .inl hc
  · exact .inl hc

theorem find1_consume {r : Receive} {rest : List Frame} {now rt : Nat} (h : s.find1 r rest now rt = .ok t)
    (hc : Event.consume k c b ∈ t.log) : Event.consume k c b ∈ s.log := by
  have hleave : ∀ {u}, u = s.leave r rest → Event.consume k c b ∈ u.log → Event.consume k c b ∈ s.log := by
    intro u hu h1
    obtain ⟨es, hes, hl⟩ := leave_log s r rest
    rw [hu, hl, List.mem_append] at h1
    rcases h1 with h1 | h1
    · have := hes _ h1
      cases this
    · exact h1
  have hpark : ∀ {u v : State}, u.log = .park s.self :: s.log → SchedOnly u v → Event.consume k c b ∈ v.log →
      Event.consume k c b ∈ s.log := by
    intro u v hl hs h1
    have h2 := works_sched_consume hs h1
    rw [hl] at h2
    rcases List.mem_cons.mp h2 with h3 | h3
    · cases h3
    · exact h3
  unfold State.find1 at h
  split at h
  · unfold State.endOfInbox at h
    dsimp only at h
    split at h
    · split at h
      · cases h
      · exact hpark rfl (SchedOnly.yield h) hc
    · split at h
      · split at h
        · cases h
        · exact hpark rfl (SchedOnly.yield h) hc
      · cases h
        exact hleave rfl hc
  · split at h
    · cases h
      rcases List.mem_cons.mp hc with h1 | h1
      · cases h1
      · exact h1
    · cases h
      exact hc
  · cases h

/-- The steps of $receive and of the handlers take messages of the running process. -/
theorem receiveStep_consume {box : Nat → List Nat} {W : Matcher → Contents → Prop} (h : MailOk W s box)
    (ha : s.alive s.self = true) (hs : s.receiveStep a = .ok t) (hc : Event.consume k c b ∈ t.log) :
    Event.consume k c b ∈ s.log ∨ Event.insert s.self k ∈ s.log := by
  have hhelp : ∀ (f : Flags → Flags) (fs : List Frame),
      (∀ r, Frame.receive r ∈ fs → ∃ r₀, Frame.receive r₀ ∈ (s.pcb s.self).stack ∧ r₀.Later r) →
      Event.consume k c b ∈ ((s.setStack s.self fs).setFlags s.self f).handleTrapExitHelp.log →
      Event.consume k c b ∈ s.log ∨ Event.insert s.self k ∈ s.log := by
    intro f fs hfs h1
    have hmail := (h.setStack s.self fs hfs).modify_same s.self (fun x => { x with flags := f x.flags }) rfl rfl
    have h2 := handleTrapExitHelp_consume hmail (alive_setFlags (alive_setStack ha fs) f) h1
    exact h2
  have hfind0 : ∀ r rest b', (s.pcb s.self).stack = .receive r :: rest → r.phase ≠ .matching →
      Event.consume k c b ∈ (s.find0 r rest b').log →
      Event.consume k c b ∈ s.log ∨ Event.insert s.self k ∈ s.log := by
    intro r rest b' hst hph h1
    unfold State.find0 at h1
    split at h1
    · have hmail := h.setStack s.self (.receive { r with phase := .find0 } :: rest) fun r' hr' => by
        rcases List.mem_cons.mp hr' with h2 | h2
        · cases h2
          exact ⟨r, by simp [hst], rfl, rfl, rfl, by simp⟩
        · exact ⟨r', by simp [hst, h2], .refl r'⟩
      have h2 := handleTrapExitHelp_consume hmail (alive_setStack ha _) h1
      exact h2
    · exact .inl h1
  have hmatched : ∀ r rest k' b', (s.pcb s.self).stack = .receive r :: rest → r.cursor = .msg k' →
      s.matched r rest k' b' = .ok t → Event.consume k c b ∈ s.log ∨ Event.insert s.self k ∈ s.log := by
    intro r rest k' b' hst hcur hm
    unfold State.matched at hm
    cases b' with
    | false =>
      cases hm
      exact .inl hc
    | true =>
      cases hm
      obtain ⟨es, hes, hl⟩ := leave_log (s.consume k' (.clause r.call)) r rest
      rw [hl, List.mem_append] at hc
      rcases hc with h1 | h1
      · have := hes _ h1
        cases this
      · rcases List.mem_cons.mp h1 with h2 | h2
        · cases h2
          exact .inr (h.cursor_inserted (by simp [hst]) hcur)
        · exact .inl h2
  cases a with
  | find b' now rt =>
    simp only [State.receiveStep] at hs
    split at hs
    · rename_i r rest hst
      split at hs
      · rename_i hr
        cases hs
        exact hfind0 r rest b' hst (by simp [hr]) hc
      · rename_i hr
        cases hs
        exact hfind0 r rest b' hst (by simp [hr]) hc
      · exact .inl (find1_consume hs hc)
      · cases hs
    · cases hs
  | matcher b' =>
    simp only [State.receiveStep] at hs
    split at hs
    · rename_i r rest hst
      split at hs
      · rename_i k' h1 h2 h3
        exact hmatched r rest k' b' hst h2 hs
      · rename_i k' m h1 h2 h3
        obtain ⟨-, hs⟩ := ensure_ok hs
        exact hmatched r rest k' b' hst h2 hs
      · cases hs
    · cases hs
  | handleInterrupt =>
    simp only [State.receiveStep] at hs
    obtain ⟨-, hs⟩ := ensure_ok hs
    split at hs
    · split at hs
      · cases hs
        exact .inl hc
      · cases hs
        exact .inl hc
      · cases hs
        exact .inl hc
      · cases hs
    · cases hs
      exact .inl hc
  | handlerReturn =>
    simp only [State.receiveStep] at hs
    split at hs
    · rename_i rest hst
      cases hs
      exact hhelp _ rest (fun r hr => ⟨r, by simp [hst, hr], .refl r⟩) hc
    · cases hs
      exact .inl hc
    · cases hs
  | _ => cases hs

/-- A step takes messages from the inbox of the running process only. -/
theorem step_consume (hreach : Reachable s) (hs : s.step a = .ok t) (hc : Event.consume k c b ∈ t.log) :
    Event.consume k c b ∈ s.log ∨ Event.insert s.self k ∈ s.log := by
  have ha := hreach.fine.2
  obtain ⟨⟨box, hbox⟩, -⟩ := hreach.mail
  have huser : s.userStep a = .ok t → Event.consume k c b ∈ s.log ∨ Event.insert s.self k ∈ s.log := by
    intro hu
    cases hw : a.working with
    | false => exact .inl (posts_consume (moves_posts (userStep_moves ha hw hu)) hc)
    | true =>
      cases a with
      | receive w =>
        cases hu
        exact .inl hc
      | setTrapExit x =>
        cases hu
        exact .inl hc
      | demonitorFlush m =>
        dsimp only [State.userStep] at hu
        split at hu
        · cases hu
          rcases List.mem_cons.mp hc with h1 | h1
          · cases h1
          · exact .inl h1
        · cases hu
          exact .inl hc
      | handleTrapExit =>
        dsimp only [State.userStep] at hu
        split at hu
        · cases hu
          exact handleTrapExitHelp_consume hbox ha hc
        · cases hu
          exact .inl hc
      | raise n =>
        obtain ⟨-, hu⟩ := ensure_ok hu
        cases hu
        exact .inl hc
      | _ => cases hw
  unfold State.step at hs
  split at hs
  · exact receiveStep_consume hbox ha hs hc
  · exact receiveStep_consume hbox ha hs hc
  · exact receiveStep_consume hbox ha hs hc
  · exact receiveStep_consume hbox ha hs hc
  · split at hs
    · exact huser hs
    · cases hs

/-- A sorted list that keeps what it has and takes in only numbers from n on grows
at its end. -/
theorem prefix_of_sorted {l l' : List Nat} {n : Nat} (hl : l.Pairwise (· < ·)) (hl' : l'.Pairwise (· < ·))
    (hsub : ∀ i ∈ l, i ∈ l') (hnew : ∀ i ∈ l', i ∈ l ∨ n ≤ i) (hold : ∀ i ∈ l, i < n) : l <+: l' := by
  induction l generalizing l' with
  | nil => exact List.nil_prefix
  | cons x xs ih =>
    obtain ⟨hx, hxs⟩ := List.pairwise_cons.mp hl
    have hxn := hold x (by simp)
    cases l' with
    | nil => exact absurd (hsub x (by simp)) (by simp)
    | cons y ys =>
      obtain ⟨hy, hys⟩ := List.pairwise_cons.mp hl'
      have hyx : y ≤ x := by
        rcases List.mem_cons.mp (hsub x (by simp)) with h1 | h1
        · omega
        · have := hy x h1
          omega
      have hxy : x ≤ y := by
        rcases hnew y (by simp) with h1 | h1
        · rcases List.mem_cons.mp h1 with h2 | h2
          · omega
          · have := hx y h2
            omega
        · omega
      obtain rfl : x = y := Nat.le_antisymm hxy hyx
      refine (List.prefix_cons_inj x).mpr (ih hxs hys (fun i hi => ?_) (fun i hi => ?_)
        fun i hi => hold i (List.mem_cons_of_mem _ hi))
      · have := hx i hi
        rcases List.mem_cons.mp (hsub i (List.mem_cons_of_mem _ hi)) with h1 | h1
        · omega
        · exact h1
      · have := hy i hi
        rcases hnew i (List.mem_cons_of_mem _ hi) with h1 | h1
        · rcases List.mem_cons.mp h1 with h2 | h2
          · omega
          · exact .inl h2
        · exact .inr h1

theorem inbox_sorted (h : Reachable s) (ha : s.alive p = true) :
    (s.inbox p).Pairwise (· < ·) ∧ ∀ i ∈ s.inbox p, i < s.nextMsg := by
  obtain ⟨⟨box, hbox⟩, -⟩ := h.mail
  rw [inbox_eq hbox.boxes ha]
  exact ⟨hbox.boxes.sorted p, fun i hi => (hbox.boxes.bound p i (hbox.boxes.inserted p i hi)).1⟩

/-- When nothing is taken out of the inbox, it grows at its end. -/
theorem inbox_grows (h : Reachable s) (hs : s.step a = .ok t) (ha : s.alive p = true) (ha' : t.alive p = true)
    (hkeep : ∀ k c, Event.insert p k ∈ s.log → Event.consume k c true ∈ t.log → Event.consume k c true ∈ s.log) :
    s.inbox p <+: t.inbox p := by
  have h' := h.step hs
  obtain ⟨hsorted, hlt⟩ := inbox_sorted h ha
  refine prefix_of_sorted hsorted (inbox_sorted h' ha').1 (fun i hi => ?_) (fun i hi => ?_) hlt
  · obtain ⟨⟨box, hbox⟩, -⟩ := h.mail
    obtain ⟨⟨box', hbox'⟩, -⟩ := h'.mail
    rw [inbox_eq hbox.boxes ha] at hi
    rw [inbox_eq hbox'.boxes ha']
    have hins := hbox.boxes.inserted p i hi
    by_contra hno
    obtain ⟨c, hc⟩ := hbox'.boxes.taken p i ha' ((h.mailing hs).log _ hins) hno
    obtain ⟨q, hq, hout⟩ := hbox.boxes.once i c (hkeep i c hins hc)
    rw [hbox.boxes.owner q p i hq hins] at hout
    exact hout hi
  · rcases inbox_step h hs h' ha ha' hi with h1 | ⟨h1, -, -⟩
    · exact .inl h1
    · exact .inr h1

/-- A step of another process. -/
theorem inbox_grows_other (h : Reachable s) (hs : s.step a = .ok t) (hne : s.self ≠ p) (ha : s.alive p = true)
    (ha' : t.alive p = true) : s.inbox p <+: t.inbox p := by
  refine inbox_grows h hs ha ha' fun k c hins hc => ?_
  rcases step_consume h hs hc with h1 | h1
  · exact h1
  · obtain ⟨⟨box, hbox⟩, -⟩ := h.mail
    exact absurd (hbox.boxes.owner s.self p k h1 hins) hne

/-- A message that the cursor has not come to. -/
def MPtr.ahead : MPtr → Nat → Bool
  | .inbox _, _ => true
  | .msg c, i => c < i

/-- From the start of the inbox, or from a message in it, the next pointer leads to the
next message. -/
theorem next_linked {x : MPtr} (h : Reachable s) (ha : s.alive p = true)
    (hx : x = .inbox p ∨ ∃ c ∈ s.inbox p, x = .msg c) (hn : (s.mail x).next = some (.msg k)) :
    k ∈ s.inbox p ∧ (s.mail (.msg k)).prev ≠ none ∧ x.ahead k = true ∧
      ∀ i ∈ s.inbox p, i ≤ k → i = k ∨ x.Behind i := by
  obtain ⟨⟨box, hbox⟩, -⟩ := h.mail
  have hb := hbox.boxes
  rw [inbox_eq hb ha] at hx ⊢
  have hk : k ∈ box p ∧ x.ahead k = true ∧ ∀ i ∈ box p, i ≤ k → i = k ∨ x.Behind i := by
    rcases hx with rfl | ⟨c, hc, rfl⟩
    · rw [(hb.ring p ha).sentinel_next] at hn
      cases hl : box p with
      | nil => simp [hl] at hn
      | cons j l =>
        have hsorted := hb.sorted p
        rw [hl] at hn hsorted
        cases hn
        refine ⟨by simp, rfl, fun i hi hik => ?_⟩
        rcases List.mem_cons.mp hi with h1 | h1
        · exact .inl h1
        · have := (List.pairwise_cons.mp hsorted).1 i h1
          omega
    · obtain ⟨xs, ys, hxy⟩ := List.append_of_mem hc
      obtain ⟨hlt, hgt, hys⟩ := hb.sorted_split hxy
      rw [hb.next_of_mem ha hxy] at hn
      cases ys with
      | nil => simp at hn
      | cons y ys =>
        cases hn
        refine ⟨by simp [hxy], by simpa [MPtr.ahead] using hgt k (by simp), fun i hi hik => ?_⟩
        rw [hxy] at hi
        rcases List.mem_append.mp hi with h1 | h1
        · exact .inr (Nat.le_of_lt (hlt i h1))
        · rcases List.mem_cons.mp h1 with h2 | h2
          · exact .inr (Nat.le_of_eq h2)
          · rcases List.mem_cons.mp h2 with h3 | h3
            · exact .inl h3
            · have := (List.pairwise_cons.mp hys).1 i h3
              omega
  exact ⟨hk.1, hb.prev_of_mem ha hk.1, hk.2⟩

/-- And at the end it leads back to the start. -/
theorem end_linked {x : MPtr} {q : Nat} (h : Reachable s) (ha : s.alive p = true)
    (hx : x = .inbox p ∨ ∃ c ∈ s.inbox p, x = .msg c) (hn : (s.mail x).next = some (.inbox q)) :
    ∀ i ∈ s.inbox p, x.Behind i := by
  obtain ⟨⟨box, hbox⟩, -⟩ := h.mail
  have hb := hbox.boxes
  rw [inbox_eq hb ha] at hx ⊢
  intro i hi
  rcases hx with rfl | ⟨c, hc, rfl⟩
  · rw [(hb.ring p ha).sentinel_next] at hn
    cases hl : box p with
    | nil => simp [hl] at hi
    | cons j l => simp [hl] at hn
  · obtain ⟨xs, ys, hxy⟩ := List.append_of_mem hc
    obtain ⟨hlt, -, -⟩ := hb.sorted_split hxy
    rw [hb.next_of_mem ha hxy] at hn
    cases ys with
    | cons y ys => simp at hn
    | nil =>
      rw [hxy] at hi
      rcases List.mem_append.mp hi with h1 | h1
      · exact Nat.le_of_lt (hlt i h1)
      · exact Nat.le_of_eq (List.mem_singleton.mp h1)

end

end Swish.Erlang
