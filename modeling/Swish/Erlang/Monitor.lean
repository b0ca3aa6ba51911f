import Swish.Erlang.Exit

/-!
Monitors: both ends of a monitor list it, and it fires once. In the middle of a
cascade a dead process still has monitors, and while they are fired the rest of
the list is only in the hands of the loop. The invariant is therefore stated for
lists that need not be those in the pcbs.
-/

set_option autoImplicit false

namespace Swish.Erlang
open CircularList

variable {s s' t u : State} {p q k : Nat} {m : Mon} {f f' : Nat → List Mon} {box : Nat → List Nat}

/-- The DOWN messages for m that were ever sent. -/
def State.downs (s : State) (m : Mon) : List Nat :=
  (List.range s.nextMsg).filter fun k => (s.contents k).isDown m

@[simp] abbrev State.mons (s : State) (x : Nat) : List Mon := (s.pcb x).monitors

theorem downs_congr (hc : s'.contents = s.contents) (hn : s'.nextMsg = s.nextMsg) (m : Mon) :
    s'.downs m = s.downs m := by
  unfold State.downs
  rw [hc, hn]

theorem downs_insert (s : State) (p : Nat) (x : Contents) (m : Mon) :
    (s.insertMsg p x).downs m = s.downs m ++ if x.isDown m then [s.nextMsg] else [] := by
  have hold : ∀ k ∈ List.range s.nextMsg,
      ((s.insertMsg p x).contents k).isDown m = (s.contents k).isDown m := by
    intro k hk
    have hne : k ≠ s.nextMsg := by
      have := List.mem_range.mp hk
      omega
    simp [State.insertMsg, hne]
  have hn : (s.insertMsg p x).nextMsg = s.nextMsg + 1 := rfl
  unfold State.downs
  rw [hn, List.range_succ, List.filter_append, List.filter_congr hold]
  simp [State.insertMsg, List.filter_cons]

/-- What the lists say about monitors. -/
structure MonOk (s : State) (f : Nat → List Mon) : Prop where
  pair : ∀ m : Mon, m ∈ f m.origin ↔ m ∈ f m.target
  place : ∀ x, ∀ m ∈ f x, x = m.origin ∨ x = m.target
  single : ∀ x m, m.origin ≠ m.target → (f x).count m ≤ 1
  known : ∀ x, ∀ m ∈ f x, m.id < s.nextMon
  unsent : ∀ x, ∀ m ∈ f x, s.downs m = []
  once : ∀ m, (s.downs m).length ≤ 1
  sent : ∀ m, ∀ k ∈ s.downs m, Event.insert m.origin k ∈ s.log ∧ m.id < s.nextMon
  made : ∀ m, Event.monitor m ∈ s.log →
    m.id < s.nextMon ∧ m.origin ≤ s.procs.last ∧ m.target ≤ s.procs.last
  fate : ∀ m, Event.monitor m ∈ s.log → Event.demonitor m ∉ s.log → s.alive m.origin = true →
    m ∈ f m.target ∨ (s.alive m.target = false ∧ (s.downs m).length = 1)

/-- Nobody will ever send a DOWN message for m. -/
def Retired (s : State) (f : Nat → List Mon) (m : Mon) : Prop :=
  m.id < s.nextMon ∧ ∀ x, m ∉ f x

/-- The DOWN message that demonitor&flush waits for. -/
def DownOf : Matcher → Contents → Prop := fun w x => ∃ m, w = .down m ∧ x.isDown m = true

/-- While demonitor&flush looks for the DOWN message it is not behind the
cursor, unless the matcher is at it; afterwards it is not in the inbox. -/
structure FlushOk (s : State) (f : Nat → List Mon) : Prop where
  mail : ∃ box, MailOk DownOf s box
  frames : ∀ p r m, Frame.receive r ∈ (s.pcb p).stack → r.matcher = .down m →
    m.origin = p ∧ Retired s f m ∧ ∀ i ∈ s.inbox p, (s.contents i).isDown m = true →
      r.cursor.Behind i → r.phase = .matching ∧ r.cursor = .msg i
  flushed : ∀ m, Event.flushed m ∈ s.log → Retired s f m ∧
    (s.alive m.origin = true → ∀ i ∈ s.inbox m.origin, (s.contents i).isDown m = false)

structure Watch (s : State) (f : Nat → List Mon) : Prop where
  mon : MonOk s f
  flush : FlushOk s f

/-- A change that leaves messages, $receives and the history of monitors alone;
processes may die. -/
structure Still (s s' : State) : Prop extends Calm s s' where
  nextMon : s'.nextMon = s.nextMon
  made : ∀ m, Event.monitor m ∈ s'.log → Event.monitor m ∈ s.log
  flushed : ∀ m, Event.flushed m ∈ s'.log → Event.flushed m ∈ s.log

theorem inbox_congr (hm : s'.mail = s.mail) (hn : s'.nextMsg = s.nextMsg) (p : Nat) :
    s'.inbox p = s.inbox p := by
  unfold State.inbox
  rw [hm, hn]

theorem log_mono {es : List Event} (hl : s'.log = es ++ s.log) {e : Event} (he : e ∈ s.log) :
    e ∈ s'.log := by
  rw [hl]
  exact List.mem_append_right _ he

theorem Calm.mem_log (h : Calm s s') {e : Event} (he : e ∈ s.log) : e ∈ s'.log := by
  obtain ⟨es, hl, _⟩ := h.log
  exact log_mono hl he

namespace Still

theorem refl (s : State) : Still s s :=
  ⟨Calm.of_eq rfl rfl rfl rfl [] rfl (by simp), rfl, fun _ => id, fun _ => id⟩

theorem of_log (hc : Calm s s') (hn : s'.nextMon = s.nextMon) (hl : s'.log = s.log) : Still s s' :=
  ⟨hc, hn, fun _ h => by rwa [hl] at h, fun _ h => by rwa [hl] at h⟩

theorem sched (h : SchedOnly s s') : Still s s' := by
  obtain ⟨es, hl, hes⟩ := h.log
  refine ⟨Calm.sched h, h.nextMon, fun m hm => ?_, fun m hm => ?_⟩
  all_goals
    rw [hl, List.mem_append] at hm
    rcases hm with h1 | h1
    · have := hes _ h1
      cases this
    · exact h1

theorem modify (p : Nat) (g : Pcb → Pcb) (hi : (g (s.pcb p)).inbox = (s.pcb p).inbox)
    (hf : (g (s.pcb p)).stack = (s.pcb p).stack) : Still s (s.modify p g) :=
  of_log (Calm.modify p g hi hf) rfl rfl

end Still

/-- Changes that concern neither messages nor monitors. -/
theorem MonOk.congr (h : MonOk s f) (hc : s'.contents = s.contents) (hn : s'.nextMsg = s.nextMsg)
    (hm : s'.nextMon = s.nextMon) (hlast : s.procs.last ≤ s'.procs.last)
    (ha : ∀ p, s'.alive p = true → s.alive p = true) (hl : ∀ e ∈ s.log, e ∈ s'.log)
    (hmade : ∀ m, Event.monitor m ∈ s'.log → Event.monitor m ∈ s.log) : MonOk s' f := by
  have hd : ∀ m, s'.downs m = s.downs m := downs_congr hc hn
  refine ⟨h.pair, h.place, h.single, fun x m hx => ?_, fun x m hx => ?_, fun m => ?_,
    fun m k hk => ?_, fun m hx => ?_, fun m hx hno hal => ?_⟩
  · rw [hm]; exact h.known x m hx
  · rw [hd]; exact h.unsent x m hx
  · rw [hd]; exact h.once m
  · rw [hd] at hk
    obtain ⟨h1, h2⟩ := h.sent m k hk
    exact ⟨hl _ h1, by rw [hm]; exact h2⟩
  · obtain ⟨h1, h2, h3⟩ := h.made m (hmade m hx)
    exact ⟨by rw [hm]; exact h1, by omega, by omega⟩
  · rw [hd]
    rcases h.fate m (hmade m hx) (fun h1 => hno (hl _ h1)) (ha _ hal) with h1 | ⟨h1, h2⟩
    · exact .inl h1
    · refine .inr ⟨?_, h2⟩
      cases hs : s'.alive m.target with
      | false => rfl
      | true => rw [ha _ hs] at h1; cases h1

theorem MonOk.still (h : MonOk s f) (hq : Still s s') : MonOk s' f :=
  h.congr hq.contents hq.nextMsg hq.nextMon hq.last hq.alive (fun _ => hq.mem_log) hq.made

theorem Retired.mono (h : Retired s f m) (hn : s.nextMon ≤ s'.nextMon)
    (hf : ∀ x, m.id < s.nextMon → m ∈ f' x → m ∈ f x) : Retired s' f' m :=
  ⟨Nat.lt_of_lt_of_le h.1 hn, fun x hm => h.2 x (hf x h.1 hm)⟩

/-- Changes that concern neither messages nor demonitor&flush. Only monitors
that did not exist before may enter the lists. -/
theorem FlushOk.calm (h : FlushOk s f) (hc : Calm s s') (hn : s.nextMon ≤ s'.nextMon)
    (hl : ∀ m, Event.flushed m ∈ s'.log → Event.flushed m ∈ s.log)
    (hf : ∀ m x, m.id < s.nextMon → m ∈ f' x → m ∈ f x) : FlushOk s' f' := by
  obtain ⟨box, hm⟩ := h.mail
  refine ⟨⟨box, hm.calm hc⟩, fun p r m hr hd => ?_, fun m hd => ?_⟩
  · obtain ⟨h1, h2, h3⟩ := h.frames p r m (hc.frames p r hr).2 hd
    rw [inbox_congr hc.mail hc.nextMsg, hc.contents]
    exact ⟨h1, h2.mono hn (hf m), h3⟩
  · obtain ⟨h1, h2⟩ := h.flushed m (hl m hd)
    rw [inbox_congr hc.mail hc.nextMsg, hc.contents]
    exact ⟨h1.mono hn (hf m), fun ha => h2 (hc.alive _ ha)⟩

theorem Watch.still (h : Watch s f) (hq : Still s s') : Watch s' f :=
  ⟨h.mon.still hq, h.flush.calm hq.toCalm (Nat.le_of_eq hq.nextMon.symm) hq.flushed fun _ _ _ hm => hm⟩

/-- No demonitor&flush is looking for the DOWN message of m or has returned. -/
def Idle (s : State) (m : Mon) : Prop :=
  (∀ p r, Frame.receive r ∈ (s.pcb p).stack → r.matcher ≠ .down m) ∧ Event.flushed m ∉ s.log

theorem FlushOk.idle (h : FlushOk s f) (hr : ¬ Retired s f m) : Idle s m :=
  ⟨fun p r hs hd => hr (h.frames p r m hs hd).2.1, fun hm => hr (h.flushed m hm).1⟩

theorem mem_inbox_insert (h : MailOk DownOf s box) {x : Contents}
    (hw : MailOk DownOf (s.insertMsg p x) (addMsg box p s.nextMsg)) (hq : s.alive q = true) {i : Nat} :
    i ∈ (s.insertMsg p x).inbox q ↔ i ∈ s.inbox q ∨ (q = p ∧ i = s.nextMsg) := by
  have hq' : (s.insertMsg p x).alive q = true := hq
  rw [inbox_eq hw.boxes hq', inbox_eq h.boxes hq, mem_addMsg]

theorem FlushOk.insert (h : FlushOk s f) (ha : s.alive p = true) (x : Contents)
    (hx : ∀ m, x.isDown m = true → Idle s m) : FlushOk (s.insertMsg p x) f := by
  obtain ⟨box, hm⟩ := h.mail
  have hm' : MailOk DownOf (s.insertMsg p x) (addMsg box p s.nextMsg) := by
    refine hm.insert ha x fun r c hr _ _ hw => ?_
    obtain ⟨m, h1, h2⟩ := hw
    exact (hx m h2).1 p r hr h1
  have hnew : (s.insertMsg p x).contents s.nextMsg = x := by simp [State.insertMsg]
  have hold : ∀ q i, s.alive q = true → i ∈ s.inbox q → i < s.nextMsg ∧
      (s.insertMsg p x).contents i = s.contents i := by
    intro q i hq hi
    rw [inbox_eq hm.boxes hq] at hi
    have hlt := (hm.boxes.bound q i (hm.boxes.inserted q i hi)).1
    have hne : i ≠ s.nextMsg := by omega
    exact ⟨hlt, by simp [State.insertMsg, hne]⟩
  refine ⟨⟨_, hm'⟩, fun q r m hr hd => ?_, fun m hd => ?_⟩
  · have hr : Frame.receive r ∈ (s.pcb q).stack := hr
    obtain ⟨h1, h2, h3⟩ := h.frames q r m hr hd
    have hq := (hm.calls q r hr).1
    refine ⟨h1, h2, fun i hi hdi hb => ?_⟩
    rcases (mem_inbox_insert hm hm' hq).mp hi with h4 | ⟨_, h4⟩
    · rw [(hold q i hq h4).2] at hdi
      exact h3 i h4 hdi hb
    · rw [h4, hnew] at hdi
      exact absurd hd ((hx m hdi).1 q r hr)
  · have hd : Event.flushed m ∈ s.log := by simpa [State.insertMsg] using hd
    obtain ⟨h1, h2⟩ := h.flushed m hd
    refine ⟨h1, fun hq i hi => ?_⟩
    have hq : s.alive m.origin = true := hq
    rcases (mem_inbox_insert hm hm' hq).mp hi with h4 | ⟨_, h4⟩
    · rw [(hold _ i hq h4).2]
      exact h2 hq i h4
    · rw [h4, hnew]
      cases hdx : x.isDown m with
      | false => rfl
      | true => exact absurd hd (hx m hdx).2

/-- A message that has nothing to do with monitors. -/
theorem MonOk.insert (h : MonOk s f) (p : Nat) {x : Contents} (hx : ∀ m, x.isDown m = false) :
    MonOk (s.insertMsg p x) f := by
  have hd : ∀ m, (s.insertMsg p x).downs m = s.downs m := by
    intro m
    rw [downs_insert, hx m]
    simp
  have hl : ∀ e, e ∈ (s.insertMsg p x).log ↔ e = .insert p s.nextMsg ∨ e ∈ s.log := by
    simp [State.insertMsg]
  refine ⟨h.pair, h.place, h.single, h.known, fun y m hm => ?_, fun m => ?_, fun m k hk => ?_,
    fun m hm => ?_, fun m hm hn ha => ?_⟩
  · rw [hd]; exact h.unsent y m hm
  · rw [hd]; exact h.once m
  · rw [hd] at hk
    exact ⟨(hl _).mpr (.inr (h.sent m k hk).1), (h.sent m k hk).2⟩
  · exact h.made m (((hl _).mp hm).resolve_left (by simp))
  · rw [hd]
    exact h.fate m (((hl _).mp hm).resolve_left (by simp)) (fun h1 => hn ((hl _).mpr (.inr h1))) ha

theorem Watch.send (h : Watch s f) (p : Nat) {x : Contents} (hx : ∀ m, x.isDown m = false) :
    Watch (s.send p x) f := by
  rcases send_cases s p x with ⟨_, he⟩ | ⟨ha, hs⟩
  · rw [he]; exact h
  · have h1 : Watch (s.insertMsg p x) f :=
      ⟨h.mon.insert p hx, h.flush.insert ha x fun m hm => by rw [hx m] at hm; cases hm⟩
    exact h1.still (Still.sched hs)

/-- Entries for m leave the lists, at both ends or at none. -/
structure Shrinks (f f' : Nat → List Mon) (m : Mon) : Prop where
  sub : ∀ x, (f' x).Sublist (f x)
  pair : m ∈ f' m.origin ↔ m ∈ f' m.target
  other : ∀ n, n ≠ m → ∀ x, n ∈ f x → n ∈ f' x

theorem FlushOk.shrink (h : FlushOk s f) (hf : Shrinks f f' m) : FlushOk s f' :=
  h.calm (Still.refl s).toCalm (Nat.le_refl _) (fun _ => id) fun _ x _ hm => (hf.sub x).subset hm

theorem Shrinks.mem_iff (hf : Shrinks f f' m) {n : Mon} (hn : n ≠ m) (x : Nat) :
    n ∈ f' x ↔ n ∈ f x := ⟨fun h => (hf.sub x).subset h, hf.other n hn x⟩

theorem Shrinks.pairs (hf : Shrinks f f' m) (h : ∀ n : Mon, n ∈ f n.origin ↔ n ∈ f n.target) (n : Mon) :
    n ∈ f' n.origin ↔ n ∈ f' n.target := by
  by_cases hn : n = m
  · subst hn; exact hf.pair
  · rw [hf.mem_iff hn, hf.mem_iff hn]; exact h n

/-- A monitor that is cancelled, or whose origin is dead, leaves silently. -/
theorem MonOk.drop (h : MonOk s f) (hf : Shrinks f f' m)
    (hm : s.alive m.origin = false ∨ Event.demonitor m ∈ s.log) : MonOk s f' := by
  refine ⟨hf.pairs h.pair, fun x n hn => h.place x n ((hf.sub x).subset hn),
    fun x n hn => Nat.le_trans ((hf.sub x).count_le n) (h.single x n hn),
    fun x n hn => h.known x n ((hf.sub x).subset hn),
    fun x n hn => h.unsent x n ((hf.sub x).subset hn), h.once, h.sent, h.made, fun n h1 h2 h3 => ?_⟩
  have hn : n ≠ m := by
    intro he
    subst he
    rcases hm with h4 | h4
    · rw [h4] at h3; cases h3
    · exact h2 h4
  rw [hf.mem_iff hn]
  exact h.fate n h1 h2 h3

/-- A monitor whose target is dead leaves with a DOWN message. -/
theorem MonOk.fire (h : MonOk s f) (hf : Shrinks f f' m) (hm : m ∈ f m.target)
    (hgone : ∀ x, m ∉ f' x) (ht : s.alive m.target = false) (r : RawReason) :
    MonOk (s.insertMsg m.origin (.down m p r)) f' := by
  have hd : ∀ n, (s.insertMsg m.origin (.down m p r)).downs n =
      if n = m then [s.nextMsg] else s.downs n := by
    intro n
    rw [downs_insert]
    by_cases hn : n = m
    · subst hn
      simp [Contents.isDown, h.unsent _ _ hm]
    · simp [Contents.isDown, hn, Ne.symm hn]
  have hl : ∀ e, e ∈ (s.insertMsg m.origin (.down m p r)).log ↔
      e = .insert m.origin s.nextMsg ∨ e ∈ s.log := by
    simp [State.insertMsg]
  refine ⟨hf.pairs h.pair, fun x n hn => h.place x n ((hf.sub x).subset hn),
    fun x n hn => Nat.le_trans ((hf.sub x).count_le n) (h.single x n hn),
    fun x n hn => h.known x n ((hf.sub x).subset hn), fun x n hn => ?_, fun n => ?_, fun n k hk => ?_,
    fun n hn => h.made n (((hl _).mp hn).resolve_left (by simp)), fun n h1 h2 h3 => ?_⟩
  · have hne : n ≠ m := by
      intro he
      subst he
      exact hgone x hn
    rw [hd]
    simp only [hne, if_false]
    exact h.unsent x n ((hf.sub x).subset hn)
  · rw [hd]
    split
    · simp
    · exact h.once n
  · rw [hd] at hk
    split at hk
    · rename_i he
      subst he
      exact ⟨(hl _).mpr (.inl (by rw [List.mem_singleton.mp hk])), h.known _ n hm⟩
    · exact ⟨(hl _).mpr (.inr (h.sent n k hk).1), (h.sent n k hk).2⟩
  · rw [hd]
    by_cases hn : n = m
    · subst hn
      exact .inr ⟨ht, by simp⟩
    · simp only [hn, if_false]
      rw [hf.mem_iff hn]
      exact h.fate n (((hl _).mp h1).resolve_left (by simp)) (fun h4 => h2 ((hl _).mpr (.inr h4))) h3

theorem Watch.drop (h : Watch s f) (hf : Shrinks f f' m)
    (hm : s.alive m.origin = false ∨ Event.demonitor m ∈ s.log) : Watch s f' :=
  ⟨h.mon.drop hf hm, h.flush.shrink hf⟩

/-- The lists while the monitors ms of p have still to be fired. -/
def firing (s : State) (p : Nat) (ms : List Mon) : Nat → List Mon :=
  fun x => if x = p then ms else s.mons x

theorem filter_ne_sublist (l : List Mon) (m : Mon) : (l.filter (· ≠ m)).Sublist l :=
  List.filter_sublist

/-- The other end q drops m as well. -/
theorem Shrinks.fire {ms : List Mon} (hp : p ≠ q) (hm : m ∉ ms)
    (ho : (m.origin = p ∧ m.target = q) ∨ (m.origin = q ∧ m.target = p))
    (hx : ∀ x, s'.mons x = if x = q then (s.mons q).filter (· ≠ m) else s.mons x) :
    Shrinks (firing s p (m :: ms)) (firing s' p ms) m ∧
      m ∉ firing s' p ms p ∧ m ∉ firing s' p ms q := by
  have hfp : firing s' p ms p = ms := by simp [firing]
  have hfq : firing s' p ms q = (s.mons q).filter (· ≠ m) := by
    simp only [firing, Ne.symm hp, if_false]
    rw [hx q]
    simp
  have h1 : m ∉ firing s' p ms p := by rw [hfp]; exact hm
  have h2 : m ∉ firing s' p ms q := by
    rw [hfq]
    simp
  refine ⟨⟨fun x => ?_, ?_, fun n hn x hnx => ?_⟩, h1, h2⟩
  · by_cases hxp : x = p
    · subst hxp
      rw [hfp]
      simp [firing]
    · by_cases hxq : x = q
      · subst hxq
        rw [hfq]
        simp only [firing, hxp, if_false]
        exact filter_ne_sublist _ m
      · simp only [firing, hxp, if_false]
        rw [hx x]
        simp [hxq]
  · rcases ho with ⟨h3, h4⟩ | ⟨h3, h4⟩
    · rw [h3, h4]
      exact ⟨fun h => absurd h h1, fun h => absurd h h2⟩
    · rw [h3, h4]
      exact ⟨fun h => absurd h h2, fun h => absurd h h1⟩
  · by_cases hxp : x = p
    · subst hxp
      rw [hfp]
      simp only [firing, if_true, List.mem_cons] at hnx
      exact hnx.resolve_left hn
    · by_cases hxq : x = q
      · subst hxq
        rw [hfq]
        simp only [firing, hxp, if_false] at hnx
        exact List.mem_filter.mpr ⟨hnx, by simpa using hn⟩
      · simp only [firing, hxp, if_false] at hnx ⊢
        rw [hx x]
        simpa [hxq] using hnx

theorem removeMonitor_mons (s : State) (m : Mon) (q x : Nat) :
    (s.removeMonitor m q).mons x = if x = q then (s.mons q).filter (· ≠ m) else s.mons x := by
  by_cases hx : x = q
  · subst hx; simp [State.removeMonitor]
  · simp [State.removeMonitor, hx]

theorem removeMonitor_still (s : State) (m : Mon) (q : Nat) : Still s (s.removeMonitor m q) :=
  Still.modify q _ rfl rfl

theorem send_mons (s : State) (p : Nat) (x : Contents) (q : Nat) : (s.send p x).mons q = s.mons q :=
  (congrArg Pcb.monitors (send_core s p x q) :)

theorem Watch.fireMonitor {ms : List Mon} (h : Watch s (firing s p (m :: ms)))
    (hp : s.alive p = false) (r : RawReason) :
    Watch (s.fireMonitor p r m) (firing (s.fireMonitor p r m) p ms) := by
  have hin : m ∈ firing s p (m :: ms) p := by simp [firing]
  have hnot : m.origin ≠ m.target → m ∉ ms := by
    intro hne hm
    have h1 := h.mon.single p m hne
    simp only [firing, if_true, List.count_cons_self] at h1
    have h2 := List.count_pos_iff.mpr hm
    omega
  unfold State.fireMonitor
  split
  · rename_i ho
    have hw := h.still (removeMonitor_still s m m.target)
    have hdead : (s.removeMonitor m m.target).alive m.origin = false := by
      rw [ho]
      by_cases hpt : p = m.target
      · simpa [State.removeMonitor, hpt] using (hpt ▸ hp : s.alive m.target = false)
      · simpa [State.removeMonitor, hpt] using hp
    by_cases hpt : p = m.target
    · -- a monitor of oneself is listed twice
      refine hw.drop (m := m) ⟨fun x => ?_, by rw [ho, hpt], fun n hn x hnx => ?_⟩ (.inl hdead)
      · unfold firing
        by_cases hx : x = p
        · simp [hx]
        · have hxt : x ≠ m.target := by rw [← hpt]; exact hx
          simp only [hx, if_false]
          rw [removeMonitor_mons]
          simp [hxt]
      · unfold firing at hnx ⊢
        by_cases hx : x = p
        · simp only [hx, if_true, List.mem_cons] at hnx ⊢
          exact hnx.resolve_left hn
        · have hxt : x ≠ m.target := by rw [← hpt]; exact hx
          simp only [hx, if_false] at hnx ⊢
          rw [removeMonitor_mons]
          simpa [hxt] using hnx
    · have hf := (Shrinks.fire hpt (hnot (by rw [ho]; exact hpt)) (.inl ⟨ho, rfl⟩)
        (removeMonitor_mons s m m.target)).1
      exact hw.drop hf (.inl hdead)
  · rename_i ho
    have ht : m.target = p := by
      rcases h.mon.place p m hin with h1 | h1
      · exact absurd h1.symm ho
      · exact h1.symm
    have hmons : ∀ x, ((s.send m.origin (.down m p r)).removeMonitor m m.origin).mons x =
        if x = m.origin then (s.mons m.origin).filter (· ≠ m) else s.mons x := by
      intro x
      rw [removeMonitor_mons, send_mons, send_mons]
    obtain ⟨hf, hg1, hg2⟩ := Shrinks.fire (Ne.symm ho) (hnot (by rw [ht]; exact ho)) (.inr ⟨rfl, ht⟩)
      hmons
    rcases send_cases s m.origin (.down m p r) with ⟨ha, he⟩ | ⟨ha, hs⟩
    · rw [he] at hf ⊢
      refine (h.still (removeMonitor_still s m m.origin)).drop hf (.inl ?_)
      simpa [State.removeMonitor] using ha
    · have hgone : ∀ x, m ∉ firing ((s.send m.origin (.down m p r)).removeMonitor m m.origin) p ms x := by
        intro x hx
        rcases h.mon.place x m ((hf.sub x).subset hx) with h1 | h1
        · rw [h1] at hx; exact hg2 hx
        · rw [h1, ht] at hx; exact hg1 hx
      have hw : Watch (s.insertMsg m.origin (.down m p r))
          (firing ((s.send m.origin (.down m p r)).removeMonitor m m.origin) p ms) := by
        refine ⟨h.mon.fire hf (by rw [ht]; exact hin) hgone (by rw [ht]; exact hp) r,
          (h.flush.insert ha _ fun n hn => ?_).shrink hf⟩
        have hnm : m = n := by simpa [Contents.isDown] using hn
        subst hnm
        exact h.flush.idle fun hr => hr.2 p hin
      exact (hw.still (Still.sched hs)).still (removeMonitor_still _ m m.origin)

theorem fireMonitor_alive (s : State) (p : Nat) (r : RawReason) (m : Mon) (q : Nat) :
    (s.fireMonitor p r m).alive q = s.alive q := by
  have hrem : ∀ (u : State) x, (u.removeMonitor m x).alive q = u.alive q := by
    intro u x
    by_cases hq : q = x <;> simp [State.removeMonitor, hq]
  unfold State.fireMonitor
  split
  · exact hrem s _
  · rw [hrem, State.alive, send_inbox]

theorem Watch.fireMonitors {ms : List Mon} (h : Watch s (firing s p ms)) (hp : s.alive p = false)
    (r : RawReason) :
    Watch (s.fireMonitors p r ms) (firing (s.fireMonitors p r ms) p []) := by
  induction ms generalizing s with
  | nil => exact h
  | cons m ms ih => exact ih (h.fireMonitor hp r) (by rw [fireMonitor_alive]; exact hp)

/-- Firing only takes monitors away. -/
theorem fireMonitors_sublist (s : State) (p : Nat) (r : RawReason) (ms : List Mon) (x : Nat) :
    ((s.fireMonitors p r ms).mons x).Sublist (s.mons x) := by
  have hrem : ∀ (u : State) m y, ((u.removeMonitor m y).mons x).Sublist (u.mons x) := by
    intro u m y
    rw [removeMonitor_mons]
    split
    · rename_i he
      subst he
      exact filter_ne_sublist _ m
    · exact .refl _
  induction ms generalizing s with
  | nil => exact .refl _
  | cons m ms ih =>
    refine (ih _).trans ?_
    unfold State.fireMonitor
    split
    · exact hrem s m _
    · have := hrem (s.send m.origin (.down m p r)) m m.origin
      rwa [send_mons] at this

theorem setMonitors_mons (s : State) (p : Nat) (ms : List Mon) (x : Nat) :
    (s.setMonitors p ms).mons x = if x = p then ms else s.mons x := by
  by_cases hx : x = p
  · subst hx; simp [State.setMonitors]
  · simp [State.setMonitors, hx]

theorem fired_mons (s : State) (p : Nat) (r : RawReason) :
    (fired s p r).mons p = [] ∧ ∀ x, s.mons x = [] → (fired s p r).mons x = [] := by
  have hsub := fireMonitors_sublist (s.setMonitors p []) p r (s.pcb p).monitors
  have hnil : ∀ x, (s.setMonitors p []).mons x = [] → (fired s p r).mons x = [] := by
    intro x hx
    have := hsub x
    rw [hx] at this
    exact List.sublist_nil.mp this
  refine ⟨hnil p (by rw [setMonitors_mons]; simp), fun x hx => hnil x ?_⟩
  rw [setMonitors_mons, hx]
  simp

theorem Watch.fired (h : Watch s s.mons) (hp : s.alive p = false) (r : RawReason) :
    Watch (fired s p r) (fired s p r).mons := by
  have h1 : Watch (s.setMonitors p []) s.mons := h.still (Still.modify p _ rfl rfl)
  have hf : firing (s.setMonitors p []) p (s.pcb p).monitors = s.mons := by
    funext x
    unfold firing
    rw [setMonitors_mons]
    by_cases hx : x = p
    · simp [hx]
    · simp [hx]
  have hdead : (s.setMonitors p []).alive p = false := by simpa [State.setMonitors] using hp
  rw [← hf] at h1
  have h2 := h1.fireMonitors hdead r
  have hend : firing (Erlang.fired s p r) p [] = (Erlang.fired s p r).mons := by
    funext x
    unfold firing
    by_cases hx : x = p
    · subst hx
      simp [(fired_mons s x r).1]
    · simp [hx]
  rw [← hend]
  exact h2

theorem unlinked_pcb (s : State) (p : Nat) (r : RawReason) (x : Nat) :
    (unlinked s p r).alive x = (if x = p then false else s.alive x) ∧
      (unlinked s p r).mons x = s.mons x := by
  unfold unlinked
  simp only [State.alive, State.mons]
  rw [removeLinks_get]
  by_cases hx : x = p <;> simp [hx, State.setLinks, Pcb.dead]

theorem Still.trans (h : Still s t) (h' : Still t u) : Still s u := by
  obtain ⟨es, hl, hes⟩ := h.log
  obtain ⟨fs, hl', hfs⟩ := h'.log
  refine ⟨⟨h'.mail.trans h.mail, h'.contents.trans h.contents, h'.nextMsg.trans h.nextMsg,
    Nat.le_trans h.last h'.last, fun p hp => h.alive p (h'.alive p hp), fun p r hr => ?_,
    fs ++ es, by rw [hl', hl, List.append_assoc], fun e he => ?_⟩, h'.nextMon.trans h.nextMon,
    fun m hm => h.made m (h'.made m hm), fun m hm => h.flushed m (h'.flushed m hm)⟩
  · obtain ⟨h1, h2⟩ := h'.frames p r hr
    obtain ⟨h3, h4⟩ := h.frames p r h2
    exact ⟨h1.trans h3, h4⟩
  · rcases List.mem_append.mp he with h1 | h1
    · exact hfs e h1
    · exact hes e h1

theorem removeLinks_still (s : State) (ls : List Nat) (d : Nat) : Still s (s.removeLinks ls d) := by
  induction ls generalizing s with
  | nil => exact Still.refl s
  | cons l ls ih => exact (Still.modify l _ rfl rfl).trans (ih _)

theorem unlinked_still (s : State) (p : Nat) (r : RawReason) : Still s (unlinked s p r) :=
  ((Still.of_log (Calm.die p r) rfl rfl).trans (Still.modify p _ rfl rfl)).trans
    (removeLinks_still _ _ _)

/-- A dead process whose monitors have not been fired. -/
def State.Unfired (s : State) (q : Nat) : Prop := s.alive q = false ∧ s.mons q ≠ []

/-- What a part of the cascade keeps. -/
structure WatchStep (s s' : State) : Prop where
  watch : Watch s s.mons → Watch s' s'.mons
  mono : ∀ q, s'.alive q = true → s.alive q = true
  unfired : ∀ q, s'.Unfired q → s.Unfired q

theorem sendExit_mons (s : State) (l p : Nat) (r : RawReason) (q : Nat) :
    (s.sendExit l p r).mons q = s.mons q := by
  unfold State.sendExit
  rw [send_mons]
  by_cases hq : q = l <;> simp [hq]

theorem sendExit_alive (s : State) (l p : Nat) (r : RawReason) (q : Nat) :
    (s.sendExit l p r).alive q = s.alive q := by
  unfold State.sendExit
  rw [State.alive, send_inbox]
  by_cases hq : q = l <;> simp [hq]

theorem Watch.sendExit (h : Watch s s.mons) (l p : Nat) (r : RawReason) :
    Watch (s.sendExit l p r) (s.sendExit l p r).mons := by
  have hm : (s.sendExit l p r).mons = s.mons := funext (sendExit_mons s l p r)
  rw [hm]
  exact (h.still (Still.modify l _ rfl rfl)).send l fun _ => rfl

theorem kill_watchStep {raw : RawReason} (ha : s.alive p = true) (h : s.kill p raw = .ok s') :
    WatchStep s s' := by
  refine kill_rule (R := WatchStep) (fun s => ⟨id, fun _ => id, fun _ => id⟩)
    (fun s t u h1 h2 => ⟨fun h => h2.watch (h1.watch h), fun q hq => h1.mono q (h2.mono q hq),
      fun q hq => h1.unfired q (h2.unfired q hq)⟩)
    (fun s l p r _ => ⟨fun h => h.sendExit l p r, fun q hq => ?_, fun q hq => ?_⟩)
    (fun s t p r ha _ h => ⟨fun hw => ?_, fun q hq => ?_, fun q hq => ?_⟩) ha h
  · rw [← sendExit_alive s l p r]; exact hq
  · obtain ⟨h1, h2⟩ := hq
    rw [sendExit_alive] at h1
    rw [sendExit_mons] at h2
    exact ⟨h1, h2⟩
  · have hu : Watch (unlinked s p r) (unlinked s p r).mons := by
      have hm : (unlinked s p r).mons = s.mons := funext fun x => (unlinked_pcb s p r x).2
      rw [hm]
      exact hw.still (unlinked_still s p r)
    refine (h.watch hu).fired ?_ r
    cases hta : t.alive p with
    | false => rfl
    | true =>
      have := h.mono p hta
      rw [(unlinked_pcb s p r p).1] at this
      simp at this
  · rw [fired_alive] at hq
    have := h.mono q hq
    rw [(unlinked_pcb s p r q).1] at this
    split at this
    · cases this
    · exact this
  · obtain ⟨h1, h2⟩ := hq
    obtain ⟨hp, hx⟩ := fired_mons t p r
    have hqp : q ≠ p := by
      intro he
      subst he
      exact h2 hp
    rw [fired_alive] at h1
    obtain ⟨h3, h4⟩ := h.unfired q ⟨h1, fun h5 => h2 (hx q h5)⟩
    rw [(unlinked_pcb s p r q).1] at h3
    rw [(unlinked_pcb s p r q).2] at h4
    simp only [hqp, if_false] at h3
    exact ⟨h3, h4⟩

theorem makeProcess_mons (s : State) (x : Nat) : s.makeProcess.1.mons x = s.mons x := by
  by_cases hx : x = s.procs.last + 1
  · have hblank : s.pcb (s.procs.last + 1) = Pcb.blank := s.procs.beyond _ (by omega)
    subst hx
    simp only [State.mons]
    rw [makeProcess_new, hblank]
    rfl
  · simp only [State.mons]
    rw [makeProcess_get hx]

theorem makeProcess_alive (hp : p ≤ s.procs.last) : s.makeProcess.1.alive p = s.alive p := by
  rw [State.alive, makeProcess_get (by omega)]

theorem MonOk.make (h : MonOk s f) : MonOk s.makeProcess.1 f := by
  refine ⟨h.pair, h.place, h.single, h.known, h.unsent, h.once, h.sent, fun m hm => ?_,
    fun m h1 h2 h3 => ?_⟩
  · obtain ⟨h1, h2, h3⟩ := h.made m hm
    have : s.procs.last ≤ s.makeProcess.1.procs.last := Nat.le_max_left _ _
    exact ⟨h1, by omega, by omega⟩
  · obtain ⟨_, ho, ht⟩ := h.made m h1
    rw [makeProcess_alive ho] at h3
    rw [makeProcess_alive ht]
    exact h.fate m h1 h2 h3

theorem FlushOk.make (h : FlushOk s f) : FlushOk s.makeProcess.1 f := by
  obtain ⟨box, hm⟩ := h.mail
  have hm' := hm.make
  have hbox : ∀ q i, s.makeProcess.1.alive q = true → i ∈ s.makeProcess.1.inbox q →
      s.alive q = true ∧ i ∈ s.inbox q := by
    intro q i ha hi
    rw [inbox_eq hm'.boxes ha] at hi
    have hq := (hm.boxes.bound q i (hm.boxes.inserted q i hi)).2
    rw [makeProcess_alive hq] at ha
    exact ⟨ha, by rw [inbox_eq hm.boxes ha]; exact hi⟩
  refine ⟨⟨box, hm'⟩, fun q r m hr hd => ?_, fun m hd => ?_⟩
  · have ha := (hm'.calls q r hr).1
    have hq : q ≠ s.procs.last + 1 := by
      intro he
      subst he
      rw [makeProcess_new] at hr
      cases hr
    rw [makeProcess_get hq] at hr
    obtain ⟨h1, h2, h3⟩ := h.frames q r m hr hd
    exact ⟨h1, h2, fun i hi => h3 i (hbox q i ha hi).2⟩
  · obtain ⟨h1, h2⟩ := h.flushed m hd
    refine ⟨h1, fun ha i hi => ?_⟩
    obtain ⟨h3, h4⟩ := hbox _ i ha hi
    exact h2 h3 i h4

/-- monitor before it looks at its argument. -/
def State.newMon (s : State) (p : Nat) : State :=
  { s with nextMon := s.nextMon + 1, log := .monitor ⟨s.nextMon, s.self, p⟩ :: s.log }

theorem newMon_calm (s : State) (p : Nat) : Calm s (s.newMon p) :=
  Calm.of_eq rfl rfl rfl rfl [.monitor ⟨s.nextMon, s.self, p⟩] rfl (by simp [Event.isMail])

theorem FlushOk.newMon (h : FlushOk s f) (p : Nat)
    (hf : ∀ m x, m.id < s.nextMon → m ∈ f' x → m ∈ f x) : FlushOk (s.newMon p) f' :=
  h.calm (newMon_calm s p) (Nat.le_succ _) (fun m hm => by simpa [State.newMon] using hm) hf

theorem MonOk.fresh (h : MonOk s f) {m : Mon} (hm : s.nextMon ≤ m.id) :
    s.downs m = [] ∧ (∀ x, m ∉ f x) ∧ Event.monitor m ∉ s.log := by
  refine ⟨List.eq_nil_iff_forall_not_mem.mpr fun k hk => ?_, fun x hx => ?_, fun hl => ?_⟩
  · have := (h.sent m k hk).2
    omega
  · have := h.known x m hx
    omega
  · have := (h.made m hl).1
    omega

theorem mem_ite_singleton {n m : Mon} {c : Prop} [Decidable c] :
    n ∈ (if c then [m] else []) ↔ n = m ∧ c := by
  split <;> simp_all

/-- The monitors made so far, and the new one. -/
theorem MonOk.made_newMon (h : MonOk s f) (ha : s.alive s.self = true) (hp : s.isPcb p = true) {m : Mon}
    (hm : m = ⟨s.nextMon, s.self, p⟩ ∨ Event.monitor m ∈ s.log) :
    m.id < s.nextMon + 1 ∧ m.origin ≤ s.procs.last ∧ m.target ≤ s.procs.last := by
  rcases hm with rfl | hm
  · simp only [State.isPcb, Bool.and_eq_true, decide_eq_true_eq] at hp
    exact ⟨Nat.lt_succ_self _, le_last_of_alive ha, hp.2⟩
  · obtain ⟨hid, hle⟩ := h.made m hm
    exact ⟨Nat.lt_succ_of_lt hid, hle⟩

/-- The new monitor is put on both lists. -/
theorem MonOk.add (h : MonOk s f) (ha : s.alive s.self = true) (hp : s.isPcb p = true)
    (hf : ∀ x, f' x = (if x = p then [⟨s.nextMon, s.self, p⟩] else []) ++
      ((if x = s.self then [⟨s.nextMon, s.self, p⟩] else []) ++ f x)) : MonOk (s.newMon p) f' := by
  generalize hm : (⟨s.nextMon, s.self, p⟩ : Mon) = m at hf
  have hid : m.id = s.nextMon := by rw [← hm]
  have ho : m.origin = s.self := by rw [← hm]
  have ht : m.target = p := by rw [← hm]
  obtain ⟨hnone, hnot, _⟩ := h.fresh (Nat.le_of_eq hid.symm)
  have hmem : ∀ n x, n ∈ f' x ↔ (n = m ∧ (x = p ∨ x = s.self)) ∨ n ∈ f x := by
    intro n x
    rw [hf x, List.mem_append, List.mem_append, mem_ite_singleton, mem_ite_singleton]
    tauto
  have hlog : ∀ e, e ∈ (s.newMon p).log ↔ e = .monitor m ∨ e ∈ s.log := by
    simp [State.newMon, hm]
  refine ⟨fun n => ?_, fun x n hn => ?_, fun x n hn => ?_, fun x n hn => ?_, fun x n hn => ?_, h.once,
    fun n k hk => ?_, fun n hn => ?_, fun n h1 h2 h3 => ?_⟩
  · rw [hmem, hmem]
    by_cases he : n = m
    · subst he
      simp [ho, ht]
    · simpa [he] using h.pair n
  · rcases (hmem n x).mp hn with ⟨rfl, h1 | h1⟩ | h1
    · exact .inr (h1.trans ht.symm)
    · exact .inl (h1.trans ho.symm)
    · exact h.place x n h1
  · have h0 := h.single x n hn
    rw [hf x, List.count_append, List.count_append]
    by_cases he : n = m
    · subst he
      have hz : (f x).count n = 0 := List.count_eq_zero.mpr (hnot x)
      rw [ho, ht] at hn
      rw [hz]
      by_cases h1 : x = p
      · have h2 : x ≠ s.self := by rw [h1]; exact Ne.symm hn
        rw [if_pos h1, if_neg h2]
        simp
      · rw [if_neg h1]
        split <;> simp
    · have hz : ∀ c : Prop, [Decidable c] → (if c then [m] else []).count n = 0 := by
        intro c _
        exact List.count_eq_zero.mpr fun hc => he (mem_ite_singleton.mp hc).1
      rw [hz, hz]
      omega
  · rcases (hmem n x).mp hn with ⟨rfl, _⟩ | h1
    · rw [hid]
      exact Nat.lt_succ_self _
    · exact Nat.lt_succ_of_lt (h.known x n h1)
  · rcases (hmem n x).mp hn with ⟨rfl, _⟩ | h1
    · exact hnone
    · exact h.unsent x n h1
  · obtain ⟨h1, h2⟩ := h.sent n k hk
    exact ⟨(hlog _).mpr (.inr h1), Nat.lt_succ_of_lt h2⟩
  · exact h.made_newMon ha hp (((hlog _).mp hn).imp_left fun h1 => (Event.monitor.inj h1).trans hm.symm)
  · rw [hmem]
    rcases (hlog _).mp h1 with h4 | h4
    · cases h4
      exact .inl (.inl ⟨rfl, .inl ht⟩)
    · rcases h.fate n h4 (fun h5 => h2 ((hlog _).mpr (.inr h5))) h3 with h5 | h5
      · exact .inl (.inr h5)
      · exact .inr h5

/-- A dead process is monitored: the DOWN message is sent at once. -/
theorem MonOk.late (h : MonOk s f) (ha : s.alive s.self = true) (hp : s.isPcb p = true)
    (hd : s.alive p = false) (r : RawReason) :
    MonOk ((s.newMon p).insertMsg s.self (.down ⟨s.nextMon, s.self, p⟩ p r)) f := by
  generalize hm : (⟨s.nextMon, s.self, p⟩ : Mon) = m
  have hid : m.id = s.nextMon := by rw [← hm]
  have ho : m.origin = s.self := by rw [← hm]
  have ht : m.target = p := by rw [← hm]
  obtain ⟨hnone, hnot, _⟩ := h.fresh (Nat.le_of_eq hid.symm)
  have hdown : ∀ n, ((s.newMon p).insertMsg s.self (.down m p r)).downs n =
      if n = m then [s.nextMsg] else s.downs n := by
    intro n
    have hsame : (s.newMon p).downs n = s.downs n := rfl
    rw [downs_insert, hsame]
    by_cases he : n = m
    · subst he
      simp [Contents.isDown, hnone, State.newMon]
    · simp [Contents.isDown, he, Ne.symm he]
  have hlog : ∀ e, e ∈ ((s.newMon p).insertMsg s.self (.down m p r)).log ↔
      e = .insert s.self s.nextMsg ∨ e = .monitor m ∨ e ∈ s.log := by
    simp [State.newMon, State.insertMsg, hm]
  refine ⟨h.pair, h.place, h.single, fun x n hn => Nat.lt_succ_of_lt (h.known x n hn), fun x n hn => ?_,
    fun n => ?_, fun n k hk => ?_, fun n hn => ?_, fun n h1 h2 h3 => ?_⟩
  · have hne : n ≠ m := by
      intro he
      subst he
      exact hnot x hn
    rw [hdown]
    simp only [hne, if_false]
    exact h.unsent x n hn
  · rw [hdown]
    split
    · simp
    · exact h.once n
  · rw [hdown] at hk
    split at hk
    · rename_i he
      rw [he]
      refine ⟨(hlog _).mpr (.inl (by rw [List.mem_singleton.mp hk, ho])), ?_⟩
      rw [hid]
      exact Nat.lt_succ_self _
    · obtain ⟨h1, h2⟩ := h.sent n k hk
      exact ⟨(hlog _).mpr (.inr (.inr h1)), Nat.lt_succ_of_lt h2⟩
  · have hcases := ((hlog _).mp hn).resolve_left (by simp)
    exact h.made_newMon ha hp (hcases.imp_left fun h1 => (Event.monitor.inj h1).trans hm.symm)
  · rw [hdown]
    rcases ((hlog _).mp h1).resolve_left (by simp) with h4 | h4
    · cases h4
      exact .inr ⟨by rw [ht]; exact hd, by simp⟩
    · have hne : n ≠ m := by
        intro he
        subst he
        have := (h.made n h4).1
        omega
      simp only [hne, if_false]
      exact h.fate n h4 (fun h5 => h2 ((hlog _).mpr (.inr (.inr h5)))) h3

theorem addMonitor_still (s : State) (m : Mon) (q : Nat) : Still s (s.addMonitor m q) :=
  Still.modify q _ rfl rfl

theorem addMonitor_mons (s : State) (m : Mon) (q x : Nat) :
    (s.addMonitor m q).mons x = (if x = q then [m] else []) ++ s.mons x := by
  by_cases hx : x = q
  · subst hx; simp [State.addMonitor]
  · simp [State.addMonitor, hx]

theorem Watch.monitor (h : Watch s s.mons) (ha : s.alive s.self = true) (hp : s.isPcb p = true) :
    Watch (s.monitor p).1 (s.monitor p).1.mons := by
  unfold State.monitor
  dsimp only
  rw [← State.newMon]
  split
  · generalize hf : (((s.newMon p).addMonitor ⟨s.nextMon, s.self, p⟩ s.self).addMonitor
      ⟨s.nextMon, s.self, p⟩ p).mons = f'
    have hf' : ∀ x, f' x = (if x = p then [⟨s.nextMon, s.self, p⟩] else []) ++
        ((if x = s.self then [⟨s.nextMon, s.self, p⟩] else []) ++ s.mons x) := by
      intro x
      rw [← hf, addMonitor_mons, addMonitor_mons]
      rfl
    have h1 : Watch (s.newMon p) f' := by
      refine ⟨h.mon.add ha hp hf', h.flush.newMon p fun m x hid hm => ?_⟩
      rw [hf' x, List.mem_append, List.mem_append, mem_ite_singleton, mem_ite_singleton] at hm
      rcases hm with ⟨rfl, _⟩ | ⟨rfl, _⟩ | hm
      · exact absurd hid (Nat.lt_irrefl _)
      · exact absurd hid (Nat.lt_irrefl _)
      · exact hm
    exact (h1.still (addMonitor_still _ _ _)).still (addMonitor_still _ _ _)
  · rename_i hd
    have hd : s.alive p = false := by simpa [State.newMon] using hd
    have hmons : ((s.newMon p).send s.self
        (.down ⟨s.nextMon, s.self, p⟩ p ((s.newMon p).exitReason p))).mons = s.mons :=
      funext fun x => send_mons _ _ _ x
    have hidle : Idle s ⟨s.nextMon, s.self, p⟩ :=
      h.flush.idle fun hr => absurd hr.1 (Nat.lt_irrefl _)
    have hs := (send_cases (s.newMon p) s.self
      (.down ⟨s.nextMon, s.self, p⟩ p ((s.newMon p).exitReason p))).resolve_left
      fun h1 => by rw [show (s.newMon p).alive s.self = true from ha] at h1; cases h1.1
    show Watch ((s.newMon p).send s.self _) ((s.newMon p).send s.self _).mons
    rw [hmons]
    have h1 : Watch ((s.newMon p).insertMsg s.self
        (.down ⟨s.nextMon, s.self, p⟩ p ((s.newMon p).exitReason p))) s.mons := by
      refine ⟨h.mon.late ha hp hd _, (h.flush.newMon p fun _ _ _ hm => hm).insert ha _ fun m hm => ?_⟩
      have hm : (⟨s.nextMon, s.self, p⟩ : Mon) = m := by simpa [Contents.isDown] using hm
      subst hm
      exact ⟨hidle.1, fun hl => hidle.2 (by simpa [State.newMon] using hl)⟩
    exact h1.still (Still.sched hs.2)

theorem demonitor_mons (s : State) (m : Mon) (x : Nat) :
    (s.demonitor m).mons x =
      if x = s.self ∨ x = m.target then (s.mons x).filter (· ≠ m) else s.mons x := by
  show (((s.removeMonitor m s.self).removeMonitor m m.target).mons x) = _
  rw [removeMonitor_mons, removeMonitor_mons, removeMonitor_mons]
  by_cases h1 : x = m.target
  · by_cases h2 : m.target = s.self
    · simp [h1, h2, List.filter_filter]
    · simp [h1, h2]
  · rw [if_neg h1]
    by_cases h2 : x = s.self
    · simp [h2]
    · simp [h1, h2]

theorem demonitor_still (s : State) (m : Mon) : Still s (s.demonitor m) := by
  have h := (removeMonitor_still s m s.self).trans (removeMonitor_still _ m m.target)
  refine h.trans ⟨Calm.of_eq rfl rfl rfl rfl [.demonitor m] rfl (by simp [Event.isMail]), rfl,
    fun n hn => ?_, fun n hn => ?_⟩
  all_goals
    rcases List.mem_cons.mp hn with h1 | h1
    · cases h1
    · exact h1

theorem demonitor_alive (s : State) (m : Mon) (q : Nat) : (s.demonitor m).alive q = s.alive q := by
  have hrem : ∀ (u : State) x, (u.removeMonitor m x).alive q = u.alive q := by
    intro u x
    by_cases hq : q = x <;> simp [State.removeMonitor, hq]
  exact (hrem (s.removeMonitor m s.self) m.target).trans (hrem s s.self)

theorem Watch.demonitor (h : Watch s s.mons) (hm : s.isOwnMon m = true) :
    Watch (s.demonitor m) (s.demonitor m).mons ∧ Retired (s.demonitor m) (s.demonitor m).mons m := by
  simp only [State.isOwnMon, Bool.and_eq_true, decide_eq_true_eq] at hm
  have hnot : ∀ x, m ∉ (s.demonitor m).mons x := by
    intro x hx
    rw [demonitor_mons] at hx
    split at hx
    · simp at hx
    · rename_i hn
      rcases h.mon.place x m hx with h1 | h1
      · exact hn (.inl (h1.trans hm.2))
      · exact hn (.inr h1)
  refine ⟨(h.still (demonitor_still s m)).drop (m := m) ⟨fun x => ?_, ?_, fun n hn x hx => ?_⟩
    (.inr (by simp [State.demonitor])), hm.1, hnot⟩
  · rw [demonitor_mons]
    split
    · exact filter_ne_sublist _ m
    · exact .refl _
  · exact ⟨fun h1 => absurd h1 (hnot _), fun h1 => absurd h1 (hnot _)⟩
  · rw [demonitor_mons]
    split
    · exact List.mem_filter.mpr ⟨hx, by simpa using hn⟩
    · exact hx

/-- The invariant between actions: a dead process has no monitors left. -/
structure WatchOk (s : State) : Prop where
  watch : Watch s s.mons
  spent : ∀ q, s.alive q = false → s.mons q = []

theorem WatchOk.still (h : WatchOk s) (hs : Still s s') (hm : ∀ q, s'.mons q = s.mons q)
    (ha : ∀ q, s'.alive q = s.alive q) : WatchOk s' := by
  refine ⟨?_, fun q hq => ?_⟩
  · rw [show s'.mons = s.mons from funext hm]
    exact h.watch.still hs
  · rw [hm]
    exact h.spent q (by rw [← ha]; exact hq)

theorem WatchOk.modify (h : WatchOk s) (p : Nat) {g : Pcb → Pcb}
    (hi : ∀ x, (g x).inbox = x.inbox) (hk : ∀ x, (g x).stack = x.stack)
    (hm : ∀ x, (g x).monitors = x.monitors) : WatchOk (s.modify p g) :=
  h.still (Still.modify p g (hi _) (hk _)) (modify_keep (g := Pcb.monitors) s p hm)
    (modify_keep (g := Pcb.inbox) s p hi)

theorem WatchOk.links (h : WatchOk s) (p : Nat) (l : List Nat → List Nat) :
    WatchOk (s.modify p fun x => { x with links := l x.links }) :=
  h.modify p (fun _ => rfl) (fun _ => rfl) fun _ => rfl

theorem WatchOk.setFlags (h : WatchOk s) (p : Nat) (fl : Flags → Flags) : WatchOk (s.setFlags p fl) :=
  h.modify p (g := fun x => { x with flags := fl x.flags }) (fun _ => rfl) (fun _ => rfl) fun _ => rfl

theorem WatchOk.step (h : WatchOk s) (hs : WatchStep s s') : WatchOk s' := by
  refine ⟨hs.watch h.watch, fun q hq => ?_⟩
  by_contra hne
  obtain ⟨h1, h2⟩ := hs.unfired q ⟨hq, hne⟩
  exact h2 (h.spent q h1)

theorem WatchOk.send (h : WatchOk s) (p : Nat) {x : Contents} (hx : ∀ m, x.isDown m = false) :
    WatchOk (s.send p x) := by
  refine ⟨?_, fun q hq => ?_⟩
  · rw [show (s.send p x).mons = s.mons from funext (send_mons s p x)]
    exact h.watch.send p hx
  · rw [send_mons]
    exact h.spent q (by rw [State.alive, send_inbox] at hq; exact hq)

theorem monitor_spent (h : WatchOk s) (ha : s.alive s.self = true) (p q : Nat)
    (hq : (s.monitor p).1.alive q = false) : (s.monitor p).1.mons q = [] := by
  unfold State.monitor at hq ⊢
  dsimp only at hq ⊢
  rw [← State.newMon] at hq ⊢
  split
  · rename_i hp
    simp only [hp, if_true] at hq
    have hal : ∀ (u : State) m x, (u.addMonitor m x).alive q = u.alive q := by
      intro u m x
      by_cases hx : q = x <;> simp [State.addMonitor, hx]
    rw [hal, hal] at hq
    have hqs : q ≠ s.self := by
      intro he
      rw [he] at hq
      rw [show (s.newMon p).alive s.self = true from ha] at hq
      cases hq
    have hqp : q ≠ p := by
      intro he
      rw [he, hp] at hq
      cases hq
    rw [addMonitor_mons, addMonitor_mons, if_neg hqs, if_neg hqp]
    exact h.spent q hq
  · rename_i hp
    simp only [hp, Bool.false_eq_true, if_false] at hq
    have hq : s.alive q = false := by
      rw [State.alive, send_inbox] at hq
      exact hq
    exact (send_mons _ _ _ q).trans (h.spent q hq)

theorem WatchOk.move (hm : Move s s') (h : WatchOk s) : WatchOk s' := by
  cases hm with
  | sched hs =>
    exact h.still (Still.sched hs) (fun q => (congrArg Pcb.monitors (hs.core q) :)) fun q => hs.inbox q
  | make =>
    refine ⟨?_, fun q hq => ?_⟩
    · rw [show s.makeProcess.1.mons = s.mons from funext (makeProcess_mons s)]
      exact ⟨h.watch.mon.make, h.watch.flush.make⟩
    · rw [makeProcess_mons]
      by_cases hq' : q = s.procs.last + 1
      · subst hq'
        rw [State.alive, makeProcess_new] at hq
        cases hq
      · rw [State.alive, makeProcess_get hq'] at hq
        exact h.spent q hq
  | link p q _ =>
    unfold State.link2
    split
    · exact h
    · exact (h.links p (q :: ·)).links q (p :: ·)
  | unlink p => exact (h.links s.self (·.filter (· ≠ p))).links p (·.filter (· ≠ s.self))
  | send p d => exact h.send p fun _ => rfl
  | sendExit target p r _ =>
    exact (h.setFlags target fun fl => { fl with exit := true }).send target fun _ => rfl
  | kill ha hk => exact h.step (kill_watchStep ha hk)
  | monitor p ha hp => exact ⟨h.watch.monitor ha hp, monitor_spent h ha p⟩
  | demonitor m hm =>
    refine ⟨(h.watch.demonitor hm).1, fun q hq => ?_⟩
    rw [demonitor_mons, h.spent q (by rw [← demonitor_alive s m]; exact hq)]
    simp
  | register name p =>
    unfold State.register
    split
    · exact h
    · split
      · exact h
      · split
        · exact h
        · exact (h.modify p (g := fun x => { x with name := some name }) (fun _ => rfl) (fun _ => rfl)
            fun _ => rfl).still (Still.of_log (Calm.of_eq rfl rfl rfl rfl [] rfl (by simp)) rfl rfl)
            (fun _ => rfl) fun _ => rfl
  | unregister name =>
    unfold State.unregister
    split
    · exact h
    · rename_i p _
      exact (h.modify p (g := fun x => { x with name := none }) (fun _ => rfl) (fun _ => rfl)
        fun _ => rfl).still (Still.of_log (Calm.of_eq rfl rfl rfl rfl [] rfl (by simp)) rfl rfl)
        (fun _ => rfl) fun _ => rfl

theorem frameless_monitors : Frameless Pcb.monitors :=
  ⟨fun _ _ => rfl, fun _ _ _ => rfl, fun _ _ => rfl, fun _ _ h => (congrArg Pcb.monitors h :)⟩

theorem frameless_inbox : Frameless Pcb.inbox :=
  ⟨fun _ _ => rfl, fun _ _ _ => rfl, fun _ _ => rfl, fun _ _ h => (congrArg Pcb.inbox h :)⟩

/-- Work goes on with one process's calls: no message is sent and no monitor is
made. -/
structure Onward (s s' : State) : Prop where
  contents : s'.contents = s.contents
  nextMsg : s'.nextMsg = s.nextMsg
  nextMon : s'.nextMon = s.nextMon
  last : s.procs.last ≤ s'.procs.last
  log : ∃ es, s'.log = es ++ s.log ∧ ∀ m, Event.monitor m ∉ es

theorem Onward.setStack (s : State) (p : Nat) (fs : List Frame) : Onward s (s.setStack p fs) :=
  ⟨rfl, rfl, rfl, Nat.le_max_left _ _, [], rfl, by simp⟩

theorem Onward.record (s : State) {e : Event} (he : ∀ m, e ≠ .monitor m) : Onward s (s.record e) :=
  ⟨rfl, rfl, rfl, Nat.le_refl _, [e], rfl, fun m hm => he m (List.mem_singleton.mp hm).symm⟩

theorem Onward.trans (h : Onward s t) (h' : Onward t u) : Onward s u := by
  obtain ⟨es, hl, hes⟩ := h.log
  obtain ⟨fs, hl', hfs⟩ := h'.log
  refine ⟨h'.contents.trans h.contents, h'.nextMsg.trans h.nextMsg, h'.nextMon.trans h.nextMon,
    Nat.le_trans h.last h'.last, fs ++ es, by rw [hl', hl, List.append_assoc], fun m hm => ?_⟩
  rcases List.mem_append.mp hm with h1 | h1
  · exact hfs m h1
  · exact hes m h1

theorem Onward.leave (s : State) (r : Receive) (rest : List Frame) : Onward s (s.leave r rest) := by
  unfold State.leave
  cases r.matcher with
  | user => exact Onward.setStack s _ _
  | down m => exact (Onward.setStack s _ _).trans (Onward.record _ (by simp))

theorem Onward.consume (s : State) (k : Nat) (c : Consumer) : Onward s (s.consume k c) :=
  (Onward.record s (by simp)).trans ⟨rfl, rfl, rfl, Nat.le_refl _, [], rfl, by simp⟩

theorem MonOk.onward (h : MonOk s f) (ho : Onward s s') (ha : ∀ p, s'.alive p = s.alive p) :
    MonOk s' f := by
  obtain ⟨es, hl, hes⟩ := ho.log
  refine h.congr ho.contents ho.nextMsg ho.nextMon ho.last (fun p hp => by rw [← ha]; exact hp)
    (fun _ => log_mono hl) fun m hm => ?_
  rw [hl, List.mem_append] at hm
  exact hm.resolve_left (hes m)

/-- Frames may change as long as each demonitor&flush is where it was or at a
place that is as good. -/
theorem FlushOk.reframe (h : FlushOk s f) (hb : ∃ box, MailOk DownOf s' box) (hm : s'.mail = s.mail)
    (ho : Onward s s') (ha : ∀ p, s'.alive p = s.alive p)
    (hf : ∀ p r' m, Frame.receive r' ∈ (s'.pcb p).stack → r'.matcher = .down m →
      (∃ r, Frame.receive r ∈ (s.pcb p).stack ∧ r.Same r') ∨
      (m.origin = p ∧ Retired s f m ∧ ∀ i ∈ s.inbox p, (s.contents i).isDown m = true →
        r'.cursor.Behind i → r'.phase = .matching ∧ r'.cursor = .msg i))
    (hl : ∀ m, Event.flushed m ∈ s'.log → Event.flushed m ∈ s.log ∨ (Retired s f m ∧
      (s.alive m.origin = true → ∀ i ∈ s.inbox m.origin, (s.contents i).isDown m = false))) :
    FlushOk s' f := by
  have hret : ∀ m, Retired s f m → Retired s' f m := fun m hr =>
    hr.mono (Nat.le_of_eq ho.nextMon.symm) fun _ _ hx => hx
  refine ⟨hb, fun p r' m hr hd => ?_, fun m hd => ?_⟩
  · rw [inbox_congr hm ho.nextMsg, ho.contents]
    rcases hf p r' m hr hd with ⟨r, h1, h2⟩ | ⟨h1, h2, h3⟩
    · obtain ⟨h3, h4, h5⟩ := h.frames p r m h1 (by rw [← h2.matcher]; exact hd)
      refine ⟨h3, hret m h4, fun i hi hdi hbe => ?_⟩
      rw [h2.cursor] at hbe ⊢
      obtain ⟨h6, h7⟩ := h5 i hi hdi hbe
      exact ⟨h2.still h6, h7⟩
    · exact ⟨h1, hret m h2, h3⟩
  · rw [inbox_congr hm ho.nextMsg, ho.contents, ha]
    rcases hl m hd with h1 | ⟨h1, h2⟩
    · obtain ⟨h2, h3⟩ := h.flushed m h1
      exact ⟨hret m h2, h3⟩
    · exact ⟨hret m h1, h2⟩

/-- A message that is handed over is not in the inbox afterwards. -/
theorem consume_inbox (h : Boxes s box) (ha : s.alive p = true) (hk : Event.insert p k ∈ s.log)
    (c : Consumer) (hq : s.alive q = true) {i : Nat} :
    i ∈ (s.consume k c).inbox q ↔ i ∈ s.inbox q ∧ i ≠ k := by
  by_cases hp : (s.mail (.msg k)).prev = none
  · have hno : k ∉ box q := by
      intro hm
      exact h.prev_of_mem hq hm hp
    have hsame : (s.record (.consume k c false)).inbox q = s.inbox q := rfl
    rw [Boxes.consume_taken hp, hsame, inbox_eq h hq]
    refine ⟨fun hi => ⟨hi, fun he => hno (he ▸ hi)⟩, And.left⟩
  · have hm := h.mem_of_prev ha hk hp
    have hq' : (s.consume k c).alive q = true := hq
    rw [inbox_eq (h.remove ha hm c) hq', inbox_eq h hq, mem_dropMsg]

theorem FlushOk.consume (h : FlushOk s f) (ha : s.alive p = true) (hk : Event.insert p k ∈ s.log)
    (c : Consumer) : FlushOk (s.consume k c) f := by
  obtain ⟨box, hm⟩ := h.mail
  refine ⟨hm.consume ha hk c, fun q r m hr hd => ?_, fun m hd => ?_⟩
  · have hr : Frame.receive r ∈ (s.pcb q).stack := hr
    obtain ⟨h1, h2, h3⟩ := h.frames q r m hr hd
    refine ⟨h1, h2, fun i hi => h3 i ?_⟩
    exact ((consume_inbox hm.boxes ha hk c (hm.calls q r hr).1).mp hi).1
  · have hd : Event.flushed m ∈ s.log := by
      rcases List.mem_cons.mp hd with h1 | h1
      · cases h1
      · exact h1
    obtain ⟨h1, h2⟩ := h.flushed m hd
    refine ⟨h1, fun hq i hi => ?_⟩
    have hq : s.alive m.origin = true := hq
    exact h2 hq i ((consume_inbox hm.boxes ha hk c hq).mp hi).1

theorem setStack_alive (s : State) (p : Nat) (fs : List Frame) (q : Nat) :
    (s.setStack p fs).alive q = s.alive q := frameless_inbox.setStack s p fs q

theorem setStack_frames (s : State) (p : Nat) (fs : List Frame) (q : Nat) :
    ((s.setStack p fs).pcb q).stack = if q = p then fs else (s.pcb q).stack := by
  by_cases hq : q = p <;> simp [State.setStack, hq]

/-- The running process goes on with other frames. -/
theorem FlushOk.setStack (h : FlushOk s f) {fs : List Frame} (es : List Event)
    (hb : ∃ box, MailOk DownOf { s.setStack s.self fs with log := es ++ s.log } box)
    (hf : ∀ r' m, Frame.receive r' ∈ fs → r'.matcher = .down m →
      (∃ r, Frame.receive r ∈ (s.pcb s.self).stack ∧ r.Same r') ∨
      (m.origin = s.self ∧ Retired s f m ∧ ∀ i ∈ s.inbox s.self, (s.contents i).isDown m = true →
        r'.cursor.Behind i → r'.phase = .matching ∧ r'.cursor = .msg i))
    (hm : ∀ m, Event.monitor m ∉ es)
    (hl : ∀ m, Event.flushed m ∈ es → m.origin = s.self ∧ Retired s f m ∧
      ∀ i ∈ s.inbox s.self, (s.contents i).isDown m = false) :
    FlushOk { s.setStack s.self fs with log := es ++ s.log } f := by
  refine h.reframe hb rfl ⟨rfl, rfl, rfl, Nat.le_max_left _ _, es, rfl, hm⟩
    (setStack_alive s s.self fs) (fun p r' m hr hd => ?_) fun m hd => ?_
  · have hr : Frame.receive r' ∈ ((s.setStack s.self fs).pcb p).stack := hr
    rw [setStack_frames] at hr
    split at hr
    · rename_i hp
      rw [hp]
      exact hf r' m hr hd
    · exact .inl ⟨r', hr, Receive.Same.refl r'⟩
  · rcases List.mem_append.mp hd with h1 | h1
    · obtain ⟨h2, h3, h4⟩ := hl m h1
      exact .inr ⟨h3, fun _ => by rw [h2]; exact h4⟩
    · exact .inl h1

theorem FlushOk.leave (h : FlushOk s f) {r : Receive} {rest : List Frame}
    (hs : (s.pcb s.self).stack = .receive r :: rest)
    (hno : ∀ m, r.matcher = .down m → ∀ i ∈ s.inbox s.self, (s.contents i).isDown m = false) :
    FlushOk (s.leave r rest) f := by
  obtain ⟨box, hm⟩ := h.mail
  have hb := hm.leave hs
  have hold : ∀ r' m, Frame.receive r' ∈ rest → r'.matcher = .down m →
      (∃ r, Frame.receive r ∈ (s.pcb s.self).stack ∧ r.Same r') ∨
      (m.origin = s.self ∧ Retired s f m ∧ ∀ i ∈ s.inbox s.self, (s.contents i).isDown m = true →
        r'.cursor.Behind i → r'.phase = .matching ∧ r'.cursor = .msg i) := fun r' m hr _ =>
    .inl ⟨r', by rw [hs]; exact List.mem_cons_of_mem _ hr, Receive.Same.refl r'⟩
  unfold State.leave at hb ⊢
  cases hr : r.matcher with
  | user =>
    rw [hr] at hb
    exact h.setStack [] ⟨box, hb⟩ hold (by simp) (by simp)
  | down m =>
    rw [hr] at hb
    refine h.setStack [.flushed m] ⟨box, hb⟩ hold (by simp) fun n hn => ?_
    have hn : n = m := by simpa using hn
    subst hn
    obtain ⟨h1, h2, _⟩ := h.frames s.self r n (by simp [hs]) hr
    exact ⟨h1, h2, hno n hr⟩

/-- The $receive on top of the stack is replaced, the others stay. -/
theorem FlushOk.advance (h : FlushOk s f) {r r' : Receive} {rest : List Frame} (es : List Event)
    (hs : (s.pcb s.self).stack = .receive r :: rest) (hr : r'.matcher = r.matcher)
    (hb : ∃ box, MailOk DownOf { s.setStack s.self (.receive r' :: rest) with log := es ++ s.log } box)
    (hes : ∀ m, Event.monitor m ∉ es ∧ Event.flushed m ∉ es)
    (hc : ∀ m, r.matcher = .down m → ∀ i ∈ s.inbox s.self, (s.contents i).isDown m = true →
      r'.cursor.Behind i → r'.phase = .matching ∧ r'.cursor = .msg i) :
    FlushOk { s.setStack s.self (.receive r' :: rest) with log := es ++ s.log } f := by
  refine h.setStack es hb (fun x m hx hd => ?_) (fun m => (hes m).1) fun m hm => absurd hm (hes m).2
  rcases List.mem_cons.mp hx with h1 | h1
  · cases h1
    rw [hr] at hd
    obtain ⟨h2, h3, _⟩ := h.frames s.self r m (by simp [hs]) hd
    exact .inr ⟨h2, h3, hc m hd⟩
  · exact .inl ⟨x, by rw [hs]; exact List.mem_cons_of_mem _ h1, Receive.Same.refl x⟩

/-- In find1 the DOWN message is not behind the cursor. -/
theorem FlushOk.ahead (h : FlushOk s f) {r : Receive} (hr : Frame.receive r ∈ (s.pcb p).stack)
    (hp : r.phase = .find1) (hd : r.matcher = .down m) {i : Nat} (hi : i ∈ s.inbox p)
    (hx : (s.contents i).isDown m = true) : ¬ r.cursor.Behind i := by
  intro hb
  have := ((h.frames p r m hr hd).2.2 i hi hx hb).1
  rw [hp] at this
  cases this

theorem FlushOk.receive (h : FlushOk s f) (ha : s.alive s.self = true) {w : Matcher}
    (wt : Option Nat) (hw : ∀ m, w = .down m → m.origin = s.self ∧ Retired s f m) :
    FlushOk (s.receive w wt) f := by
  obtain ⟨box, hm⟩ := h.mail
  refine h.reframe ⟨box, hm.receive ha w wt⟩ rfl ⟨rfl, rfl, rfl, Nat.le_max_left _ _, [], rfl, by simp⟩
    (frameless_inbox.receive s w wt) (fun p r' m hr hd => ?_) fun m hd => .inl hd
  have hr : Frame.receive r' ∈ ((s.setStack s.self (.receive ⟨s.nextCall, w, wt, .inbox s.self, .find0⟩ ::
      (s.pcb s.self).stack)).pcb p).stack := hr
  rw [setStack_frames] at hr
  split at hr
  · rename_i hp
    rcases List.mem_cons.mp hr with h1 | h1
    · cases h1
      obtain ⟨h2, h3⟩ := hw m hd
      exact .inr ⟨h2.trans hp.symm, h3, fun _ _ _ hb => absurd hb id⟩
    · exact .inl ⟨r', by rw [hp]; exact h1, Receive.Same.refl r'⟩
  · exact .inl ⟨r', hr, Receive.Same.refl r'⟩

theorem downs_unique (h : MonOk s f) {i j : Nat} (hi : i < s.nextMsg) (hj : j < s.nextMsg)
    (hdi : (s.contents i).isDown m = true) (hdj : (s.contents j).isDown m = true) : i = j := by
  have hmi : i ∈ s.downs m := List.mem_filter.mpr ⟨List.mem_range.mpr hi, hdi⟩
  have hmj : j ∈ s.downs m := List.mem_filter.mpr ⟨List.mem_range.mpr hj, hdj⟩
  have hlen := h.once m
  cases hd : s.downs m with
  | nil => rw [hd] at hmi; cases hmi
  | cons a l =>
    rw [hd] at hmi hmj hlen
    have hl : l = [] := by
      cases l with
      | nil => rfl
      | cons b l => simp at hlen
    subst hl
    rw [List.mem_singleton.mp hmi, List.mem_singleton.mp hmj]

theorem Watch.work (h : Watch s f) (hw : Work s s')
    (hn : ¬ ∃ m, s.alive s.self = true ∧ s.isOwnMon m = true ∧
      s' = (s.demonitor m).receive (.down m) (some 0)) : Watch s' f := by
  obtain ⟨hmon, hfl⟩ := h
  obtain ⟨box, hm⟩ := hfl.mail
  have hb := hm.work hw
  cases hw with
  | sched hs => exact Watch.still ⟨hmon, hfl⟩ (Still.sched hs)
  | flags fl =>
    exact Watch.still ⟨hmon, hfl⟩ (Still.modify s.self (fun x => { x with flags := fl x.flags }) rfl rfl)
  | trap x => exact Watch.still ⟨hmon, hfl⟩ (Still.modify s.self _ rfl rfl)
  | receive w ha =>
    exact ⟨hmon.onward ⟨rfl, rfl, rfl, Nat.le_max_left _ _, [], rfl, by simp⟩
      (frameless_inbox.receive s .user w), hfl.receive ha w (by simp)⟩
  | flush m ha hm => exact absurd ⟨m, ha, hm, rfl⟩ hn
  | restack fs hf =>
    exact ⟨hmon.onward (Onward.setStack s _ _) (setStack_alive s _ _),
      hfl.setStack [] hb (fun r' m hr _ => .inl (hf r' hr)) (by simp) (by simp)⟩
  | park =>
    exact Watch.still ⟨hmon, hfl⟩ ⟨Calm.of_eq rfl rfl rfl rfl [.park s.self] rfl (by simp [Event.isMail]),
      rfl, fun m hx => by simpa [State.record] using hx, fun m hx => by simpa [State.record] using hx⟩
  | skip r rest k hs hr hx hk =>
    have hin : Frame.receive r ∈ (s.pcb s.self).stack := by simp [hs]
    have ha := (hm.calls s.self r hin).1
    refine ⟨hmon.onward (Onward.setStack s _ _) (setStack_alive s _ _),
      hfl.advance [] hs rfl hb (by simp) fun m hd i hi hdi hbe => ?_⟩
    have hi' : i ∈ box s.self := by rw [← inbox_eq hm.boxes ha]; exact hi
    rcases (hm.next_cursor hin hx).2.1 i hi' hbe with h1 | h1
    · subst h1
      exact absurd hk (hm.boxes.prev_of_mem ha hi')
    · exact absurd h1 (hfl.ahead hin hr hd hi hdi)
  | offer r rest k hs hr hx hk =>
    have hin : Frame.receive r ∈ (s.pcb s.self).stack := by simp [hs]
    have ha := (hm.calls s.self r hin).1
    refine ⟨hmon.onward ((Onward.setStack s _ _).trans (Onward.record _ (by simp)))
      (setStack_alive s _ _), hfl.advance [.offer r.call k] hs rfl hb (by simp) fun m hd i hi hdi hbe => ?_⟩
    have hi' : i ∈ box s.self := by rw [← inbox_eq hm.boxes ha]; exact hi
    rcases (hm.next_cursor hin hx).2.1 i hi' hbe with h1 | h1
    · subst h1
      exact ⟨rfl, rfl⟩
    · exact absurd h1 (hfl.ahead hin hr hd hi hdi)
  | timeout r rest q hs hr hx =>
    have hin : Frame.receive r ∈ (s.pcb s.self).stack := by simp [hs]
    have ha := (hm.calls s.self r hin).1
    refine ⟨hmon.onward (Onward.leave s r rest) (frameless_inbox.leave s r rest),
      hfl.leave hs fun m hd i hi => ?_⟩
    -- a DOWN message would be behind the cursor
    cases hdi : (s.contents i).isDown m with
    | false => rfl
    | true =>
      have hi' : i ∈ box s.self := by rw [← inbox_eq hm.boxes ha]; exact hi
      exact absurd (hm.end_of_inbox hin hx hi' ⟨m, hd, hdi⟩) (hfl.ahead hin hr hd hi hdi)
  | accept r rest k hs hr hk hacc =>
    have hin : Frame.receive r ∈ (s.pcb s.self).stack := by simp [hs]
    have ha := (hm.calls s.self r hin).1
    have hkin := hm.cursor_inserted hin hk
    refine ⟨hmon.onward ((Onward.consume s k _).trans (Onward.leave _ r rest))
      (frameless_inbox.leave (s.consume k (.clause r.call)) r rest),
      (hfl.consume ha hkin _).leave hs fun m hd i hi => ?_⟩
    -- a second DOWN message would have been sent
    cases hdi : ((s.consume k (.clause r.call)).contents i).isDown m with
    | false => rfl
    | true =>
      obtain ⟨h1, h2⟩ := (consume_inbox hm.boxes ha hkin (.clause r.call) ha).mp hi
      rw [inbox_eq hm.boxes ha] at h1
      have hlt := (hm.boxes.bound _ i (hm.boxes.inserted _ i h1)).1
      exact absurd (downs_unique hmon hlt (hm.boxes.bound _ k hkin).1 hdi (hacc m hd)) h2
  | reject r rest k hs hr hk hrej =>
    have hin : Frame.receive r ∈ (s.pcb s.self).stack := by simp [hs]
    refine ⟨hmon.onward (Onward.setStack s _ _) (setStack_alive s _ _),
      hfl.advance [] hs rfl hb (by simp) fun m hd i hi hdi hbe => ?_⟩
    have h1 := ((hfl.frames s.self r m hin hd).2.2 i hi hdi hbe).2
    rw [hk] at h1
    cases h1
    rw [hrej m hd] at hdi
    cases hdi
  | take k ha hk =>
    have hkin := hm.boxes.inserted _ k (MailOk.getExitMsg_mem hm.boxes ha (by simp) hk)
    exact ⟨hmon.onward (Onward.consume s k _) fun _ => rfl, hfl.consume ha hkin _⟩

theorem WatchOk.work (hw : Work s s') (h : WatchOk s) : WatchOk s' := by
  by_cases hf : ∃ m, s.alive s.self = true ∧ s.isOwnMon m = true ∧
      s' = (s.demonitor m).receive (.down m) (some 0)
  · obtain ⟨m, ha, hm, rfl⟩ := hf
    obtain ⟨⟨hmon, hfl⟩, hret⟩ := h.watch.demonitor hm
    have ha' : (s.demonitor m).alive (s.demonitor m).self = true := by rw [demonitor_alive]; exact ha
    have hown : m.origin = s.self := by
      simp only [State.isOwnMon, Bool.and_eq_true, decide_eq_true_eq] at hm
      exact hm.2
    have hmons := frameless_monitors.receive (s.demonitor m) (.down m) (some 0)
    have hal := frameless_inbox.receive (s.demonitor m) (.down m) (some 0)
    refine ⟨?_, fun q hq => ?_⟩
    · rw [show ((s.demonitor m).receive (.down m) (some 0)).mons = (s.demonitor m).mons from funext hmons]
      refine ⟨hmon.onward ⟨rfl, rfl, rfl, Nat.le_max_left _ _, [], rfl, by simp⟩ hal,
        hfl.receive ha' (some 0) fun n hn => ?_⟩
      cases hn
      exact ⟨hown, hret⟩
    · have hq : s.alive q = false := by rw [← demonitor_alive s m, State.alive, ← hal]; exact hq
      rw [State.mons, hmons, ← State.mons, demonitor_mons, h.spent q hq]
      simp
  · have hmons := (frameless_monitors.work hw).resolve_left hf
    have hal := (frameless_inbox.work hw).resolve_left hf
    refine ⟨?_, fun q hq => ?_⟩
    · rw [show s'.mons = s.mons from funext hmons]
      exact h.watch.work hw hf
    · rw [State.mons, hmons]
      exact h.spent q (by rw [State.alive, ← hal]; exact hq)

theorem Reachable.watch (h : Reachable s) : WatchOk s := by
  refine h.invariant ?_ (fun _ _ => WatchOk.move) fun _ _ => WatchOk.work
  have hb : ∀ p, (bootState.pcb p).monitors = [] := by
    intro p
    match p with
    | 0 | 1 | 2 | 3 => decide
    | p+4 =>
      rw [boot_blank p]
      rfl
  have hstack : ∀ p, (bootState.pcb p).stack = [] := fun p => (boot_pcb p).2.1
  have hlog : ∀ m, Event.monitor m ∉ bootState.log ∧ Event.flushed m ∉ bootState.log := by
    have h1 : ∀ e ∈ bootState.log, e.isSched = true := by decide
    intro m
    refine ⟨fun h2 => ?_, fun h2 => ?_⟩
    · have := h1 _ h2
      cases this
    · have := h1 _ h2
      cases this
  have hdown : ∀ m, bootState.downs m = [] := fun _ => rfl
  refine ⟨⟨⟨fun m => ?_, fun x m hm => ?_, fun x m _ => ?_, fun x m hm => ?_, fun x m hm => ?_, fun m => ?_,
    fun m k hk => ?_, fun m hm => absurd hm (hlog m).1, fun m hm => absurd hm (hlog m).1⟩,
    ⟨_, boot_mail⟩, fun p r m hr => ?_, fun m hm => absurd hm (hlog m).2⟩, fun q _ => hb q⟩
  · simp [hb]
  · simp [hb] at hm
  · simp [hb]
  · simp [hb] at hm
  · simp [hb] at hm
  · simp [hdown]
  · rw [hdown] at hk; cases hk
  · rw [hstack] at hr; cases hr

/-- A monitor is on both lists or on neither, and only between live processes and
before its DOWN message; once the target is dead the origin has been told exactly
once, unless it is dead too or has demonitored; and demonitor&flush leaves no
DOWN message behind. -/
theorem monitor_fires_once (h : Reachable s) (m : Mon) :
    (m ∈ (s.pcb m.origin).monitors ↔ m ∈ (s.pcb m.target).monitors) ∧
    (m ∈ (s.pcb m.origin).monitors →
      s.alive m.origin = true ∧ s.alive m.target = true ∧ s.downs m = []) ∧
    (s.downs m).length ≤ 1 ∧
    (Event.monitor m ∈ s.log → Event.demonitor m ∉ s.log → s.alive m.origin = true →
      (s.alive m.target = true ∧ m ∈ (s.pcb m.origin).monitors) ∨
      (s.alive m.target = false ∧ ∃ k, s.downs m = [k] ∧ Event.insert m.origin k ∈ s.log ∧
        (k ∈ s.inbox m.origin ∨ ∃ c, Event.consume k c true ∈ s.log))) ∧
    (Event.flushed m ∈ s.log → s.alive m.origin = true →
      ∀ k ∈ s.inbox m.origin, (s.contents k).isDown m = false) := by
  obtain ⟨⟨hmon, hfl⟩, hspent⟩ := h.watch
  have hlive : ∀ x, m ∈ s.mons x → s.alive x = true := by
    intro x hx
    cases ha : s.alive x with
    | true => rfl
    | false => rw [hspent x ha] at hx; cases hx
  refine ⟨hmon.pair m, fun hm => ⟨hlive _ hm, hlive _ ((hmon.pair m).mp hm), hmon.unsent _ m hm⟩,
    hmon.once m, fun h1 h2 h3 => ?_, fun hd ha => (hfl.flushed m hd).2 ha⟩
  rcases hmon.fate m h1 h2 h3 with h4 | ⟨h4, h5⟩
  · exact .inl ⟨hlive _ h4, (hmon.pair m).mpr h4⟩
  · obtain ⟨k, hk⟩ := List.length_eq_one_iff.mp h5
    have hin := (hmon.sent m k (by simp [hk])).1
    refine .inr ⟨h4, k, hk, hin, ?_⟩
    obtain ⟨box, hb⟩ := hfl.mail
    by_cases hkb : k ∈ box m.origin
    · exact .inl (by rw [inbox_eq hb.boxes h3]; exact hkb)
    · exact .inr (hb.boxes.taken _ k h3 hin hkb)

/-- The target is killed while the origin is linked to it and traps exits. -/
theorem monitor_fires_once_linked : ∃ s, bootState.run
    [.setTrapExit .on, .spawnLink, .monitor 4, .kill 4 (.datum (.other 9)) 0] = .ok s ∧
    s.inbox 1 = [0, 1] ∧ ∃ k, s.downs ⟨0, 1, 4⟩ = [k] ∧ Event.insert 1 k ∈ s.log := by
  obtain ⟨s, hs, hq⟩ := exists_of_runsTo
    (P := fun s => Event.monitor ⟨0, 1, 4⟩ ∈ s.log ∧ Event.demonitor ⟨0, 1, 4⟩ ∉ s.log ∧
      s.alive 1 = true ∧ s.alive 4 = false ∧ s.inbox 1 = [0, 1])
    (by decide +kernel : runsTo [.setTrapExit .on, .spawnLink, .monitor 4,
      .kill 4 (.datum (.other 9)) 0] _ = true)
  obtain ⟨h1, h2, h3, h4, h5⟩ := of_decide_eq_true hq
  refine ⟨s, hs, h5, ?_⟩
  rcases (monitor_fires_once ⟨_, hs⟩ ⟨0, 1, 4⟩).2.2.2.1 h1 h2 h3 with ⟨h6, _⟩ | ⟨_, k, h6, h7, _⟩
  · rw [h4] at h6; cases h6
  · exact ⟨k, h6, h7⟩

end Swish.Erlang
