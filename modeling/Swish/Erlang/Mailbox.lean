import Swish.Erlang.Moves

/-!
The inbox of a process as a list of message numbers, the pointers of messages
that have been taken out, and what is known about a $receive from the place of
its cursor. Messages are numbered in the order of insertion, so every inbox is
sorted.
-/

set_option autoImplicit false

namespace Swish.Erlang
open CircularList

/-- The next pointers of removed messages lead from k to the end of an inbox. -/
inductive Dangling (h : Heap MPtr) : Nat → Prop where
  | last {k p : Nat} (hp : (h (.msg k)).prev = none) (hn : (h (.msg k)).next = some (.inbox p)) :
      Dangling h k
  | chain {k j : Nat} (hp : (h (.msg k)).prev = none) (hn : (h (.msg k)).next = some (.msg j))
      (hj : Dangling h j) : Dangling h k

theorem Dangling.prev {h : Heap MPtr} {k : Nat} (hd : Dangling h k) : (h (.msg k)).prev = none := by
  cases hd with
  | last hp _ => exact hp
  | chain hp _ _ => exact hp

/-- Where the stale next pointer of a removed message leads: past no message
that is still there. -/
def StaleNext (s : State) (l : List Nat) (p k : Nat) : Prop :=
  (s.mail (.msg k)).next = some (.inbox p) ∨
    ∃ j, (s.mail (.msg k)).next = some (.msg j) ∧ k < j ∧ Event.insert p j ∈ s.log ∧
      ∀ i ∈ l, ¬ (k < i ∧ i < j)

structure Boxes (s : State) (box : Nat → List Nat) : Prop where
  ring : ∀ p, s.alive p = true → IsRing s.mail (.inbox p) ((box p).map .msg)
  sorted : ∀ p, (box p).Pairwise (· < ·)
  inserted : ∀ p, ∀ k ∈ box p, Event.insert p k ∈ s.log
  owner : ∀ p q k, Event.insert p k ∈ s.log → Event.insert q k ∈ s.log → p = q
  bound : ∀ p k, Event.insert p k ∈ s.log → k < s.nextMsg ∧ p ≤ s.procs.last
  removed : ∀ p k, s.alive p = true → Event.insert p k ∈ s.log → k ∉ box p →
    (s.mail (.msg k)).prev = none ∧ StaleNext s (box p) p k
  taken : ∀ p k, s.alive p = true → Event.insert p k ∈ s.log → k ∉ box p →
    ∃ c, Event.consume k c true ∈ s.log
  once : ∀ k c, Event.consume k c true ∈ s.log → ∃ p, Event.insert p k ∈ s.log ∧ k ∉ box p

/-- The messages at or before the cursor. -/
def MPtr.Behind : MPtr → Nat → Prop
  | .inbox _, _ => False
  | .msg c, i => i ≤ c

/-- A matcher was called on a message before anyone took it. -/
def OfferedFirst (es : List Event) (call k : Nat) : Prop :=
  ∃ l₁ l₂, es = l₁ ++ .offer call k :: l₂ ∧ ∀ c, Event.consume k c true ∉ l₂

/-- What holds of a call of $receive of p. W picks the messages that a dangling
cursor must not miss. -/
structure CallOk (W : Matcher → Contents → Prop) (s : State) (l : List Nat) (p : Nat) (r : Receive) :
    Prop where
  cursor : r.cursor = .inbox p ∨ ∃ c, r.cursor = .msg c ∧ Event.insert p c ∈ s.log
  offered : ∀ i ∈ l, r.cursor.Behind i → Event.offer r.call i ∈ s.log
  dangling : ∀ c, r.cursor = .msg c → Dangling s.mail c → ∀ i ∈ l, W r.matcher (s.contents i) → i ≤ c
  matching : r.phase = .matching → ∃ k, r.cursor = .msg k ∧ OfferedFirst s.log r.call k

structure MailOk (W : Matcher → Contents → Prop) (s : State) (box : Nat → List Nat) : Prop where
  boxes : Boxes s box
  calls : ∀ p r, Frame.receive r ∈ (s.pcb p).stack → s.alive p = true ∧ CallOk W s (box p) p r

variable {s s' : State} {box : Nat → List Nat} {p q k : Nat} {W : Matcher → Contents → Prop}

/-- Events that change which messages are linked. -/
def Event.relinks : Event → Bool
  | .insert _ _ => true
  | .consume _ _ taken => taken
  | _ => false

/-- Events that say where a message goes. -/
def Event.isMail : Event → Bool
  | .insert _ _ => true
  | .consume _ _ _ => true
  | _ => false

theorem Event.relinks_of_isMail {e : Event} (h : e.isMail = false) : e.relinks = false := by
  cases e <;> simp_all [Event.isMail, Event.relinks]

theorem OfferedFirst.cons {es : List Event} {call : Nat} (h : OfferedFirst es call k) (e : Event) :
    OfferedFirst (e :: es) call k := by
  obtain ⟨l₁, l₂, he, hc⟩ := h
  exact ⟨e :: l₁, l₂, by rw [he]; rfl, hc⟩

theorem OfferedFirst.append {es : List Event} {call : Nat} (h : OfferedFirst es call k)
    (fs : List Event) : OfferedFirst (fs ++ es) call k := by
  induction fs with
  | nil => exact h
  | cons f fs ih => exact ih.cons f

namespace Boxes

/-- A message that is linked is in the list of its inbox. -/
theorem mem_of_prev (h : Boxes s box) (ha : s.alive p = true) (hi : Event.insert p k ∈ s.log)
    (hp : (s.mail (.msg k)).prev ≠ none) : k ∈ box p := by
  by_contra hk
  exact hp (h.removed p k ha hi hk).1

theorem prev_of_mem (h : Boxes s box) (ha : s.alive p = true) (hk : k ∈ box p) :
    (s.mail (.msg k)).prev ≠ none := by
  obtain ⟨a, _, he⟩ := (h.ring p ha).prev_mem (x := .msg k) (by simp [hk])
  simp [he]

/-- Two inboxes share no node. -/
theorem apart (h : Boxes s box) (hpq : p ≠ q) :
    ∀ a ∈ MPtr.inbox p :: (box p).map .msg, a ∉ MPtr.inbox q :: (box q).map .msg := by
  intro a ha hb
  simp only [List.mem_cons, List.mem_map] at ha hb
  rcases ha with rfl | ⟨k, hk, rfl⟩
  · rcases hb with hb | ⟨j, _, hb⟩
    · cases hb; exact hpq rfl
    · cases hb
  · rcases hb with hb | ⟨j, hj, hb⟩
    · cases hb
    · cases hb
      exact hpq (h.owner p q k (h.inserted p k hk) (h.inserted q k hj))

theorem new_not_mem (h : Boxes s box) : s.nextMsg ∉ box p := by
  intro hm
  have := (h.bound p _ (h.inserted p _ hm)).1
  omega

/-- Changes that do not concern messages. -/
theorem congr (h : Boxes s box) (hm : s'.mail = s.mail) (hn : s'.nextMsg = s.nextMsg)
    (hl : s.procs.last ≤ s'.procs.last) (ha : ∀ p, s'.alive p = true → s.alive p = true)
    {es : List Event} (hlog : s'.log = es ++ s.log) (hes : ∀ e ∈ es, e.relinks = false) :
    Boxes s' box := by
  have hin : ∀ p k, Event.insert p k ∈ s'.log ↔ Event.insert p k ∈ s.log := by
    intro p k
    rw [hlog, List.mem_append]
    refine ⟨fun h1 => ?_, .inr⟩
    rcases h1 with h1 | h1
    · have := hes _ h1
      cases this
    · exact h1
  have hco : ∀ k c, Event.consume k c true ∈ s'.log ↔ Event.consume k c true ∈ s.log := by
    intro k c
    rw [hlog, List.mem_append]
    refine ⟨fun h1 => ?_, .inr⟩
    rcases h1 with h1 | h1
    · have := hes _ h1
      cases this
    · exact h1
  refine ⟨fun p hp => ?_, h.sorted, fun p k hk => ?_, fun p q k => ?_, fun p k hk => ?_,
    fun p k hp hk hb => ?_, fun p k hp hk hb => ?_, fun k c hc => ?_⟩
  · rw [hm]; exact h.ring p (ha p hp)
  · rw [hin]; exact h.inserted p k hk
  · rw [hin, hin]; exact h.owner p q k
  · have := h.bound p k ((hin p k).mp hk)
    exact ⟨by omega, by omega⟩
  · have := h.removed p k (ha p hp) ((hin p k).mp hk) hb
    simp only [StaleNext, hin, hm]
    exact this
  · obtain ⟨c, hc⟩ := h.taken p k (ha p hp) ((hin p k).mp hk) hb
    exact ⟨c, (hco k c).mpr hc⟩
  · obtain ⟨p, h1, h2⟩ := h.once k c ((hco k c).mp hc)
    exact ⟨p, (hin p k).mpr h1, h2⟩

end Boxes

/-- The inboxes after message n has come in for p, and without message k. -/
def addMsg (box : Nat → List Nat) (p n : Nat) : Nat → List Nat :=
  fun q => if q = p then box q ++ [n] else box q

def dropMsg (box : Nat → List Nat) (k : Nat) : Nat → List Nat := fun q => (box q).filter (· ≠ k)

theorem mem_addMsg {n i : Nat} : i ∈ addMsg box p n q ↔ i ∈ box q ∨ (q = p ∧ i = n) := by
  unfold addMsg
  split
  · simp_all
  · simp_all

theorem mem_dropMsg {i : Nat} : i ∈ dropMsg box k q ↔ i ∈ box q ∧ i ≠ k := by
  simp [dropMsg]

namespace Boxes

/-- Insertion does not touch messages outside the inbox. -/
theorem insert_node (h : Boxes s box) (ha : s.alive p = true) {x : Contents} (hk : k ≠ s.nextMsg)
    (hb : k ∉ box p) : (s.insertMsg p x).mail (.msg k) = s.mail (.msg k) := by
  obtain ⟨a, hm, he⟩ := (h.ring p ha).prev_mem (x := .inbox p) (by simp)
  refine insertBefore_of_ne (by simpa using hk) (by simp) ?_
  rw [he]
  rintro ⟨rfl⟩
  simp [hb] at hm

theorem insert (h : Boxes s box) (ha : s.alive p = true) (x : Contents) :
    Boxes (s.insertMsg p x) (addMsg box p s.nextMsg) := by
  have hin : ∀ q k, Event.insert q k ∈ (s.insertMsg p x).log ↔
      (q = p ∧ k = s.nextMsg) ∨ Event.insert q k ∈ s.log := by
    intro q k
    simp [State.insertMsg]
  have hold : ∀ q k, Event.insert q k ∈ s.log → k < s.nextMsg := fun q k hk => (h.bound q k hk).1
  refine ⟨fun q hq => ?_, fun q => ?_, fun q k hk => ?_, fun q q' k h1 h2 => ?_, fun q k hk => ?_,
    fun q k hq hk hb => ?_, fun q k hq hk hb => ?_, fun k c hc => ?_⟩
  · have hr := h.ring p ha
    by_cases hqp : q = p
    · subst hqp
      have hr' : IsRing s.mail (.inbox q) ((box q).map .msg ++ []) := by
        rw [List.append_nil]; exact hr
      have := hr'.insertBefore (x := .msg s.nextMsg) (by simpa using h.new_not_mem)
      simpa [addMsg, State.insertMsg] using this
    · have := hr.insertBefore_frame (x := .msg s.nextMsg) (n := .inbox p) (by simp) (h.ring q hq)
        (by simpa using h.new_not_mem) (h.apart (Ne.symm hqp))
      simpa [addMsg, hqp, State.insertMsg] using this
  · unfold addMsg
    split
    · rw [List.pairwise_append]
      refine ⟨h.sorted q, by simp, fun a hm b hb => ?_⟩
      rw [List.mem_singleton.mp hb]
      exact hold q a (h.inserted q a hm)
    · exact h.sorted q
  · rw [hin]
    rcases mem_addMsg.mp hk with h1 | h1
    · exact .inr (h.inserted q k h1)
    · exact .inl h1
  · rw [hin] at h1 h2
    rcases h1 with ⟨h1, h3⟩ | h1
    · rcases h2 with ⟨h2, _⟩ | h2
      · rw [h1, h2]
      · have := hold _ _ h2
        omega
    · rcases h2 with ⟨h2, h3⟩ | h2
      · have := hold _ _ h1
        omega
      · exact h.owner q q' k h1 h2
  · rw [hin] at hk
    rcases hk with ⟨h1, h2⟩ | hk
    · subst h1 h2
      exact ⟨Nat.lt_succ_self _, le_last_of_alive ha⟩
    · have := h.bound q k hk
      exact ⟨Nat.lt_succ_of_lt this.1, this.2⟩
  · rw [hin] at hk
    simp only [mem_addMsg, not_or] at hb
    rcases hk with hk | hk
    · exact absurd hk hb.2
    · have hlt := hold q k hk
      have hbp : k ∉ box p := by
        intro hm
        exact hb.1 (by rw [h.owner q p k hk (h.inserted p k hm)]; exact hm)
      obtain ⟨h1, h2⟩ := h.removed q k hq hk hb.1
      have hnode := h.insert_node (x := x) ha (by omega) hbp
      refine ⟨by rw [hnode]; exact h1, ?_⟩
      unfold StaleNext
      rw [hnode]
      rcases h2 with h2 | ⟨j, h2, h3, h4, h5⟩
      · exact .inl h2
      · refine .inr ⟨j, h2, h3, (hin q j).mpr (.inr h4), fun i hi => ?_⟩
        rcases mem_addMsg.mp hi with h6 | h6
        · exact h5 i h6
        · have := hold q j h4
          omega
  · rw [hin] at hk
    simp only [mem_addMsg, not_or] at hb
    rcases hk with hk | hk
    · exact absurd hk hb.2
    · obtain ⟨c, hc⟩ := h.taken q k hq hk hb.1
      exact ⟨c, List.mem_cons_of_mem _ hc⟩
  · have hc : Event.consume k c true ∈ s.log := by simpa [State.insertMsg] using hc
    obtain ⟨q, h1, h2⟩ := h.once k c hc
    refine ⟨q, (hin q k).mpr (.inr h1), ?_⟩
    rw [mem_addMsg, not_or]
    have := hold q k h1
    exact ⟨h2, by omega⟩

/-- A cursor that dangles after an insertion was dangling before. -/
theorem insert_dangling (h : Boxes s box) (ha : s.alive p = true) {x : Contents}
    (hd : Dangling (s.insertMsg p x).mail k) (hk : Event.insert q k ∈ s.log) (hq : s.alive q = true) :
    Dangling s.mail k := by
  have hb' := h.insert ha x
  have hnode : ∀ {k}, Event.insert q k ∈ s.log →
      ((s.insertMsg p x).mail (.msg k)).prev = none →
      (s.insertMsg p x).mail (.msg k) = s.mail (.msg k) := by
    intro k hk hp
    have hlt := (h.bound q k hk).1
    refine h.insert_node ha (by omega) fun hm => ?_
    exact hb'.prev_of_mem ha (mem_addMsg.mpr (.inl hm)) hp
  induction hd with
  | last hp hn =>
    have he := hnode hk hp
    rw [he] at hp hn
    exact .last hp hn
  | @chain k j hp hn _ ih =>
    have he := hnode hk hp
    rw [he] at hp hn
    have hkb : k ∉ box q := fun hm => h.prev_of_mem hq hm hp
    obtain ⟨_, h2⟩ := h.removed q k hq hk hkb
    rcases h2 with h2 | ⟨i, h2, _, h4, _⟩
    · rw [hn] at h2; cases h2
    · rw [hn] at h2
      cases h2
      exact .chain hp hn (ih h4)

theorem nodup (h : Boxes s box) (p : Nat) : (box p).Nodup := (h.sorted p).imp Nat.ne_of_lt

/-- Handing over a message that somebody else took first changes nothing but
the history. -/
theorem consume_taken {c : Consumer} (hp : (s.mail (.msg k)).prev = none) :
    s.consume k c = s.record (.consume k c false) := by
  simp [State.consume, State.record, State.removeMsg, Heap.splice, hp]

theorem consume_log {c : Consumer} (hp : (s.mail (.msg k)).prev ≠ none) :
    (s.consume k c).log = .consume k c true :: s.log := by
  have : (s.mail (.msg k)).prev.isSome = true := by
    simpa [Option.isSome_iff_ne_none] using hp
  simp [State.consume, State.record, State.removeMsg, this]

/-- Removal does not touch messages outside the inbox. -/
theorem remove_node (h : Boxes s box) (ha : s.alive p = true) (hk : k ∈ box p) {i : Nat}
    (hi : i ∉ box p) : s.mail.splice (.msg k) (.msg i) = s.mail (.msg i) := by
  obtain ⟨a, hm, he⟩ := (h.ring p ha).prev_mem (x := .msg k) (by simp [hk])
  obtain ⟨b, hn, hf⟩ := (h.ring p ha).next_mem (x := .msg k) (by simp [hk])
  refine splice_of_ne (by rintro ⟨rfl⟩; exact hi hk) ?_ ?_
  · rw [he]; rintro ⟨rfl⟩; simp [hi] at hm
  · rw [hf]; rintro ⟨rfl⟩; simp [hi] at hn

/-- The message that is taken out keeps its next pointer. -/
theorem remove_self (h : Boxes s box) (ha : s.alive p = true) (hk : k ∈ box p) :
    (s.mail.splice (.msg k) (.msg k)).prev = none ∧
      (s.mail.splice (.msg k) (.msg k)).next = (s.mail (.msg k)).next := by
  obtain ⟨a, hm, he⟩ := (h.ring p ha).prev_mem (x := .msg k) (by simp [hk])
  obtain ⟨b, hn, hf⟩ := (h.ring p ha).next_mem (x := .msg k) (by simp [hk])
  refine ⟨by rw [splice_prev he hf]; simp, ?_⟩
  rw [splice_next he hf]
  -- a node of a ring with a sentinel is not its own predecessor
  have hne : MPtr.msg k ≠ a := by
    rintro rfl
    obtain ⟨xs, ys, hxy⟩ := List.append_of_mem hk
    have hr := h.ring p ha
    rw [hxy, List.map_append, List.map_cons] at hr
    obtain ⟨h1, _⟩ := Linked.append.mp hr.linked
    obtain ⟨c, hc, hce⟩ := h1.prev_mem (x := .msg k) (by simp)
    rw [he] at hce
    cases hce
    have hnd := h.nodup p
    rw [hxy] at hnd
    simp only [List.mem_cons, List.mem_map, reduceCtorEq, false_or] at hc
    obtain ⟨j, hj, hjk⟩ := hc
    cases hjk
    simp [List.nodup_append] at hnd
    exact (hnd.2.2 k hj).1 rfl
  simp [hne]

/-- The next message in the list, or the end of the inbox. -/
theorem next_of_mem (h : Boxes s box) (ha : s.alive p = true) {xs ys : List Nat}
    (hb : box p = xs ++ k :: ys) :
    (s.mail (.msg k)).next = some ((ys.map MPtr.msg).headD (.inbox p)) := by
  have hr := h.ring p ha
  rw [hb, List.map_append, List.map_cons] at hr
  exact hr.next_eq

theorem sorted_split (h : Boxes s box) {xs ys : List Nat} (hb : box p = xs ++ k :: ys) :
    (∀ i ∈ xs, i < k) ∧ (∀ i ∈ ys, k < i) ∧ ys.Pairwise (· < ·) := by
  have hs := h.sorted p
  rw [hb, List.pairwise_append, List.pairwise_cons] at hs
  exact ⟨fun i hi => hs.2.2 i hi k (by simp), hs.2.1.1, hs.2.1.2⟩

theorem head_least {ys : List Nat} {j i : Nat} (hs : ys.Pairwise (· < ·))
    (hj : (ys.map MPtr.msg).headD (.inbox p) = .msg j) (hi : i ∈ ys) : j ≤ i := by
  cases ys with
  | nil => simp at hi
  | cons y ys =>
    simp only [List.map_cons, List.headD_cons, MPtr.msg.injEq] at hj
    subst hj
    rcases List.mem_cons.mp hi with h1 | h1
    · omega
    · have := (List.pairwise_cons.mp hs).1 i h1
      omega

theorem remove (h : Boxes s box) (ha : s.alive p = true) (hk : k ∈ box p) (c : Consumer) :
    Boxes (s.consume k c) (dropMsg box k) := by
  have hlog := consume_log (c := c) (h.prev_of_mem ha hk)
  have hkp := h.inserted p k hk
  have hin : ∀ q i, Event.insert q i ∈ (s.consume k c).log ↔ Event.insert q i ∈ s.log := by
    intro q i
    rw [hlog]
    simp
  obtain ⟨xs, ys, hxy⟩ := List.append_of_mem hk
  obtain ⟨hlt, hgt, hys⟩ := h.sorted_split hxy
  have hdrop : dropMsg box k p = xs ++ ys := by
    have := h.nodup p
    unfold dropMsg
    rw [hxy] at this ⊢
    exact filter_ne_append this
  have hother : ∀ q, q ≠ p → k ∉ box q := fun q hq hm => hq (h.owner q p k (h.inserted q k hm) hkp)
  refine ⟨fun q hq => ?_, fun q => (h.sorted q).filter _, fun q i hi => ?_, fun q q' i => ?_,
    fun q i hi => ?_, fun q i hq hi hb => ?_, fun q i hq hi hb => ?_, fun i c' hc => ?_⟩
  · have hr := h.ring p ha
    by_cases hqp : q = p
    · subst hqp
      rw [hdrop, List.map_append]
      rw [hxy, List.map_append, List.map_cons] at hr
      exact hr.splice
    · have hf : dropMsg box k q = box q := QueueShape.filter_of_not_mem (hother q hqp)
      rw [hf]
      exact hr.splice_frame (by simp [hk]) (h.ring q hq) (h.apart (Ne.symm hqp))
  · rw [hin]; exact h.inserted q i (mem_dropMsg.mp hi).1
  · rw [hin, hin]; exact h.owner q q' i
  · exact h.bound q i ((hin q i).mp hi)
  · rw [hin] at hi
    have hmail : (s.consume k c).mail = s.mail.splice (.msg k) := rfl
    unfold StaleNext
    rw [hmail]
    by_cases hik : i = k
    · -- the message that has just been taken out
      subst hik
      have hqp := h.owner q p i hi hkp
      subst hqp
      obtain ⟨h1, h2⟩ := h.remove_self ha hk
      rw [h2, h.next_of_mem ha hxy]
      refine ⟨h1, ?_⟩
      cases ys with
      | nil => exact .inl rfl
      | cons j ys =>
        refine .inr ⟨j, rfl, hgt j (by simp), (hin q j).mpr (h.inserted q j (by simp [hxy])), ?_⟩
        intro a hm
        rw [hdrop] at hm
        rcases List.mem_append.mp hm with h3 | h3
        · have := hlt a h3
          omega
        · have := head_least (p := q) hys rfl h3
          omega
    · -- a message that was taken out before
      have hiq : i ∉ box q := fun hm => hb (mem_dropMsg.mpr ⟨hm, hik⟩)
      have hip : i ∉ box p := by
        intro hm
        have := h.owner q p i hi (h.inserted p i hm)
        subst this
        exact hiq hm
      rw [h.remove_node ha hk hip]
      obtain ⟨h1, h2⟩ := h.removed q i hq hi hiq
      refine ⟨h1, ?_⟩
      rcases h2 with h2 | ⟨j, h2, h3, h4, h5⟩
      · exact .inl h2
      · exact .inr ⟨j, h2, h3, (hin q j).mpr h4, fun a hm => h5 a (mem_dropMsg.mp hm).1⟩
  · rw [hin] at hi
    by_cases hik : i = k
    · exact ⟨c, by rw [hlog, hik]; simp⟩
    · obtain ⟨c', hc'⟩ := h.taken q i hq hi fun hm => hb (mem_dropMsg.mpr ⟨hm, hik⟩)
      exact ⟨c', by rw [hlog]; simp [hc']⟩
  · rw [hlog] at hc
    rcases List.mem_cons.mp hc with h1 | h1
    · cases h1
      exact ⟨p, (hin p k).mpr hkp, fun hm => (mem_dropMsg.mp hm).2 rfl⟩
    · obtain ⟨q, h2, h3⟩ := h.once i c' h1
      exact ⟨q, (hin q i).mpr h2, fun hm => h3 (mem_dropMsg.mp hm).1⟩

/-- A cursor can start to dangle when the last message is taken out, but then no
message is ahead of it. -/
theorem remove_dangling (h : Boxes s box) (ha : s.alive p = true) (hk : k ∈ box p) {c : Consumer}
    {i : Nat} (hd : Dangling (s.consume k c).mail i) (hi : Event.insert q i ∈ s.log)
    (hq : s.alive q = true) :
    Dangling s.mail i ∨ ∀ j ∈ dropMsg box k q, j ≤ i := by
  have hmail : (s.consume k c).mail = s.mail.splice (.msg k) := rfl
  have hb' := h.remove ha hk c
  rw [hmail] at hd
  obtain ⟨xs, ys, hxy⟩ := List.append_of_mem hk
  obtain ⟨hlt, hgt, hys⟩ := h.sorted_split hxy
  -- a removed message other than k has the pointers it had
  have hnode : ∀ {i}, Event.insert q i ∈ s.log → i ≠ k →
      (s.mail.splice (.msg k) (.msg i)).prev = none →
      i ∉ box q ∧ s.mail.splice (.msg k) (.msg i) = s.mail (.msg i) := by
    intro i hi hik hp
    have hiq : i ∉ box q := fun hm => hb'.prev_of_mem hq (mem_dropMsg.mpr ⟨hm, hik⟩) hp
    refine ⟨hiq, h.remove_node ha hk fun hm => hiq ?_⟩
    rw [h.owner q p i hi (h.inserted p i hm)]
    exact hm
  have hnext := h.next_of_mem ha hxy
  have hself := (h.remove_self ha hk).2
  induction hd with
  | @last i a hp hn =>
    by_cases hik : i = k
    · subst hik
      right
      have hqp := h.owner q p i hi (h.inserted p i hk)
      subst hqp
      rw [hself, hnext] at hn
      have hnil : ys = [] := by
        cases ys with
        | nil => rfl
        | cons y ys => simp at hn
      intro j hj
      have hj := (mem_dropMsg.mp hj).1
      rw [hxy, hnil] at hj
      rcases List.mem_append.mp hj with h1 | h1
      · exact Nat.le_of_lt (hlt j h1)
      · simp at h1
        omega
    · left
      have he := (hnode hi hik hp).2
      rw [he] at hp hn
      exact .last hp hn
  | @chain i j hp hn hj ih =>
    by_cases hik : i = k
    · -- the successor of k is still linked
      subst hik
      have hqp := h.owner q p i hi (h.inserted p i hk)
      subst hqp
      rw [hself, hnext] at hn
      cases ys with
      | nil => simp at hn
      | cons y ys =>
        simp only [List.map_cons, List.headD_cons, Option.some.injEq, MPtr.msg.injEq] at hn
        subst hn
        have hyi := hgt y (by simp)
        have hmem : y ∈ dropMsg box i q := mem_dropMsg.mpr ⟨by simp [hxy], by omega⟩
        exact absurd hj.prev (hb'.prev_of_mem hq hmem)
    · obtain ⟨hiq, he⟩ := hnode hi hik hp
      rw [he] at hp hn
      obtain ⟨_, h2⟩ := h.removed q i hq hi hiq
      rcases h2 with h2 | ⟨j', h2, h3, h4, h5⟩
      · rw [hn] at h2; cases h2
      · rw [hn] at h2
        cases h2
        rcases ih h4 with h6 | h6
        · exact .inl (.chain hp hn h6)
        · right
          intro a hm
          have h7 := h6 a hm
          have h8 := h5 a (mem_dropMsg.mp hm).1
          have h9 : a ≠ j := fun he => absurd hj.prev (hb'.prev_of_mem hq (he ▸ hm))
          omega

end Boxes

theorem CallOk.mono {r r' : Receive} {l l' : List Nat} (h : CallOk W s l p r) (hr : r.Later r')
    (hl : ∀ i ∈ l', i ∈ l) (hc : ∀ i ∈ l', s'.contents i = s.contents i)
    (hd : ∀ c, r.cursor = .msg c → Dangling s'.mail c → Dangling s.mail c ∨ ∀ i ∈ l', i ≤ c)
    (es : List Event) (hlog : s'.log = es ++ s.log) : CallOk W s' l' p r' := by
  refine ⟨?_, fun i hi hb => ?_, fun c hc' hd' i hi hw => ?_, fun hm => ?_⟩
  · rw [hr.cursor, hlog]
    rcases h.cursor with h1 | ⟨c, h1, h2⟩
    · exact .inl h1
    · exact .inr ⟨c, h1, by simp [h2]⟩
  · rw [hr.cursor] at hb
    rw [hr.call, hlog]
    have := h.offered i (hl i hi) hb
    simp [this]
  · rw [hr.cursor] at hc'
    rw [hr.matcher, hc i hi] at hw
    rcases hd c hc' hd' with h1 | h1
    · exact h.dangling c hc' h1 i (hl i hi) hw
    · exact h1 i hi
  · obtain ⟨k, h1, h2⟩ := h.matching (hr.matching hm)
    exact ⟨k, hr.cursor.trans h1, by rw [hr.call, hlog]; exact h2.append es⟩

namespace MailOk

/-- Changes that do not concern messages and move no cursor. -/
theorem congr (h : MailOk W s box) (hm : s'.mail = s.mail) (hc : s'.contents = s.contents)
    (hn : s'.nextMsg = s.nextMsg) (hl : s.procs.last ≤ s'.procs.last)
    (ha : ∀ p, s'.alive p = true → s.alive p = true)
    (hf : ∀ p r', Frame.receive r' ∈ (s'.pcb p).stack → s'.alive p = s.alive p ∧
      ∃ r, Frame.receive r ∈ (s.pcb p).stack ∧ r.Later r')
    (es : List Event) (hlog : s'.log = es ++ s.log) (hes : ∀ e ∈ es, e.relinks = false) :
    MailOk W s' box := by
  refine ⟨h.boxes.congr hm hn hl ha hlog hes, fun p r' hr' => ?_⟩
  obtain ⟨h1, r, hr, hs⟩ := hf p r' hr'
  obtain ⟨h2, h3⟩ := h.calls p r hr
  exact ⟨h1.trans h2, h3.mono hs (fun _ hi => hi) (fun i _ => by rw [hc])
    (fun c _ hd => .inl (by rw [← hm]; exact hd)) es hlog⟩

theorem sched (h : MailOk W s box) (hs : SchedOnly s s') : MailOk W s' box := by
  obtain ⟨es, hlog, hes⟩ := hs.log
  refine h.congr hs.mail hs.contents hs.nextMsg hs.last (fun p hp => ?_) (fun p r hr => ?_) es hlog
    fun e he => ?_
  · rw [State.alive, ← hs.inbox p]; exact hp
  · rw [hs.stack p] at hr
    exact ⟨hs.inbox p, r, hr, Receive.Later.refl r⟩
  · have := hes e he
    cases e <;> simp_all [Event.isSched, Event.relinks]

theorem modify (h : MailOk W s box) (p : Nat) (f : Pcb → Pcb)
    (hi : (f (s.pcb p)).inbox = (s.pcb p).inbox)
    (hf : ∀ r', Frame.receive r' ∈ (f (s.pcb p)).stack →
      ∃ r, Frame.receive r ∈ (s.pcb p).stack ∧ r.Later r') : MailOk W (s.modify p f) box := by
  have hal : ∀ q, (s.modify p f).alive q = s.alive q := by
    intro q
    by_cases hq : q = p
    · subst hq; simpa using hi
    · simp [hq]
  refine h.congr rfl rfl rfl (Nat.le_max_left _ _) (fun q hq => ?_) (fun q r' hr => ?_) [] rfl (by simp)
  · rw [← hal]; exact hq
  · refine ⟨hal q, ?_⟩
    by_cases hq : q = p
    · subst hq
      exact hf r' (by simpa using hr)
    · exact ⟨r', by simpa [hq] using hr, Receive.Later.refl r'⟩

/-- Fields of a pcb that have nothing to do with messages. -/
theorem modify_same (h : MailOk W s box) (p : Nat) (f : Pcb → Pcb)
    (hi : (f (s.pcb p)).inbox = (s.pcb p).inbox) (hf : (f (s.pcb p)).stack = (s.pcb p).stack) :
    MailOk W (s.modify p f) box :=
  h.modify p f hi fun r hr => ⟨r, by rw [← hf]; exact hr, Receive.Later.refl r⟩

theorem record (h : MailOk W s box) {e : Event} (he : e.relinks = false) :
    MailOk W (s.record e) box :=
  h.congr rfl rfl rfl (Nat.le_refl _) (fun _ hp => hp)
    (fun _ r hr => ⟨rfl, r, hr, Receive.Later.refl r⟩) [e] rfl (by simpa using he)

theorem die (h : MailOk W s box) (p : Nat) (r : RawReason) : MailOk W (s.die p r) box := by
  refine h.congr rfl rfl rfl (Nat.le_max_left _ _) (fun q hq => ?_) (fun q r' hr => ?_) [] rfl (by simp)
  · by_cases hqp : q = p
    · simp [hqp, Pcb.dead] at hq
    · simpa [hqp] using hq
  · by_cases hqp : q = p
    · simp [hqp, Pcb.dead] at hr
    · exact ⟨by simp [hqp], r', by simpa [hqp] using hr, Receive.Later.refl r'⟩

/-- A message comes in. No call of the receiver may be at a dangling cursor
unless the message is one it may miss. -/
theorem insert (h : MailOk W s box) (ha : s.alive p = true) (x : Contents)
    (hw : ∀ r c, Frame.receive r ∈ (s.pcb p).stack → r.cursor = .msg c → Dangling s.mail c →
      ¬ W r.matcher x) : MailOk W (s.insertMsg p x) (addMsg box p s.nextMsg) := by
  refine ⟨h.boxes.insert ha x, fun q r hr => ?_⟩
  have hr : Frame.receive r ∈ (s.pcb q).stack := hr
  obtain ⟨hq, hcall⟩ := h.calls q r hr
  have hcur : ∀ c, r.cursor = .msg c → Event.insert q c ∈ s.log := by
    intro c hc
    rcases hcall.cursor with h1 | ⟨c', h1, h2⟩
    · rw [hc] at h1; cases h1
    · rw [hc] at h1; cases h1; exact h2
  have hnew : ∀ i, i ∈ box q → (s.insertMsg p x).contents i = s.contents i := by
    intro i hi
    have := (h.boxes.bound q i (h.boxes.inserted q i hi)).1
    have hne : i ≠ s.nextMsg := by omega
    simp [State.insertMsg, hne]
  refine ⟨hq, ?_, fun i hi hb => ?_, fun c hc hd i hi hwi => ?_, fun hm => ?_⟩
  · rcases hcall.cursor with h1 | ⟨c, h1, h2⟩
    · exact .inl h1
    · exact .inr ⟨c, h1, List.mem_cons_of_mem _ h2⟩
  · rcases mem_addMsg.mp hi with h1 | ⟨_, h1⟩
    · exact List.mem_cons_of_mem _ (hcall.offered i h1 hb)
    · -- the cursor is at an older message
      cases hc : r.cursor with
      | inbox a => rw [hc] at hb; exact absurd hb id
      | msg c =>
        rw [hc] at hb
        have := (h.boxes.bound q c (hcur c hc)).1
        simp only [MPtr.Behind] at hb
        omega
  · have hd' := h.boxes.insert_dangling ha hd (hcur c hc) hq
    rcases mem_addMsg.mp hi with h1 | ⟨h1, h2⟩
    · rw [hnew i h1] at hwi
      exact hcall.dangling c hc hd' i h1 hwi
    · subst h1 h2
      refine absurd ?_ (hw r c hr hc hd')
      simpa [State.insertMsg] using hwi
  · obtain ⟨k, h1, h2⟩ := hcall.matching hm
    exact ⟨k, h1, h2.cons _⟩

/-- Whether a message may come in for p. -/
def May (W : Matcher → Contents → Prop) (s : State) (p : Nat) (x : Contents) : Prop :=
  ∀ r c, Frame.receive r ∈ (s.pcb p).stack → r.cursor = .msg c → Dangling s.mail c → ¬ W r.matcher x

theorem send (h : MailOk W s box) (p : Nat) (x : Contents) (hw : May W s p x) :
    ∃ box', MailOk W (s.send p x) box' := by
  rcases send_cases s p x with ⟨_, he⟩ | ⟨ha, hs⟩
  · rw [he]; exact ⟨box, h⟩
  · exact ⟨_, (h.insert ha x hw).sched hs⟩

theorem make_msg (s : State) (k : Nat) : s.makeProcess.1.mail (.msg k) = s.mail (.msg k) := by
  show s.mail.fresh (.inbox (s.procs.last + 1)) (.msg k) = s.mail (.msg k)
  exact fresh_of_ne _ (by simp)

theorem make_dangling (hd : Dangling s.makeProcess.1.mail k) : Dangling s.mail k := by
  induction hd with
  | last hp hn => rw [make_msg] at hp hn; exact .last hp hn
  | chain hp hn _ ih => rw [make_msg] at hp hn; exact .chain hp hn ih

theorem make (h : MailOk W s box) : MailOk W s.makeProcess.1 box := by
  have hbox : box (s.procs.last + 1) = [] := by
    cases hb : box (s.procs.last + 1) with
    | nil => rfl
    | cons k l =>
      have := (h.boxes.bound _ k (h.boxes.inserted _ k (by rw [hb]; simp))).2
      omega
  have hget : ∀ q, q ≠ s.procs.last + 1 → s.makeProcess.1.pcb q = s.pcb q := by
    intro q hq
    simp [State.makeProcess, hq]
  have hnot : ∀ q k, Event.insert q k ∈ s.log → q ≠ s.procs.last + 1 := by
    intro q k hk
    have := (h.boxes.bound q k hk).2
    omega
  have halive : ∀ q, q ≠ s.procs.last + 1 → s.makeProcess.1.alive q = true → s.alive q = true := by
    intro q hq ha
    rw [State.alive, hget q hq] at ha
    exact ha
  refine ⟨⟨fun q ha => ?_, h.boxes.sorted, h.boxes.inserted, h.boxes.owner, fun q k hk => ?_,
    fun q k ha hk hb => ?_, fun q k ha hk hb => ?_, h.boxes.once⟩, fun q r hr => ?_⟩
  · by_cases hq : q = s.procs.last + 1
    · subst hq
      rw [hbox]
      exact IsRing.fresh _ _
    · refine (h.boxes.ring q (halive q hq ha)).congr fun a hm => fresh_of_ne _ ?_
      rintro rfl
      simp [Ne.symm hq] at hm
  · have := h.boxes.bound q k hk
    exact ⟨this.1, Nat.le_trans this.2 (Nat.le_max_left _ _)⟩
  · have := h.boxes.removed q k (halive q (hnot q k hk) ha) hk hb
    simp only [StaleNext, make_msg]
    exact this
  · exact h.boxes.taken q k (halive q (hnot q k hk) ha) hk hb
  · have hq : q ≠ s.procs.last + 1 := by
      rintro rfl
      simp [State.makeProcess] at hr
    rw [hget q hq] at hr
    obtain ⟨h1, h2⟩ := h.calls q r hr
    refine ⟨by rw [State.alive, hget q hq]; exact h1, ?_⟩
    exact h2.mono (Receive.Later.refl r) (fun _ hi => hi) (fun _ _ => rfl)
      (fun c _ hd => .inl (make_dangling hd)) [] rfl

theorem cursor_inserted (h : MailOk W s box) {r : Receive} {c : Nat}
    (hr : Frame.receive r ∈ (s.pcb p).stack) (hc : r.cursor = .msg c) : Event.insert p c ∈ s.log := by
  rcases (h.calls p r hr).2.cursor with h1 | ⟨c', h1, h2⟩
  · rw [hc] at h1; cases h1
  · rw [hc] at h1; cases h1; exact h2

/-- From its cursor a $receive gets to the first message ahead of it, or to a
removed message on the way there. -/
theorem next_cursor (h : MailOk W s box) {r : Receive} (hr : Frame.receive r ∈ (s.pcb p).stack)
    (hn : (s.mail r.cursor).next = some (.msg k)) :
    Event.insert p k ∈ s.log ∧ (∀ i ∈ box p, i ≤ k → i = k ∨ r.cursor.Behind i) ∧
      ((s.mail (.msg k)).prev = none → ∃ c, r.cursor = .msg c ∧ c < k ∧
        (Dangling s.mail k → Dangling s.mail c)) := by
  obtain ⟨ha, hcall⟩ := h.calls p r hr
  rcases hcall.cursor with h1 | ⟨c, h1, h2⟩
  · -- at the start of the inbox
    rw [h1, (h.boxes.ring p ha).sentinel_next] at hn
    cases hb : box p with
    | nil => simp [hb] at hn
    | cons j l =>
      simp only [hb, List.map_cons, List.headD_cons, Option.some.injEq, MPtr.msg.injEq] at hn
      subst hn
      have hjm : j ∈ box p := by simp [hb]
      refine ⟨h.boxes.inserted p j hjm, fun i hi hij => ?_, fun hp => ?_⟩
      · have hs := h.boxes.sorted p
        rw [hb, List.pairwise_cons] at hs
        rcases List.mem_cons.mp hi with h3 | h3
        · exact .inl h3
        · have := hs.1 i h3
          omega
      · exact absurd hp (h.boxes.prev_of_mem ha hjm)
  · rw [h1] at hn ⊢
    by_cases hcb : c ∈ box p
    · -- at a message that is still there
      obtain ⟨xs, ys, hxy⟩ := List.append_of_mem hcb
      obtain ⟨hlt, hgt, hys⟩ := h.boxes.sorted_split hxy
      rw [h.boxes.next_of_mem ha hxy] at hn
      have hk : (ys.map MPtr.msg).headD (.inbox p) = .msg k := Option.some.inj hn
      have hkm : k ∈ ys := by
        cases ys with
        | nil => simp at hk
        | cons y ys =>
          simp only [List.map_cons, List.headD_cons, MPtr.msg.injEq] at hk
          simp [hk]
      have hkb : k ∈ box p := by simp [hxy, hkm]
      refine ⟨h.boxes.inserted p k hkb, fun i hi hik => ?_, fun hp => ?_⟩
      · rw [hxy] at hi
        simp only [MPtr.Behind]
        rcases List.mem_append.mp hi with h3 | h3
        · have := hlt i h3
          omega
        · rcases List.mem_cons.mp h3 with h4 | h4
          · omega
          · have := Boxes.head_least hys hk h4
            omega
      · exact absurd hp (h.boxes.prev_of_mem ha hkb)
    · -- at a message that has been taken out
      obtain ⟨hp, h3⟩ := h.boxes.removed p c ha h2 hcb
      rcases h3 with h3 | ⟨j, h3, h4, h5, h6⟩
      · rw [hn] at h3; cases h3
      · have hjk : MPtr.msg k = MPtr.msg j := Option.some.inj (hn.symm.trans h3)
        cases hjk
        refine ⟨h5, fun i hi hik => ?_, fun _ => ⟨c, rfl, h4, fun hd => .chain hp hn hd⟩⟩
        have := h6 i hi
        simp only [MPtr.Behind]
        omega

/-- At the end of the inbox every message is behind the cursor, those apart
that a dangling cursor may miss. -/
theorem end_of_inbox (h : MailOk W s box) {r : Receive} (hr : Frame.receive r ∈ (s.pcb p).stack)
    (hn : (s.mail r.cursor).next = some (.inbox q)) {i : Nat} (hi : i ∈ box p)
    (hw : W r.matcher (s.contents i)) : r.cursor.Behind i := by
  obtain ⟨ha, hcall⟩ := h.calls p r hr
  rcases hcall.cursor with h1 | ⟨c, h1, h2⟩
  · rw [h1, (h.boxes.ring p ha).sentinel_next] at hn
    cases hb : box p with
    | nil => simp [hb] at hi
    | cons j l => simp [hb] at hn
  · rw [h1] at hn ⊢
    simp only [MPtr.Behind]
    by_cases hcb : c ∈ box p
    · obtain ⟨xs, ys, hxy⟩ := List.append_of_mem hcb
      obtain ⟨hlt, _, _⟩ := h.boxes.sorted_split hxy
      rw [h.boxes.next_of_mem ha hxy] at hn
      have hnil : ys = [] := by
        cases ys with
        | nil => rfl
        | cons y ys => simp at hn
      rw [hxy, hnil] at hi
      rcases List.mem_append.mp hi with h3 | h3
      · exact Nat.le_of_lt (hlt i h3)
      · simp at h3
        omega
    · have hp := (h.boxes.removed p c ha h2 hcb).1
      exact hcall.dangling c h1 (.last hp hn) i hi hw

theorem setStack (h : MailOk W s box) (p : Nat) (fs : List Frame)
    (hf : ∀ r', Frame.receive r' ∈ fs → ∃ r, Frame.receive r ∈ (s.pcb p).stack ∧ r.Later r') :
    MailOk W (s.setStack p fs) box := h.modify p _ rfl hf

theorem pop (h : MailOk W s box) {f : Frame} {rest : List Frame} (hs : (s.pcb p).stack = f :: rest) :
    MailOk W (s.setStack p rest) box :=
  h.setStack p rest fun r hr => ⟨r, by rw [hs]; exact List.mem_cons_of_mem _ hr, Receive.Later.refl r⟩

theorem leave (h : MailOk W s box) {r : Receive} {rest : List Frame}
    (hs : (s.pcb s.self).stack = .receive r :: rest) : MailOk W (s.leave r rest) box := by
  unfold State.leave
  cases r.matcher with
  | user => exact h.pop hs
  | down m => exact (h.pop hs).record rfl

theorem receive (h : MailOk W s box) (ha : s.alive s.self = true) (m : Matcher) (w : Option Nat) :
    MailOk W (s.receive m w) box := by
  refine ⟨?_, fun q r hr => ?_⟩
  · refine h.boxes.congr rfl rfl (Nat.le_max_left _ _) (fun q hq => ?_)
      (by rfl : _ = [] ++ s.log) (by simp)
    by_cases hqs : q = s.self
    · subst hqs; exact ha
    · simpa [State.receive, State.push, State.setStack, State.modify, hqs] using hq
  · have hal : (s.receive m w).alive q = s.alive q := by
      by_cases hqs : q = s.self <;> simp [State.receive, State.push, State.setStack, State.modify, hqs]
    have hold : ∀ r, Frame.receive r ∈ (s.pcb q).stack →
        (s.receive m w).alive q = true ∧ CallOk W (s.receive m w) (box q) q r := by
      intro r hr
      obtain ⟨h1, h2⟩ := h.calls q r hr
      exact ⟨hal.trans h1, h2.mono (Receive.Later.refl r) (fun _ hi => hi) (fun _ _ => rfl)
        (fun _ _ hd => .inl hd) [] rfl⟩
    by_cases hqs : q = s.self
    · subst hqs
      have hr : Frame.receive r = .receive ⟨s.nextCall, m, w, .inbox s.self, .find0⟩ ∨
          Frame.receive r ∈ (s.pcb s.self).stack := by
        simpa [State.receive, State.push, State.setStack, State.modify] using hr
      rcases hr with hr | hr
      · cases hr
        refine ⟨hal.trans ha, .inl rfl, fun _ _ hb => absurd hb id, fun c hc => ?_, fun hm => ?_⟩
        · cases hc
        · cases hm
      · exact hold r hr
    · refine hold r ?_
      simpa [State.receive, State.push, State.setStack, State.modify, hqs] using hr

/-- The $receive on top of the stack goes on at the next message. -/
theorem advance (h : MailOk W s box) {r : Receive} {rest : List Frame} {ph : Phase}
    (hs : (s.pcb s.self).stack = .receive r :: rest)
    (hn : (s.mail r.cursor).next = some (.msg k)) (es : List Event) (hes : ∀ e ∈ es, e.relinks = false)
    (ho : k ∈ box s.self → Event.offer r.call k ∈ es)
    (hph : ph = .matching → es = [.offer r.call k] ∧ (s.mail (.msg k)).prev ≠ none) :
    MailOk W { s.setStack s.self (.receive { r with cursor := .msg k, phase := ph } :: rest) with
      log := es ++ s.log } box := by
  have hr : Frame.receive r ∈ (s.pcb s.self).stack := by simp [hs]
  obtain ⟨ha, hcall⟩ := h.calls s.self r hr
  obtain ⟨hk, hbehind, hstale⟩ := h.next_cursor hr hn
  generalize ht : ({ s.setStack s.self (.receive { r with cursor := .msg k, phase := ph } :: rest) with
      log := es ++ s.log } : State) = t
  have hmail : t.mail = s.mail := by rw [← ht]; rfl
  have hcont : t.contents = s.contents := by rw [← ht]; rfl
  have hlog : t.log = es ++ s.log := by rw [← ht]
  have hal : ∀ q, t.alive q = s.alive q := by
    intro q
    rw [← ht]
    by_cases hq : q = s.self <;> simp [State.setStack, State.modify, hq]
  refine ⟨h.boxes.congr hmail (by rw [← ht]; rfl) (by rw [← ht]; exact Nat.le_max_left _ _)
    (fun q hq => by rw [← hal]; exact hq) hlog hes, fun q r' hr' => ?_⟩
  have hold : ∀ r', Frame.receive r' ∈ (s.pcb q).stack → t.alive q = true ∧ CallOk W t (box q) q r' := by
    intro r' hr'
    obtain ⟨h1, h2⟩ := h.calls q r' hr'
    exact ⟨(hal q).trans h1, h2.mono (Receive.Later.refl r') (fun _ hi => hi) (fun _ _ => by rw [hcont])
      (fun _ _ hd => .inl (by rw [← hmail]; exact hd)) es hlog⟩
  by_cases hq : q = s.self
  · subst hq
    have hr' : Frame.receive r' = .receive { r with cursor := .msg k, phase := ph } ∨
        Frame.receive r' ∈ rest := by
      rw [← ht] at hr'
      simpa [State.setStack, State.modify] using hr'
    rcases hr' with hr' | hr'
    · cases hr'
      refine ⟨(hal _).trans ha, .inr ⟨k, rfl, by rw [hlog]; simp [hk]⟩, fun i hi hb => ?_,
        fun c hc hd i hi hw => ?_, fun hm => ?_⟩
      · rw [hlog]
        rcases hbehind i hi hb with h1 | h1
        · subst h1
          exact List.mem_append_left _ (ho hi)
        · exact List.mem_append_right _ (hcall.offered i hi h1)
      · cases hc
        rw [hmail] at hd
        rw [hcont] at hw
        obtain ⟨c, h1, h2, h3⟩ := hstale hd.prev
        have := hcall.dangling c h1 (h3 hd) i hi hw
        omega
      · obtain ⟨h1, h2⟩ := hph hm
        refine ⟨k, rfl, [], s.log, by rw [hlog, h1]; rfl, fun c hc => ?_⟩
        -- a message that is still linked has not been taken
        obtain ⟨q, h3, h4⟩ := h.boxes.once k c hc
        have := h.boxes.owner q s.self k h3 hk
        subst this
        exact h4 (h.boxes.mem_of_prev ha hk h2)
    · exact hold r' (by rw [hs]; exact List.mem_cons_of_mem _ hr')
  · refine hold r' ?_
    rw [← ht] at hr'
    simpa [State.setStack, State.modify, hq] using hr'

theorem consume (h : MailOk W s box) (ha : s.alive p = true) (hk : Event.insert p k ∈ s.log)
    (c : Consumer) : ∃ box', MailOk W (s.consume k c) box' := by
  by_cases hp : (s.mail (.msg k)).prev = none
  · rw [Boxes.consume_taken hp]
    exact ⟨box, h.record rfl⟩
  · have hm := h.boxes.mem_of_prev ha hk hp
    refine ⟨dropMsg box k, h.boxes.remove ha hm c, fun q r hr => ?_⟩
    have hr : Frame.receive r ∈ (s.pcb q).stack := hr
    obtain ⟨h1, h2⟩ := h.calls q r hr
    refine ⟨h1, h2.mono (Receive.Later.refl r) (fun i hi => (mem_dropMsg.mp hi).1) (fun _ _ => rfl)
      (fun i hi hd => ?_) [.consume k c true] (Boxes.consume_log hp)⟩
    exact h.boxes.remove_dangling ha hm hd (h.cursor_inserted hr hi) h1

theorem getExitMsg_mem (h : Boxes s box) (ha : s.alive p = true) {n : Nat} {x : MPtr}
    (hx : x ∈ MPtr.inbox p :: (box p).map .msg) (hk : s.getExitMsg n x = some k) : k ∈ box p := by
  induction n generalizing x with
  | zero => cases hk
  | succ n ih =>
    obtain ⟨y, hy, hn⟩ := (h.ring p ha).next_mem hx
    unfold State.getExitMsg at hk
    rw [hn] at hk
    cases y with
    | inbox a => cases hk
    | msg j =>
      have hj : j ∈ box p := by simpa using hy
      dsimp only at hk
      split at hk
      · cases hk; exact hj
      · exact ih hy hk

theorem work (h : MailOk W s box) (hw : Work s s') : ∃ box', MailOk W s' box' := by
  cases hw with
  | sched hs => exact ⟨box, h.sched hs⟩
  | flags f => exact ⟨box, h.modify_same _ _ rfl rfl⟩
  | trap x => exact ⟨box, h.modify_same _ _ rfl rfl⟩
  | receive w ha => exact ⟨box, h.receive ha .user w⟩
  | flush m ha hm =>
    have h1 : MailOk W (s.demonitor m) box :=
      ((h.modify_same s.self (fun x => { x with monitors := x.monitors.filter (· ≠ m) }) rfl
        rfl).modify_same m.target (fun x => { x with monitors := x.monitors.filter (· ≠ m) }) rfl
        rfl).record rfl
    refine ⟨box, h1.receive ?_ (.down m) (some 0)⟩
    have hget : ∀ q, ((s.demonitor m).pcb q).inbox = (s.pcb q).inbox := by
      intro q
      by_cases h1 : q = m.target <;> by_cases h2 : m.target = s.self <;> by_cases h3 : q = s.self <;>
        simp_all [State.demonitor, State.removeMonitor]
    exact (hget s.self).trans ha
  | restack fs hf =>
    refine ⟨box, h.setStack _ fs fun r' hr' => ?_⟩
    obtain ⟨r, hr, hs⟩ := hf r' hr'
    exact ⟨r, hr, hs.toLater⟩
  | park => exact ⟨box, h.record rfl⟩
  | skip r rest k hs hr hn hk =>
    refine ⟨box, h.advance hs hn [] (by simp) (fun hm => ?_) (by simp)⟩
    have ha := (h.calls s.self r (by simp [hs])).1
    exact absurd hk (h.boxes.prev_of_mem ha hm)
  | offer r rest k hs hr hn hk =>
    exact ⟨box, h.advance hs hn [.offer r.call k] (by simp [Event.relinks]) (by simp) (by simp [hk])⟩
  | timeout r rest q hs hr hn => exact ⟨box, h.leave hs⟩
  | accept r rest k hs hr hk hm =>
    have hr : Frame.receive r ∈ (s.pcb s.self).stack := by simp [hs]
    obtain ⟨box', h1⟩ := h.consume (h.calls _ r hr).1 (h.cursor_inserted hr hk) (.clause r.call)
    exact ⟨box', h1.leave hs⟩
  | reject r rest k hs hr hk hm =>
    refine ⟨box, h.setStack _ _ fun r' hr' => ?_⟩
    rcases List.mem_cons.mp hr' with h1 | h1
    · cases h1
      exact ⟨r, by simp [hs], rfl, rfl, rfl, by simp⟩
    · exact ⟨r', by simp [hs, h1], .refl r'⟩
  | take k ha hk =>
    have hm := getExitMsg_mem h.boxes ha (by simp) hk
    exact h.consume ha (h.boxes.inserted _ k hm) _

end MailOk

/-- A change that leaves the messages and every $receive alone. -/
structure Calm (s s' : State) : Prop where
  mail : s'.mail = s.mail
  contents : s'.contents = s.contents
  nextMsg : s'.nextMsg = s.nextMsg
  last : s.procs.last ≤ s'.procs.last
  alive : ∀ p, s'.alive p = true → s.alive p = true
  frames : ∀ p r, Frame.receive r ∈ (s'.pcb p).stack →
    s'.alive p = s.alive p ∧ Frame.receive r ∈ (s.pcb p).stack
  log : ∃ es, s'.log = es ++ s.log ∧ ∀ e ∈ es, e.isMail = false

namespace Calm

theorem sched (h : SchedOnly s s') : Calm s s' := by
  obtain ⟨es, h1, h2⟩ := h.log
  refine ⟨h.mail, h.contents, h.nextMsg, h.last, fun p hp => ?_, fun p r hr => ?_, es, h1, fun e he => ?_⟩
  · rw [State.alive, ← h.inbox p]; exact hp
  · rw [h.stack p] at hr
    exact ⟨h.inbox p, hr⟩
  · have := h2 e he
    cases e <;> simp_all [Event.isSched, Event.isMail]

theorem modify (p : Nat) (f : Pcb → Pcb) (hi : (f (s.pcb p)).inbox = (s.pcb p).inbox)
    (hf : (f (s.pcb p)).stack = (s.pcb p).stack) : Calm s (s.modify p f) := by
  have hget : ∀ q, ((s.modify p f).pcb q).inbox = (s.pcb q).inbox ∧
      ((s.modify p f).pcb q).stack = (s.pcb q).stack := by
    intro q
    by_cases hq : q = p
    · subst hq; simpa using ⟨hi, hf⟩
    · simp [hq]
  refine ⟨rfl, rfl, rfl, Nat.le_max_left _ _, fun q hq => ?_, fun q r hr => ?_, [], rfl, by simp⟩
  · rw [State.alive, ← (hget q).1]; exact hq
  · rw [(hget q).2] at hr
    exact ⟨(hget q).1, hr⟩

theorem monitors (p : Nat) (f : List Mon → List Mon) :
    Calm s (s.modify p fun x => { x with monitors := f x.monitors }) := modify p _ rfl rfl

theorem links (p : Nat) (f : List Nat → List Nat) :
    Calm s (s.modify p fun x => { x with links := f x.links }) := modify p _ rfl rfl

theorem die (p : Nat) (r : RawReason) : Calm s (s.die p r) := by
  refine ⟨rfl, rfl, rfl, Nat.le_max_left _ _, fun q hq => ?_, fun q r hr => ?_, [], rfl, by simp⟩
  · by_cases hqp : q = p
    · simp [hqp, Pcb.dead] at hq
    · simpa [hqp] using hq
  · by_cases hqp : q = p
    · simp [hqp, Pcb.dead] at hr
    · exact ⟨by simp [hqp], by simpa [hqp] using hr⟩

end Calm

theorem MailOk.calm (h : MailOk W s box) (hc : Calm s s') : MailOk W s' box := by
  obtain ⟨es, h1, h2⟩ := hc.log
  refine h.congr hc.mail hc.contents hc.nextMsg hc.last hc.alive (fun p r hr => ?_) es h1
    fun e he => Event.relinks_of_isMail (h2 e he)
  obtain ⟨h3, h4⟩ := hc.frames p r hr
  exact ⟨h3, r, h4, .refl r⟩

/-- Moves, as far as messages are concerned. -/
inductive Post : State → State → Prop where
  | calm {s s' : State} (h : Calm s s') : Post s s'
  | make (s : State) : Post s s.makeProcess.1
  | insert (s : State) (p : Nat) (x : Contents) (ha : s.alive p = true) : Post s (s.insertMsg p x)

abbrev Posts : State → State → Prop := Relation.ReflTransGen Post

theorem send_posts (s : State) (p : Nat) (x : Contents) : Posts s (s.send p x) := by
  rcases send_cases s p x with ⟨_, he⟩ | ⟨ha, hs⟩
  · rw [he]
  · exact .head (.insert s p x ha) (.single (.calm (Calm.sched hs)))

theorem killMove_posts (h : KillMove s s') : Posts s s' := by
  cases h with
  | send p x => exact send_posts s p x
  | sendExit target p r _ => exact .head (.calm (Calm.modify target _ rfl rfl)) (send_posts _ _ _)
  | die p r _ => exact .single (.calm (Calm.die p r))
  | links p ls => exact .single (.calm (Calm.modify p _ rfl rfl))
  | monitors p ms => exact .single (.calm (Calm.modify p _ rfl rfl))

theorem kill_posts {raw : RawReason} (h : s.kill p raw = .ok s') : Posts s s' :=
  (kill_moves h).invariant (I := fun t => Posts s t) (fun _ _ hm ht => ht.trans (killMove_posts hm))
    .refl

/-- Data outside the pcbs. -/
theorem Calm.of_eq (hp : s'.procs = s.procs) (hm : s'.mail = s.mail)
    (hc : s'.contents = s.contents) (hn : s'.nextMsg = s.nextMsg) (es : List Event)
    (hl : s'.log = es ++ s.log) (hes : ∀ e ∈ es, e.isMail = false) : Calm s s' := by
  refine ⟨hm, hc, hn, by rw [hp], fun p h => ?_, fun p r h => ?_, es, hl, hes⟩
  · simpa [hp] using h
  · exact ⟨by simp [hp], by simpa [hp] using h⟩

theorem move_posts (h : Move s s') : Posts s s' := by
  cases h with
  | sched hs => exact .single (.calm (Calm.sched hs))
  | make => exact .single (.make s)
  | link p q _ =>
    unfold State.link2
    split
    · exact .refl
    · exact .head (.calm (Calm.links p (q :: ·))) (.single (.calm (Calm.links q (p :: ·))))
  | unlink p =>
    exact .head (.calm (Calm.links s.self (·.filter (· ≠ p))))
      (.single (.calm (Calm.links p (·.filter (· ≠ s.self)))))
  | send p d => exact send_posts s p _
  | sendExit target p r _ => exact .head (.calm (Calm.modify target _ rfl rfl)) (send_posts _ _ _)
  | kill _ hk => exact kill_posts hk
  | monitor p _ _ =>
    have h1 : Calm s { s with
        nextMon := s.nextMon + 1, log := .monitor ⟨s.nextMon, s.self, p⟩ :: s.log } :=
      Calm.of_eq rfl rfl rfl rfl [.monitor ⟨s.nextMon, s.self, p⟩] rfl (by simp [Event.isMail])
    unfold State.monitor
    dsimp only
    split
    · exact .head (.calm h1) (.head (.calm (Calm.monitors s.self (⟨s.nextMon, s.self, p⟩ :: ·)))
        (.single (.calm (Calm.monitors p (⟨s.nextMon, s.self, p⟩ :: ·)))))
    · exact .head (.calm h1) (send_posts _ _ _)
  | demonitor m _ =>
    exact .head (.calm (Calm.monitors s.self (·.filter (· ≠ m))))
      (.head (.calm (Calm.monitors m.target (·.filter (· ≠ m))))
        (.single (.calm (Calm.of_eq rfl rfl rfl rfl [.demonitor m] rfl (by simp [Event.isMail])))))
  | register name p =>
    unfold State.register
    split
    · exact .refl
    · split
      · exact .refl
      · split
        · exact .refl
        · exact .head (.calm (Calm.modify p (fun x => { x with name := some name }) rfl rfl))
            (.single (.calm (Calm.of_eq rfl rfl rfl rfl [] rfl (by simp))))
  | unregister name =>
    unfold State.unregister
    split
    · exact .refl
    · rename_i p _
      exact .head (.calm (Calm.modify p (fun x => { x with name := none }) rfl rfl))
        (.single (.calm (Calm.of_eq rfl rfl rfl rfl [] rfl (by simp))))

theorem moves_posts (h : Moves s s') : Posts s s' := by
  induction h with
  | refl => exact .refl
  | tail _ hm ih => exact ih.trans (move_posts hm)

end Swish.Erlang
