import Swish.Http.Conn
import Swish.Lib.Except

/-!
Requests on one connection: which bytes belong to which request, and that a request
gets at most one response.
-/

set_option autoImplicit false

namespace Swish.Http

open Swish.Lib

def Event.isRequest : Event → Bool
  | .request _ _ _ => true
  | _ => false

/-- The events since the last request was returned. -/
def recent (log : List Event) : List Event := log.takeWhile fun e => !e.isRequest

/-- The last request that was returned: the end of its header, the length of its content
and whether the connection stays open after it. -/
def current : List Event → Option (Nat × Option Nat × Bool)
  | [] => none
  | .request stop len keep :: _ => some (stop, len, keep)
  | _ :: log => current log

/-- There is a request without a response or other output. -/
structure Open (log : List Event) : Prop where
  request : (current log).isSome
  response : .response ∉ recent log
  wrote : .wrote ∉ recent log

/-- A request line may be read from the position start on. -/
def Aligned (log : List Event) (start : Nat) : Prop :=
  ∀ stop len keep, current log = some (stop, len, keep) →
    keep = true ∧ .closed ∉ recent log ∧ ∀ n, len = some n → start = stop + n

/-- A log as it should be. The last event is the first one of the list. -/
def Proper : List Event → Prop
  | [] => True
  | .response :: log => Open log ∧ Proper log
  | .line start :: log => Aligned log start ∧ Proper log
  | _ :: log => Proper log

/-- What the field input is, given the log. -/
def InputOk (log : List Event) (input : Input) : Prop :=
  if .closed ∈ recent log then input = .close
  else
    match current log with
    | none => input = .ready
    | some (stop, len, keep) => input = if keep then .advance (len.map (stop + ·)) else .close

def InPort.At (stream : List UInt8) (ip : InPort) : Prop := ip.rest = stream.drop ip.pos ∧ ip.pos ≤ stream.length

/-- What holds of a running server. -/
structure Kept (stream : List UInt8) (w : World) : Prop where
  port : w.ip.At stream
  ready : w.conn.output = .ready → Open w.log
  input : InputOk w.log w.conn.input
  behind : ∀ stop len keep, current w.log = some (stop, len, keep) → stop ≤ w.ip.pos

variable {stream : List UInt8} {w w' : World} {ip ip' : InPort} {log : List Event} {e : Event} {out : Written} {o : Options}

theorem recent_cons (h : e.isRequest = false) : recent (e :: log) = e :: recent log := by
  simp [recent, h]

theorem current_cons (h : e.isRequest = false) : current (e :: log) = current log := by
  cases e <;> first | rfl | cases h

/-- The port goes forward. -/
def InPort.To (ip ip' : InPort) : Prop :=
  ∃ k ≤ ip.rest.length, ip'.pos = ip.pos + k ∧ ip'.rest = ip.rest.drop k

theorem InPort.To.refl (ip : InPort) : ip.To ip := ⟨0, Nat.zero_le _, rfl, rfl⟩

theorem InPort.To.trans {ip'' : InPort} (h : ip.To ip') (h' : ip'.To ip'') : ip.To ip'' := by
  obtain ⟨k, hk, hp, hr⟩ := h
  obtain ⟨l, hl, hp', hr'⟩ := h'
  rw [hr, List.length_drop] at hl
  refine ⟨k + l, by omega, by omega, ?_⟩
  rw [hr', hr, List.drop_drop]

theorem InPort.To.at (h : ip.To ip') (ha : ip.At stream) : ip'.At stream := by
  obtain ⟨k, hk, hp, hr⟩ := h
  obtain ⟨h1, h2⟩ := ha
  rw [h1, List.length_drop] at hk
  refine ⟨?_, by omega⟩
  rw [hr, h1, hp, List.drop_drop]

theorem InPort.To.le (h : ip.To ip') : ip.pos ≤ ip'.pos := by
  obtain ⟨k, _, hp, _⟩ := h
  omega

theorem leaving_to {rest : List UInt8} (h : rest <:+ ip.rest) : ip.To (ip.leaving rest) := by
  obtain ⟨front, hf⟩ := h
  have hlen : front.length + rest.length = ip.rest.length := by
    rw [← hf, List.length_append]
  refine ⟨front.length, by omega, ?_, ?_⟩
  · simp only [InPort.leaving]
    omega
  · rw [InPort.leaving, ← hf, List.drop_left]

theorem skipNewline_suffix (rest : List UInt8) : skipNewline rest <:+ rest := by
  cases rest with
  | nil => exact List.suffix_refl _
  | cons b rest =>
    rw [skipNewline]
    split
    · exact List.suffix_cons _ _
    · exact List.suffix_refl _

theorem readLineLoop_suffix {limit : Int} {n : Nat} {bs line rest : List UInt8}
    (h : readLineLoop limit n bs = .ok (line, rest)) : rest <:+ bs := by
  induction bs generalizing n line with
  | nil =>
    rw [readLineLoop] at h
    split at h
    · cases h
    · cases h
      exact List.suffix_refl _
  | cons x bs ih =>
    rw [readLineLoop] at h
    split at h
    · cases h
    · split at h
      · cases h
        exact List.suffix_cons _ _
      · split at h
        · cases h
          exact (skipNewline_suffix bs).trans (List.suffix_cons _ _)
        · obtain ⟨result, hl, h⟩ := Lib.bind_ok h
          cases h
          exact (ih hl).trans (List.suffix_cons _ _)

theorem readLine_to {limit : Int} {line : Option (List UInt8)} (h : readLine limit ip = .ok (line, ip')) : ip.To ip' := by
  unfold readLine at h
  split at h
  · cases h
    exact .refl ip
  · obtain ⟨result, hl, h⟩ := Lib.bind_ok h
    cases h
    exact leaving_to (readLineLoop_suffix hl)

theorem readHeaderLoop_to {t : Text} {fuel : Nat} {limit : Int} {hdr hdr' : Object}
    (h : readHeaderLoop t fuel limit hdr ip = .ok (hdr', ip')) : ip.To ip' := by
  induction fuel generalizing limit hdr ip with
  | zero => cases h
  | succ fuel ih =>
    rw [readHeaderLoop] at h
    cases hl : readLine limit ip with
    | error err =>
      rw [hl] at h
      cases h
    | ok result =>
      obtain ⟨line, ip₁⟩ := result
      have hto := readLine_to hl
      rw [hl] at h
      cases line with
      | none => cases h
      | some line =>
        dsimp only [bind, Except.bind] at h
        split at h
        · cases h
          exact hto
        · split at h
          · exact hto.trans (ih h)
          · cases h

theorem proper_response (ho : Open log) (hp : Proper log) : Proper (.response :: log) := ⟨ho, hp⟩

theorem World.write_cases (hp : Proper w.log) (ho : Open w.log) (out : Written) :
    ∃ w', w'.log = .response :: w.log ∧ w'.conn = w.conn ∧ w'.ip = w.ip ∧ Proper w'.log ∧
      (w.write out = .ok w' ∨ ∃ e, w.write out = .error (e, w')) := by
  refine ⟨{ w with op := w.op ++ out.bytes }.note .response, rfl, rfl, rfl, proper_response ho hp, ?_⟩
  unfold World.write
  cases out.error with
  | none => exact .inl rfl
  | some e => exact .inr ⟨e, rfl⟩

/-- An event that is no request and does not close the input. -/
theorem InputOk.cons {input : Input} (h : InputOk log input) (h1 : e.isRequest = false) (h2 : e ≠ .closed) :
    InputOk (e :: log) input := by
  have hmem : .closed ∈ e :: recent log ↔ .closed ∈ recent log := by
    simp [List.mem_cons, Ne.symm h2]
  unfold InputOk at h ⊢
  rw [recent_cons h1, current_cons h1]
  simp only [hmem]
  exact h

theorem inputOk_closed (log : List Event) : InputOk (.closed :: log) .close := by
  rw [InputOk, if_pos]
  rw [recent_cons rfl]
  exact List.mem_cons_self

/-- internal-server-error writes a response to an open request only, and closes the input. -/
theorem World.internalServerError_cases (h : Kept stream w) (hp : Proper w.log) (out : Written) :
    ∃ w', Proper w'.log ∧ current w'.log = current w.log ∧ w'.ip = w.ip ∧
      ((w.internalServerError out = .ok w' ∧ w'.conn = ⟨.close, .dirty⟩) ∨
        ∃ e, w.internalServerError out = .error (e, w')) := by
  unfold World.internalServerError
  cases hout : w.conn.output with
  | ready =>
    obtain ⟨w', hlog, hconn, hip, hp', hw | ⟨e, hw⟩⟩ := World.write_cases hp (h.ready hout) out
    · refine ⟨{ w' with conn := ⟨.close, .dirty⟩ }, hp', ?_, hip, .inl ⟨?_, rfl⟩⟩
      · rw [hlog]
        rfl
      · simp only [hw, bind, Except.bind, pure, Except.pure]
    · refine ⟨w', hp', ?_, hip, .inr ⟨e, ?_⟩⟩
      · rw [hlog]
        rfl
      · simp only [hw, bind, Except.bind]
  | dirty => exact ⟨{ w with conn := { w.conn with input := .close } }, hp, rfl, rfl, .inl ⟨rfl, by simp only [hout]⟩⟩

/-- The input is at the next request, or no further one is to be read. -/
structure Advanced (stream : List UInt8) (w w' : World) : Prop where
  log : w'.log = w.log
  output : w'.conn.output = w.conn.output
  port : w'.ip.At stream
  le : w.ip.pos ≤ w'.ip.pos
  input : (w'.conn.input = .ready ∧ Aligned w.log w'.ip.pos) ∨ (w'.conn.input = .close ∧ w' = w)

theorem World.advanceInput_cases (h : Kept stream w) (hp : Proper w.log) (out : Written) :
    (∃ w', w.advanceInput out = .ok w' ∧ Advanced stream w w') ∨
      ∃ e w', w.advanceInput out = .error (e, w') ∧ Proper w'.log := by
  have hi := h.input
  unfold InputOk at hi
  unfold World.advanceInput
  by_cases hclosed : .closed ∈ recent w.log
  · rw [if_pos hclosed] at hi
    rw [hi]
    exact .inl ⟨w, rfl, rfl, rfl, h.port, Nat.le_refl _, .inr ⟨hi, rfl⟩⟩
  · rw [if_neg hclosed] at hi
    cases hcur : current w.log with
    | none =>
      rw [hcur] at hi
      dsimp only at hi
      rw [hi]
      refine .inl ⟨w, rfl, rfl, rfl, h.port, Nat.le_refl _, .inl ⟨hi, ?_⟩⟩
      intro stop len keep hc
      rw [hcur] at hc
      cases hc
    | some x =>
      obtain ⟨stop, len, keep⟩ := x
      rw [hcur] at hi
      dsimp only at hi
      cases keep with
      | false =>
        rw [hi]
        exact .inl ⟨w, rfl, rfl, rfl, h.port, Nat.le_refl _, .inr ⟨hi, rfl⟩⟩
      | true =>
        have halign : ∀ pos, (∀ n, len = some n → pos = stop + n) → Aligned w.log pos := by
          intro pos hpos stop' len' keep' hc
          rw [hcur] at hc
          cases hc
          exact ⟨rfl, hclosed, hpos⟩
        rw [if_pos rfl] at hi
        rw [hi]
        cases len with
        | none =>
          refine .inl ⟨_, rfl, rfl, rfl, h.port, Nat.le_refl _, .inl ⟨rfl, halign _ fun n hn => ?_⟩⟩
          cases hn
        | some n =>
          dsimp only [Option.map_some]
          by_cases hbeyond : stop + n < w.ip.pos
          · rw [if_pos hbeyond]
            obtain ⟨w', hp', -, -, ⟨hw, -⟩ | ⟨e, hw⟩⟩ := World.internalServerError_cases h hp out
            · exact .inr ⟨.inputViolation, w', by simp only [hw, bind, Except.bind], hp'⟩
            · exact .inr ⟨e, w', by simp only [hw, bind, Except.bind], hp'⟩
          · rw [if_neg hbeyond]
            unfold skipInput
            by_cases hfix : mostPositiveFixnum < stop + n - w.ip.pos
            · rw [if_pos hfix]
              exact .inr ⟨.notFixnum, w, rfl, hp⟩
            · rw [if_neg hfix]
              by_cases heof : w.ip.rest.length < stop + n - w.ip.pos
              · rw [if_pos heof]
                exact .inr ⟨.unexpectedEof, w, rfl, hp⟩
              · rw [if_neg heof]
                have hto : w.ip.To ⟨w.ip.pos + (stop + n - w.ip.pos), w.ip.rest.drop (stop + n - w.ip.pos)⟩ :=
                  ⟨_, by omega, rfl, rfl⟩
                refine .inl ⟨_, rfl, rfl, rfl, hto.at h.port, hto.le, .inl ⟨rfl, halign _ fun m hm => ?_⟩⟩
                cases hm
                dsimp only
                omega

/-- What a call leaves behind. -/
def Leaves (stream : List UInt8) : Except (HttpError × World) (Reply × World) → Prop
  | .ok (_, w) => Kept stream w ∧ Proper w.log
  | .error (_, w) => Proper w.log

theorem Open.closed (h : Open log) : Open (.closed :: log) := by
  refine ⟨h.request, ?_, ?_⟩
  · rw [recent_cons rfl]
    simp [h.response]
  · rw [recent_cons rfl]
    simp [h.wrote]

theorem World.readRequest_leaves (hport : w.ip.At stream) (hout : w.conn.output = .dirty)
    (ha : Aligned w.log w.ip.pos) (hp : Proper w.log) (hb : ∀ stop len keep, current w.log = some (stop, len, keep) → stop ≤ w.ip.pos) :
    Leaves stream (w.readRequest o) := by
  unfold World.readRequest
  generalize hw₁ : (if w.ip.rest = [] then w else w.note (.line w.ip.pos)) = w₁
  have h1 : w₁.ip = w.ip ∧ w₁.conn = w.conn ∧ Proper w₁.log ∧ current w₁.log = current w.log := by
    split at hw₁
    · subst hw₁
      exact ⟨rfl, rfl, hp, rfl⟩
    · subst hw₁
      exact ⟨rfl, rfl, ⟨ha, hp⟩, rfl⟩
  obtain ⟨hip, hconn, hp₁, hcur⟩ := h1
  dsimp only
  split
  · exact hp₁
  · refine ⟨⟨?_, ?_, inputOk_closed _, ?_⟩, hp₁⟩
    · exact hip ▸ hport
    · intro ho
      have : w₁.conn.output = .ready := ho
      rw [hconn, hout] at this
      cases this
    · intro stop len keep hc
      have : current w₁.log = some (stop, len, keep) := hc
      rw [hcur] at this
      exact hip ▸ hb stop len keep this
  · rename_i x ip hline
    split
    · exact hp₁
    · split
      · exact hp₁
      · rename_i header ip' hheader
        split
        · exact hp₁
        · rename_i len hlen
          have hto : w₁.ip.To ip' := (readLine_to hline).trans (readHeaderLoop_to hheader)
          refine ⟨⟨?_, ?_, ?_, ?_⟩, hp₁⟩
          · exact hto.at (hip ▸ hport)
          · intro _
            exact ⟨rfl, List.not_mem_nil, List.not_mem_nil⟩
          · exact rfl
          · intro stop len' keep hc
            cases hc
            exact Nat.le_refl _

theorem Advanced.kept_log (ha : Advanced stream w w') (h : Kept stream w) (hp : Proper w.log) :
    Proper w'.log ∧ (w'.conn.output = .ready → Open w'.log) ∧
      ∀ stop len keep, current w'.log = some (stop, len, keep) → stop ≤ w'.ip.pos := by
  rw [ha.log, ha.output]
  exact ⟨hp, h.ready, fun stop len keep hc => Nat.le_trans (h.behind stop len keep hc) ha.le⟩

theorem World.getRequest_leaves (h : Kept stream w) (hp : Proper w.log) (out : Written) :
    Leaves stream (w.getRequest o out) := by
  unfold World.getRequest
  rcases World.advanceInput_cases h hp out with ⟨w', hw, ha⟩ | ⟨e, w', hw, hp'⟩
  · obtain ⟨hp', hready, hbehind⟩ := ha.kept_log h hp
    rw [hw]
    dsimp only [bind, Except.bind]
    cases hout : w'.conn.output with
    | ready =>
      rw [hout] at hready
      exact ⟨⟨ha.port, fun _ => (hready rfl).closed, inputOk_closed _, hbehind⟩, hp'⟩
    | dirty =>
      dsimp only
      rcases ha.input with ⟨hin, halign⟩ | ⟨hin, heq⟩
      · rw [hin]
        exact World.readRequest_leaves ha.port hout (by rw [ha.log]; exact halign) hp' hbehind
      · rw [hin]
        exact ⟨heq ▸ h, hp'⟩
  · rw [hw]
    exact hp'

theorem World.respond_leaves (h : Kept stream w) (hp : Proper w.log) (out : Written) :
    Leaves stream (w.respond out) := by
  unfold World.respond
  cases hout : w.conn.output with
  | ready =>
    obtain ⟨w', hlog, hconn, hip, hp', hw | ⟨e, hw⟩⟩ := World.write_cases hp (h.ready hout) out
    · simp only [hw, bind, Except.bind, pure, Except.pure]
      refine ⟨⟨hip ▸ h.port, fun ho => (by cases ho), ?_, ?_⟩, hp'⟩
      · dsimp only
        rw [hlog, hconn]
        exact h.input.cons rfl (fun he => (by cases he))
      · intro stop len keep hc
        rw [hlog] at hc
        rw [hip]
        exact h.behind stop len keep hc
    · simp only [hw, bind, Except.bind]
      exact hp'
  | dirty => exact ⟨h, hp⟩

theorem World.callWithPorts_leaves (h : Kept stream w) (hp : Proper w.log) (f : PortsProc) :
    Leaves stream (w.callWithPorts f) := by
  have hto : w.ip.To ⟨w.ip.pos + min f.reads w.ip.rest.length, w.ip.rest.drop f.reads⟩ := by
    refine ⟨min f.reads w.ip.rest.length, Nat.min_le_right _ _, rfl, ?_⟩
    by_cases hr : f.reads ≤ w.ip.rest.length
    · rw [Nat.min_eq_left hr]
    · rw [Nat.min_eq_right (by omega), List.drop_of_length_le (by omega), List.drop_of_length_le (Nat.le_refl _)]
  unfold World.callWithPorts
  dsimp only
  generalize hw₁ : (if f.writes = [] then _ else _) = w₁
  have hkept : Kept stream w₁ ∧ Proper w₁.log := by
    split at hw₁
    · subst hw₁
      exact ⟨⟨hto.at h.port, h.ready, h.input, fun stop len keep hc => Nat.le_trans (h.behind stop len keep hc) hto.le⟩, hp⟩
    · subst hw₁
      refine ⟨⟨hto.at h.port, fun ho => (by cases ho), h.input.cons rfl (fun he => (by cases he)), ?_⟩, hp⟩
      exact fun stop len keep hc => Nat.le_trans (h.behind stop len keep hc) hto.le
  split
  · exact hkept.2
  · split
    · exact hkept
    · exact hkept

theorem World.handleCall_leaves (h : Kept stream w) (hp : Proper w.log) (c : Call) :
    match w.handleCall o c with
    | .ok (_, w') => (w'.status = .running → Kept stream w') ∧ Proper w'.log
    | .error (_, w') => Proper w'.log := by
  have hleaves : ∀ {r : Except (HttpError × World) (Reply × World)}, Leaves stream r →
      match r with
      | .ok (_, w') => (w'.status = .running → Kept stream w') ∧ Proper w'.log
      | .error (_, w') => Proper w'.log := by
    intro r hr
    cases r with
    | ok x => exact ⟨fun _ => hr.1, hr.2⟩
    | error x => exact hr
  cases c with
  | getRequest out => exact hleaves (World.getRequest_leaves h hp out)
  | detachPorts out =>
    simp only [World.handleCall, World.detachPorts]
    rcases World.advanceInput_cases h hp out with ⟨w', hw, ha⟩ | ⟨e, w', hw, hp'⟩
    · rw [hw]
      exact ⟨fun hs => (by cases hs), (ha.kept_log h hp).1⟩
    · rw [hw]
      exact hp'
  | outputReady => exact ⟨fun _ => h, hp⟩
  | respond out => exact hleaves (World.respond_leaves h hp out)
  | respondFile out => exact hleaves (World.respond_leaves h hp out)
  | callWithPorts f => exact hleaves (World.callWithPorts_leaves h hp f)
  | internalServerError out =>
    simp only [World.handleCall]
    obtain ⟨w', hp', hcur, hip, ⟨hw, hconn⟩ | ⟨e, hw⟩⟩ := World.internalServerError_cases h hp out
    · rw [hw]
      refine ⟨fun _ => ⟨hip ▸ h.port, ?_, ?_, ?_⟩, hp'⟩
      · intro ho
        have : w'.conn.output = .ready := ho
        rw [hconn] at this
        cases this
      · show InputOk (.closed :: w'.log) w'.conn.input
        rw [hconn]
        exact inputOk_closed _
      · intro stop len keep hc
        have hc' : current w'.log = some (stop, len, keep) := hc
        rw [hcur] at hc'
        exact hip ▸ h.behind stop len keep hc'
    · rw [hw]
      exact hp'

/-- What holds of every state that a server reaches. -/
theorem reach_kept (h : Reach (World.initial stream) (World.step o) (fun _ _ => True) w) :
    (w.status = .running → Kept stream w) ∧ Proper w.log := by
  refine h.invariant (I := fun w => (w.status = .running → Kept stream w) ∧ Proper w.log) ?_ ?_
  · exact ⟨fun _ => ⟨⟨rfl, Nat.zero_le _⟩, fun ho => (by cases ho), rfl, fun _ _ _ hc => (by cases hc)⟩, trivial⟩
  · intro w c w' hi _ hs
    unfold World.step at hs
    split at hs
    · rename_i hrun
      have hl := World.handleCall_leaves (o := o) (hi.1 hrun) hi.2 c
      split at hs
      · rename_i r w₁ hc
        cases hs
        rw [hc] at hl
        exact hl
      · rename_i e w₁ hc
        cases hs
        rw [hc] at hl
        exact ⟨fun hr => (by cases hr), hl⟩
    · cases hs

theorem Proper.of_append {before after : List Event} (h : Proper (after ++ before)) : Proper before := by
  induction after with
  | nil => exact h
  | cons e after ih =>
    rw [List.cons_append] at h
    cases e with
    | response => exact ih h.2
    | line start => exact ih h.2
    | request stop len keep => exact ih h
    | wrote => exact ih h
    | closed => exact ih h

/-- A server whose input is at the content of a request. -/
theorem Kept.advancing (h : Kept stream w) {stop n : Nat} (hc : current w.log = some (stop, some n, true))
    (hn : .closed ∉ recent w.log) : w.conn.input = .advance (some (stop + n)) := by
  have hi := h.input
  rw [InputOk, if_neg hn, hc] at hi
  exact hi

/-- The exception for a read beyond the content. -/
def violation (w : World) (out : Written) : HttpError :=
  match w.conn.output, out.error with
  | .ready, some e => e
  | _, _ => .inputViolation

theorem World.advanceInput_violates {ipos : Nat} (hi : w.conn.input = .advance (some ipos)) (hpos : ipos < w.ip.pos)
    (out : Written) :
    ∃ w', w.advanceInput out = .error (violation w out, w') ∧ (w'.log = w.log ∨ w'.log = .response :: w.log) := by
  unfold World.advanceInput violation
  rw [hi]
  dsimp only
  rw [if_pos hpos]
  unfold World.internalServerError World.write
  cases w.conn.output with
  | dirty => exact ⟨_, rfl, .inl rfl⟩
  | ready =>
    cases out.error with
    | none => exact ⟨_, rfl, .inr rfl⟩
    | some e => exact ⟨_, rfl, .inr rfl⟩

theorem World.advanceInput_skips {ipos : Nat} (hi : w.conn.input = .advance (some ipos)) (hpos : w.ip.pos ≤ ipos)
    (hlen : ipos - w.ip.pos ≤ w.ip.rest.length) (hfix : ipos - w.ip.pos ≤ mostPositiveFixnum) (out : Written) :
    ∃ w', w.advanceInput out = .ok w' ∧ w'.log = w.log ∧ w'.conn = ⟨.ready, w.conn.output⟩ ∧
      w'.ip = ⟨ipos, w.ip.rest.drop (ipos - w.ip.pos)⟩ := by
  unfold World.advanceInput skipInput
  rw [hi]
  dsimp only
  rw [if_neg (by omega), if_neg (by omega), if_neg (by omega)]
  refine ⟨_, rfl, rfl, rfl, ?_⟩
  dsimp only
  rw [Nat.add_sub_cancel' hpos]

/-- A request line that is there is read. -/
theorem World.readRequest_line (hrest : w.ip.rest ≠ []) :
    (∃ r w', w.readRequest o = .ok (r, w') ∧ ∃ new, w'.log = new ++ .line w.ip.pos :: w.log) ∨
      ∃ e w', w.readRequest o = .error (e, w') ∧ w'.log = .line w.ip.pos :: w.log := by
  unfold World.readRequest
  rw [if_neg hrest]
  dsimp only
  split
  · exact .inr ⟨_, _, rfl, rfl⟩
  · exact .inl ⟨_, _, rfl, [.closed], rfl⟩
  · split
    · exact .inr ⟨_, _, rfl, rfl⟩
    · split
      · exact .inr ⟨_, _, rfl, rfl⟩
      · split
        · exact .inr ⟨_, _, rfl, rfl⟩
        · exact .inl ⟨_, _, rfl, [_], rfl⟩

theorem World.step_error {c : Call} {e : HttpError} (hrun : w.status = .running) (hc : w.handleCall o c = .error (e, w')) :
    w.step o c = .ok (w'.raise e) := by
  unfold World.step
  rw [hrun, hc]

theorem World.step_ok {c : Call} {r : Reply} (hrun : w.status = .running) (hc : w.handleCall o c = .ok (r, w')) :
    w.step o c = .ok w' := by
  unfold World.step
  rw [hrun, hc]

/-- After a read beyond the content, get-request and detach-ports raise the violation. -/
theorem World.step_violates {ipos : Nat} (hrun : w.status = .running) (hi : w.conn.input = .advance (some ipos))
    (hpos : ipos < w.ip.pos) (out : Written) {c : Call} (hc : c = .getRequest out ∨ c = .detachPorts out) :
    ∃ w', w.step o c = .ok w' ∧ w'.status = .raised (violation w out) ∧ (w'.log = w.log ∨ w'.log = .response :: w.log) := by
  obtain ⟨w', hw, hlog⟩ := World.advanceInput_violates hi hpos out
  have hcall : w.handleCall o c = .error (violation w out, w') := by
    rcases hc with rfl | rfl
    · simp only [World.handleCall, World.getRequest, hw, bind, Except.bind]
    · simp only [World.handleCall, World.detachPorts, hw, bind, Except.bind]
  exact ⟨w'.raise _, World.step_error hrun hcall, rfl, hlog⟩

/-- get-request skips what is left of the content and reads a request line. -/
theorem World.step_reads_line (h : Kept stream w) (hrun : w.status = .running) {ipos : Nat}
    (hi : w.conn.input = .advance (some ipos)) (hpos : w.ip.pos ≤ ipos) (hlen : ipos < stream.length)
    (hfix : ipos - w.ip.pos ≤ mostPositiveFixnum) (hdirty : w.conn.output = .dirty) (out : Written) :
    ∃ w' new, w.step o (.getRequest out) = .ok w' ∧ w'.log = new ++ .line ipos :: w.log := by
  obtain ⟨hrest, hle⟩ := h.port
  have hsize : w.ip.rest.length = stream.length - w.ip.pos := by
    rw [hrest, List.length_drop]
  obtain ⟨w₁, hw, hlog, hconn, hip⟩ := World.advanceInput_skips hi hpos (by omega) hfix out
  have hne : w₁.ip.rest ≠ [] := by
    intro hnil
    have hzero := congrArg List.length hnil
    rw [hip, List.length_drop, List.length_nil] at hzero
    omega
  have hcall : w.handleCall o (.getRequest out) = w₁.readRequest o := by
    simp only [World.handleCall, World.getRequest, hw, hconn, hdirty, bind, Except.bind]
  have hstart : w₁.ip.pos = ipos := by
    rw [hip]
  rcases World.readRequest_line (o := o) hne with ⟨r, w', hr, new, hnew⟩ | ⟨e, w', hr, hnew⟩
  · rw [hlog, hstart] at hnew
    exact ⟨w', new, World.step_ok hrun (hcall.trans hr), hnew⟩
  · rw [hlog, hstart] at hnew
    exact ⟨w'.raise e, [], World.step_error hrun (hcall.trans hr), hnew⟩

/-- Every response of a connection goes to the last request, which has no other one and for
which no procedure of call-with-ports has written. A request line is read where the content
of the last request ends, and reading beyond it is a violation as long as the input has not
been closed. -/
theorem conn_keeps_requests_aligned (stream : List UInt8) (o : Options) (w : World)
    (h : Reach (World.initial stream) (World.step o) (fun _ _ => True) w) :
    (∀ after before, w.log = after ++ .response :: before → Open before) ∧
    (∀ after before start stop n keep, w.log = after ++ .line start :: before →
      current before = some (stop, some n, keep) → keep = true ∧ start = stop + n) ∧
    (∀ stop n out, w.status = .running → current w.log = some (stop, some n, true) → .closed ∉ recent w.log →
      (stop + n < w.ip.pos → ∀ c, c = .getRequest out ∨ c = .detachPorts out →
        ∃ w', w.step o c = .ok w' ∧ w'.status = .raised (violation w out) ∧
          (w'.log = w.log ∨ w'.log = .response :: w.log)) ∧
      (w.ip.pos ≤ stop + n → stop + n < stream.length → stop + n - w.ip.pos ≤ mostPositiveFixnum →
        w.conn.output = .dirty → ∃ w' new, w.step o (.getRequest out) = .ok w' ∧ w'.log = new ++ .line (stop + n) :: w.log)) := by
  obtain ⟨hkept, hproper⟩ := reach_kept h
  refine ⟨?_, ?_, ?_⟩
  · intro after before hlog
    rw [hlog] at hproper
    exact hproper.of_append.1
  · intro after before start stop n keep hlog hcur
    rw [hlog] at hproper
    obtain ⟨hkeep, -, hstart⟩ := hproper.of_append.1 stop (some n) keep hcur
    exact ⟨hkeep, hstart n rfl⟩
  · intro stop n out hrun hcur hclosed
    have hi := (hkept hrun).advancing hcur hclosed
    refine ⟨?_, ?_⟩
    · intro hpos c hc
      exact World.step_violates hrun hi hpos out hc
    · intro hpos hlen hfix hdirty
      exact World.step_reads_line (hkept hrun) hrun hi hpos hlen hfix hdirty out

namespace Sample

/-- A request without content, and one byte after it. -/
def input : List UInt8 :=
  [71, 32, 47, 32, 72, 84, 84, 80, 47, 49, 46, 49, 10, 99, 111, 110, 116, 101, 110, 116, 45, 108, 101, 110, 103, 116, 104,
    58, 48, 10, 10, 88]

def options : Options := ⟨⟨fun bv => bv.map fun b => Char.ofNat b.toNat, id, id⟩, [], 100, 100⟩

/-- A handler that reads one byte. -/
def handler : PortsProc := ⟨1, [], none, none⟩

def response : Written := ⟨[53, 48, 48], none⟩

def after (calls : List Call) : Except Unit World := Reach.run (World.step options) (World.initial input) calls

end Sample

theorem conn_keeps_requests_aligned_violation :
    ∃ w, Reach (World.initial Sample.input) (World.step Sample.options) (fun _ _ => True) w ∧
      current w.log = some (31, some 0, true) ∧ w.ip.pos = 32 ∧
      ∃ w', w.step Sample.options (.getRequest Sample.response) = .ok w' ∧ w'.status = .raised .inputViolation ∧
        (w'.log = w.log ∨ w'.log = .response :: w.log) := by
  have hrun : ∃ w, Sample.after [.getRequest Sample.response, .callWithPorts Sample.handler] = .ok w ∧ w.status = .running ∧
      current w.log = some (31, some 0, true) ∧ .closed ∉ recent w.log ∧ w.ip.pos = 32 ∧
      violation w Sample.response = .inputViolation := by
    refine ⟨_, rfl, by decide, by decide, by decide, by decide, by decide⟩
  obtain ⟨w, hw, hstatus, hcur, hclosed, hpos, hviolation⟩ := hrun
  have hreach := Reach.of_run _ .start (Reach.along_of_forall (fun _ _ => trivial) _ _) hw
  obtain ⟨-, -, hcontent⟩ := conn_keeps_requests_aligned Sample.input Sample.options w hreach
  obtain ⟨w', hstep, hraised, hlog⟩ :=
    (hcontent 31 0 Sample.response hstatus hcur hclosed).1 (by omega) (.getRequest Sample.response) (.inl rfl)
  exact ⟨w, hreach, hcur, hpos, w', hstep, hraised.trans (congrArg Status.raised hviolation), hlog⟩

/-- After internal-server-error a read beyond the content goes unnoticed: no request is
read any more. -/
theorem closed_input_not_checked :
    ∃ w, Reach (World.initial Sample.input) (World.step Sample.options) (fun _ _ => True) w ∧
      current w.log = some (31, some 0, true) ∧ 31 + 0 < w.ip.pos ∧
      w.step Sample.options (.getRequest Sample.response) = .ok w ∧ w.status = .running := by
  have hrun : ∃ w, Sample.after [.getRequest Sample.response, .callWithPorts Sample.handler, .internalServerError Sample.response] = .ok w ∧
      current w.log = some (31, some 0, true) ∧ 31 + 0 < w.ip.pos ∧
      w.step Sample.options (.getRequest Sample.response) = .ok w ∧ w.status = .running := by
    refine ⟨_, rfl, by decide, by decide, rfl, by decide⟩
  obtain ⟨w, hw, hrest⟩ := hrun
  exact ⟨w, .of_run _ .start (Reach.along_of_forall (fun _ _ => trivial) _ _) hw, hrest⟩

end Swish.Http
