import Swish.Http.Request
import Swish.Lib.Borders

/-!
The search for a delimiter in an input port, with the failure table of Knuth, Morris
and Pratt and a ring buffer that delays the output by the length of the pattern.
-/

set_option autoImplicit false

namespace Swish.Http

open Swish.Lib

inductive ScanError where
  | unexpectedEof
  /-- (throw err). -/
  | limit
  /-- put-u8 raises an exception. -/
  | write
  /-- An index is out of range, or names an element that has no value yet. -/
  | outOfRange
  /-- The loop update-pos does not end. -/
  | endless
  deriving DecidableEq

def ref {α : Type} (xs : List α) (i : Int) : Except ScanError α :=
  if 0 ≤ i then
    match xs[i.toNat]? with
    | some x => .ok x
    | none => .error .outOfRange
  else .error .outOfRange

/-- update-pos, and the loop update of the construction. The position goes down, so it is done in
one step more than there are positions. -/
def updatePos (pattern : List UInt8) (table : List Int) (x : UInt8) : Nat → Int → Except ScanError Int
  | 0, _ => .error .endless
  | fuel + 1, pos =>
    if -1 < pos then do
      let c ← ref pattern pos
      if c = x then return pos + 1
      else
        let next ← ref table pos
        updatePos pattern table x fuel next
    else return pos + 1

/-- The loop build. The table holds the entries that are set. -/
def buildFrom (pattern : List UInt8) : Nat → List Int → Int → Except ScanError (List Int)
  | 0, table, _ => .ok table
  | n + 1, table, cnd => do
    let x ← ref pattern (table.length - 1)
    let cnd ← updatePos pattern table x (pattern.length + 1) cnd
    let a ← ref pattern table.length
    let b ← ref pattern cnd
    let entry ← if a = b then ref table cnd else .ok cnd
    buildFrom pattern n (table ++ [entry]) cnd

/-- The table of make-copy-until-match. -/
def makePartial (pattern : List UInt8) : Except ScanError (List Int) :=
  match pattern with
  | [] => .error .outOfRange
  | _ :: rest => buildFrom pattern rest.length [-1] (-1)

/-- update-limit. None is #f. -/
def updateLimit : Option Int → Except ScanError (Option Int)
  | none => .ok none
  | some limit => if 0 < limit then .ok (some (limit - 1)) else .error .limit

/-- The procedure copy on the bytes that are left: the output and the bytes after the match. -/
def copy (pattern : List UInt8) (table : List Int) (accepts : Nat → Bool) :
    List UInt8 → List UInt8 → Nat → Int → Option Int → List UInt8 → Except ScanError (List UInt8 × List UInt8)
  | [], _, _, _, _, _ => .error .unexpectedEof
  | x :: rest, buffer, i, pos, limit, out => do
    let b ← ref buffer i
    if accepts out.length then
      let pos ← updatePos pattern table x (pattern.length + 1) pos
      if pos < pattern.length then
        let limit ← updateLimit limit
        copy pattern table accepts rest (buffer.set i x) ((i + 1) % pattern.length) pos limit (out ++ [b])
      else return (out ++ [b], rest)
    else .error .write

/-- populate-buffer with n bytes to go. -/
def populateBuffer (pattern : List UInt8) (table : List Int) (accepts : Nat → Bool) :
    Nat → List UInt8 → List UInt8 → Int → Option Int → Except ScanError (List UInt8 × List UInt8)
  | 0, rest, buffer, pos, limit =>
    if pos < pattern.length then copy pattern table accepts rest buffer 0 pos limit [] else .ok ([], rest)
  | _ + 1, [], _, _, _ => .error .unexpectedEof
  | n + 1, x :: rest, buffer, pos, limit => do
    let pos ← updatePos pattern table x (pattern.length + 1) pos
    let limit ← updateLimit limit
    populateBuffer pattern table accepts n rest (buffer ++ [x]) pos limit

/-- copy-until-match: the bytes written to op, the port, and the number that is returned. The flag
accepts says which byte op takes. -/
def copyUntilMatch (pattern : List UInt8) (table : List Int) (accepts : Nat → Bool) (limit : Option Int)
    (ip : InPort) : Except ScanError (List UInt8 × InPort × Int) := do
  let (out, rest) ← populateBuffer pattern table accepts pattern.length ip.rest [] 0 limit
  let ip' := ip.leaving rest
  return (out, ip', ip'.pos - ip.pos - pattern.length)

variable {pattern text : List UInt8} {table : List Int}

theorem ref_nat {α : Type} {xs : List α} {k : Nat} {x : α} (h : xs[k]? = some x) : ref xs k = .ok x := by
  unfold ref
  rw [if_pos (by omega), Int.toNat_natCast, h]

/-- The entries are right, and there are enough of them for the positions below bound. -/
structure Filled (pattern : List UInt8) (table : List Int) : Prop where
  le : table.length ≤ pattern.length
  fails : ∀ q t, table[q]? = some t → Fails pattern q t

theorem updatePos_longest (h : Filled pattern table) {x : UInt8} (fuel : Nat) {p : Int}
    (hc : Candidate pattern text x p) (hp : p < table.length) (hf : p + 2 ≤ fuel) :
    ∃ k : Nat, updatePos pattern table x fuel p = .ok k ∧ Longest pattern (text ++ [x]) k := by
  induction fuel generalizing p with
  | zero =>
    have := hc.lower
    omega
  | succ fuel ih =>
    unfold updatePos
    by_cases hneg : p = -1
    · cases hneg
      exact ⟨0, rfl, hc.longest_zero⟩
    · have hlow := hc.lower
      obtain ⟨q, rfl⟩ : ∃ q : Nat, p = q := ⟨p.toNat, by omega⟩
      rw [if_pos (by omega)]
      have hle := h.le
      have hq : q < table.length := by omega
      have hc' := List.getElem?_eq_getElem (show q < pattern.length by omega)
      have ht := List.getElem?_eq_getElem hq
      rw [ref_nat hc']
      simp only [bind, Except.bind]
      by_cases hx : pattern[q] = x
      · rw [if_pos hx]
        rw [hx] at hc'
        exact ⟨q + 1, rfl, hc.longest hc'⟩
      · rw [if_neg hx, ref_nat ht]
        have hfail := h.fails q _ ht
        have hupper := hfail.upper
        refine ih (hc.fail ?_ hfail) (by omega) (by omega)
        rw [hc']
        simpa using hx

/-- The value of cnd when the entries below pos are set. -/
def Border (pattern : List UInt8) (pos : Nat) (cnd : Int) : Prop :=
  (pos = 1 ∧ cnd = -1) ∨ (1 < pos ∧ ∃ k : Nat, cnd = k ∧ Longest pattern (pattern.take (pos - 1)).tail k)

theorem Border.next (h : Filled pattern table) {x : UInt8} {cnd : Int} (hpos : 1 ≤ table.length)
    (hx : pattern[table.length - 1]? = some x) (hb : Border pattern table.length cnd) :
    ∃ k : Nat, updatePos pattern table x (pattern.length + 1) cnd = .ok k ∧
      Longest pattern (pattern.take table.length).tail k := by
  have hlt := (List.getElem?_eq_some_iff.mp hx).1
  rcases hb with ⟨hone, rfl⟩ | ⟨hmore, k, rfl, hk⟩
  · refine ⟨0, rfl, ?_⟩
    have hnil : (pattern.take table.length).tail = [] := by
      apply List.eq_nil_of_length_eq_zero
      rw [List.length_tail, List.length_take]
      omega
    rw [hnil]
    exact longest_nil pattern
  · have hle := hk.1.le_text
    rw [List.length_tail, List.length_take] at hle
    obtain ⟨j, hj, hlong⟩ := updatePos_longest h (pattern.length + 1) (hk.candidate x) (by omega) (by omega)
    refine ⟨j, hj, ?_⟩
    rw [← tail_take_succ (by omega) hx, Nat.sub_add_cancel hpos] at hlong
    exact hlong

theorem Filled.snoc (h : Filled pattern table) {t : Int} (hlt : table.length < pattern.length)
    (ht : Fails pattern table.length t) : Filled pattern (table ++ [t]) := by
  refine ⟨by rw [List.length_append]; exact hlt, fun q u hu => ?_⟩
  by_cases hq : q < table.length
  · rw [List.getElem?_append_left hq] at hu
    exact h.fails q u hu
  · rw [List.getElem?_append_right (by omega)] at hu
    have hz : q - table.length = 0 := by
      have := (List.getElem?_eq_some_iff.mp hu).1
      simp at this
      omega
    rw [hz] at hu
    cases hu
    have : q = table.length := by omega
    rw [this]
    exact ht

theorem buildFrom_filled (h : Filled pattern table) (hpos : 1 ≤ table.length) {n : Nat} {cnd : Int}
    (hn : table.length + n = pattern.length) (hb : Border pattern table.length cnd) :
    ∃ full, buildFrom pattern n table cnd = .ok full ∧ full.length = pattern.length ∧ Filled pattern full := by
  induction n generalizing table cnd with
  | zero => exact ⟨table, rfl, hn, h⟩
  | succ n ih =>
    have hlt : table.length < pattern.length := by omega
    obtain ⟨x, hx⟩ : ∃ x, pattern[table.length - 1]? = some x := ⟨_, List.getElem?_eq_getElem (by omega)⟩
    obtain ⟨k, hk, hlong⟩ := Border.next h hpos hx hb
    obtain ⟨hfit, hkl⟩ := (fits_tail (by omega) (Nat.le_of_lt hlt)).mp hlong.1
    obtain ⟨a, ha⟩ : ∃ a, pattern[table.length]? = some a := ⟨_, List.getElem?_eq_getElem hlt⟩
    obtain ⟨b, hb⟩ : ∃ b, pattern[k]? = some b := ⟨_, List.getElem?_eq_getElem (by omega)⟩
    obtain ⟨t, ht⟩ : ∃ t, table[k]? = some t := ⟨_, List.getElem?_eq_getElem hkl⟩
    have hx' : ref pattern ((table.length : Int) - 1) = .ok x := by
      have : ((table.length : Int) - 1) = ((table.length - 1 : Nat) : Int) := by omega
      rw [this]
      exact ref_nat hx
    have hborder : ∀ u : Int, Border pattern (table ++ [u]).length k := by
      intro u
      refine .inr ⟨by simp; omega, k, rfl, ?_⟩
      simpa using hlong
    unfold buildFrom
    rw [hx', ref_nat ha]
    simp only [bind, Except.bind, hk]
    rw [ref_nat hb]
    simp only
    by_cases hab : a = b
    · rw [if_pos hab, ref_nat ht]
      have hfail : Fails pattern table.length t :=
        hlong.fails_same (by omega) hlt (by rw [ha, hb, hab]) (h.fails k t ht)
      exact ih (h.snoc hlt hfail) (by simp) (by simp; omega) (hborder t)
    · rw [if_neg hab]
      have hfail : Fails pattern table.length k :=
        hlong.fails_other (by omega) hlt (by rw [ha, hb]; simpa using hab)
      exact ih (h.snoc hlt hfail) (by simp) (by simp; omega) (hborder k)

/-- The construction ends, with a right entry for each position. -/
theorem makePartial_filled (hne : pattern ≠ []) :
    ∃ full, makePartial pattern = .ok full ∧ full.length = pattern.length ∧ Filled pattern full := by
  cases pattern with
  | nil => exact absurd rfl hne
  | cons c rest =>
    have hfirst : Filled (c :: rest) [-1] := by
      refine ⟨by simp, fun q t ht => ?_⟩
      have hq : q = 0 := by
        have := (List.getElem?_eq_some_iff.mp ht).1
        simp at this
        omega
      rw [hq] at ht ⊢
      cases ht
      exact fails_zero _
    exact buildFrom_filled hfirst (Nat.le_refl _) (by simp; omega) (.inl ⟨rfl, rfl⟩)

/-- One byte more is read before the pattern is there. -/
theorem updatePos_scan (h : Filled pattern table) (hlen : table.length = pattern.length) {x : UInt8} {k : Nat}
    (hk : Longest pattern text k) (hlt : k < pattern.length) :
    ∃ j : Nat, updatePos pattern table x (pattern.length + 1) k = .ok j ∧ Longest pattern (text ++ [x]) j :=
  updatePos_longest h (pattern.length + 1) (hk.candidate x) (by omega) (by omega)

/-! The ring buffer. -/

/-- The bytes in the order in which they came. -/
def ring (buffer : List UInt8) (i : Nat) : List UInt8 := buffer.drop i ++ buffer.take i

theorem ring_head {buffer : List UInt8} {i : Nat} {b : UInt8} {bs : List UInt8} (h : ring buffer i = b :: bs)
    (hi : i < buffer.length) : buffer[i]? = some b := by
  unfold ring at h
  rw [List.drop_eq_getElem_cons hi] at h
  rw [List.getElem?_eq_getElem hi]
  injection h with h1 h2
  rw [h1]

theorem ring_next {buffer : List UInt8} {i : Nat} (hi : i < buffer.length) (x : UInt8) :
    ring (buffer.set i x) ((i + 1) % buffer.length) = (ring buffer i).tail ++ [x] := by
  have hold : (ring buffer i).tail = buffer.drop (i + 1) ++ buffer.take i := by
    unfold ring
    rw [List.drop_eq_getElem_cons hi]
    rfl
  have htake : (buffer.set i x).take (i + 1) = buffer.take i ++ [x] := by
    rw [List.take_add_one, List.take_set_of_le (Nat.le_refl i), List.getElem?_set_self hi]
    rfl
  have hdrop : (buffer.set i x).drop (i + 1) = buffer.drop (i + 1) := List.drop_set_of_lt (Nat.lt_succ_self i)
  rw [hold]
  by_cases hlast : i + 1 = buffer.length
  · have hz : (i + 1) % buffer.length = 0 := by rw [hlast, Nat.mod_self]
    have hwhole : buffer.set i x = (buffer.set i x).take (i + 1) := by
      rw [List.take_of_length_le]
      rw [List.length_set]
      omega
    rw [hz, ring, List.drop_zero, List.take_zero, List.append_nil, hwhole, htake,
      List.drop_of_length_le (by omega), List.nil_append]
  · rw [Nat.mod_eq_of_lt (by omega), ring, hdrop, htake, List.append_assoc]

/-! Limits. -/

/-- The limit allows n more calls of update-limit. -/
def Enough (limit : Option Int) (n : Nat) : Prop := ∀ l, limit = some l → (n : Int) ≤ l

instance Enough.decidable (limit : Option Int) (n : Nat) : Decidable (Enough limit n) :=
  match limit with
  | none => .isTrue fun _ h => (by cases h)
  | some l => decidable_of_iff ((n : Int) ≤ l) ⟨fun h _ e => (by cases e; exact h), fun h => h l rfl⟩

theorem enough_none (n : Nat) : Enough none n := by
  intro l h
  cases h

theorem Enough.mono {limit : Option Int} {n m : Nat} (h : Enough limit m) (hle : n ≤ m) : Enough limit n := by
  intro l hl
  have := h l hl
  omega

theorem updateLimit_cases (limit : Option Int) :
    (updateLimit limit = .error .limit ∧ ∀ n, ¬ Enough limit (n + 1)) ∨
      ∃ left, updateLimit limit = .ok left ∧ Enough left 0 ∧ ∀ n, Enough left n ↔ Enough limit (n + 1) := by
  cases limit with
  | none => exact .inr ⟨none, rfl, enough_none _, fun n => ⟨fun _ => enough_none _, fun _ => enough_none _⟩⟩
  | some l =>
    have heq : updateLimit (some l) = if 0 < l then .ok (some (l - 1)) else .error .limit := rfl
    by_cases hl : 0 < l
    · rw [heq, if_pos hl]
      refine .inr ⟨some (l - 1), rfl, fun m hm => ?_, fun n => ⟨fun h m hm => ?_, fun h m hm => ?_⟩⟩
      · cases hm
        omega
      · cases hm
        have := h _ rfl
        omega
      · cases hm
        have := h _ rfl
        omega
    · rw [heq, if_neg hl]
      refine .inl ⟨rfl, fun n h => ?_⟩
      have := h l rfl
      omega

/-! The scan of a stream. -/

/-- After e bytes the pattern has come for the first time, or the stream is over and it has not come. -/
structure Stops (pattern stream : List UInt8) (e : Nat) : Prop where
  first : ∀ j < e, j ≤ stream.length → ¬ pattern <:+ stream.take j
  stop : (e ≤ stream.length ∧ pattern <:+ stream.take e) ∨ e = stream.length + 1

/-- What is found there. -/
def found (pattern stream : List UInt8) (e : Nat) : Except ScanError (List UInt8 × List UInt8) :=
  if e ≤ stream.length then .ok (stream.take (e - pattern.length), stream.drop e) else .error .unexpectedEof

variable {stream : List UInt8} {e : Nat}

theorem Stops.at_end (he : Stops pattern stream e) {n : Nat} (hrest : stream.drop n = []) (hne : n < e) :
    e = stream.length + 1 := by
  have hend : stream.length ≤ n := List.drop_eq_nil_iff.mp hrest
  rcases he.stop with hs | hs
  · omega
  · exact hs

/-- What is known of the next byte of the stream. -/
theorem next_byte {n : Nat} {x : UInt8} {rest : List UInt8} (hrest : stream.drop n = x :: rest) :
    n < stream.length ∧ stream.take (n + 1) = stream.take n ++ [x] ∧ stream.drop (n + 1) = rest := by
  have hlt : n < stream.length := by
    by_cases hlt : n < stream.length
    · exact hlt
    · rw [List.drop_of_length_le (by omega)] at hrest
      cases hrest
  rw [List.drop_eq_getElem_cons hlt] at hrest
  injection hrest with hx hrest
  refine ⟨hlt, ?_, hrest⟩
  rw [List.take_add_one, List.getElem?_eq_getElem hlt, hx]
  rfl

theorem copy_stops (h : Filled pattern table) (hlen : table.length = pattern.length) (he : Stops pattern stream e)
    {n : Nat} {rest buffer : List UInt8} {i k : Nat} {limit : Option Int} (hrest : stream.drop n = rest)
    (hn : pattern.length ≤ n) (hns : n ≤ stream.length) (hne : n < e) (hbuf : buffer.length = pattern.length)
    (hi : i < pattern.length) (hring : ring buffer i = (stream.take n).drop (n - pattern.length))
    (hk : Longest pattern (stream.take n) k) (hkm : k < pattern.length) (hz : Enough limit 0) :
    copy pattern table (fun _ => true) rest buffer i k limit (stream.take (n - pattern.length)) =
      if Enough limit (e - n - 1) then found pattern stream e else .error .limit := by
  induction rest generalizing n buffer i k limit with
  | nil =>
    have hee : e = stream.length + 1 := he.at_end hrest hne
    have hend : stream.length ≤ n := List.drop_eq_nil_iff.mp hrest
    have hzero : e - n - 1 = 0 := by omega
    rw [copy, hzero, if_pos hz, found, if_neg (by omega)]
  | cons x rest ih =>
    obtain ⟨hlt, htake, hrest⟩ := next_byte hrest
    obtain ⟨b, hb⟩ : ∃ b, stream[n - pattern.length]? = some b := ⟨_, List.getElem?_eq_getElem (by omega)⟩
    have hwindow : (stream.take n).drop (n - pattern.length) = b :: (stream.take n).drop (n - pattern.length + 1) := by
      have hin : n - pattern.length < (stream.take n).length := by
        rw [List.length_take]
        omega
      rw [List.drop_eq_getElem_cons hin, List.getElem_take, (List.getElem?_eq_some_iff.mp hb).2]
    have hhead : buffer[i]? = some b := ring_head (hring.trans hwindow) (by omega)
    obtain ⟨j, hj, hlong⟩ := updatePos_scan h hlen (x := x) hk hkm
    rw [← htake] at hlong
    have hout : stream.take (n - pattern.length) ++ [b] = stream.take (n + 1 - pattern.length) := by
      have : n + 1 - pattern.length = (n - pattern.length) + 1 := by omega
      rw [this, List.take_add_one, hb]
      rfl
    rw [copy, ref_nat hhead]
    simp only [bind, Except.bind, if_true, hj]
    by_cases hstop : n + 1 = e
    · -- the pattern is complete
      have hmatch : pattern <:+ stream.take e := by
        rcases he.stop with hs | hs
        · exact hs.2
        · omega
      have hfull : j = pattern.length := (longest_full_iff hlong).mpr (by rw [hstop]; exact hmatch)
      have hzero : e - n - 1 = 0 := by omega
      rw [if_neg (by omega), hzero, if_pos hz, found, if_pos (by omega), hout, hstop, ← hrest, hstop]
      rfl
    · have hno : ¬ pattern <:+ stream.take (n + 1) := he.first (n + 1) (by omega) (by omega)
      have hjm : j < pattern.length := by
        have hle := hlong.1.1
        have hne' : j ≠ pattern.length := fun hj => hno ((longest_full_iff hlong).mp hj)
        omega
      have hsub : e - n - 1 = (e - (n + 1) - 1) + 1 := by omega
      rw [if_pos (by omega), hsub]
      rcases updateLimit_cases limit with ⟨hul, hnone⟩ | ⟨left, hul, hz', hleft⟩
      · rw [hul, if_neg (hnone _)]
      · rw [hul]
        simp only
        have hring' : ring (buffer.set i x) ((i + 1) % pattern.length) =
            (stream.take (n + 1)).drop (n + 1 - pattern.length) := by
          have hsucc : n + 1 - pattern.length = n - pattern.length + 1 := by omega
          have hwithin : n - pattern.length + 1 ≤ (stream.take n).length := by
            rw [List.length_take]
            omega
          have htail : (stream.take n).drop (n - pattern.length + 1) = (ring buffer i).tail := by
            rw [hring, hwindow]
            rfl
          rw [htake, hsucc, List.drop_append_of_le_length hwithin, htail, ← hbuf]
          exact ring_next (by omega) x
        have hbuf' : (buffer.set i x).length = pattern.length := by
          rw [List.length_set]
          exact hbuf
        have hnext := ih hrest (by omega) (by omega) (by omega) hbuf' (Nat.mod_lt _ (by omega)) hring' hlong hjm hz'
        rw [hout, hnext]
        by_cases henough : Enough left (e - (n + 1) - 1)
        · rw [if_pos henough, if_pos ((hleft _).mp henough)]
        · rw [if_neg henough, if_neg fun hc => henough ((hleft _).mpr hc)]

/-- How often update-limit is called if the limit allows it. -/
def limitCalls (pattern stream : List UInt8) (e : Nat) : Nat :=
  if e = pattern.length ∧ e ≤ stream.length then e else e - 1

theorem Stops.le (he : Stops pattern stream e) (h : e ≤ stream.length) : pattern.length ≤ e := by
  rcases he.stop with hs | hs
  · have := hs.2.length_le
    rw [List.length_take] at this
    omega
  · omega

theorem populateBuffer_stops (h : Filled pattern table) (hlen : table.length = pattern.length)
    (hpos : 0 < pattern.length) (he : Stops pattern stream e) {n m : Nat} {rest : List UInt8} {k : Nat}
    {limit : Option Int} (hrest : stream.drop n = rest) (hn : n + m = pattern.length) (hns : n ≤ stream.length)
    (hne : n < e ∨ n = pattern.length ∧ n = e) (hk : Longest pattern (stream.take n) k) (hz : Enough limit 0) :
    populateBuffer pattern table (fun _ => true) m rest (stream.take n) k limit =
      if Enough limit (limitCalls pattern stream e - n) then found pattern stream e else .error .limit := by
  induction m generalizing n rest k limit with
  | zero =>
    have hnm : n = pattern.length := by omega
    have hbuf : (stream.take n).length = pattern.length := by rw [List.length_take]; omega
    rw [populateBuffer]
    by_cases hkm : k < pattern.length
    · have hno : ¬ pattern <:+ stream.take n := fun hs => by
        have := (longest_full_iff hk).mpr hs
        omega
      have hlt : n < e := by
        rcases hne with hlt | ⟨-, heq⟩
        · exact hlt
        · rcases he.stop with hs | hs
          · rw [← heq] at hs
            exact absurd hs.2 hno
          · omega
      have hcalls : limitCalls pattern stream e - n = e - n - 1 := by
        unfold limitCalls
        rw [if_neg (by omega)]
        omega
      have hring : ring (stream.take n) 0 = (stream.take n).drop (n - pattern.length) := by
        rw [hnm, Nat.sub_self]
        simp [ring]
      have hcopy := copy_stops h hlen he hrest (by omega) hns hlt hbuf hpos hring hk hkm hz
      rw [if_pos (by omega), hcalls, ← hcopy, hnm, Nat.sub_self, List.take_zero]
    · -- the pattern begins the stream
      have hfull : pattern <:+ stream.take n := (longest_full_iff hk).mp (by have := hk.1.1; omega)
      have hen : e = n := by
        rcases hne with hlt | ⟨-, heq⟩
        · exact absurd hfull (he.first n hlt hns)
        · exact heq.symm
      have hcalls : limitCalls pattern stream e - n = 0 := by
        unfold limitCalls
        rw [if_pos (by omega)]
        omega
      rw [if_neg (by omega), hcalls, if_pos hz, found, if_pos (by omega), ← hrest, hen, hnm, Nat.sub_self,
        List.take_zero]
  | succ m ih =>
    have hlt : n < e := by
      rcases hne with hlt | ⟨heq, -⟩
      · exact hlt
      · omega
    cases rest with
    | nil =>
      have hee : e = stream.length + 1 := he.at_end hrest hlt
      have hend : stream.length ≤ n := List.drop_eq_nil_iff.mp hrest
      have hcalls : limitCalls pattern stream e - n = 0 := by
        unfold limitCalls
        rw [if_neg (by omega)]
        omega
      rw [populateBuffer, hcalls, if_pos hz, found, if_neg (by omega)]
    | cons x rest =>
      obtain ⟨hns', htake, hrest⟩ := next_byte hrest
      have hkn := hk.1.le_text
      rw [List.length_take] at hkn
      obtain ⟨j, hj, hlong⟩ := updatePos_scan h hlen (x := x) hk (by omega)
      rw [← htake] at hlong
      have hcalls : limitCalls pattern stream e - n = limitCalls pattern stream e - (n + 1) + 1 := by
        have hle : n + 1 ≤ limitCalls pattern stream e := by
          unfold limitCalls
          split
          · omega
          · rcases he.stop with hs | hs
            · have := he.le hs.1
              omega
            · omega
        omega
      have hne' : n + 1 < e ∨ n + 1 = pattern.length ∧ n + 1 = e := by
        by_cases heq : n + 1 = e
        · have := he.le (by omega)
          exact .inr ⟨by omega, heq⟩
        · exact .inl (by omega)
      rw [populateBuffer, hj, hcalls]
      simp only [bind, Except.bind]
      rcases updateLimit_cases limit with ⟨hul, hnone⟩ | ⟨left, hul, hz', hleft⟩
      · rw [hul, if_neg (hnone _)]
      · rw [hul]
        simp only
        rw [← htake, ih hrest (by omega) (by omega) hne' hlong hz']
        by_cases henough : Enough left (limitCalls pattern stream e - (n + 1))
        · rw [if_pos henough, if_pos ((hleft _).mp henough)]
        · rw [if_neg henough, if_neg fun hc => henough ((hleft _).mpr hc)]

/-- The pattern occurs in the stream at n, and not before. -/
def FirstAt (pattern stream : List UInt8) (n : Nat) : Prop :=
  pattern <+: stream.drop n ∧ ∀ j < n, ¬ pattern <+: stream.drop j

/-- An occurrence by its end and by its beginning. -/
theorem suffix_take_iff (n : Nat) (hle : n + pattern.length ≤ stream.length) :
    pattern <:+ stream.take (n + pattern.length) ↔ pattern <+: stream.drop n := by
  have hsplit : stream.take (n + pattern.length) = stream.take n ++ (stream.drop n).take pattern.length := by
    rw [List.take_add]
  have hlen : ((stream.drop n).take pattern.length).length = pattern.length := by
    rw [List.length_take, List.length_drop]
    omega
  rw [List.prefix_iff_eq_take]
  constructor
  · intro h
    rw [hsplit] at h
    have := List.suffix_of_suffix_length_le h (List.suffix_append (stream.take n) _) (Nat.le_of_eq hlen.symm)
    exact this.eq_of_length hlen.symm
  · intro h
    rw [hsplit, ← h]
    exact List.suffix_append _ _

/-- No end of the pattern lies before e if no beginning does. -/
theorem no_end_before {e : Nat} (hno : ∀ j, j + pattern.length < e → ¬ pattern <+: stream.drop j) :
    ∀ j < e, j ≤ stream.length → ¬ pattern <:+ stream.take j := by
  intro j hj hjs hsuf
  have hlen := hsuf.length_le
  rw [List.length_take] at hlen
  obtain ⟨i, rfl⟩ : ∃ i, j = i + pattern.length := ⟨j - pattern.length, by omega⟩
  exact hno i hj ((suffix_take_iff i hjs).mp hsuf)

theorem stops_of_firstAt {n : Nat} (hpos : 0 < pattern.length) (h : FirstAt pattern stream n) :
    n + pattern.length ≤ stream.length ∧ Stops pattern stream (n + pattern.length) := by
  have hle : n + pattern.length ≤ stream.length := by
    have := h.1.length_le
    rw [List.length_drop] at this
    omega
  exact ⟨hle, no_end_before fun j hj => h.2 j (by omega), .inl ⟨hle, (suffix_take_iff n hle).mpr h.1⟩⟩

theorem stops_of_absent (h : ∀ n, ¬ pattern <+: stream.drop n) : Stops pattern stream (stream.length + 1) :=
  ⟨no_end_before fun j _ => h j, .inr rfl⟩

theorem exists_firstAt {n : Nat} (hn : pattern <+: stream.drop n) : ∃ k, FirstAt pattern stream k := by
  induction n using Nat.strongRecOn with
  | ind n ih =>
    by_cases h : ∃ j < n, pattern <+: stream.drop j
    · obtain ⟨j, hj, hpre⟩ := h
      exact ih j hj hpre
    · exact ⟨n, hn, fun j hj hpre => h ⟨j, hj, hpre⟩⟩

theorem exists_stops (hpos : 0 < pattern.length) (stream : List UInt8) : ∃ e, Stops pattern stream e := by
  by_cases h : ∃ n, pattern <+: stream.drop n
  · obtain ⟨n, hn⟩ := h
    obtain ⟨k, hk⟩ := exists_firstAt hn
    exact ⟨_, (stops_of_firstAt hpos hk).2⟩
  · exact ⟨_, stops_of_absent fun n hn => h ⟨n, hn⟩⟩

/-- The whole of a search. -/
theorem copyUntilMatch_stops (h : Filled pattern table) (hlen : table.length = pattern.length)
    (hpos : 0 < pattern.length) {ip : InPort} (he : Stops pattern ip.rest e) {limit : Option Int}
    (hz : Enough limit 0) :
    copyUntilMatch pattern table (fun _ => true) limit ip =
      if Enough limit (limitCalls pattern ip.rest e) then
        if e ≤ ip.rest.length then
          .ok (ip.rest.take (e - pattern.length), ⟨ip.pos + e, ip.rest.drop e⟩, (e - pattern.length : Nat))
        else .error .unexpectedEof
      else .error .limit := by
  have hpe : 0 < e := by
    rcases he.stop with hs | hs
    · have := he.le hs.1
      omega
    · omega
  have hpop := populateBuffer_stops h hlen hpos he (n := 0) (m := pattern.length) rfl (by omega) (Nat.zero_le _)
    (.inl hpe) (by rw [List.take_zero]; exact longest_nil pattern) hz
  rw [List.take_zero, Nat.sub_zero] at hpop
  have hpop : populateBuffer pattern table (fun _ => true) pattern.length ip.rest [] 0 limit =
      if Enough limit (limitCalls pattern ip.rest e) then found pattern ip.rest e else .error .limit := hpop
  unfold copyUntilMatch
  rw [hpop]
  by_cases henough : Enough limit (limitCalls pattern ip.rest e)
  · rw [if_pos henough, if_pos henough, found]
    by_cases hle : e ≤ ip.rest.length
    · have hpl := he.le hle
      rw [if_pos hle, if_pos hle]
      simp only [bind, Except.bind, pure, Except.pure, InPort.leaving, List.length_drop]
      have hpos' : ip.pos + (ip.rest.length - (ip.rest.length - e)) = ip.pos + e := by omega
      have hret : ((ip.pos + e : Nat) : Int) - ip.pos - pattern.length = ((e - pattern.length : Nat) : Int) := by omega
      rw [hpos', hret]
    · rw [if_neg hle, if_neg hle]
      rfl
  · rw [if_neg henough, if_neg henough]
    rfl

/-- A port that does not take every byte can only end the search earlier. -/
theorem copy_accepts (pattern : List UInt8) (table : List Int) (accepts : Nat → Bool) (rest buffer : List UInt8) (i : Nat)
    (pos : Int) (limit : Option Int) (out : List UInt8) :
    copy pattern table accepts rest buffer i pos limit out = .error .write ∨
      copy pattern table accepts rest buffer i pos limit out =
        copy pattern table (fun _ => true) rest buffer i pos limit out := by
  induction rest generalizing buffer i pos limit out with
  | nil => exact .inr rfl
  | cons x rest ih =>
    rw [copy, copy]
    cases ref buffer i with
    | error err => exact .inr rfl
    | ok b =>
      simp only [bind, Except.bind, if_true]
      by_cases hacc : accepts out.length = true
      · rw [if_pos hacc]
        cases updatePos pattern table x (pattern.length + 1) pos with
        | error err => exact .inr rfl
        | ok next =>
          simp only
          by_cases hlt : next < pattern.length
          · rw [if_pos hlt]
            cases updateLimit limit with
            | error err => exact .inr (by rw [if_pos hlt])
            | ok left =>
              rw [if_pos hlt]
              exact ih _ _ _ _ _
          · rw [if_neg hlt, if_neg hlt]
            exact .inr rfl
      · rw [if_neg hacc]
        exact .inl rfl

theorem populateBuffer_accepts (pattern : List UInt8) (table : List Int) (accepts : Nat → Bool) (n : Nat)
    (rest buffer : List UInt8) (pos : Int) (limit : Option Int) :
    populateBuffer pattern table accepts n rest buffer pos limit = .error .write ∨
      populateBuffer pattern table accepts n rest buffer pos limit =
        populateBuffer pattern table (fun _ => true) n rest buffer pos limit := by
  induction n generalizing rest buffer pos limit with
  | zero =>
    rw [populateBuffer, populateBuffer]
    by_cases hlt : pos < pattern.length
    · rw [if_pos hlt, if_pos hlt]
      exact copy_accepts pattern table accepts rest buffer 0 pos limit []
    · rw [if_neg hlt, if_neg hlt]
      exact .inr rfl
  | succ n ih =>
    cases rest with
    | nil => exact .inr rfl
    | cons x rest =>
      rw [populateBuffer, populateBuffer]
      cases updatePos pattern table x (pattern.length + 1) pos with
      | error err => exact .inr rfl
      | ok next =>
        simp only [bind, Except.bind]
        cases updateLimit limit with
        | error err => exact .inr rfl
        | ok left => exact ih _ _ _ _

theorem copyUntilMatch_accepts (pattern : List UInt8) (table : List Int) (accepts : Nat → Bool) (limit : Option Int)
    (ip : InPort) :
    copyUntilMatch pattern table accepts limit ip = .error .write ∨
      copyUntilMatch pattern table accepts limit ip = copyUntilMatch pattern table (fun _ => true) limit ip := by
  unfold copyUntilMatch
  rcases populateBuffer_accepts pattern table accepts pattern.length ip.rest [] 0 limit with h | h
  · rw [h]
    exact .inl rfl
  · rw [h]
    exact .inr rfl

theorem copyUntilMatch_in_range (h : Filled pattern table) (hlen : table.length = pattern.length)
    (hpos : 0 < pattern.length) (accepts : Nat → Bool) (limit : Option Int) (ip : InPort) (err : ScanError)
    (herr : copyUntilMatch pattern table accepts limit ip = .error err) : err ≠ .outOfRange ∧ err ≠ .endless := by
  rcases copyUntilMatch_accepts pattern table accepts limit ip with hw | hw
  · rw [hw] at herr
    cases herr
    simp
  · rw [hw] at herr
    by_cases hz : Enough limit 0
    · obtain ⟨e, he⟩ := exists_stops hpos ip.rest
      rw [copyUntilMatch_stops h hlen hpos he hz] at herr
      split at herr
      · split at herr
        · cases herr
        · cases herr
          simp
      · cases herr
        simp
    · -- the first call of update-limit fails
      obtain ⟨n, hn⟩ : ∃ n, pattern.length = n + 1 := ⟨pattern.length - 1, by omega⟩
      unfold copyUntilMatch at herr
      rw [hn] at herr
      cases hrest : ip.rest with
      | nil =>
        rw [hrest, populateBuffer] at herr
        cases herr
        simp
      | cons x rest =>
        obtain ⟨j, hj, -⟩ := updatePos_scan h hlen (x := x) (longest_nil pattern) hpos
        have hj : updatePos pattern table x (pattern.length + 1) 0 = .ok (j : Int) := hj
        rw [hrest, populateBuffer, hj] at herr
        rcases updateLimit_cases limit with ⟨hul, -⟩ | ⟨left, -, hleft0, hleft⟩
        · rw [hul] at herr
          cases herr
          simp
        · exact absurd (((hleft 0).mp hleft0).mono (Nat.zero_le _)) hz

/-- copy-until-match stops right after the first occurrence of the pattern. It calls update-limit once for
each byte, but not for the last one if it has written something. -/
theorem copy_until_match_finds_first (pattern : List UInt8) (hne : pattern ≠ []) :
    ∃ table, makePartial pattern = .ok table ∧ table.length = pattern.length ∧
      (∀ (i : Nat) (t : Int), table[i]? = some t → -1 ≤ t ∧ t ≤ i - 1) ∧
      ∀ (ip : InPort) (limit : Option Int),
        (∀ n, FirstAt pattern ip.rest n → Enough limit (pattern.length + (n - 1)) →
          copyUntilMatch pattern table (fun _ => true) limit ip =
            .ok (ip.rest.take n, ⟨ip.pos + n + pattern.length, ip.rest.drop (n + pattern.length)⟩, n)) ∧
        ((∀ n, ¬ pattern <+: ip.rest.drop n) → Enough limit ip.rest.length →
          copyUntilMatch pattern table (fun _ => true) limit ip = .error .unexpectedEof) ∧
        ∀ accepts err, copyUntilMatch pattern table accepts limit ip = .error err →
          err ≠ .outOfRange ∧ err ≠ .endless := by
  obtain ⟨table, hmake, hlen, hfilled⟩ := makePartial_filled hne
  have hpos : 0 < pattern.length := List.length_pos_of_ne_nil hne
  refine ⟨table, hmake, hlen, fun i t ht => ?_, fun ip limit => ⟨fun n hn henough => ?_, fun habs henough => ?_,
    fun accepts err herr => copyUntilMatch_in_range hfilled hlen hpos accepts limit ip err herr⟩⟩
  · have hfail := hfilled.fails i t ht
    have := hfail.upper
    exact ⟨hfail.lower, by omega⟩
  · obtain ⟨hle, hstops⟩ := stops_of_firstAt hpos hn
    have hcalls : limitCalls pattern ip.rest (n + pattern.length) = pattern.length + (n - 1) := by
      unfold limitCalls
      split
      · omega
      · omega
    rw [copyUntilMatch_stops hfilled hlen hpos hstops (henough.mono (Nat.zero_le _)), hcalls, if_pos henough,
      if_pos hle, Nat.add_sub_cancel, Nat.add_assoc]
  · have hcalls : limitCalls pattern ip.rest (ip.rest.length + 1) = ip.rest.length := by
      unfold limitCalls
      rw [if_neg (by omega)]
      omega
    rw [copyUntilMatch_stops hfilled hlen hpos (stops_of_absent habs) (henough.mono (Nat.zero_le _)), hcalls,
      if_pos henough, if_neg (by omega)]

/-- The pattern abab, which has a border, in the stream aababab. -/
theorem copy_until_match_finds_first_border :
    makePartial [97, 98, 97, 98] = .ok [-1, 0, -1, 0] ∧
      FirstAt [97, 98, 97, 98] [97, 97, 98, 97, 98, 97, 98] 1 ∧
      copyUntilMatch [97, 98, 97, 98] [-1, 0, -1, 0] (fun _ => true) (some 4) ⟨0, [97, 97, 98, 97, 98, 97, 98]⟩ =
        .ok ([97], ⟨5, [97, 98]⟩, 1) := by
  obtain ⟨table, hmake, -, -, hfind⟩ := copy_until_match_finds_first [97, 98, 97, 98] (by simp)
  have htable : makePartial [97, 98, 97, 98] = .ok [-1, 0, -1, 0] := by decide +kernel
  have hfirst : FirstAt [97, 98, 97, 98] [97, 97, 98, 97, 98, 97, 98] 1 := by
    refine ⟨by decide, fun j hj => ?_⟩
    have hj : j = 0 := by omega
    rw [hj]
    decide
  have heq : table = [-1, 0, -1, 0] := Except.ok.inj (hmake.symm.trans htable)
  rw [heq] at hfind
  exact ⟨htable, hfirst, (hfind ⟨0, [97, 97, 98, 97, 98, 97, 98]⟩ (some 4)).1 1 hfirst (by decide)⟩

end Swish.Http
