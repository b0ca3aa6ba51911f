import Swish.Base64.Groups
import Swish.Lib.Coupling

/-!
What base64-decode accepts, and when that is what it should accept.
-/

set_option autoImplicit false

namespace Swish.Base64

open Swish.Lib

variable {α β : Type} {a : Alphabet} {machine : Machine}

def group (x y z w : UInt8) : Group
  | 0 => x
  | 1 => y
  | 2 => z
  | 3 => w

theorem extractBytes_append (before rest : List UInt8) (x y z w : UInt8) :
    extractBytes (before ++ x :: y :: z :: w :: rest) before.length = fun k => signed (group x y z w k) := by
  funext k
  unfold extractBytes
  match k with
  | 0 => simp [group]
  | 1 => simp [group]
  | 2 => simp [group]
  | 3 =>
    show signed ((before ++ x :: y :: z :: w :: rest)[before.length + 3]?.getD 0) = signed w
    simp

/-- The last group, whatever its bytes are. -/
def decodeLast (a : Alphabet) (g : Group) : Except BadArg (List UInt8) :=
  let out := threeBytes (orShifts (a.lastGroup g))
  if g 0 ∉ a.encoding then .error ⟨⟩
  else if g 1 = pad then .error ⟨⟩
  else if g 2 = pad then if g 3 ≠ pad then .error ⟨⟩ else .ok (out.take 1)
  else if g 3 = pad then .ok (out.take 2)
  else .ok out

/-- Decoding group by group. -/
def decodeGroups (a : Alphabet) : List UInt8 → Except BadArg (List UInt8)
  | x :: y :: z :: w :: rest =>
    let g := group x y z w
    if rest.isEmpty then decodeLast a g
    else if ∀ k, g k ∈ a.encoding then
      (decodeGroups a rest).map fun out => threeBytes (pack fun k => a.value (g k)) ++ out
    else .error ⟨⟩
  | _ => .error ⟨⟩

theorem finish_yields {g : Group} (hg : Ascii g) {bv : List UInt8} {i : Nat}
    (hq : extractBytes bv i = fun k => signed (g k)) (done : List UInt8) (x y z : UInt8) :
    Yields (finish a machine bv i done.length (done ++ [x, y, z]))
      ((decodeLast a g).map fun out => done ++ out) := by
  unfold finish decodeLast
  rw [hq]
  have hcombine := @combine_last a machine g hg
  by_cases h0 : g 0 ∈ a.encoding
  · rw [if_pos h0] at hcombine
    refine hcombine.bind ?_
    rw [u24Set_append, List.append_nil]
    simp only [h0, not_true_eq_false, if_false, signed_eq_pad]
    by_cases h1 : g 1 = pad
    · rw [if_pos h1, if_pos h1]
      exact .throw _
    · rw [if_neg h1, if_neg h1]
      by_cases h2 : g 2 = pad
      · rw [if_pos h2, if_pos h2]
        by_cases h3 : g 3 = pad
        · simp only [h3, ne_eq, not_true_eq_false, if_false]
          rw [List.take_length_add_append]
          exact .pure _
        · simp only [h3, ne_eq, signed_eq_pad, not_false_eq_true, if_true]
          exact .throw _
      · rw [if_neg h2, if_neg h2]
        by_cases h3 : g 3 = pad
        · rw [if_pos h3, if_pos h3, List.take_length_add_append]
          exact .pure _
        · rw [if_neg h3, if_neg h3]
          exact .pure _
  · rw [if_neg h0] at hcombine
    simp only [h0, not_false_eq_true, if_true]
    exact hcombine.bind_error

/-- Every group that is read has no byte with its high bit set. -/
def Scanned (a : Alphabet) : List UInt8 → Prop
  | x :: y :: z :: w :: rest => Ascii (group x y z w) ∧
    (rest ≠ [] → (∀ k, group x y z w k ∈ a.encoding) → Scanned a rest)
  | _ => True

theorem exists_group {l : List UInt8} {n : Nat} (h : l.length = 4 * (n + 1)) :
    ∃ x y z w rest, l = x :: y :: z :: w :: rest ∧ rest.length = 4 * n := by
  match l, h with
  | x :: y :: z :: w :: rest, h => exact ⟨x, y, z, w, rest, rfl, by simp at h; omega⟩

theorem exists_three {l : List UInt8} {n : Nat} (h : l.length = 3 * (n + 1)) :
    ∃ b0 b1 b2 rest, l = b0 :: b1 :: b2 :: rest := by
  match l, h with
  | b0 :: b1 :: b2 :: rest, _ => exact ⟨b0, b1, b2, rest, rfl⟩

/-- The input from the group at i on, and what is left of the output. -/
theorem decodeLoop_yields {n : Nat} {suffix buf : List UInt8} (hs : suffix.length = 4 * (n + 1))
    (hb : buf.length = 3 * (n + 1)) (before done : List UInt8) (h : Scanned a suffix) :
    Yields (decodeLoop a machine (before ++ suffix) n before.length done.length (done ++ buf))
      ((decodeGroups a suffix).map fun out => done ++ out) := by
  induction n generalizing suffix buf before done with
  | zero =>
    obtain ⟨x, y, z, w, rest, rfl, hrest⟩ := exists_group hs
    obtain rfl : rest = [] := List.eq_nil_of_length_eq_zero (by omega)
    obtain ⟨b0, b1, b2, rfl⟩ := List.length_eq_three.mp hb
    exact finish_yields h.1 (extractBytes_append before [] x y z w) done b0 b1 b2
  | succ n ih =>
    obtain ⟨x, y, z, w, rest, rfl, hrest⟩ := exists_group hs
    have hne : rest ≠ [] := List.ne_nil_of_length_pos (by omega)
    obtain ⟨b0, b1, b2, buf, rfl⟩ := exists_three hb
    have hcombine := @combine_full a machine _ h.1
    rw [decodeLoop, decodeGroups, extractBytes_append]
    simp only [List.isEmpty_iff, hne, if_false]
    by_cases hall : ∀ k, group x y z w k ∈ a.encoding
    · rw [if_pos hall] at hcombine ⊢
      rw [orShifts_eq fun k => a.value_lt (hall k)] at hcombine
      refine hcombine.bind ?_
      have hnext := @ih rest buf hrest (by simp at hb; omega) (before ++ [x, y, z, w])
        (done ++ threeBytes (pack fun k => a.value (group x y z w k))) (h.2 hne hall)
      rw [u24Set_append]
      simp only [List.append_assoc, List.cons_append, List.nil_append, List.length_append, List.length_cons,
        List.length_nil, threeBytes] at hnext ⊢
      cases hg : decodeGroups a rest with
      | ok out =>
        rw [hg] at hnext
        exact hnext
      | error e =>
        rw [hg] at hnext
        exact hnext
    · rw [if_neg hall] at hcombine ⊢
      exact hcombine.bind_error

/-- Letters of the alphabet, then at most two pad characters. -/
def WellFormed (a : Alphabet) (bv : List UInt8) : Prop :=
  ∃ body pads, bv = body ++ pads ∧ (∀ b ∈ body, b ∈ a.encoding) ∧
    (pads = [] ∨ pads = [pad] ∨ pads = [pad, pad])

def Valid (a : Alphabet) (bv : List UInt8) : Prop := bv.length % 4 = 0 ∧ WellFormed a bv

/-- The decoding of RFC 4648: the letters stand for six bits each, and eight bits
make a byte. -/
def rfcDecode (a : Alphabet) (bv : List UInt8) : List UInt8 :=
  bytes ((bv.filter (· ≠ pad)).flatMap fun b => bits 6 (a.value b))

theorem Alphabet.ne_pad {b : UInt8} (h : b ∈ a.encoding) : b ≠ pad := by
  intro he
  rw [he] at h
  exact a.noPad h

/-- The pad characters are among the last two bytes. -/
theorem wellFormed_append {front rest : List UInt8} (hr : 2 ≤ rest.length) :
    WellFormed a (front ++ rest) ↔ (∀ b ∈ front, b ∈ a.encoding) ∧ WellFormed a rest := by
  constructor
  · intro h
    obtain ⟨body, pads, h1, h2, h3⟩ := h
    have hlen : pads.length ≤ rest.length := by
      rcases h3 with rfl | rfl | rfl <;> simp <;> omega
    obtain ⟨body', rfl⟩ : ∃ body', rest = body' ++ pads := by
      have hsuf : pads <:+ rest :=
        List.suffix_of_suffix_length_le ⟨body, h1.symm⟩ (List.suffix_append front rest) hlen
      obtain ⟨t, ht⟩ := hsuf
      exact ⟨t, ht.symm⟩
    rw [← List.append_assoc] at h1
    have hbody := (List.append_inj' h1 rfl).1
    refine ⟨fun b hb => h2 b ?_, body', pads, rfl, fun b hb => h2 b ?_, h3⟩
    · rw [← hbody]
      exact List.mem_append_left _ hb
    · rw [← hbody]
      exact List.mem_append_right _ hb
  · intro h
    obtain ⟨hf, body, pads, rfl, h2, h3⟩ := h
    refine ⟨front ++ body, pads, by simp, fun b hb => ?_, h3⟩
    rcases List.mem_append.mp hb with hb | hb
    · exact hf b hb
    · exact h2 b hb

theorem forall_group {x y z w : UInt8} {P : UInt8 → Prop} :
    (∀ k, P (group x y z w k)) ↔ P x ∧ P y ∧ P z ∧ P w :=
  ⟨fun h => ⟨h 0, h 1, h 2, h 3⟩, fun ⟨h0, h1, h2, h3⟩ k => by
    match k with
    | 0 => exact h0
    | 1 => exact h1
    | 2 => exact h2
    | 3 => exact h3⟩

/-- A last group of letters and pad characters. -/
def LastOk (a : Alphabet) (g : Group) : Prop :=
  g 0 ∉ a.encoding ∨ g 1 = pad ∨ (g 2 = pad ∧ g 3 ≠ pad) ∨ ∀ k, g k ∈ a.encoding ∨ g k = pad

/-- The shapes of a last group. -/
theorem wellFormed_four {x y z w : UInt8} : WellFormed a [x, y, z, w] ↔
    (x ∈ a.encoding ∧ y ∈ a.encoding ∧ z ∈ a.encoding ∧ w ∈ a.encoding) ∨
    (x ∈ a.encoding ∧ y ∈ a.encoding ∧ z ∈ a.encoding ∧ w = pad) ∨
    (x ∈ a.encoding ∧ y ∈ a.encoding ∧ z = pad ∧ w = pad) := by
  constructor
  · intro h
    obtain ⟨body, pads, h1, h2, h3⟩ := h
    rcases h3 with rfl | rfl | rfl
    · rw [List.append_nil] at h1
      subst h1
      exact .inl ⟨h2 x (by simp), h2 y (by simp), h2 z (by simp), h2 w (by simp)⟩
    · have h4 : [x, y, z] ++ [w] = body ++ [pad] := h1
      obtain ⟨rfl, h5⟩ := List.append_inj' h4 rfl
      cases h5
      exact .inr (.inl ⟨h2 x (by simp), h2 y (by simp), h2 z (by simp), rfl⟩)
    · have h4 : [x, y] ++ [z, w] = body ++ [pad, pad] := h1
      obtain ⟨rfl, h5⟩ := List.append_inj' h4 rfl
      cases h5
      exact .inr (.inr ⟨h2 x (by simp), h2 y (by simp), rfl, rfl⟩)
  · intro h
    rcases h with ⟨hx, hy, hz, hw⟩ | ⟨hx, hy, hz, rfl⟩ | ⟨hx, hy, rfl, rfl⟩
    · exact ⟨[x, y, z, w], [], rfl, by simp [hx, hy, hz, hw], .inl rfl⟩
    · exact ⟨[x, y, z], [pad], rfl, by simp [hx, hy, hz], .inr (.inl rfl)⟩
    · exact ⟨[x, y], [pad, pad], rfl, by simp [hx, hy], .inr (.inr rfl)⟩

/-- A pad character counts as zeros. -/
def Alphabet.valueOrZero (a : Alphabet) (b : UInt8) : Nat := if b = pad then 0 else a.value b

theorem valueOrZero_of_mem {b : UInt8} (h : b ∈ a.encoding) : a.valueOrZero b = a.value b :=
  if_neg (a.ne_pad h)

theorem valueOrZero_lt {b : UInt8} (h : b ∈ a.encoding ∨ b = pad) : a.valueOrZero b < 64 := by
  rcases h with h | rfl
  · rw [valueOrZero_of_mem h]
    exact a.value_lt h
  · rw [Alphabet.valueOrZero, if_pos rfl]
    omega

theorem lastGroup_eq {g : Group} (h0 : g 0 ∈ a.encoding) (h : ∀ k, g k ∈ a.encoding ∨ g k = pad) :
    a.lastGroup g = fun k => (a.valueOrZero (g k) : Int) := by
  funext k
  unfold Alphabet.lastGroup
  by_cases hk : k = 0
  · subst hk
    rw [if_pos rfl, valueOrZero_of_mem h0]
  · rw [if_neg hk, Alphabet.lastBits, Alphabet.valueOrZero]
    rcases h k with hm | hp
    · rw [if_neg (a.ne_pad hm), if_neg (a.ne_pad hm), Alphabet.tableBits, if_pos hm]
    · rw [if_pos hp, if_pos hp]
      rfl

/-- A last group of letters and pad characters is accepted exactly when it is
well formed. -/
theorem decodeLast_spec {x y z w : UInt8} (h : LastOk a (group x y z w)) :
    (WellFormed a [x, y, z, w] ∧ decodeLast a (group x y z w) = .ok (rfcDecode a [x, y, z, w])) ∨
    (¬ WellFormed a [x, y, z, w] ∧ decodeLast a (group x y z w) = .error ⟨⟩) := by
  rw [wellFormed_four]
  unfold decodeLast
  show _ ∨ (_ ∧ (if x ∉ a.encoding then _ else _) = _)
  by_cases hx : x ∈ a.encoding
  swap
  · refine .inr ⟨by tauto, if_pos hx⟩
  by_cases hy : y = pad
  · have hy' : y ∉ a.encoding := by
      rw [hy]
      exact a.noPad
    exact .inr ⟨by tauto, by simp [hx, group, hy]⟩
  by_cases hzw : z = pad ∧ w ≠ pad
  · have hz' : z ∉ a.encoding := by
      rw [hzw.1]
      exact a.noPad
    exact .inr ⟨by tauto, by simp [hx, group, hy, hzw.1, hzw.2]⟩
  have hall : ∀ k, group x y z w k ∈ a.encoding ∨ group x y z w k = pad := by
    rcases h with h | h | h | h
    · exact absurd hx h
    · exact absurd h hy
    · exact absurd h hzw
    · exact h
  have hlt := fun k => valueOrZero_lt (hall k)
  have hout : orShifts (a.lastGroup (group x y z w)) = pack fun k => a.valueOrZero (group x y z w k) := by
    rw [lastGroup_eq hx hall, orShifts_eq hlt]
  have hy' : y ∈ a.encoding := (hall 1).resolve_right hy
  have hxv := valueOrZero_of_mem hx
  have hyv := valueOrZero_of_mem hy'
  refine .inl ?_
  by_cases hz : z = pad
  · have hw : w = pad := by
      by_contra hw
      exact hzw ⟨hz, hw⟩
    refine ⟨.inr (.inr ⟨hx, hy', hz, hw⟩), ?_⟩
    have htwo := bytes_two hlt
    simp only [group] at htwo
    rw [hxv, hyv] at htwo
    rw [hout, rfcDecode]
    simp [group, hx, hy, hz, hw, a.ne_pad hx, htwo]
  · have hz' : z ∈ a.encoding := (hall 2).resolve_right hz
    have hzv := valueOrZero_of_mem hz'
    by_cases hw : w = pad
    · refine ⟨.inr (.inl ⟨hx, hy', hz', hw⟩), ?_⟩
      have hthree := bytes_three hlt
      simp only [group] at hthree
      rw [hxv, hyv, hzv] at hthree
      rw [hout, rfcDecode]
      simp [group, hx, hy, hz, hw, a.ne_pad hx, hthree]
    · have hw' : w ∈ a.encoding := (hall 3).resolve_right hw
      have hwv := valueOrZero_of_mem hw'
      refine ⟨.inl ⟨hx, hy', hz', hw'⟩, ?_⟩
      have hfour := bytes_pack hlt []
      simp only [group] at hfour
      rw [hxv, hyv, hzv, hwv, List.append_nil] at hfour
      rw [hout, rfcDecode]
      simp [group, hx, hy, hz, hw, a.ne_pad hx, hfour, bytes]

/-- The first group with a byte that is no letter, or else the last group, has no
byte with its high bit set, and a last group that passes the tests of finish has
letters and pad characters only. -/
def Meets (a : Alphabet) : List UInt8 → Prop
  | x :: y :: z :: w :: rest => Ascii (group x y z w) ∧
    (rest = [] → LastOk a (group x y z w)) ∧
    (rest ≠ [] → (∀ k, group x y z w k ∈ a.encoding) → Meets a rest)
  | _ => True

theorem Meets.scanned {n : Nat} {bv : List UInt8} (hn : bv.length = 4 * (n + 1)) (h : Meets a bv) :
    Scanned a bv := by
  induction n generalizing bv with
  | zero =>
    obtain ⟨x, y, z, w, rest, rfl, hrest⟩ := exists_group hn
    obtain rfl : rest = [] := List.eq_nil_of_length_eq_zero (by omega)
    exact ⟨h.1, fun hne => absurd rfl hne⟩
  | succ n ih =>
    obtain ⟨x, y, z, w, rest, rfl, hrest⟩ := exists_group hn
    exact ⟨h.1, fun hne hall => ih hrest (h.2.2 hne hall)⟩

theorem rfcDecode_group {x y z w : UInt8} (h : ∀ k, group x y z w k ∈ a.encoding) (rest : List UInt8) :
    rfcDecode a (x :: y :: z :: w :: rest) =
      threeBytes (pack fun k => a.value (group x y z w k)) ++ rfcDecode a rest := by
  obtain ⟨hx, hy, hz, hw⟩ := forall_group.mp h
  unfold rfcDecode
  rw [← bytes_pack fun k => a.value_lt (h k)]
  simp [group, a.ne_pad hx, a.ne_pad hy, a.ne_pad hz, a.ne_pad hw]

theorem decodeGroups_spec {n : Nat} {bv : List UInt8} (hn : bv.length = 4 * (n + 1)) (h : Meets a bv) :
    (WellFormed a bv ∧ decodeGroups a bv = .ok (rfcDecode a bv)) ∨
    (¬ WellFormed a bv ∧ decodeGroups a bv = .error ⟨⟩) := by
  induction n generalizing bv with
  | zero =>
    obtain ⟨x, y, z, w, rest, rfl, hrest⟩ := exists_group hn
    obtain rfl : rest = [] := List.eq_nil_of_length_eq_zero (by omega)
    exact decodeLast_spec (h.2.1 rfl)
  | succ n ih =>
    obtain ⟨x, y, z, w, rest, rfl, hrest⟩ := exists_group hn
    have hne : rest ≠ [] := by
      intro he
      rw [he] at hrest
      simp at hrest
    have hwf := @wellFormed_append a [x, y, z, w] rest (by omega)
    have hletters : (∀ b ∈ [x, y, z, w], b ∈ a.encoding) ↔ ∀ k, group x y z w k ∈ a.encoding := by
      rw [forall_group]
      simp
    rw [hletters] at hwf
    rw [decodeGroups]
    simp only [List.isEmpty_iff, hne, if_false]
    by_cases hall : ∀ k, group x y z w k ∈ a.encoding
    · rw [if_pos hall]
      rcases ih hrest (h.2.2 hne hall) with ⟨h1, h2⟩ | ⟨h1, h2⟩
      · refine .inl ⟨hwf.mpr ⟨hall, h1⟩, ?_⟩
        rw [h2, rfcDecode_group hall]
        rfl
      · refine .inr ⟨fun hw => h1 (hwf.mp hw).2, ?_⟩
        rw [h2]
        rfl
    · rw [if_neg hall]
      exact .inr ⟨fun hw => hall (hwf.mp hw).1, rfl⟩

/-- The indices at which a run has read the table. -/
def indices : EStateM.Result BadArg (List Int) α → List Int
  | .ok _ trace => trace
  | .error _ trace => trace

/-- What base64-decode should do with bv. -/
structure Correct (a : Alphabet) (machine : Machine) (bv : List UInt8) : Prop where
  inTable : ∀ i ∈ indices (base64Decode a machine bv []), 0 ≤ i ∧ i < 256
  returns : (∃ out trace, base64Decode a machine bv [] = .ok out trace) ↔ Valid a bv
  result : ∀ out trace, base64Decode a machine bv [] = .ok out trace → out = rfcDecode a bv

theorem correct_of_yields {r : Except BadArg (List UInt8)} {bv : List UInt8}
    (h : Yields (base64Decode a machine bv) r)
    (hr : (Valid a bv ∧ r = .ok (rfcDecode a bv)) ∨ (¬ Valid a bv ∧ r = .error ⟨⟩)) : Correct a machine bv := by
  obtain ⟨ext, h1, h2⟩ := h []
  rcases hr with ⟨hv, rfl⟩ | ⟨hv, rfl⟩
  · refine ⟨fun i hi => ?_, ⟨fun _ => hv, fun _ => ⟨_, _, h2⟩⟩, fun out trace ho => ?_⟩
    · rw [h2] at hi
      exact h1 i hi
    · rw [h2] at ho
      cases ho
      rfl
  · refine ⟨fun i hi => ?_, ⟨fun ⟨out, trace, ho⟩ => ?_, fun hv' => absurd hv' hv⟩, fun out trace ho => ?_⟩
    · rw [h2] at hi
      exact h1 i hi
    · rw [h2] at ho
      cases ho
    · rw [h2] at ho
      cases ho

theorem base64Decode_yields {n : Nat} {bv : List UInt8} (hn : bv.length = 4 * (n + 1)) (h : Scanned a bv) :
    Yields (base64Decode a machine bv) (decodeGroups a bv) := by
  have hloop := @decodeLoop_yields a machine n bv (List.replicate (base64DecodedSize bv.length) 0) hn
    (by rw [List.length_replicate, base64DecodedSize]; omega) [] [] h
  have hcount : (bv.length - 4) / 4 = n := by omega
  unfold base64Decode
  rw [if_neg (by omega), if_neg (by omega), hcount]
  cases hg : decodeGroups a bv with
  | ok out =>
    rw [hg] at hloop
    exact hloop
  | error e =>
    rw [hg] at hloop
    exact hloop

theorem correct_of_meets (a : Alphabet) (machine : Machine) {bv : List UInt8}
    (h : bv.length % 4 = 0 → Meets a bv) : Correct a machine bv := by
  by_cases h4 : bv.length % 4 = 0
  · cases bv with
    | nil => exact correct_of_yields (.pure _) (.inl ⟨⟨h4, [], [], rfl, by simp, .inl rfl⟩, rfl⟩)
    | cons b bv =>
      obtain ⟨n, hn⟩ : ∃ n, (b :: bv).length = 4 * (n + 1) :=
        ⟨(b :: bv).length / 4 - 1, by simp at h4 ⊢; omega⟩
      refine correct_of_yields (base64Decode_yields hn ((h h4).scanned hn)) ?_
      rcases decodeGroups_spec hn (h h4) with ⟨h1, h2⟩ | ⟨h1, h2⟩
      · exact .inl ⟨⟨h4, h1⟩, h2⟩
      · exact .inr ⟨fun hv => h1 hv.2, h2⟩
  · refine @correct_of_yields a machine (.error ⟨⟩) bv ?_ (.inr ⟨fun hv => h4 hv.1, rfl⟩)
    unfold base64Decode
    rw [if_pos h4]
    exact .throw _

/-- The trace only grows. -/
def Keeps (m : Decode α) : Prop :=
  ∀ (i : Int) (trace : List Int), i ∈ trace → Ends m trace (fun _ t => i ∈ t) (fun _ t => i ∈ t)

/-- The table is read at i. -/
def Touches (i : Int) (m : Decode α) : Prop :=
  ∀ trace, Ends m trace (fun _ t => i ∈ t) (fun _ t => i ∈ t)

namespace Keeps

variable {m : Decode α} {f : α → Decode β}

theorem bind (h : Keeps m) (hf : ∀ x, Keeps (f x)) : Keeps (m >>= f) := fun i trace hi =>
  Ends.bind ((h i trace hi).imp (fun x t ht => hf x i t ht) fun _ _ ht => ht)

theorem pure (x : α) : Keeps (pure x) := fun _ _ hi => Ends.pure hi

theorem throw (e : BadArg) : Keeps (throw e : Decode α) := fun _ _ hi => Ends.throw hi

theorem ite {c : Prop} [Decidable c] {m' : Decode α} (h : Keeps m) (h' : Keeps m') :
    Keeps (if c then m else m') := fun i trace hi => Ends.ite (fun _ => h i trace hi) fun _ => h' i trace hi

end Keeps

theorem Touches.bind {i : Int} {m : Decode α} {f : α → Decode β} (h : Touches i m) (hf : ∀ x, Keeps (f x)) :
    Touches i (m >>= f) := fun trace =>
  Ends.bind ((h trace).imp (fun x t ht => hf x i t ht) fun _ _ ht => ht)

theorem Touches.after {i : Int} {m : Decode α} {f : α → Decode β} {x : α} (hm : Yields m (.ok x))
    (h : Touches i (f x)) : Touches i (m >>= f) := by
  intro trace
  obtain ⟨ext, -, hrun⟩ := hm trace
  refine Ends.bind ?_
  unfold Ends
  rw [hrun]
  exact h (trace ++ ext)

theorem toBits_touches (i : Int) : Touches i (toBits a machine i) := fun _ => List.mem_append_right _ (by simp)

theorem toBits_keeps (i : Int) : Keeps (toBits a machine i) := fun _ _ hi => List.mem_append_left _ hi

theorem check_keeps (x : Int) : Keeps (check x) := .ite (.pure x) (.throw _)

theorem checkGetBits_keeps (i : Int) : Keeps (checkGetBits a machine i) :=
  (toBits_keeps i).bind fun x => check_keeps x

theorem padOrBits_keeps (i : Int) : Keeps (padOrBits a machine i) := .ite (.pure 0) (toBits_keeps i)

theorem evalArgs_keeps {arg : Fin 4 → Decode Int} (h : ∀ k, Keeps (arg k)) (ks : List (Fin 4))
    (v : Fin 4 → Int) : Keeps (evalArgs arg ks v) := by
  induction ks generalizing v with
  | nil => exact .pure v
  | cons k ks ih => exact (h k).bind fun x => ih _

theorem arg_keeps {get : Int → Decode Int} (h : ∀ i, Keeps (get i)) (q : Fin 4 → Int) (k : Fin 4) :
    Keeps (if k = 0 then do return shift (← check (← toBits a machine (q k))) k
      else do return shift (← get (q k)) k) :=
  .ite ((toBits_keeps _).bind fun _ => (check_keeps _).bind fun _ => .pure _) ((h _).bind fun _ => .pure _)

theorem combine_keeps {get : Int → Decode Int} (h : ∀ i, Keeps (get i)) (q : Fin 4 → Int) :
    Keeps (combine a machine get q) :=
  (evalArgs_keeps (arg_keeps h q) _ _).bind fun _ => .pure _

theorem finish_keeps (bv : List UInt8) (i j : Nat) (out : List UInt8) : Keeps (finish a machine bv i j out) :=
  (combine_keeps padOrBits_keeps _).bind fun _ => .ite (.throw _)
    (.ite (.ite (.throw _) (.pure _)) (.ite (.pure _) (.pure _)))

theorem decodeLoop_keeps (bv : List UInt8) (n i j : Nat) (out : List UInt8) :
    Keeps (decodeLoop a machine bv n i j out) := by
  induction n generalizing i j out with
  | zero => exact finish_keeps bv i j out
  | succ n ih => exact (combine_keeps checkGetBits_keeps _).bind fun _ => ih _ _ _

/-- A machine that evaluates the k-th argument first. -/
def startWith (k : Fin 4) : Machine where
  order := k :: [0, 1, 2, 3].filter (· ≠ k)
  perm := by
    revert k
    decide
  beyond _ := 0

theorem combine_touches {get : Int → Decode Int} (h : ∀ i, Keeps (get i)) (q : Fin 4 → Int) (k : Fin 4)
    (hget : Touches (q k) (get (q k))) : Touches (q k) (combine a (startWith k) get q) := by
  have harg : Touches (q k) (if k = 0 then do return shift (← check (← toBits a (startWith k) (q k))) k
      else do return shift (← get (q k)) k) := by
    by_cases h0 : k = 0
    · rw [if_pos h0]
      exact (toBits_touches _).bind fun _ => (check_keeps _).bind fun _ => .pure _
    · rw [if_neg h0]
      exact hget.bind fun _ => .pure _
  exact (harg.bind fun _ => evalArgs_keeps (arg_keeps h q) _ _).bind fun _ => .pure _

theorem signed_neg {b : UInt8} (h : ¬ b < 128) : signed b < 0 := by
  have hlt : b.toNat < 256 := b.toNat_lt
  rw [signed, if_neg h]
  omega

theorem padOrBits_touches {b : UInt8} (h : ¬ b < 128) :
    Touches (signed b) (padOrBits a machine (signed b)) := by
  unfold padOrBits
  have hneg := signed_neg h
  rw [if_neg (by have : signed pad = 61 := by decide
                 omega)]
  exact toBits_touches _

/-- Two ways to go wrong: to read in front of the table, or to return for bytes
that are no encoding. -/
def Strays (m : Decode (List UInt8)) (wellFormed : Prop) : Prop :=
  (∃ i < 0, Touches i m) ∨ (¬ wellFormed ∧ ∃ out, Yields m (.ok out))

/-- A last group with something else than letters and pad characters passes the
tests of finish. -/
theorem decodeLast_lax {x y z w : UInt8} (h : ¬ LastOk a (group x y z w)) :
    ¬ WellFormed a [x, y, z, w] ∧ ∃ out, decodeLast a (group x y z w) = .ok out := by
  unfold LastOk at h
  push Not at h
  obtain ⟨hx, hy, hzw, k, hk, hk'⟩ := h
  refine ⟨fun hwf => ?_, ?_⟩
  · have hall : ∀ k, group x y z w k ∈ a.encoding ∨ group x y z w k = pad := by
      rw [@forall_group x y z w fun b => b ∈ a.encoding ∨ b = pad]
      rcases wellFormed_four.mp hwf with h | h | h <;> tauto
    rcases hall k with h1 | h1
    · exact hk h1
    · exact hk' h1
  · unfold decodeLast
    by_cases hz : group x y z w 2 = pad
    · simp [hx, hy, hz, hzw hz]
    · by_cases hw : group x y z w 3 = pad
      · simp [hx, hy, hz, hw]
      · simp [hx, hy, hz, hw]

theorem decodeLoop_strays {n : Nat} {suffix buf : List UInt8} (hs : suffix.length = 4 * (n + 1))
    (hb : buf.length = 3 * (n + 1)) (before done : List UInt8) (h : ¬ Meets a suffix) :
    ∃ machine, Strays (decodeLoop a machine (before ++ suffix) n before.length done.length (done ++ buf))
      (WellFormed a suffix) := by
  induction n generalizing suffix buf before done with
  | zero =>
    obtain ⟨x, y, z, w, rest, rfl, hrest⟩ := exists_group hs
    obtain rfl : rest = [] := List.eq_nil_of_length_eq_zero (by omega)
    obtain ⟨b0, b1, b2, rfl⟩ := List.length_eq_three.mp hb
    by_cases hg : Ascii (group x y z w)
    · have hlast : ¬ LastOk a (group x y z w) := fun hl => h ⟨hg, fun _ => hl, fun hne => absurd rfl hne⟩
      obtain ⟨hwf, out, hout⟩ := decodeLast_lax hlast
      have hfin := @finish_yields a (startWith 0) _ hg _ _ (extractBytes_append before [] x y z w) done b0 b1 b2
      rw [hout] at hfin
      exact ⟨startWith 0, .inr ⟨hwf, _, hfin⟩⟩
    · obtain ⟨k, hk⟩ := not_forall.mp hg
      refine ⟨startWith k, .inl ⟨_, signed_neg hk, ?_⟩⟩
      rw [decodeLoop, finish, extractBytes_append]
      refine (combine_touches padOrBits_keeps _ k (padOrBits_touches hk)).bind fun _ => ?_
      exact .ite (.throw _) (.ite (.ite (.throw _) (.pure _)) (.ite (.pure _) (.pure _)))
  | succ n ih =>
    obtain ⟨x, y, z, w, rest, rfl, hrest⟩ := exists_group hs
    have hne : rest ≠ [] := List.ne_nil_of_length_pos (by omega)
    obtain ⟨b0, b1, b2, buf, rfl⟩ := exists_three hb
    by_cases hg : Ascii (group x y z w)
    · -- a group of letters; what is wrong comes after it
      have hlater : (∀ k, group x y z w k ∈ a.encoding) ∧ ¬ Meets a rest := by
        by_contra hc
        exact h ⟨hg, fun he => absurd he hne, fun _ hall => by
          by_contra hm
          exact hc ⟨hall, hm⟩⟩
      obtain ⟨hall, hm⟩ := hlater
      obtain ⟨machine, hstray⟩ := @ih rest buf hrest (by simp at hb; omega) (before ++ [x, y, z, w])
        (done ++ threeBytes (pack fun k => a.value (group x y z w k))) hm
      have hcombine := @combine_full a machine _ hg
      rw [if_pos hall, orShifts_eq fun k => a.value_lt (hall k)] at hcombine
      refine ⟨machine, ?_⟩
      rw [decodeLoop, extractBytes_append]
      simp only [List.append_assoc, List.cons_append, List.nil_append, List.length_append, List.length_cons,
        List.length_nil, threeBytes] at hstray
      rcases hstray with ⟨i, hi, ht⟩ | ⟨hwf, out, ho⟩
      · refine .inl ⟨i, hi, Touches.after hcombine ?_⟩
        rw [u24Set_append]
        exact ht
      · refine .inr ⟨fun hw => hwf ((@wellFormed_append a [x, y, z, w] rest (by omega)).mp hw).2, out, ?_⟩
        refine hcombine.bind ?_
        rw [u24Set_append]
        exact ho
    · obtain ⟨k, hk⟩ := not_forall.mp hg
      refine ⟨startWith k, .inl ⟨_, signed_neg hk, ?_⟩⟩
      rw [decodeLoop, extractBytes_append]
      refine (combine_touches checkGetBits_keeps _ k ?_).bind fun _ => decodeLoop_keeps _ _ _ _ _
      exact (toBits_touches _).bind fun x => check_keeps x

/-- Decoding is right for every machine exactly when the group that stops it has no
byte with its high bit set, and the last group, when it is reached and not refused,
has only letters and pad characters. -/
theorem base64_decode_correct_iff (a : Alphabet) (bv : List UInt8) :
    (∀ machine, Correct a machine bv) ↔ (bv.length % 4 = 0 → Meets a bv) := by
  constructor
  · intro h h4
    by_contra hm
    cases bv with
    | nil => exact hm trivial
    | cons b bv =>
      obtain ⟨n, hn⟩ : ∃ n, (b :: bv).length = 4 * (n + 1) :=
        ⟨(b :: bv).length / 4 - 1, by simp at h4 ⊢; omega⟩
      have hcount : ((b :: bv).length - 4) / 4 = n := by omega
      obtain ⟨machine, hstray⟩ := @decodeLoop_strays a n (b :: bv)
        (List.replicate (base64DecodedSize (b :: bv).length) 0) hn
        (by rw [List.length_replicate, base64DecodedSize]; omega) [] [] hm
      have hcode : base64Decode a machine (b :: bv) = decodeLoop a machine (b :: bv) n 0 0
          (List.replicate (base64DecodedSize (b :: bv).length) 0) := by
        unfold base64Decode
        rw [if_neg (by omega), if_neg (by omega), hcount]
      have hright := h machine
      rcases hstray with ⟨i, hi, ht⟩ | ⟨hwf, out, ho⟩
      · have hmem : i ∈ indices (base64Decode a machine (b :: bv) []) := by
          have hrun := ht []
          rw [hcode]
          unfold Ends at hrun
          unfold indices
          split at hrun <;> simp_all
        have := (hright.inTable i hmem).1
        omega
      · obtain ⟨ext, -, hrun⟩ := ho []
        refine hwf (hright.returns.mp ⟨out, [] ++ ext, ?_⟩).2
        rw [hcode]
        exact hrun
  · intro h machine
    exact correct_of_meets a machine h

/-- The bytes of A!AA: the second one is no letter of the alphabet. -/
theorem base64_decode_accepts_bad : ¬ ∀ machine, Correct .base64 machine [65, 33, 65, 65] := by
  intro h
  have hrun : (match base64Decode .base64 (startWith 0) [65, 33, 65, 65] [] with
      | .ok _ _ => true
      | .error _ _ => false) = true := by decide +kernel
  have hok : ∃ out trace, base64Decode .base64 (startWith 0) [65, 33, 65, 65] [] = .ok out trace := by
    split at hrun
    · rename_i out trace heq
      exact ⟨out, trace, heq⟩
    · cases hrun
  have hno : (33 : UInt8) ∉ Alphabet.base64.encoding := by decide +kernel
  rcases wellFormed_four.mp ((h _).returns.mp hok).2 with ⟨-, hy, -⟩ | ⟨-, hy, -⟩ | ⟨-, hy, -⟩
  · exact hno hy
  · exact hno hy
  · exact hno hy

end Swish.Base64
