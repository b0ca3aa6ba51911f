import Swish.Http.Utf8
import Swish.Lib.Assoc

/-!
http:percent-encode and the functions of http.ss that read what it writes:
parse-encoded-string and parse-encoded-kv.
-/

set_option autoImplicit false

namespace Swish.Http

/-- The bytes that http:percent-encode keeps. -/
def isUnreserved (c : UInt8) : Bool :=
  (65 ≤ c && c ≤ 90) || (97 ≤ c && c ≤ 122) || (48 ≤ c && c ≤ 57) || c == 45 || c == 95 || c == 46 || c == 126

/-- A digit of ~X. -/
def hexDigit (n : Nat) : Char := if n < 10 then Char.ofNat (48 + n) else Char.ofNat (55 + n)

/-- What encode writes for one byte. -/
def percentByte (c : UInt8) : List Char :=
  if isUnreserved c then [Char.ofNat c.toNat] else ['%', hexDigit (c.toNat / 16), hexDigit (c.toNat % 16)]

def percentEncode (s : List Char) : List Char := (utf8 s).flatMap percentByte

/-- http:percent-encode writes every byte of the character as an escape. -/
def AlwaysEscaped (c : Char) : Prop := ∀ b ∈ String.utf8EncodeChar c, isUnreserved b = false

instance (c : Char) : Decidable (AlwaysEscaped c) := List.decidableBAll _ (String.utf8EncodeChar c)

/-- Pairs key=value joined by &. -/
def encodeKv (pairs : Object) : List Char :=
  List.intercalate ['&'] (pairs.map fun kv => percentEncode kv.1 ++ '=' :: percentEncode kv.2)

/-- The bytes of percentByte. -/
def percentBytes (c : UInt8) : List UInt8 :=
  if isUnreserved c then [c]
  else [37, UInt8.ofNat (hexDigit (c.toNat / 16)).toNat, UInt8.ofNat (hexDigit (c.toNat % 16)).toNat]

theorem isUnreserved_ascii {c : UInt8} (h : isUnreserved c = true) : c.toNat < 128 ∧ c.toNat ≠ 37 ∧ c.toNat ≠ 43 := by
  simp only [isUnreserved, Bool.or_eq_true, Bool.and_eq_true, decide_eq_true_eq, beq_iff_eq, UInt8.le_iff_toNat_le,
    ← UInt8.toNat_inj, UInt8.reduceToNat] at h
  omega

theorem hexDigit_props : ∀ n < 16, (hexDigit n).toNat < 128 ∧
    isUnreserved (UInt8.ofNat (hexDigit n).toNat) = true ∧
    decodeHex (UInt8.ofNat (hexDigit n).toNat) = some (UInt8.ofNat n) := by
  decide

theorem toNat_ofNat_ascii : ∀ n < 128, (Char.ofNat n).toNat = n := by decide

theorem utf8_percentByte (c : UInt8) : utf8 (percentByte c) = percentBytes c := by
  unfold percentByte percentBytes
  split
  · rename_i h
    have hlow := toNat_ofNat_ascii c.toNat (isUnreserved_ascii h).1
    rw [utf8_ascii (by rw [hlow]; exact (isUnreserved_ascii h).1), hlow, UInt8.ofNat_toNat, utf8_nil]
  · have hc := c.toNat_lt
    have hhigh := (hexDigit_props (c.toNat / 16) (by omega)).1
    have hlow := (hexDigit_props (c.toNat % 16) (by omega)).1
    rw [utf8_ascii (by decide), utf8_ascii hhigh, utf8_ascii hlow, utf8_nil]
    rfl

theorem utf8_percentEncode (s : List Char) : utf8 (percentEncode s) = (utf8 s).flatMap percentBytes := by
  unfold percentEncode
  induction utf8 s with
  | nil => rfl
  | cons c bs ih => rw [List.flatMap_cons, List.flatMap_cons, utf8_append, utf8_percentByte, ih]

/-- No byte of an encoded string is the stop character. -/
def Apart (stop : Char) : Prop := stop.toNat ≠ 37 ∧ ∀ c, isUnreserved c = true → c.toNat ≠ stop.toNat

theorem apart_of_alwaysEscaped {stop : Char} (h : AlwaysEscaped stop) (hne : stop ≠ '%') : Apart stop := by
  refine ⟨fun heq => hne (Char.toNat_inj.mp heq), fun c hc heq => ?_⟩
  have hlow : stop.toNat < 128 := heq ▸ (isUnreserved_ascii hc).1
  have := h c (by rw [utf8EncodeChar_ascii hlow, ← heq, UInt8.ofNat_toNat]; exact List.mem_singleton_self c)
  simp [hc] at this

theorem parseEncodedString_stop {stop : Char} {c : UInt8} (h : c.toNat = stop.toNat) (query : Bool) (rest : List UInt8) :
    parseEncodedString stop query (c :: rest) = (0, []) := by
  unfold parseEncodedString
  simp only [h, if_true]

theorem parseEncodedString_plain {stop : Char} {c : UInt8} (hstop : c.toNat ≠ stop.toNat) (h37 : c ≠ 37) (h43 : c ≠ 43)
    (query : Bool) (rest : List UInt8) :
    parseEncodedString stop query (c :: rest) =
      ((parseEncodedString stop query rest).1 + 1, c :: (parseEncodedString stop query rest).2) := by
  rw [parseEncodedString.eq_def]
  simp only [hstop, h37, h43, if_false, and_false]

theorem parseEncodedString_escape {stop : Char} (hstop : stop.toNat ≠ 37) {high low h l : UInt8}
    (hhigh : decodeHex high = some h) (hlow : decodeHex low = some l) (query : Bool) (rest : List UInt8) :
    parseEncodedString stop query (37 :: high :: low :: rest) =
      ((parseEncodedString stop query rest).1 + 3, (h * 16 + l) :: (parseEncodedString stop query rest).2) := by
  have h37 : ¬ (37 : UInt8).toNat = stop.toNat := fun heq => hstop heq.symm
  have h43 : ¬ (37 : UInt8) = 43 := by decide
  rw [parseEncodedString.eq_def]
  simp only [h37, h43, if_false, and_false, if_true, hhigh, hlow]

/-- What is read at an encoded byte is the byte. -/
theorem parseEncodedString_percentBytes {stop : Char} (hstop : Apart stop) (query : Bool) (c : UInt8) (rest : List UInt8) :
    parseEncodedString stop query (percentBytes c ++ rest) =
      ((parseEncodedString stop query rest).1 + (percentBytes c).length, c :: (parseEncodedString stop query rest).2) := by
  unfold percentBytes
  by_cases hc : isUnreserved c = true
  · have hlow := isUnreserved_ascii hc
    rw [if_pos hc]
    refine parseEncodedString_plain (hstop.2 c hc) (fun h => hlow.2.1 ?_) (fun h => hlow.2.2 ?_) query rest
    · rw [h]; rfl
    · rw [h]; rfl
  · have hlt := c.toNat_lt
    have hhigh := (hexDigit_props (c.toNat / 16) (by omega)).2.2
    have hlow := (hexDigit_props (c.toNat % 16) (by omega)).2.2
    have hval : UInt8.ofNat (c.toNat / 16) * 16 + UInt8.ofNat (c.toNat % 16) = c := by
      apply UInt8.toNat_inj.mp
      simp only [UInt8.toNat_add, UInt8.toNat_mul, UInt8.toNat_ofNat', UInt8.reduceToNat]
      omega
    rw [if_neg hc]
    have := parseEncodedString_escape hstop.1 hhigh hlow query rest
    rw [hval] at this
    exact this

theorem parseEncodedString_flatMap {stop : Char} (hstop : Apart stop) (query : Bool) {rest : List UInt8}
    (hrest : parseEncodedString stop query rest = (0, [])) (bs : List UInt8) :
    parseEncodedString stop query (bs.flatMap percentBytes ++ rest) = ((bs.flatMap percentBytes).length, bs) := by
  induction bs with
  | nil => exact hrest
  | cons c bs ih =>
    rw [List.flatMap_cons, List.append_assoc, parseEncodedString_percentBytes hstop, ih, List.length_append,
      Nat.add_comm]

/-- The encoded string is read up to the stop character or the end. -/
theorem parseEncodedString_percentEncode {stop : Char} (hstop : Apart stop) (query : Bool) {rest : List UInt8}
    (hrest : parseEncodedString stop query rest = (0, [])) (s : List Char) :
    parseEncodedString stop query (utf8 (percentEncode s) ++ rest) = ((utf8 (percentEncode s)).length, utf8 s) := by
  rw [utf8_percentEncode]
  exact parseEncodedString_flatMap hstop query hrest (utf8 s)

theorem encodeKv_cons (kv : List Char × List Char) (pairs : Object) :
    ∃ tail, (tail = [] ∧ pairs = [] ∨ tail = '&' :: encodeKv pairs) ∧
      encodeKv (kv :: pairs) = percentEncode kv.1 ++ '=' :: (percentEncode kv.2 ++ tail) := by
  cases pairs with
  | nil =>
    refine ⟨[], Or.inl ⟨rfl, rfl⟩, ?_⟩
    simp [encodeKv, List.intercalate]
  | cons kv' pairs =>
    refine ⟨_, Or.inr rfl, ?_⟩
    simp [encodeKv, List.intercalate]

theorem parseEncodedKv_pair {t : Text} {bv key val : List UInt8} {n m : Nat} (hne : bv ≠ [])
    (hkey : parseEncodedString '=' true bv = (n, key)) (hval : parseEncodedString '&' true (bv.drop (n + 1)) = (m, val))
    (fuel : Nat) (o : Object) :
    parseEncodedKv t (fuel + 1) o bv =
      parseEncodedKv t fuel (Object.set o (t.decode key) (t.decode val)) ((bv.drop (n + 1)).drop (m + 1)) := by
  rw [parseEncodedKv, if_neg hne]
  simp only [hkey, hval]

/-- Each pair is read and set in turn. -/
theorem parseEncodedKv_encodeKv {t : Text} (ht : t.Decodes) (pairs : Object) :
    ∀ (fuel : Nat) (o : Object), pairs.length ≤ fuel →
      parseEncodedKv t fuel o (utf8 (encodeKv pairs)) = Assoc.setAll pairs o := by
  have heq : Apart '=' := apart_of_alwaysEscaped (by decide) (by decide)
  have hamp : Apart '&' := apart_of_alwaysEscaped (by decide) (by decide)
  induction pairs with
  | nil =>
    intro fuel o _
    cases fuel with
    | zero => rfl
    | succ fuel => rfl
  | cons kv pairs ih =>
    intro fuel o hfuel
    obtain ⟨tail, htail, henc⟩ := encodeKv_cons kv pairs
    have hend : parseEncodedString '&' true (utf8 tail) = (0, []) := by
      obtain ⟨rfl, -⟩ | rfl := htail
      · rfl
      · rw [utf8_ascii (by decide)]
        exact parseEncodedString_stop rfl true _
    have hkey := parseEncodedString_percentEncode heq true
      (parseEncodedString_stop (c := 61) rfl true (utf8 (percentEncode kv.2 ++ tail))) kv.1
    have hval := parseEncodedString_percentEncode hamp true hend kv.2
    rw [henc, utf8_append, utf8_ascii (c := '=') (by decide)]
    cases fuel with
    | zero => simp at hfuel
    | succ fuel =>
      -- after the key comes =, after the value & or the end
      have hafter : (utf8 (percentEncode kv.1) ++ 61 :: utf8 (percentEncode kv.2 ++ tail)).drop
          ((utf8 (percentEncode kv.1)).length + 1) = utf8 (percentEncode kv.2) ++ utf8 tail := by
        rw [← List.drop_drop, List.drop_left, List.drop_one, List.tail_cons, utf8_append]
      have hstep := parseEncodedKv_pair (t := t) (by simp) hkey (hafter ▸ hval) fuel o
      rw [hafter, ← List.drop_drop, List.drop_left, ht, ht] at hstep
      refine hstep.trans ?_
      obtain ⟨rfl, rfl⟩ | rfl := htail
      · exact ih fuel _ (Nat.zero_le fuel)
      · rw [utf8_ascii (by decide)]
        exact ih fuel _ (Nat.le_of_succ_le_succ hfuel)

theorem length_le_encodeKv (pairs : Object) : pairs.length ≤ (utf8 (encodeKv pairs)).length := by
  induction pairs with
  | nil => exact Nat.zero_le _
  | cons kv pairs ih =>
    obtain ⟨tail, htail, henc⟩ := encodeKv_cons kv pairs
    have hrest : pairs.length ≤ (utf8 tail).length := by
      obtain ⟨-, rfl⟩ | rfl := htail
      · exact Nat.zero_le _
      · rw [utf8_ascii (by decide), List.length_cons]
        exact Nat.le_succ_of_le ih
    rw [henc, utf8_append, utf8_ascii (by decide), utf8_append]
    simp only [List.length_append, List.length_cons]
    omega

/-- What http:percent-encode writes is read back, up to its end. -/
theorem percent_encode_reads_back (t : Text) (ht : t.Decodes) :
    (∀ (s : List Char) (query : Bool) (stop : Char), AlwaysEscaped stop → stop ≠ '%' →
      ∃ bytes, parseEncodedString stop query (utf8 (percentEncode s)) = ((utf8 (percentEncode s)).length, bytes) ∧
        t.decode bytes = s) ∧
    ∀ (pairs : Object) (bv : List UInt8), bv = utf8 (encodeKv pairs) →
      ((parseEncodedKv t (bv.length + 1) [] bv).map Prod.fst).Nodup ∧
      ∀ key, Object.find (parseEncodedKv t (bv.length + 1) [] bv) key = Assoc.last pairs key := by
  refine ⟨fun s query stop hesc hne => ⟨utf8 s, ?_, ht s⟩, fun pairs bv hbv => ?_⟩
  · have h := parseEncodedString_percentEncode (apart_of_alwaysEscaped hesc hne) query
      (show parseEncodedString stop query [] = (0, []) from rfl) s
    rwa [List.append_nil] at h
  · have hfuel : pairs.length ≤ bv.length + 1 := by
      rw [hbv]
      exact Nat.le_succ_of_le (length_le_encodeKv pairs)
    have hkv := parseEncodedKv_encodeKv ht pairs (bv.length + 1) [] hfuel
    rw [← hbv] at hkv
    rw [hkv]
    refine ⟨Assoc.nodup_setAll pairs List.nodup_nil, fun key => ?_⟩
    have hfind := Assoc.find_setAll pairs [] key
    rw [Assoc.find_nil, Option.or_none] at hfind
    exact hfind

theorem percent_encode_reads_back_space :
    leanText.Decodes ∧ AlwaysEscaped '?' ∧
    (∃ bytes, parseEncodedString '?' false (utf8 (percentEncode [' '])) = (3, bytes) ∧ leanText.decode bytes = [' ']) :=
  ⟨leanText_decodes, by decide,
    (percent_encode_reads_back leanText leanText_decodes).1 [' '] false '?' (by decide) (by decide)⟩

/-- The sign of an escape is itself escaped, and stops the reading of another. -/
theorem percent_stops_at_escape :
    AlwaysEscaped '%' ∧ percentEncode [' '] = ['%', '2', '0'] ∧
    parseEncodedString '%' false (utf8 (percentEncode [' '])) = (0, []) ∧
    parseEncodedString '%' true (utf8 (percentEncode [' '])) = (0, []) := by
  decide

end Swish.Http
