import Swish.Http.Request

/-!
UTF-8 as string->utf8 and utf8->string have it. A byte below 128 stands for the
character with that code, and for nothing else.
-/

set_option autoImplicit false

namespace Swish.Http

/-- (string->utf8 s). -/
def utf8 (s : List Char) : List UInt8 := s.flatMap String.utf8EncodeChar

/-- utf8->string is the inverse of string->utf8. -/
def Text.Decodes (t : Text) : Prop := ∀ s, t.decode (utf8 s) = s

@[simp] theorem utf8_nil : utf8 [] = [] := rfl

@[simp] theorem utf8_append (s s' : List Char) : utf8 (s ++ s') = utf8 s ++ utf8 s' := List.flatMap_append

theorem utf8_cons (c : Char) (s : List Char) : utf8 (c :: s) = String.utf8EncodeChar c ++ utf8 s := rfl

theorem utf8EncodeChar_ascii {c : Char} (h : c.toNat < 128) : String.utf8EncodeChar c = [UInt8.ofNat c.toNat] := by
  have hv : c.val.toNat ≤ 0x7f := Nat.le_of_lt_succ h
  unfold String.utf8EncodeChar
  simp only [hv, if_true]
  rfl

theorem utf8_ascii {c : Char} (h : c.toNat < 128) (s : List Char) : utf8 (c :: s) = UInt8.ofNat c.toNat :: utf8 s := by
  rw [utf8_cons, utf8EncodeChar_ascii h]
  rfl

theorem utf8EncodeChar_high {c : Char} (h : ¬ c.toNat < 128) {b : UInt8} (hb : b ∈ String.utf8EncodeChar c) :
    128 ≤ b.toNat := by
  have hv : ¬ c.val.toNat ≤ 0x7f := fun hle => h (Nat.lt_succ_of_le hle)
  unfold String.utf8EncodeChar at hb
  simp only [hv, if_false] at hb
  split at hb
  · simp only [List.mem_cons, List.not_mem_nil, or_false] at hb
    rcases hb with rfl | rfl <;> simp only [UInt8.toNat_ofNat'] <;> omega
  · split at hb
    · simp only [List.mem_cons, List.not_mem_nil, or_false] at hb
      rcases hb with rfl | rfl | rfl <;> simp only [UInt8.toNat_ofNat'] <;> omega
    · simp only [List.mem_cons, List.not_mem_nil, or_false] at hb
      rcases hb with rfl | rfl | rfl | rfl <;> simp only [UInt8.toNat_ofNat'] <;> omega

theorem utf8EncodeChar_ne_nil (c : Char) : String.utf8EncodeChar c ≠ [] := by
  unfold String.utf8EncodeChar
  simp only
  split
  · simp
  · split
    · simp
    · split
      · simp
      · simp

/-- A low byte in the encoding is a character of the string. -/
theorem mem_utf8 {b : UInt8} (hb : b.toNat < 128) {s : List Char} (h : b ∈ utf8 s) : ∃ c ∈ s, c.toNat = b.toNat := by
  obtain ⟨c, hc, hbc⟩ := List.mem_flatMap.mp h
  by_cases hlow : c.toNat < 128
  · rw [utf8EncodeChar_ascii hlow, List.mem_singleton] at hbc
    refine ⟨c, hc, ?_⟩
    rw [hbc, UInt8.toNat_ofNat']
    omega
  · have := utf8EncodeChar_high hlow hbc
    omega

theorem utf8_eq_nil {s : List Char} (h : utf8 s = []) : s = [] := by
  cases s with
  | nil => rfl
  | cons c s =>
    rw [utf8_cons] at h
    exact absurd (List.append_eq_nil_iff.mp h).1 (utf8EncodeChar_ne_nil c)

theorem head_utf8 {s : List Char} {b : UInt8} (h : (utf8 s).head? = some b) (hb : b.toNat < 128) :
    ∃ c, s.head? = some c ∧ c.toNat = b.toNat := by
  cases s with
  | nil => cases h
  | cons c s =>
    refine ⟨c, rfl, ?_⟩
    rw [utf8_cons] at h
    cases hbytes : String.utf8EncodeChar c with
    | nil => exact absurd hbytes (utf8EncodeChar_ne_nil c)
    | cons b' bytes =>
      have hmem : b ∈ String.utf8EncodeChar c := by
        rw [hbytes] at h ⊢
        cases h
        exact List.mem_cons_self
      by_cases hlow : c.toNat < 128
      · rw [utf8EncodeChar_ascii hlow, List.mem_singleton] at hmem
        rw [hmem, UInt8.toNat_ofNat']
        omega
      · have := utf8EncodeChar_high hlow hmem
        omega

/-- The codec of Lean, and the letters of ASCII in lower case. -/
def leanText : Text where
  decode bs := (bs.toByteArray.utf8Decode?.getD #[]).toList
  downcase s := s.map Char.toLower
  foldcase s := s.map Char.toLower

theorem leanText_decodes : leanText.Decodes := by
  intro s
  have h : (utf8 s).toByteArray.utf8Decode? = some s.toArray := List.utf8Decode?_utf8Encode
  simp [leanText, h]

end Swish.Http
