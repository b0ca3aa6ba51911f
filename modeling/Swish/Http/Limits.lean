import Swish.Http.Sections

/-!
The limits of parse-multipart/form-data. The search for the delimiter counts the bytes it
reads, the delimiter among them, so that a part may be refused although its content fits.
-/

set_option autoImplicit false

namespace Swish.Http

/-- The exception for parts with a filename, and for the others. -/
def limitError : Bool → FormError
  | true => .fileLimitExceeded
  | false => .contentLimitExceeded

def limitsOf (climit flimit : Int) : Bool → Int
  | true => flimit
  | false => climit

/-- The content bytes of the parts of one kind. -/
def bytesOf (isFile : Bool) : List Section → Nat
  | [] => 0
  | s :: sections => (if s.isFile = isFile then s.content.length else 0) + bytesOf isFile sections

/-- The limits after a part. -/
def spend (left : Bool → Int) (s : Section) : Bool → Int :=
  fun isFile => left isFile - (if s.isFile = isFile then s.content.length else 0 : Nat)

/-- The limit that the sum of the contents exceeds first. -/
def exceeded : List Section → (Bool → Int) → Option Bool
  | [], _ => none
  | s :: sections, left =>
    if left s.isFile < s.content.length then some s.isFile else exceeded sections (spend left s)

/-- What ends the reading of the parts: one has no name, or needs more bytes than its limit has left. -/
def stopsAt (need : Nat → Nat) : List Section → (Bool → Int) → Option FormError
  | [], _ => none
  | s :: sections, left =>
    if s.isFile = true ∧ s.name = none then some .notString
    else if left s.isFile < need s.content.length then some (limitError s.isFile)
    else if s.name = none then some .notString
    else stopsAt need sections (spend left s)

/-- The exceptions of the limits are thrown for the sums of the contents. -/
structure CountsContent (thrown : FormError → Prop) (sections : List Section) (left : Bool → Int) : Prop where
  only : ∀ isFile, thrown (limitError isFile) → ∃ pre, pre <+: sections ∧ left isFile < bytesOf isFile pre
  whenever : ∀ (pre : List Section) (s : Section) (isFile : Bool), pre ++ [s] <+: sections →
    (∀ k, (bytesOf k pre : Int) ≤ left k) → left isFile < bytesOf isFile (pre ++ [s]) → thrown (limitError isFile)

theorem limitError_inj {k k' : Bool} (h : limitError k = limitError k') : k = k' := by
  cases k with
  | true =>
    cases k' with
    | true => rfl
    | false => cases h
  | false =>
    cases k' with
    | true => cases h
    | false => rfl

theorem spend_content (climit flimit : Int) (name : Option (List Char)) (content : List UInt8) :
    spend (limitsOf climit flimit) ⟨name, false, content⟩ = limitsOf (climit - content.length) flimit := by
  funext k
  cases k with
  | true => simp [spend, limitsOf]
  | false => simp [spend, limitsOf]

theorem spend_file (climit flimit : Int) (name : Option (List Char)) (content : List UInt8) :
    spend (limitsOf climit flimit) ⟨name, true, content⟩ = limitsOf climit (flimit - content.length) := by
  funext k
  cases k with
  | true => simp [spend, limitsOf]
  | false => simp [spend, limitsOf]

/-- A part is refused as stopsAt says, or leaves the limits that spend says. -/
theorem takeSection_stops (env : FormEnv) (s : Section) (sections : List Section) (climit flimit : Int) (form : Form) :
    (∃ e, takeSection env s climit flimit form = .error e ∧
      stopsAt (counted env.toPartEnv) (s :: sections) (limitsOf climit flimit) = some e) ∨
    ∃ climit' flimit' form', takeSection env s climit flimit form = .ok (climit', flimit', form') ∧
      stopsAt (counted env.toPartEnv) (s :: sections) (limitsOf climit flimit) =
        stopsAt (counted env.toPartEnv) sections (limitsOf climit' flimit') := by
  obtain ⟨name, isFile, content⟩ := s
  cases isFile with
  | true =>
    cases name with
    | none => exact Or.inl ⟨.notString, rfl, rfl⟩
    | some key =>
      by_cases hlimit : flimit < counted env.toPartEnv content.length
      · refine Or.inl ⟨.fileLimitExceeded, ?_, ?_⟩
        · simp only [takeSection, if_true, if_pos hlimit]
        · simp [stopsAt, limitsOf, limitError, hlimit]
      · refine Or.inr ⟨climit, flimit - content.length,
          if key ∈ env.files ∧ Assoc.find form.result key = none then form.stored key else form, ?_, ?_⟩
        · simp only [takeSection, if_true, if_neg hlimit]
          split
          · rfl
          · rfl
        · rw [← spend_file climit flimit (some key)]
          simp [stopsAt, limitsOf, hlimit]
  | false =>
    by_cases hlimit : climit < counted env.toPartEnv content.length
    · refine Or.inl ⟨.contentLimitExceeded, ?_, ?_⟩
      · simp only [takeSection, Bool.false_eq_true, if_false, if_pos hlimit]
      · simp [stopsAt, limitsOf, limitError, hlimit]
    · cases name with
      | none =>
        refine Or.inl ⟨.notString, ?_, ?_⟩
        · simp only [takeSection, Bool.false_eq_true, if_false, if_neg hlimit]
        · simp [stopsAt, limitsOf, hlimit]
      | some name =>
        refine Or.inr ⟨climit - content.length, flimit, form.named name (env.text.decode content), ?_, ?_⟩
        · simp only [takeSection, Bool.false_eq_true, if_false, if_neg hlimit, Form.named]
        · rw [← spend_content climit flimit (some name)]
          simp [stopsAt, limitsOf, hlimit]

theorem fill_error_iff (env : FormEnv) (sections : List Section) (climit flimit : Int) (form : Form) (e : FormError) :
    fill env sections climit flimit form = .error e ↔
      stopsAt (counted env.toPartEnv) sections (limitsOf climit flimit) = some e := by
  induction sections generalizing climit flimit form with
  | nil =>
    constructor
    · intro h
      cases h
    · intro h
      cases h
  | cons s sections ih =>
    obtain ⟨e', htake, hstop⟩ | ⟨climit', flimit', form', htake, hstop⟩ :=
      takeSection_stops env s sections climit flimit form
    · rw [fill_cons_error htake, hstop]
      constructor
      · intro h
        cases h
        rfl
      · intro h
        cases h
        rfl
    · rw [fill_cons htake, hstop]
      exact ih climit' flimit' form'

/-! The sums of the contents. -/

section

variable {s : Section} {sections : List Section} {left : Bool → Int}

theorem spend_nonneg (hleft : ∀ k, 0 ≤ left k) (h : ¬ left s.isFile < s.content.length) (k : Bool) : 0 ≤ spend left s k := by
  have := hleft k
  unfold spend
  by_cases hk : s.isFile = k
  · rw [if_pos hk]
    subst hk
    omega
  · rw [if_neg hk]
    omega

theorem bytesOf_le_spend (k : Bool) (pre : List Section) :
    (bytesOf k pre : Int) ≤ spend left s k ↔ (bytesOf k (s :: pre) : Int) ≤ left k := by
  unfold spend
  rw [bytesOf]
  omega

theorem exceeded_none (h : exceeded sections left = none) (hleft : ∀ k, 0 ≤ left k) {pre : List Section}
    (hpre : pre <+: sections) (k : Bool) : (bytesOf k pre : Int) ≤ left k := by
  induction sections generalizing left pre with
  | nil =>
    rw [List.prefix_nil.mp hpre]
    exact hleft k
  | cons s sections ih =>
    unfold exceeded at h
    split at h
    · cases h
    · rename_i hs
      obtain rfl | ⟨pre', rfl, hpre'⟩ := List.prefix_cons_iff.mp hpre
      · exact hleft k
      · exact (bytesOf_le_spend k pre').mp (ih h (spend_nonneg hleft hs) hpre')

/-- A sum first exceeds its limit at the part s of the input. -/
def ExceedsAt (sections : List Section) (left : Bool → Int) (k : Bool) (pre : List Section) (s : Section) : Prop :=
  pre ++ [s] <+: sections ∧ (∀ k', (bytesOf k' pre : Int) ≤ left k') ∧ left k < bytesOf k (pre ++ [s])

theorem exceedsAt_first {k : Bool} {s' : Section} (hleft : ∀ k, 0 ≤ left k)
    (h : ExceedsAt (s :: sections) left k [] s') : s' = s ∧ s.isFile = k ∧ left k < s.content.length := by
  obtain ⟨hpre, -, hlt⟩ := h
  obtain ⟨rfl, -⟩ := List.cons_prefix_cons.mp hpre
  have := hleft k
  simp only [List.nil_append, bytesOf, Nat.add_zero] at hlt
  by_cases hk : s'.isFile = k
  · rw [if_pos hk] at hlt
    exact ⟨rfl, hk, hlt⟩
  · rw [if_neg hk] at hlt
    omega

theorem exceedsAt_next {k : Bool} {s' : Section} {pre : List Section} :
    ExceedsAt (s :: sections) left k (s :: pre) s' ↔ ExceedsAt sections (spend left s) k pre s' := by
  unfold ExceedsAt
  simp only [bytesOf_le_spend, List.cons_append, List.cons_prefix_cons, true_and]
  have hlt := @bytesOf_le_spend s left k (pre ++ [s'])
  constructor
  · intro h
    exact ⟨h.1, h.2.1, by omega⟩
  · intro h
    exact ⟨h.1, h.2.1, by omega⟩

theorem exceeded_some (hleft : ∀ k, 0 ≤ left k) (k : Bool) :
    exceeded sections left = some k ↔ ∃ pre s, ExceedsAt sections left k pre s := by
  induction sections generalizing left with
  | nil =>
    constructor
    · intro h
      cases h
    · intro h
      obtain ⟨pre, s, hpre, -⟩ := h
      simp at hpre
  | cons s sections ih =>
    rw [exceeded]
    by_cases hs : left s.isFile < s.content.length
    · rw [if_pos hs]
      constructor
      · intro h
        cases h
        refine ⟨[], s, by simp, fun k' => hleft k', ?_⟩
        simpa [bytesOf] using hs
      · intro h
        obtain ⟨pre, s', h⟩ := h
        cases pre with
        | nil => rw [(exceedsAt_first hleft h).2.1]
        | cons s₁ pre =>
          -- the sum exceeds its limit before
          obtain ⟨hpre, hle, -⟩ := h
          obtain ⟨rfl, -⟩ := List.cons_prefix_cons.mp hpre
          have := hle s₁.isFile
          rw [bytesOf, if_pos rfl] at this
          omega
    · rw [if_neg hs, ih (spend_nonneg hleft hs)]
      constructor
      · intro h
        obtain ⟨pre, s', h⟩ := h
        exact ⟨s :: pre, s', exceedsAt_next.mpr h⟩
      · intro h
        obtain ⟨pre, s', h⟩ := h
        cases pre with
        | nil =>
          obtain ⟨-, rfl, hlt⟩ := exceedsAt_first hleft h
          exact absurd hlt hs
        | cons s₁ pre =>
          obtain ⟨rfl, -⟩ := List.cons_prefix_cons.mp h.1
          exact ⟨pre, s', exceedsAt_next.mp h⟩

/-- The contents are counted exactly when the same limit stops the reading as the sums exceed first. -/
theorem countsContent_iff (hleft : ∀ k, 0 ≤ left k) {thrown : FormError → Prop} {stop : Option FormError}
    (hthrown : ∀ e, thrown e ↔ stop = some e) :
    CountsContent thrown sections left ↔ ∀ k, stop = some (limitError k) ↔ exceeded sections left = some k := by
  constructor
  · intro h k
    constructor
    · intro hstop
      obtain ⟨pre, hpre, hlt⟩ := h.only k ((hthrown _).mpr hstop)
      cases hex : exceeded sections left with
      | none =>
        have := exceeded_none hex hleft hpre k
        omega
      | some k' =>
        obtain ⟨pre', s, h1, h2, h3⟩ := (exceeded_some hleft k').mp hex
        have hstop' := (hthrown _).mp (h.whenever pre' s k' h1 h2 h3)
        rw [hstop] at hstop'
        rw [limitError_inj (Option.some.inj hstop')]
    · intro hex
      obtain ⟨pre, s, h1, h2, h3⟩ := (exceeded_some hleft k).mp hex
      exact (hthrown _).mp (h.whenever pre s k h1 h2 h3)
  · intro h
    refine ⟨fun k hk => ?_, fun pre s k h1 h2 h3 => ?_⟩
    · obtain ⟨pre, s, h1, -, h3⟩ := (exceeded_some hleft k).mp ((h k).mp ((hthrown _).mp hk))
      exact ⟨pre ++ [s], h1, h3⟩
    · exact (hthrown _).mpr ((h k).mpr ((exceeded_some hleft k).mpr ⟨pre, s, h1, h2, h3⟩))

end

/-- The limits count the contents exactly when the first part that the search refuses, its delimiter
counted, is refused by the limit that the contents exceed first. -/
theorem form_limits_count_content (t : Text) (disk : Disk) (hworks : disk.Works) (headerLimit : Int)
    (boundary : List Char) (contentLimit fileLimit : Nat) (files : List (List Char)) (ip ip' : InPort)
    (sections : List Section) (h : formSections t headerLimit boundary ip = .ok (sections, ip')) :
    CountsContent
      (fun e => ∃ form, parseMultipart t disk headerLimit boundary contentLimit fileLimit files ip = .error (e, form))
      sections (limitsOf contentLimit fileLimit) ↔
    ∀ isFile, stopsAt (fun n => (delimiter boundary).length + (n - 1)) sections (limitsOf contentLimit fileLimit) =
        some (limitError isFile) ↔
      exceeded sections (limitsOf contentLimit fileLimit) = some isFile := by
  have hdisk : ∀ s ∈ sections, DiskFor disk files s := fun s _ _ _ => hworks
  obtain ⟨table, hok, herror⟩ := parseMultipart_works hdisk contentLimit fileLimit h
  have hstops := fill_error_iff ⟨⟨t, headerLimit, delimiter boundary, table⟩, files, disk⟩ sections contentLimit fileLimit
    Form.empty
  apply countsContent_iff
  · intro k
    cases k with
    | true => exact Int.natCast_nonneg _
    | false => exact Int.natCast_nonneg _
  · intro e
    constructor
    · intro hthrown
      obtain ⟨form, hform⟩ := hthrown
      cases hfill : fill ⟨⟨t, headerLimit, delimiter boundary, table⟩, files, disk⟩ sections contentLimit fileLimit
          Form.empty with
      | ok form' =>
        rw [hok form' hfill] at hform
        cases hform
      | error e' =>
        obtain ⟨form', hform'⟩ := herror e' hfill
        rw [hform'] at hform
        cases hform
        exact (hstops e).mp hfill
    · intro hstop
      exact herror e ((hstops e).mpr hstop)

/-- One part with the content A. -/
def shortForm : List Char := "--\r\nContent-Disposition: form-data; name=\"f\"\r\n\r\nA\r\n----\r\n".toList

theorem form_limits_count_content_fits :
    Disk.working.Works ∧
    formSections leanText 100 ['-', '-'] ⟨0, utf8 shortForm⟩ = .ok ([⟨some ['f'], false, [65]⟩], ⟨57, []⟩) ∧
    CountsContent
      (fun e => ∃ form, parseMultipart leanText Disk.working 100 ['-', '-'] (4 : Nat) (0 : Nat) [] ⟨0, utf8 shortForm⟩ =
        .error (e, form))
      [⟨some ['f'], false, [65]⟩] (limitsOf (4 : Nat) (0 : Nat)) := by
  have hsections : formSections leanText 100 ['-', '-'] ⟨0, utf8 shortForm⟩ =
      .ok ([⟨some ['f'], false, [65]⟩], ⟨57, []⟩) := by
    decide +kernel
  refine ⟨Disk.works_working, hsections, ?_⟩
  exact (form_limits_count_content leanText Disk.working Disk.works_working 100 ['-', '-'] 4 0 [] _ _ _ hsections).mpr
    (by decide)

/-- The content has one byte and the limit is three, but the delimiter has four. -/
theorem short_content_refused :
    formSections leanText 100 ['-', '-'] ⟨0, utf8 shortForm⟩ = .ok ([⟨some ['f'], false, [65]⟩], ⟨57, []⟩) ∧
    parseMultipart leanText Disk.working 100 ['-', '-'] (3 : Nat) (0 : Nat) [] ⟨0, utf8 shortForm⟩ =
      .error (.contentLimitExceeded, Form.empty) ∧
    ¬ CountsContent
      (fun e => ∃ form, parseMultipart leanText Disk.working 100 ['-', '-'] (3 : Nat) (0 : Nat) [] ⟨0, utf8 shortForm⟩ =
        .error (e, form))
      [⟨some ['f'], false, [65]⟩] (limitsOf (3 : Nat) (0 : Nat)) := by
  have hthrown : parseMultipart leanText Disk.working 100 ['-', '-'] (3 : Nat) (0 : Nat) [] ⟨0, utf8 shortForm⟩ =
      .error (.contentLimitExceeded, Form.empty) := by
    decide +kernel
  refine ⟨by decide +kernel, hthrown, fun h => ?_⟩
  obtain ⟨pre, hpre, hlt⟩ := h.only false ⟨Form.empty, hthrown⟩
  have hnone : exceeded [⟨some ['f'], false, [65]⟩] (limitsOf (3 : Nat) (0 : Nat)) = none := by decide
  have hle := exceeded_none hnone (by decide) hpre false
  omega

end Swish.Http
