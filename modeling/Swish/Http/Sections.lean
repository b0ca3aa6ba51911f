import Swish.Http.Multipart

/-!
The parts of a multipart input, as a list, and what each of them does to the form. The
parser of http.ss interleaves the two; here it is shown to do the one after the other.
-/

set_option autoImplicit false

namespace Swish.Http

/-- A part of the input. -/
structure Section where
  name : Option (List Char)
  isFile : Bool
  content : List UInt8
  deriving DecidableEq

deriving instance DecidableEq for InPort

/-- The parts of the input, whatever the limits and the files are. -/
def readSections (env : PartEnv) : Nat → InPort → Except FormError (List Section × InPort)
  | 0, _ => .error .outOfFuel
  | fuel + 1, ip =>
    match partFollows ip with
    | .error e => .error e
    | .ok (false, ip) => .ok ([], ip)
    | .ok (true, ip) => do
      let (data, ip) ← readDisposition env ip
      let (content, ip, _) ← copyPart env (fun _ => true) none .outOfFuel ip
      let (sections, ip) ← readSections env fuel ip
      return (⟨Assoc.find data "name".toList, (Assoc.find data "filename".toList).isSome, content⟩ :: sections, ip)

/-- The parts of an input of parse-multipart/form-data. -/
def formSections (t : Text) (headerLimit : Int) (boundary : List Char) (ip : InPort) :
    Except FormError (List Section × InPort) :=
  match makePartial (delimiter boundary) with
  | .error e => .error (.search e)
  | .ok table =>
    match expectBytes (utf8 boundary) ip with
    | .error e => .error e
    | .ok ip => readSections ⟨t, headerLimit, delimiter boundary, table⟩ (ip.rest.length + 1) ip

/-- The bytes that copy-until-match counts for a part with n bytes: those of the delimiter and of the content,
but for the one that ends the search. -/
def counted (env : PartEnv) (n : Nat) : Nat := env.pattern.length + (n - 1)

local instance lawfulBEq_key : LawfulBEq (List Char) := inferInstance

/-- What a part does to the form and to the limits that are left, when no file operation fails. -/
def takeSection (env : FormEnv) (s : Section) (climit flimit : Int) (form : Form) : Except FormError (Int × Int × Form) :=
  let n := s.content.length
  if s.isFile then
    match s.name with
    | none => .error .notString
    | some key =>
      if flimit < counted env.toPartEnv n then .error .fileLimitExceeded
      else if key ∈ env.files ∧ Assoc.find form.result key = none then
        .ok (climit, flimit - n,
          ⟨Assoc.set form.result key (.file form.next), form.files ++ [form.next], form.next + 1⟩)
      else .ok (climit, flimit - n, form)
  else if climit < counted env.toPartEnv n then .error .contentLimitExceeded
  else
    match s.name with
    | none => .error .notString
    | some name =>
      .ok (climit - n, flimit, { form with result := Assoc.set form.result name (.text (env.text.decode s.content)) })

def fill (env : FormEnv) : List Section → Int → Int → Form → Except FormError Form
  | [], _, _, form => .ok form
  | s :: sections, climit, flimit, form => do
    let (climit, flimit, form) ← takeSection env s climit flimit form
    fill env sections climit flimit form

/-- The table of make-copy-until-match is there. -/
structure PartEnv.Ready (env : PartEnv) : Prop where
  filled : Filled env.pattern env.table
  length : env.table.length = env.pattern.length
  pos : 0 < env.pattern.length

/-- The file operations succeed. -/
def Disk.Works (disk : Disk) : Prop :=
  (∀ fn, disk.opens fn = true) ∧ (∀ fn k, disk.accepts fn k = true) ∧ ∀ fn, disk.closes fn = true

/-- The file operations succeed if the part may be stored. -/
def DiskFor (disk : Disk) (files : List (List Char)) (s : Section) : Prop :=
  s.isFile = true → (∃ key ∈ files, s.name = some key) → disk.Works

def Disk.working : Disk := ⟨fun _ => true, fun _ _ => true, fun _ => true⟩

theorem Disk.works_working : Disk.working.Works := ⟨fun _ => rfl, fun _ _ => rfl, fun _ => rfl⟩

section

variable {env : PartEnv} {ip ip' : InPort} {content : List UInt8} {n : Int}

/-- The search with a limit and the one without. -/
theorem copyUntilMatch_limit (hready : env.Ready) (ip : InPort) {limit : Int} (hlimit : 0 ≤ limit) :
    (∃ content ip', copyUntilMatch env.pattern env.table (fun _ => true) none ip = .ok (content, ip', content.length) ∧
      copyUntilMatch env.pattern env.table (fun _ => true) (some limit) ip =
        if limit < counted env content.length then .error .limit else .ok (content, ip', content.length)) ∨
    (copyUntilMatch env.pattern env.table (fun _ => true) none ip = .error .unexpectedEof ∧
      ∃ e, copyUntilMatch env.pattern env.table (fun _ => true) (some limit) ip = .error e) := by
  obtain ⟨e, he⟩ := exists_stops hready.pos ip.rest
  have hnone := copyUntilMatch_stops hready.filled hready.length hready.pos he (enough_none 0)
  have hsome := copyUntilMatch_stops hready.filled hready.length hready.pos he
    (show Enough (some limit) 0 from fun l hl => (by cases hl; exact hlimit))
  rw [if_pos (enough_none _)] at hnone
  by_cases hle : e ≤ ip.rest.length
  · have hpe := he.le hle
    have hpos := hready.pos
    have hlen : (ip.rest.take (e - env.pattern.length)).length = e - env.pattern.length := by
      rw [List.length_take]
      omega
    have hcalls : limitCalls env.pattern ip.rest e = counted env (e - env.pattern.length) := by
      unfold limitCalls counted
      split
      · omega
      · omega
    have henough : Enough (some limit) (limitCalls env.pattern ip.rest e) ↔
        ¬ limit < counted env (e - env.pattern.length) := by
      rw [hcalls]
      constructor
      · intro h
        have := h limit rfl
        omega
      · intro h l hl
        cases hl
        omega
    rw [if_pos hle] at hnone hsome
    refine Or.inl ⟨ip.rest.take (e - env.pattern.length), ⟨ip.pos + e, ip.rest.drop e⟩, ?_, ?_⟩
    · rw [hnone, hlen]
    · rw [hsome, hlen]
      by_cases hl : limit < counted env (e - env.pattern.length)
      · rw [if_pos hl, if_neg fun h => henough.mp h hl]
      · rw [if_neg hl, if_pos (henough.mpr hl)]
  · rw [if_neg hle] at hnone hsome
    refine Or.inr ⟨hnone, ?_⟩
    rw [hsome]
    split
    · exact ⟨_, rfl⟩
    · exact ⟨_, rfl⟩

/-- A part that can be read without a limit is read with one, or is too long for it. -/
theorem copyPart_limit (hready : env.Ready) {err : FormError}
    (h : copyPart env (fun _ => true) none err ip = .ok (content, ip', n)) :
    n = content.length ∧ ∀ (limit : Int) (err : FormError), 0 ≤ limit →
      copyPart env (fun _ => true) (some limit) err ip =
        if limit < counted env content.length then .error err else .ok (content, ip', n) := by
  have hcases := fun {limit : Int} (hlimit : 0 ≤ limit) => copyUntilMatch_limit hready ip hlimit
  unfold copyPart at h
  have hnone : copyUntilMatch env.pattern env.table (fun _ => true) none ip = .ok (content, ip', n) := by
    split at h
    · cases h
    · rename_i r hr
      rw [hr, Except.ok.inj h]
  have hlen : n = content.length := by
    obtain ⟨content', ip₁, h1, -⟩ | ⟨h1, -⟩ := hcases (Int.le_refl 0)
    · rw [hnone] at h1
      cases h1
      rfl
    · rw [hnone] at h1
      cases h1
  refine ⟨hlen, fun limit err hlimit => ?_⟩
  obtain ⟨content', ip₁, h1, h2⟩ | ⟨h1, -⟩ := hcases hlimit
  · rw [hnone] at h1
    cases h1
    unfold copyPart
    rw [h2]
    by_cases hl : limit < counted env content.length
    · rw [if_pos hl, if_pos hl]
      rfl
    · rw [if_neg hl, if_neg hl]
  · rw [hnone] at h1
    cases h1

/-- What is read with a limit, and by a port that takes every byte, is read without. -/
theorem copyPart_ok (hready : env.Ready) {accepts : Nat → Bool} {limit : Int} (hlimit : 0 ≤ limit) {err : FormError}
    (h : copyPart env accepts (some limit) err ip = .ok (content, ip', n)) :
    copyPart env (fun _ => true) none .outOfFuel ip = .ok (content, ip', n) ∧ n = content.length ∧
      ¬ limit < counted env content.length := by
  have hsome : copyUntilMatch env.pattern env.table accepts (some limit) ip = .ok (content, ip', n) := by
    unfold copyPart at h
    split at h
    · cases h
    · rename_i r hr
      rw [hr, Except.ok.inj h]
  have hall : copyUntilMatch env.pattern env.table (fun _ => true) (some limit) ip = .ok (content, ip', n) := by
    obtain hw | heq := copyUntilMatch_accepts env.pattern env.table accepts (some limit) ip
    · rw [hsome] at hw
      cases hw
    · rw [← heq, hsome]
  obtain ⟨content', ip₁, h1, h2⟩ | ⟨-, e, h2⟩ := copyUntilMatch_limit hready ip hlimit
  · rw [hall] at h2
    split at h2
    · cases h2
    · rename_i hl
      cases h2
      refine ⟨?_, rfl, hl⟩
      unfold copyPart
      rw [h1]
  · rw [hall] at h2
    cases h2

theorem le_counted (hready : env.Ready) (n : Nat) : n ≤ counted env n := by
  have := hready.pos
  unfold counted
  omega

end

/-- The form when a file is stored under the key. -/
def Form.stored (form : Form) (key : List Char) : Form :=
  ⟨Assoc.set form.result key (.file form.next), form.files ++ [form.next], form.next + 1⟩

/-- The form when a string is stored under the name. -/
def Form.named (form : Form) (name s : List Char) : Form := { form with result := Assoc.set form.result name (.text s) }

section

variable {env : FormEnv} {s : Section} {climit flimit climit' flimit' : Int} {form form' : Form}

theorem takeSection_nonneg (hready : env.toPartEnv.Ready) (hc : 0 ≤ climit) (hf : 0 ≤ flimit)
    (h : takeSection env s climit flimit form = .ok (climit', flimit', form')) : 0 ≤ climit' ∧ 0 ≤ flimit' := by
  have hle := le_counted hready s.content.length
  unfold takeSection at h
  simp only at h
  split at h
  · split at h
    · cases h
    · split at h
      · cases h
      · split at h
        · cases h
          omega
        · cases h
          omega
  · split at h
    · cases h
    · split at h
      · cases h
      · cases h
        omega

end

/-- What a part that is taken does to the form. -/
theorem takeSection_cases {env : FormEnv} {s : Section} {climit flimit climit' flimit' : Int} {form form' : Form}
    (h : takeSection env s climit flimit form = .ok (climit', flimit', form')) :
    (∃ key, s.isFile = true ∧ s.name = some key ∧ key ∈ env.files ∧ Assoc.find form.result key = none ∧
      form' = form.stored key) ∨
    (∃ key, s.isFile = true ∧ s.name = some key ∧ ¬ (key ∈ env.files ∧ Assoc.find form.result key = none) ∧
      form' = form) ∨
    ∃ name, s.isFile = false ∧ s.name = some name ∧ form' = form.named name (env.text.decode s.content) := by
  obtain ⟨name, isFile, content⟩ := s
  unfold takeSection at h
  cases isFile with
  | true =>
    cases name with
    | none => cases h
    | some key =>
      simp only [if_true] at h
      split at h
      · cases h
      · split at h
        · rename_i hsave
          cases h
          exact Or.inl ⟨key, rfl, rfl, hsave.1, hsave.2, rfl⟩
        · rename_i hsave
          cases h
          exact Or.inr (Or.inl ⟨key, rfl, rfl, hsave, rfl⟩)
  | false =>
    simp only [Bool.false_eq_true, if_false] at h
    split at h
    · cases h
    · cases name with
      | none => cases h
      | some name =>
        cases h
        exact Or.inr (Or.inr ⟨name, rfl, rfl, rfl⟩)

/-- The section that a part makes. -/
def sectionOf (data : List (List Char × List Char)) (content : List UInt8) : Section :=
  ⟨Assoc.find data "name".toList, (Assoc.find data "filename".toList).isSome, content⟩

section

variable {env : FormEnv} {k : AfterPart} {climit flimit : Int} {ip : InPort} {form : Form}

theorem deleteOnError_ok {fn : Nat} {o : Outcome} {r : InPort × Form} (h : deleteOnError fn o = .ok r) : o = .ok r := by
  cases o with
  | error e => cases h
  | ok r' => exact h

theorem parseFile_ok {key : List Char} {r : InPort × Form} (h : parseFile env k key climit flimit ip form = .ok r) :
    ∃ content ip' n,
      copyPart env.toPartEnv (env.disk.accepts form.next) (some flimit) .fileLimitExceeded ip = .ok (content, ip', n) ∧
      k climit (flimit - n) ip' (form.stored key) = .ok r := by
  unfold parseFile at h
  simp only at h
  split at h
  · have h := deleteOnError_ok h
    split at h
    · cases h
    · rename_i content ip' n hcopy
      split at h
      · exact ⟨content, ip', n, hcopy, h⟩
      · cases h
  · cases h

/-- A part is read only as its section is taken. -/
theorem parseNext_ok (hready : env.toPartEnv.Ready) (hc : 0 ≤ climit) (hf : 0 ≤ flimit) {r : InPort × Form}
    (h : parseNext env k climit flimit ip form = .ok r) :
    ∃ data ip₁ content ip₂ n climit' flimit' form', readDisposition env.toPartEnv ip = .ok (data, ip₁) ∧
      copyPart env.toPartEnv (fun _ => true) none .outOfFuel ip₁ = .ok (content, ip₂, n) ∧
      takeSection env (sectionOf data content) climit flimit form = .ok (climit', flimit', form') ∧
      k climit' flimit' ip₂ form' = .ok r := by
  unfold parseNext at h
  cases hread : readDisposition env.toPartEnv ip with
  | error e =>
    rw [hread] at h
    cases h
  | ok x =>
    obtain ⟨data, ip₁⟩ := x
    rw [hread] at h
    simp only at h
    cases hfile : Assoc.find data "filename".toList with
    | some filename =>
      rw [hfile] at h
      simp only at h
      cases hname : Assoc.find data "name".toList with
      | none =>
        rw [hname] at h
        cases h
      | some key =>
        rw [hname] at h
        simp only at h
        by_cases hsave : key ∈ env.files ∧ Assoc.find form.result key = none
        · rw [if_pos hsave] at h
          obtain ⟨content, ip₂, n, hcopy, hnext⟩ := parseFile_ok h
          obtain ⟨hnone, rfl, hlimit⟩ := copyPart_ok hready hf hcopy
          refine ⟨data, ip₁, content, ip₂, _, _, _, _, rfl, hnone, ?_, hnext⟩
          simp only [takeSection, sectionOf, hfile, hname, Option.isSome_some, if_true, if_neg hlimit, if_pos hsave, Form.stored]
        · rw [if_neg hsave] at h
          cases hcopy : copyPart env.toPartEnv (fun _ => true) (some flimit) .fileLimitExceeded ip₁ with
          | error e =>
            rw [hcopy] at h
            cases h
          | ok x =>
            obtain ⟨content, ip₂, n⟩ := x
            rw [hcopy] at h
            obtain ⟨hnone, rfl, hlimit⟩ := copyPart_ok hready hf hcopy
            refine ⟨data, ip₁, content, ip₂, _, _, _, _, rfl, hnone, ?_, h⟩
            simp only [takeSection, sectionOf, hfile, hname, Option.isSome_some, if_true, if_neg hlimit, if_neg hsave]
    | none =>
      rw [hfile] at h
      simp only at h
      cases hcopy : copyPart env.toPartEnv (fun _ => true) (some climit) .contentLimitExceeded ip₁ with
      | error e =>
        rw [hcopy] at h
        cases h
      | ok x =>
        obtain ⟨content, ip₂, n⟩ := x
        rw [hcopy] at h
        simp only at h
        cases hname : Assoc.find data "name".toList with
        | none =>
          rw [hname] at h
          cases h
        | some key =>
          rw [hname] at h
          obtain ⟨hnone, rfl, hlimit⟩ := copyPart_ok hready hc hcopy
          refine ⟨data, ip₁, content, ip₂, _, _, _, _, rfl, hnone, ?_, h⟩
          simp only [takeSection, sectionOf, hfile, hname, Option.isSome_none, Bool.false_eq_true, if_false, if_neg hlimit]

/-- The outcome o is the outcome of what follows, but for the form that an exception leaves. -/
def Passes (next o : Outcome) : Prop :=
  (∀ r, next = .ok r → o = .ok r) ∧ ∀ e form, next = .error (e, form) → ∃ form', o = .error (e, form')

theorem passes_self (o : Outcome) : Passes o o := ⟨fun _ h => h, fun _ form h => ⟨form, h⟩⟩

theorem passes_deleteOnError (fn : Nat) (o : Outcome) : Passes o (deleteOnError fn o) := by
  constructor
  · intro r h
    rw [h]
    rfl
  · intro e form h
    rw [h]
    exact ⟨_, rfl⟩

theorem parseFile_works (hworks : env.disk.Works) (key : List Char) {content : List UInt8} {ip' : InPort} {n : Int}
    (hcopy : copyPart env.toPartEnv (fun _ => true) (some flimit) .fileLimitExceeded ip = .ok (content, ip', n)) :
    Passes (k climit (flimit - n) ip' (form.stored key)) (parseFile env k key climit flimit ip form) := by
  have haccepts : env.disk.accepts form.next = fun _ => true := funext (hworks.2.1 form.next)
  unfold parseFile
  simp only [hworks.1 form.next, haccepts, hcopy, hworks.2.2 form.next, if_true]
  exact passes_deleteOnError _ _

theorem parseFile_limit (hworks : env.disk.Works) (key : List Char) {e : FormError}
    (hcopy : copyPart env.toPartEnv (fun _ => true) (some flimit) .fileLimitExceeded ip = .error e) :
    ∃ form', parseFile env k key climit flimit ip form = .error (e, form') := by
  have haccepts : env.disk.accepts form.next = fun _ => true := funext (hworks.2.1 form.next)
  unfold parseFile
  simp only [hworks.1 form.next, haccepts, hcopy, if_true]
  exact ⟨_, rfl⟩

/-- A part does what its section does. -/
theorem parseNext_works (form : Form) (hready : env.toPartEnv.Ready) (hc : 0 ≤ climit) (hf : 0 ≤ flimit)
    {data : List (List Char × List Char)} {content : List UInt8} {ip₁ ip₂ : InPort} {n : Int}
    (hread : readDisposition env.toPartEnv ip = .ok (data, ip₁))
    (hcopy : copyPart env.toPartEnv (fun _ => true) none .outOfFuel ip₁ = .ok (content, ip₂, n))
    (hdisk : DiskFor env.disk env.files (sectionOf data content)) :
    (∀ e, takeSection env (sectionOf data content) climit flimit form = .error e →
      ∃ form', parseNext env k climit flimit ip form = .error (e, form')) ∧
    ∀ climit' flimit' form', takeSection env (sectionOf data content) climit flimit form = .ok (climit', flimit', form') →
      Passes (k climit' flimit' ip₂ form') (parseNext env k climit flimit ip form) := by
  obtain ⟨rfl, hlimits⟩ := copyPart_limit hready hcopy
  unfold parseNext
  simp only [hread]
  cases hfile : Assoc.find data "filename".toList with
  | some filename =>
    cases hname : Assoc.find data "name".toList with
    | none =>
      simp only [takeSection, sectionOf, hfile, hname, Option.isSome_some, if_true]
      refine ⟨fun e h => ⟨form, by cases h; rfl⟩, fun _ _ _ h => (by cases h)⟩
    | some key =>
      have hpart := hlimits flimit .fileLimitExceeded hf
      have hworks : key ∈ env.files → env.disk.Works := by
        intro hmem
        refine hdisk ?_ ⟨key, hmem, hname⟩
        simp only [sectionOf, hfile, Option.isSome_some]
      simp only [takeSection, sectionOf, hfile, hname, Option.isSome_some, if_true]
      by_cases hlimit : flimit < counted env.toPartEnv content.length
      · rw [if_pos hlimit] at hpart
        simp only [if_pos hlimit]
        refine ⟨fun e h => ?_, fun _ _ _ h => (by cases h)⟩
        cases h
        split
        · rename_i hsave
          exact parseFile_limit (hworks hsave.1) key hpart
        · rw [hpart]
          exact ⟨form, rfl⟩
      · rw [if_neg hlimit] at hpart
        simp only [if_neg hlimit]
        by_cases hsave : key ∈ env.files ∧ Assoc.find form.result key = none
        · simp only [if_pos hsave]
          refine ⟨fun _ h => (by cases h), fun climit' flimit' form' h => ?_⟩
          cases h
          exact parseFile_works (hworks hsave.1) key hpart
        · simp only [if_neg hsave, hpart]
          refine ⟨fun _ h => (by cases h), fun climit' flimit' form' h => ?_⟩
          cases h
          exact passes_self _
  | none =>
    have hpart := hlimits climit .contentLimitExceeded hc
    simp only [takeSection, sectionOf, hfile, Option.isSome_none, Bool.false_eq_true, if_false]
    by_cases hlimit : climit < counted env.toPartEnv content.length
    · rw [if_pos hlimit] at hpart
      simp only [if_pos hlimit, hpart]
      exact ⟨fun e h => ⟨form, by cases h; rfl⟩, fun _ _ _ h => (by cases h)⟩
    · rw [if_neg hlimit] at hpart
      simp only [if_neg hlimit, hpart]
      cases hname : Assoc.find data "name".toList with
      | none => exact ⟨fun e h => ⟨form, by cases h; rfl⟩, fun _ _ _ h => (by cases h)⟩
      | some name =>
        refine ⟨fun _ h => (by cases h), fun climit' flimit' form' h => ?_⟩
        cases h
        exact passes_self _

end

section

variable {env : FormEnv} {ip ip' : InPort} {form : Form} {climit flimit : Int}

theorem readSections_part {env : PartEnv} {fuel : Nat} {ip₁ ip₂ ip₃ : InPort} {data : List (List Char × List Char)}
    {content : List UInt8} {n : Int} {sections : List Section} (hpart : partFollows ip = .ok (true, ip₁))
    (hread : readDisposition env ip₁ = .ok (data, ip₂))
    (hcopy : copyPart env (fun _ => true) none .outOfFuel ip₂ = .ok (content, ip₃, n))
    (hrest : readSections env fuel ip₃ = .ok (sections, ip')) :
    readSections env (fuel + 1) ip = .ok (sectionOf data content :: sections, ip') := by
  rw [readSections, hpart]
  simp only [hread, bind, Except.bind, hcopy, hrest]
  rfl

/-- The first of the parts that are read. -/
theorem readSections_cases {env : PartEnv} {fuel : Nat} {sections : List Section}
    (h : readSections env (fuel + 1) ip = .ok (sections, ip')) :
    (sections = [] ∧ partFollows ip = .ok (false, ip')) ∨
    ∃ ip₁ ip₂ ip₃ data content n rest, partFollows ip = .ok (true, ip₁) ∧
      readDisposition env ip₁ = .ok (data, ip₂) ∧
      copyPart env (fun _ => true) none .outOfFuel ip₂ = .ok (content, ip₃, n) ∧
      readSections env fuel ip₃ = .ok (rest, ip') ∧ sections = sectionOf data content :: rest := by
  rw [readSections] at h
  cases hpart : partFollows ip with
  | error e =>
    rw [hpart] at h
    cases h
  | ok x =>
    obtain ⟨more, ip₁⟩ := x
    rw [hpart] at h
    cases more with
    | false =>
      cases h
      exact Or.inl ⟨rfl, rfl⟩
    | true =>
      simp only [bind, Except.bind] at h
      cases hread : readDisposition env ip₁ with
      | error e =>
        rw [hread] at h
        cases h
      | ok x =>
        obtain ⟨data, ip₂⟩ := x
        rw [hread] at h
        simp only at h
        cases hcopy : copyPart env (fun _ => true) none .outOfFuel ip₂ with
        | error e =>
          rw [hcopy] at h
          cases h
        | ok x =>
          obtain ⟨content, ip₃, n⟩ := x
          rw [hcopy] at h
          simp only at h
          cases hrest : readSections env fuel ip₃ with
          | error e =>
            rw [hrest] at h
            cases h
          | ok x =>
            obtain ⟨rest, ip₄⟩ := x
            rw [hrest] at h
            cases h
            exact Or.inr ⟨ip₁, ip₂, ip₃, data, content, n, rest, rfl, hread, hcopy, hrest, rfl⟩

theorem fill_cons {s : Section} {sections : List Section} {climit' flimit' : Int} {form₁ : Form}
    (h : takeSection env s climit flimit form = .ok (climit', flimit', form₁)) :
    fill env (s :: sections) climit flimit form = fill env sections climit' flimit' form₁ := by
  rw [fill, h]
  rfl

theorem fill_cons_error {s : Section} {sections : List Section} {e : FormError}
    (h : takeSection env s climit flimit form = .error e) : fill env (s :: sections) climit flimit form = .error e := by
  rw [fill, h]
  rfl

/-- A form that is returned is filled from the parts of the input. -/
theorem parseEnd_ok (hready : env.toPartEnv.Ready) (fuel : Nat) {form' : Form} (hc : 0 ≤ climit) (hf : 0 ≤ flimit)
    (h : parseEnd env fuel climit flimit ip form = .ok (ip', form')) :
    ∃ sections, readSections env.toPartEnv fuel ip = .ok (sections, ip') ∧ fill env sections climit flimit form = .ok form' := by
  induction fuel generalizing climit flimit ip form with
  | zero => cases h
  | succ fuel ih =>
    rw [parseEnd] at h
    cases hpart : partFollows ip with
    | error e =>
      rw [hpart] at h
      cases h
    | ok x =>
      obtain ⟨more, ip₁⟩ := x
      rw [hpart] at h
      cases more with
      | false =>
        cases h
        refine ⟨[], ?_, rfl⟩
        rw [readSections, hpart]
      | true =>
        obtain ⟨data, ip₂, content, ip₃, n, climit', flimit', form₁, hread, hcopy, htake, hnext⟩ :=
          parseNext_ok hready hc hf h
        obtain ⟨hc', hf'⟩ := takeSection_nonneg hready hc hf htake
        obtain ⟨sections, hsections, hfill⟩ := ih hc' hf' hnext
        exact ⟨_, readSections_part hpart hread hcopy hsections, (fill_cons htake).trans hfill⟩

/-- The parser fills the form from the parts of the input. -/
theorem parseEnd_works (hready : env.toPartEnv.Ready) (form : Form) (fuel : Nat) (sections : List Section)
    (hdisk : ∀ s ∈ sections, DiskFor env.disk env.files s) (hc : 0 ≤ climit) (hf : 0 ≤ flimit) (h : readSections env.toPartEnv fuel ip = .ok (sections, ip')) :
    (∀ form', fill env sections climit flimit form = .ok form' →
      parseEnd env fuel climit flimit ip form = .ok (ip', form')) ∧
    ∀ e, fill env sections climit flimit form = .error e →
      ∃ form', parseEnd env fuel climit flimit ip form = .error (e, form') := by
  induction fuel generalizing climit flimit ip form sections with
  | zero => cases h
  | succ fuel ih =>
    obtain ⟨rfl, hpart⟩ | ⟨ip₁, ip₂, ip₃, data, content, n, rest, hpart, hread, hcopy, hrest, rfl⟩ := readSections_cases h
    · simp only [parseEnd, hpart, fill]
      refine ⟨fun form' h => ?_, fun e h => (by cases h)⟩
      cases h
      rfl
    · obtain ⟨herror, hok⟩ := parseNext_works (k := parseEnd env fuel) form hready hc hf hread hcopy
        (hdisk _ List.mem_cons_self)
      simp only [parseEnd, hpart]
      cases htake : takeSection env (sectionOf data content) climit flimit form with
      | error e =>
        rw [fill_cons_error htake]
        refine ⟨fun form' h => (by cases h), fun e' h => ?_⟩
        cases h
        exact herror e htake
      | ok x =>
        obtain ⟨climit', flimit', form₁⟩ := x
        obtain ⟨hc', hf'⟩ := takeSection_nonneg hready hc hf htake
        obtain ⟨hpass, hraise⟩ := hok climit' flimit' form₁ htake
        obtain ⟨hnext, hnexterr⟩ := ih form₁ rest (fun s hs => hdisk s (List.mem_cons_of_mem _ hs)) hc' hf' hrest
        rw [fill_cons htake]
        refine ⟨fun form' h => hpass _ (hnext form' h), fun e h => ?_⟩
        obtain ⟨form₂, h₂⟩ := hnexterr e h
        exact hraise e form₂ h₂

end

section

variable {t : Text} {disk : Disk} {headerLimit : Int} {boundary : List Char} {files : List (List Char)} {ip ip' : InPort}

theorem makePartial_delimiter (t : Text) (headerLimit : Int) (boundary : List Char) :
    ∃ table, makePartial (delimiter boundary) = .ok table ∧
      PartEnv.Ready ⟨t, headerLimit, delimiter boundary, table⟩ := by
  have hne : delimiter boundary ≠ [] := by
    intro h
    cases utf8_eq_nil h
  obtain ⟨table, hmake, hlen, hfilled⟩ := makePartial_filled hne
  exact ⟨table, hmake, hfilled, hlen, List.length_pos_of_ne_nil hne⟩

theorem parseMultipart_ok {contentLimit fileLimit : Nat} {form : Form}
    (h : parseMultipart t disk headerLimit boundary contentLimit fileLimit files ip = .ok (ip', form)) :
    ∃ sections table, formSections t headerLimit boundary ip = .ok (sections, ip') ∧
      fill ⟨⟨t, headerLimit, delimiter boundary, table⟩, files, disk⟩ sections contentLimit fileLimit Form.empty =
        .ok form := by
  obtain ⟨table, hmake, hready⟩ := makePartial_delimiter t headerLimit boundary
  unfold parseMultipart at h
  unfold formSections
  simp only [hmake] at h ⊢
  cases hexpect : expectBytes (utf8 boundary) ip with
  | error e =>
    rw [hexpect] at h
    cases h
  | ok ip₁ =>
    rw [hexpect] at h
    obtain ⟨sections, hsections, hfill⟩ := parseEnd_ok hready _ (Int.natCast_nonneg _) (Int.natCast_nonneg _) h
    exact ⟨sections, table, hsections, hfill⟩

theorem parseMultipart_works {sections : List Section} (hdisk : ∀ s ∈ sections, DiskFor disk files s)
    (contentLimit fileLimit : Nat) (h : formSections t headerLimit boundary ip = .ok (sections, ip')) :
    ∃ table,
      (∀ form, fill ⟨⟨t, headerLimit, delimiter boundary, table⟩, files, disk⟩ sections contentLimit fileLimit
          Form.empty = .ok form →
        parseMultipart t disk headerLimit boundary contentLimit fileLimit files ip = .ok (ip', form)) ∧
      ∀ e, fill ⟨⟨t, headerLimit, delimiter boundary, table⟩, files, disk⟩ sections contentLimit fileLimit
          Form.empty = .error e →
        ∃ form, parseMultipart t disk headerLimit boundary contentLimit fileLimit files ip = .error (e, form) := by
  obtain ⟨table, hmake, hready⟩ := makePartial_delimiter t headerLimit boundary
  unfold formSections at h
  unfold parseMultipart
  simp only [hmake] at h ⊢
  cases hexpect : expectBytes (utf8 boundary) ip with
  | error e =>
    rw [hexpect] at h
    cases h
  | ok ip₁ =>
    rw [hexpect] at h
    exact ⟨table, parseEnd_works hready Form.empty _ sections hdisk (Int.natCast_nonneg _) (Int.natCast_nonneg _) h⟩

end

end Swish.Http
