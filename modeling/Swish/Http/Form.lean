import Swish.Http.Headers
import Swish.Http.Sections

/-!
A form as a client encodes it, and what parse-multipart/form-data makes of the bytes.
-/

set_option autoImplicit false

namespace Swish.Http

/-- A part as the client has it. -/
structure Part where
  name : List Char
  filename : Option (List Char)
  /-- The other fields of its header. -/
  fields : Object
  content : List UInt8

def quoted (key val : List Char) : List Char := key ++ '=' :: '"' :: (val ++ ['"'])

/-- The value of the field Content-Disposition. -/
def Part.disposition (p : Part) : List Char :=
  "form-data; ".toList ++ quoted "name".toList p.name ++
    p.filename.elim [] fun f => ';' :: ' ' :: quoted "filename".toList f

def Part.header (p : Part) : Object := ("Content-Disposition".toList, p.disposition) :: p.fields

def Part.encode (boundary : List Char) (p : Part) : List UInt8 :=
  [carriageReturn, newline] ++ writeHeader p.header ++ p.content ++ delimiter boundary

/-- The body of the request. -/
def encodeForm (boundary : List Char) (parts : List Part) : List UInt8 :=
  utf8 boundary ++ parts.flatMap (Part.encode boundary) ++ [45, 45, carriageReturn, newline]

/-- The parts that are no files, in order. -/
def textParts (t : Text) (parts : List Part) : List (List Char × FormValue) :=
  parts.filterMap fun p => p.filename.elim (some (p.name, .text (t.decode p.content))) fun _ => none

/-- A part that can be encoded with this boundary, and is no file to be stored. -/
structure Part.Sendable (t : Text) (boundary : List Char) (files : List (List Char)) (p : Part) : Prop where
  name : '"' ∉ p.name ∧ Unbroken p.name
  filename : ∀ f, p.filename = some f → ('"' ∉ f ∧ Unbroken f) ∧ p.name ∉ files
  fields : ∀ kv ∈ p.fields, Writable kv ∧ t.downcase kv.1 ≠ "content-disposition".toList
  content : ¬ delimiter boundary <:+: p.content

theorem takeWhile_ne {c : Char} {s : List Char} (h : c ∉ s) (rest : List Char) :
    (s ++ c :: rest).takeWhile (· ≠ c) = s := by
  induction s with
  | nil => simp
  | cons d s ih =>
    have hd : d ≠ c := fun heq => h (by simp [heq])
    rw [List.cons_append, List.takeWhile_cons_of_pos (by simpa using hd), ih fun hmem => h (by simp [hmem])]

theorem matchParam_last {key val : List Char} (hne : key ≠ []) (hkey : '=' ∉ key) (hval : '"' ∉ val) :
    matchParam (quoted key val) = some (key, val, none) := by
  unfold matchParam quoted
  simp only [takeWhile_ne hkey, if_neg hne, List.drop_left, takeWhile_ne hval]

theorem matchParam_more {key val : List Char} (hne : key ≠ []) (hkey : '=' ∉ key) (hval : '"' ∉ val) (rest : List Char) :
    matchParam (quoted key val ++ ';' :: rest) = (matchRest rest).map fun params => (key, val, some params) := by
  have hsplit : quoted key val ++ ';' :: rest = key ++ '=' :: '"' :: (val ++ '"' :: ';' :: rest) := by
    simp [quoted]
  unfold matchParam
  rw [hsplit]
  simp only [takeWhile_ne hkey, if_neg hne, List.drop_left, takeWhile_ne hval]

theorem matchRest_space {s : List Char} (hs : ∃ c, s.head? = some c ∧ charWhitespace c = false) (h : '\n' ∉ s) :
    matchRest (' ' :: s) = some s := by
  obtain ⟨c, hc, hblack⟩ := hs
  have hspace : charWhitespace ' ' = true := by decide
  cases s with
  | nil => cases hc
  | cons d s =>
    cases hc
    unfold matchRest
    simp only [List.dropWhile_cons, hspace, hblack, if_true, Bool.false_eq_true, if_false, if_neg h]

theorem quoted_name_starts (val rest : List Char) : (quoted "name".toList val ++ rest).head? = some 'n' := by
  have hname : "name".toList = ['n', 'a', 'm', 'e'] := by decide
  rw [hname]
  rfl

theorem quoted_filename_starts (val : List Char) : (quoted "filename".toList val).head? = some 'f' := by
  have hfilename : "filename".toList = ['f', 'i', 'l', 'e', 'n', 'a', 'm', 'e'] := by decide
  rw [hfilename]
  rfl

theorem Unbroken.append {s s' : List Char} (h : Unbroken s) (h' : Unbroken s') : Unbroken (s ++ s') :=
  ⟨by simp [h.1, h'.1], by simp [h.2, h'.2]⟩

theorem unbroken_quoted {key val : List Char} (hkey : Unbroken key) (hval : Unbroken val) : Unbroken (quoted key val) := by
  unfold quoted
  exact hkey.append ⟨by simp [hval.1], by simp [hval.2]⟩

section

variable {t : Text} {boundary : List Char} {files : List (List Char)} {p : Part}

/-- The parameters of the disposition. -/
def Part.params (p : Part) : List (List Char × List Char) :=
  ("name".toList, p.name) :: p.filename.elim [] fun f => [("filename".toList, f)]

theorem unbroken_filename (h : p.Sendable t boundary files) :
    Unbroken (p.filename.elim [] fun f => ';' :: ' ' :: quoted "filename".toList f) := by
  cases hf : p.filename with
  | none => exact ⟨by simp, by simp⟩
  | some f =>
    have hquoted : Unbroken (quoted "filename".toList f) :=
      unbroken_quoted ⟨by decide, by decide⟩ (h.filename f hf).1.2
    exact ⟨by simpa using hquoted.1, by simpa using hquoted.2⟩

theorem unbroken_disposition (h : p.Sendable t boundary files) : Unbroken p.disposition := by
  have hstart : Unbroken "form-data; ".toList := ⟨by decide, by decide⟩
  have hname : Unbroken (quoted "name".toList p.name) := unbroken_quoted ⟨by decide, by decide⟩ h.name.2
  exact (hstart.append hname).append (unbroken_filename h)

/-- What follows form-data; in the disposition. -/
def Part.parameterText (p : Part) : List Char :=
  quoted "name".toList p.name ++ p.filename.elim [] fun f => ';' :: ' ' :: quoted "filename".toList f

theorem disposition_eq (p : Part) : p.disposition = "form-data;".toList ++ ' ' :: p.parameterText := by
  have hstart : "form-data; ".toList = "form-data;".toList ++ [' '] := by decide
  unfold Part.disposition Part.parameterText
  rw [hstart]
  simp only [List.append_assoc, List.cons_append, List.nil_append]

theorem matchFormData_disposition (h : p.Sendable t boundary files) :
    matchFormData p.disposition = some p.parameterText := by
  have hdrop : ("form-data;".toList ++ ' ' :: p.parameterText).drop 10 = ' ' :: p.parameterText :=
    List.drop_left' (by decide)
  have hunbroken := (unbroken_disposition h).1
  rw [disposition_eq] at hunbroken ⊢
  have hnl : '\n' ∉ p.parameterText := fun hmem => hunbroken (by simp [hmem])
  unfold matchFormData
  rw [if_pos (List.prefix_append _ _), hdrop]
  exact matchRest_space ⟨'n', quoted_name_starts _ _, by decide⟩ hnl

theorem parseParams_params (h : p.Sendable t boundary files) (d : List Char) (fuel : Nat) :
    parseParams d (fuel + 3) (some p.parameterText) = .ok p.params := by
  have hname : "name".toList ≠ [] ∧ '=' ∉ "name".toList := by decide
  have hfilename : "filename".toList ≠ [] ∧ '=' ∉ "filename".toList := by decide
  unfold Part.parameterText Part.params
  cases hf : p.filename with
  | none =>
    have hmatch := matchParam_last hname.1 hname.2 h.name.1
    simp only [Option.elim_none, List.append_nil, parseParams, hmatch]
    rfl
  | some f =>
    have hquoted : Unbroken (quoted "filename".toList f) :=
      unbroken_quoted ⟨by decide, by decide⟩ (h.filename f hf).1.2
    have hrest : matchRest (' ' :: quoted "filename".toList f) = some (quoted "filename".toList f) :=
      matchRest_space ⟨'f', quoted_filename_starts f, by decide⟩ hquoted.1
    have hmatch := matchParam_more hname.1 hname.2 h.name.1 (' ' :: quoted "filename".toList f)
    have hmatch' := matchParam_last hfilename.1 hfilename.2 (h.filename f hf).1.1
    rw [hrest] at hmatch
    simp only [Option.elim_some, parseParams, hmatch, Option.map_some, hmatch']
    rfl

/-- The disposition is taken apart again. -/
theorem parseFormDataDisposition_disposition (h : p.Sendable t boundary files) :
    parseFormDataDisposition p.disposition = .ok p.params := by
  obtain ⟨n, hn⟩ : ∃ n, p.disposition.length = n + 1 := by
    rw [disposition_eq, List.length_append, List.length_cons]
    exact ⟨_, rfl⟩
  unfold parseFormDataDisposition
  rw [matchFormData_disposition h, hn]
  exact parseParams_params h p.disposition n

theorem writable_header (h : p.Sendable t boundary files) : ∀ kv ∈ p.header, Writable kv := by
  intro kv hkv
  obtain rfl | hkv := List.mem_cons.mp hkv
  · have hstart : p.disposition.head? = some 'f' := by
      have hlit : "form-data;".toList = ['f', 'o', 'r', 'm', '-', 'd', 'a', 't', 'a', ';'] := by decide
      rw [disposition_eq, hlit]
      rfl
    have hname : ':' ∉ "Content-Disposition".toList ∧ Unbroken "Content-Disposition".toList :=
      ⟨by decide, by decide, by decide⟩
    refine ⟨hname.1, hname.2, unbroken_disposition h, ?_⟩
    show p.disposition.head? ≠ some ' ' ∧ p.disposition.head? ≠ some '\t'
    rw [hstart]
    decide
  · exact (h.fields kv hkv).1

/-- The header of a part is read, up to its content. -/
theorem readDisposition_part {env : PartEnv} (ht : env.text.Decodes)
    (hdowncase : env.text.downcase "Content-Disposition".toList = "content-disposition".toList)
    (h : p.Sendable env.text boundary files) (hlimit : ((writeHeader p.header).length : Int) ≤ env.headerLimit) (pos : Nat)
    (rest : List UInt8) :
    readDisposition env ⟨pos, writeHeader p.header ++ rest⟩ =
      .ok (p.params, ⟨pos + (writeHeader p.header).length, rest⟩) := by
  have hlines : ((utf8 (p.header.flatMap headerLine)).length : Int) ≤ env.headerLimit := by
    have := lines_le_writeHeader p.header
    omega
  have hfind : Object.find (joinAll env.text p.header []) "content-disposition".toList = some p.disposition := by
    rw [find_read]
    exact joinedValues_single env.text hdowncase fun kv hkv => (h.fields kv hkv).2
  unfold readDisposition
  rw [readHeader_written env.text ht (writable_header h) hlines]
  simp only [hfind, parseFormDataDisposition_disposition h]
  rfl

end

/-- A pattern whose first byte does not come again in it is found where it was put. -/
theorem firstAt_append {b : UInt8} {pattern content : List UInt8} (hb : b ∉ pattern) (hcontent : ¬ (b :: pattern) <:+: content)
    (rest : List UInt8) : FirstAt (b :: pattern) (content ++ (b :: pattern ++ rest)) content.length := by
  refine ⟨?_, fun j hj hpre => ?_⟩
  · rw [List.drop_left]
    exact List.prefix_append _ _
  · rw [List.drop_append_of_le_length (Nat.le_of_lt hj)] at hpre
    have hhead : content.drop j <+: content.drop j ++ (b :: pattern ++ rest) := List.prefix_append _ _
    obtain hle | hle := Nat.le_total (b :: pattern).length (content.drop j).length
    · have hin : (b :: pattern) <+: content.drop j := List.prefix_of_prefix_length_le hpre hhead hle
      exact hcontent (hin.isInfix.trans (List.drop_suffix j content).isInfix)
    · -- the occurrence runs into the pattern that was put there
      obtain ⟨q, hq⟩ := List.prefix_of_prefix_length_le hhead hpre hle
      obtain ⟨tail, htail⟩ := hpre
      have hboth : content.drop j ++ (q ++ tail) = content.drop j ++ (b :: pattern ++ rest) := by
        rw [← List.append_assoc, hq, htail]
      have hrest : q ++ tail = b :: pattern ++ rest := List.append_cancel_left hboth
      cases hdrop : content.drop j with
      | nil =>
        have := congrArg List.length hdrop
        rw [List.length_drop, List.length_nil] at this
        omega
      | cons x xs =>
        rw [hdrop] at hq
        have hpattern : xs ++ q = pattern := (List.cons.inj hq).2
        cases q with
        | nil =>
          rw [List.append_nil] at hq
          have hwhole : content.drop j = b :: pattern := hdrop.trans hq
          exact hcontent (hwhole ▸ (List.drop_suffix j content).isInfix)
        | cons y q =>
          have hy : y = b := (List.cons.inj hrest).1
          exact hb (hpattern ▸ hy ▸ List.mem_append_right xs List.mem_cons_self)

/-- The section that a part of the form becomes. -/
def Part.section (p : Part) : Section := ⟨some p.name, p.filename.isSome, p.content⟩

theorem sectionOf_params (p : Part) : sectionOf p.params p.content = p.section := by
  unfold sectionOf Part.params Part.section
  cases p.filename with
  | none => simp [Assoc.find_cons]
  | some f => simp [Assoc.find_cons]

theorem delimiter_eq (boundary : List Char) : delimiter boundary = carriageReturn :: newline :: utf8 boundary := by
  unfold delimiter
  rw [utf8_ascii (by decide), utf8_ascii (by decide)]
  rfl

theorem partFollows_part (pos : Nat) (rest : List UInt8) :
    partFollows ⟨pos, carriageReturn :: newline :: rest⟩ = .ok (true, ⟨pos + 2, rest⟩) := rfl

section

variable {env : PartEnv} {boundary : List Char} {files : List (List Char)}

/-- The content of a part is found, up to the delimiter. -/
theorem copyPart_content (hready : env.Ready) (hpattern : env.pattern = delimiter boundary) (hboundary : '\r' ∉ boundary)
    {content : List UInt8} (hcontent : ¬ delimiter boundary <:+: content) (err : FormError) (pos : Nat) (rest : List UInt8) :
    copyPart env (fun _ => true) none err ⟨pos, content ++ (delimiter boundary ++ rest)⟩ =
      .ok (content, ⟨pos + (content.length + (delimiter boundary).length), rest⟩, content.length) := by
  have hcr : carriageReturn ∉ newline :: utf8 boundary := by
    have := not_mem_utf8 (c := '\r') (by decide) hboundary
    intro hmem
    obtain heq | hmem := List.mem_cons.mp hmem
    · exact absurd heq (by decide)
    · exact this hmem
  have hfirst : FirstAt env.pattern (content ++ (env.pattern ++ rest)) content.length := by
    rw [hpattern, delimiter_eq] at *
    exact firstAt_append hcr hcontent rest
  obtain ⟨hle, hstops⟩ := stops_of_firstAt hready.pos hfirst
  have hstops : Stops env.pattern (InPort.mk pos (content ++ (env.pattern ++ rest))).rest
      (content.length + env.pattern.length) := hstops
  have hcopy := copyUntilMatch_stops hready.filled hready.length hready.pos hstops (enough_none 0)
  have hdrop : (content ++ (env.pattern ++ rest)).drop (content.length + env.pattern.length) = rest := by
    rw [← List.drop_drop, List.drop_left, List.drop_left]
  rw [if_pos (enough_none _), if_pos hle, Nat.add_sub_cancel, List.take_left, hdrop] at hcopy
  unfold copyPart
  rw [← hpattern, hcopy]

/-- The parts that are read from the bytes of a form are those of the form. -/
theorem readSections_encode (ht : env.text.Decodes)
    (hdowncase : env.text.downcase "Content-Disposition".toList = "content-disposition".toList) (hready : env.Ready)
    (hpattern : env.pattern = delimiter boundary) (hboundary : '\r' ∉ boundary) (parts : List Part)
    (hparts : ∀ p ∈ parts, p.Sendable env.text boundary files ∧ ((writeHeader p.header).length : Int) ≤ env.headerLimit)
    (rest : List UInt8) (fuel pos : Nat) (hfuel : parts.length < fuel) :
    readSections env fuel ⟨pos, parts.flatMap (Part.encode boundary) ++ (45 :: 45 :: carriageReturn :: newline :: rest)⟩ =
      .ok (parts.map Part.section, ⟨pos + (parts.flatMap (Part.encode boundary)).length + 4, rest⟩) := by
  induction parts generalizing fuel pos with
  | nil =>
    cases fuel with
    | zero => simp at hfuel
    | succ fuel => rfl
  | cons p parts ih =>
    cases fuel with
    | zero => simp at hfuel
    | succ fuel =>
      obtain ⟨hsend, hheader⟩ := hparts p (by simp)
      have hnext := fun pos => ih (fun p hp => hparts p (by simp [hp])) fuel pos (Nat.lt_of_succ_lt_succ hfuel)
      have hbytes : (p :: parts).flatMap (Part.encode boundary) ++ (45 :: 45 :: carriageReturn :: newline :: rest) =
          carriageReturn :: newline :: (writeHeader p.header ++ (p.content ++ (delimiter boundary ++
            (parts.flatMap (Part.encode boundary) ++ (45 :: 45 :: carriageReturn :: newline :: rest))))) := by
        simp only [List.flatMap_cons, Part.encode, List.append_assoc, List.cons_append, List.nil_append]
      have hlen : pos + 2 + (writeHeader p.header).length + (p.content.length + (delimiter boundary).length) +
          (parts.flatMap (Part.encode boundary)).length + 4 =
          pos + ((p :: parts).flatMap (Part.encode boundary)).length + 4 := by
        simp only [List.flatMap_cons, Part.encode, List.length_append, List.length_cons, List.length_nil]
        omega
      rw [hbytes, ← hlen, List.map_cons, ← sectionOf_params]
      exact readSections_part (partFollows_part pos _) (readDisposition_part ht hdowncase hsend hheader _ _)
        (copyPart_content hready hpattern hboundary hsend.content _ _ _) (hnext _)

end

theorem expectBytes_self (bv rest : List UInt8) (pos : Nat) :
    expectBytes bv ⟨pos, bv ++ rest⟩ = .ok ⟨pos + bv.length, rest⟩ := by
  induction bv generalizing pos with
  | nil => rfl
  | cons b bv ih =>
    have hnext : nextU8 ⟨pos, b :: bv ++ rest⟩ = .ok (b, ⟨pos + 1, bv ++ rest⟩) := rfl
    have hpos : pos + 1 + bv.length = pos + (b :: bv).length := by
      rw [List.length_cons]
      omega
    rw [expectBytes, hnext]
    simp only [bind, Except.bind, if_true]
    rw [ih, hpos]

theorem length_encode (boundary : List Char) (p : Part) :
    (p.encode boundary).length = 2 + (writeHeader p.header).length + p.content.length + (delimiter boundary).length := by
  simp only [Part.encode, List.length_append, List.length_cons, List.length_nil]

/-- The strings of the form are set in turn. -/
theorem fill_parts {env : FormEnv} {boundary : List Char} (hpattern : env.pattern = delimiter boundary) (parts : List Part)
    (hfiles : ∀ p ∈ parts, ∀ f, p.filename = some f → p.name ∉ env.files) (climit flimit : Int)
    (hc : ((parts.flatMap (Part.encode boundary)).length : Int) ≤ climit)
    (hf : ((parts.flatMap (Part.encode boundary)).length : Int) ≤ flimit) (form : Form) :
    fill env (parts.map Part.section) climit flimit form =
      .ok { form with result := Assoc.setAll (textParts env.text parts) form.result } := by
  induction parts generalizing climit flimit form with
  | nil => rfl
  | cons p parts ih =>
    rw [List.flatMap_cons, List.length_append, length_encode] at hc hf
    have hrest := ih fun p hp => hfiles p (by simp [hp])
    have hcounted : counted env.toPartEnv p.content.length ≤ p.content.length + (delimiter boundary).length := by
      unfold counted
      rw [hpattern]
      omega
    rw [List.map_cons]
    cases hname : p.filename with
    | none =>
      have htake : takeSection env p.section climit flimit form =
          .ok (climit - p.content.length, flimit, form.named p.name (env.text.decode p.content)) := by
        have hlimit : ¬ climit < counted env.toPartEnv p.content.length := by omega
        simp only [takeSection, Part.section, hname, Option.isSome_none, Bool.false_eq_true, if_false, if_neg hlimit, Form.named]
      have htexts : textParts env.text (p :: parts) =
          (p.name, .text (env.text.decode p.content)) :: textParts env.text parts := by
        simp [textParts, hname]
      rw [fill_cons htake, hrest _ _ (by omega) (by omega), htexts]
      rfl
    | some f =>
      have htake : takeSection env p.section climit flimit form = .ok (climit, flimit - p.content.length, form) := by
        have hlimit : ¬ flimit < counted env.toPartEnv p.content.length := by omega
        have hsave : ¬ (p.name ∈ env.files ∧ Assoc.find form.result p.name = none) :=
          fun h => hfiles p (by simp) f hname h.1
        simp only [takeSection, Part.section, hname, Option.isSome_some, if_true, if_neg hlimit, if_neg hsave]
      have htexts : textParts env.text (p :: parts) = textParts env.text parts := by
        simp [textParts, hname]
      rw [fill_cons htake, hrest _ _ (by omega) (by omega), htexts]

theorem length_parts (boundary : List Char) (parts : List Part) :
    parts.length ≤ (parts.flatMap (Part.encode boundary)).length ∧
      ∀ p ∈ parts, (writeHeader p.header).length ≤ (parts.flatMap (Part.encode boundary)).length := by
  induction parts with
  | nil => exact ⟨Nat.zero_le _, fun p hp => (by cases hp)⟩
  | cons p parts ih =>
    rw [List.flatMap_cons, List.length_append, length_encode, List.length_cons]
    refine ⟨by omega, fun p' hp' => ?_⟩
    obtain rfl | hp' := List.mem_cons.mp hp'
    · omega
    · have := ih.2 p' hp'
      omega

/-- The parts of an encoded form. -/
theorem formSections_encode {t : Text} (ht : t.Decodes)
    (hdowncase : t.downcase "Content-Disposition".toList = "content-disposition".toList) {boundary : List Char}
    (hboundary : '\r' ∉ boundary) {files : List (List Char)} (parts : List Part)
    (hparts : ∀ p ∈ parts, p.Sendable t boundary files) {headerLimit : Int}
    (hlimit : ((encodeForm boundary parts).length : Int) ≤ headerLimit) (pos : Nat) (rest : List UInt8) :
    formSections t headerLimit boundary ⟨pos, encodeForm boundary parts ++ rest⟩ =
      .ok (parts.map Part.section, ⟨pos + (encodeForm boundary parts).length, rest⟩) := by
  obtain ⟨table, hmake, hready⟩ := makePartial_delimiter t headerLimit boundary
  have hbytes : encodeForm boundary parts ++ rest = utf8 boundary ++ (parts.flatMap (Part.encode boundary) ++
      (45 :: 45 :: carriageReturn :: newline :: rest)) := by
    simp only [encodeForm, List.append_assoc, List.cons_append, List.nil_append]
  have hlen : (encodeForm boundary parts).length =
      (utf8 boundary).length + (parts.flatMap (Part.encode boundary)).length + 4 := by
    simp only [encodeForm, List.length_append, List.length_cons, List.length_nil]
  obtain ⟨hcount, hheader⟩ := length_parts boundary parts
  have hheaders : ∀ p ∈ parts, ((writeHeader p.header).length : Int) ≤ headerLimit := by
    intro p hp
    have := hheader p hp
    omega
  have hread := @readSections_encode ⟨t, headerLimit, delimiter boundary, table⟩ boundary files ht hdowncase hready rfl
    hboundary parts (fun p hp => ⟨hparts p hp, hheaders p hp⟩) rest
    ((parts.flatMap (Part.encode boundary) ++ (45 :: 45 :: carriageReturn :: newline :: rest)).length + 1)
    (pos + (utf8 boundary).length) (by rw [List.length_append]; omega)
  unfold formSections
  simp only [hmake]
  rw [hbytes, expectBytes_self]
  simp only
  rw [hread, hlen]
  congr 3
  omega

/-- A form is read back: each string under its name, the last one of a name, and nothing else. -/
theorem form_reads_back (t : Text) (ht : t.Decodes)
    (hdowncase : t.downcase "Content-Disposition".toList = "content-disposition".toList) (disk : Disk) (b : List Char)
    (hb : '\r' ∉ b) (files : List (List Char)) (parts : List Part)
    (hparts : ∀ p ∈ parts, p.Sendable t ('-' :: '-' :: b) files) (headerLimit : Int) (contentLimit fileLimit : Nat)
    (hheader : ((encodeForm ('-' :: '-' :: b) parts).length : Int) < headerLimit)
    (hcontent : (encodeForm ('-' :: '-' :: b) parts).length < contentLimit)
    (hfile : (encodeForm ('-' :: '-' :: b) parts).length < fileLimit) (pos : Nat) (rest : List UInt8) :
    ∃ form, parseMultipart t disk headerLimit ('-' :: '-' :: b) contentLimit fileLimit files
        ⟨pos, encodeForm ('-' :: '-' :: b) parts ++ rest⟩ =
          .ok (⟨pos + (encodeForm ('-' :: '-' :: b) parts).length, rest⟩, form) ∧
      (form.result.map Prod.fst).Nodup ∧ ∀ key, Assoc.find form.result key = Assoc.last (textParts t parts) key := by
  have hboundary : '\r' ∉ '-' :: '-' :: b := by simp [hb]
  generalize '-' :: '-' :: b = boundary at hparts hheader hcontent hfile hboundary ⊢
  have hsections := formSections_encode ht hdowncase hboundary parts hparts (Int.le_of_lt hheader) pos rest
  have hdisk : ∀ s ∈ parts.map Part.section, DiskFor disk files s := by
    intro s hs hisFile hkey
    obtain ⟨p, hp, rfl⟩ := List.mem_map.mp hs
    obtain ⟨f, hf⟩ := Option.isSome_iff_exists.mp hisFile
    obtain ⟨key, hmem, hname⟩ := hkey
    cases hname
    exact absurd hmem ((hparts p hp).filename f hf).2
  obtain ⟨table, hok, -⟩ := parseMultipart_works hdisk contentLimit fileLimit hsections
  have hlen : (parts.flatMap (Part.encode boundary)).length ≤ (encodeForm boundary parts).length := by
    simp only [encodeForm, List.length_append]
    omega
  have hfill := @fill_parts ⟨⟨t, headerLimit, delimiter boundary, table⟩, files, disk⟩ boundary rfl parts
    (fun p hp f hf => ((hparts p hp).filename f hf).2) contentLimit fileLimit (by omega) (by omega) Form.empty
  refine ⟨_, hok _ hfill, Assoc.nodup_setAll _ List.nodup_nil, fun key => ?_⟩
  have hfind := Assoc.find_setAll (textParts t parts) [] key
  rw [Assoc.find_nil, Option.or_none] at hfind
  exact hfind

theorem form_reads_back_pair :
    leanText.Decodes ∧ leanText.downcase "Content-Disposition".toList = "content-disposition".toList ∧
    ∃ form, parseMultipart leanText Disk.working 1000 ['-', '-', 'b'] (1000 : Nat) (1000 : Nat) []
        ⟨0, encodeForm ['-', '-', 'b'] [⟨['f'], none, [], [13, 10, 45]⟩, ⟨['f'], some ['x'], [], [65]⟩] ++ [7]⟩ =
          .ok (⟨0 + (encodeForm ['-', '-', 'b'] [⟨['f'], none, [], [13, 10, 45]⟩, ⟨['f'], some ['x'], [], [65]⟩]).length,
            [7]⟩, form) ∧
      (form.result.map Prod.fst).Nodup ∧ ∀ key, Assoc.find form.result key =
        Assoc.last (textParts leanText [⟨['f'], none, [], [13, 10, 45]⟩, ⟨['f'], some ['x'], [], [65]⟩]) key := by
  have hdowncase : leanText.downcase "Content-Disposition".toList = "content-disposition".toList := by decide
  have hname : '"' ∉ ['f'] ∧ Unbroken ['f'] := ⟨by decide, by decide, by decide⟩
  refine ⟨leanText_decodes, hdowncase, ?_⟩
  refine form_reads_back leanText leanText_decodes hdowncase Disk.working ['b'] (by decide) [] _ (fun p hp => ?_) 1000 1000
    1000 (by decide +kernel) (by decide +kernel) (by decide +kernel) 0 [7]
  obtain rfl | hp := List.mem_cons.mp hp
  · exact ⟨hname, fun f hf => (by cases hf), fun kv hkv => (by cases hkv), by decide⟩
  · obtain rfl := List.mem_singleton.mp hp
    refine ⟨hname, fun f hf => ?_, fun kv hkv => (by cases hkv), by decide⟩
    cases hf
    exact ⟨⟨by decide, by decide, by decide⟩, by decide⟩

/-- With a carriage return in the boundary the delimiter can begin in the content. -/
theorem delimiter_found_early :
    Part.Sendable leanText ['-', '-', 'a', '\r', '\n', '-', '-', 'a'] [] ⟨['f'], none, [], [13, 10, 45, 45, 97]⟩ ∧
    parseMultipart leanText Disk.working 1000 ['-', '-', 'a', '\r', '\n', '-', '-', 'a'] (1000 : Nat) (1000 : Nat) []
      ⟨0, encodeForm ['-', '-', 'a', '\r', '\n', '-', '-', 'a'] [⟨['f'], none, [], [13, 10, 45, 45, 97]⟩]⟩ =
        .error (.header .invalidHeader, ⟨[(['f'], .text [])], [], 0⟩) := by
  refine ⟨⟨⟨by decide, by decide, by decide⟩, fun f hf => (by cases hf), fun kv hkv => (by cases hkv), by decide⟩, ?_⟩
  decide +kernel

end Swish.Http
