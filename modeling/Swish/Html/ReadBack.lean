import Swish.Html.Reader
import Swish.Lib.Except

/-!
What html->string writes is read back as the tree of the pattern.
-/

set_option autoImplicit false

namespace Swish.Html

open Lib

def attrTree : Datum → List Attr
  | .pair (.symbol key) .null => [(key, none)]
  | .pair (.symbol key) (.pair (.string value) .null) => [(key, some value)]
  | .pair (.symbol key) (.pair (.number value) .null) => [(key, some value.text)]
  | _ => []

def attrsTree : Datum → List Attr
  | .pair attr attrs => attrTree attr ++ attrsTree attrs
  | _ => []

/-- The attributes of html5 have a lang. -/
def langTree (attrs : List Attr) : List Attr :=
  if attrs.any (·.1 = "lang".toList) then attrs else ("lang".toList, some "en".toList) :: attrs

def tagTree (tag : List Char) (attrs : List Attr) (children : Content) : Content :=
  if tag = "html5".toList then .single "html".toList (langTree attrs) children else .single tag attrs children

mutual

/-- The tree of a pattern. -/
def tree : Datum → Content
  | .string s => .text s
  | .number n => .text n.text
  | .pair (.symbol tag) rest =>
    let all := trees rest
    if tag = "begin".toList then all
    else
      match rest with
      | .pair (.pair (.symbol key) attrs) patterns =>
        if key = "@".toList then tagTree tag (attrsTree attrs) (trees patterns) else tagTree tag [] all
      | _ => tagTree tag [] all
  | _ => .text []

def trees : Datum → Content
  | .pair pattern patterns => (tree pattern).append (trees patterns)
  | _ => .text []

end

/-- The tags whose content is written as it is. -/
def unescaped : List (List Char) := ["cdata", "raw", "script", "style"].map String.toList

def NameChars (name : List Char) : Prop := ∀ c, c ∈ name → NameChar c

def PlainAttr : Datum → Prop
  | .pair (.symbol key) _ => NameChars key
  | _ => True

def PlainAttrs : Datum → Prop
  | .pair attr attrs => PlainAttr attr ∧ PlainAttrs attrs
  | _ => True

mutual

/-- No content is written as it is, and no name has a delimiter in it. -/
def Plain : Datum → Prop
  | .pair (.symbol tag) rest =>
    let all := PlainPatterns rest
    if tag = "begin".toList then all
    else
      tag ∉ unescaped ∧ NameChars tag ∧
        match rest with
        | .pair (.pair (.symbol key) attrs) patterns =>
          if key = "@".toList then PlainAttrs attrs ∧ PlainPatterns patterns else all
        | _ => all
  | _ => True

def PlainPatterns : Datum → Prop
  | .pair pattern patterns => Plain pattern ∧ PlainPatterns patterns
  | _ => True

end

/-- Letters, digits and hyphens are no delimiters. -/
theorem nameChars_of_alphanum {name : List Char} (h : ∀ c, c ∈ name → c.isAlphanum ∨ c = '-') : NameChars name := by
  intro c hc he
  have halphanum := h c hc
  simp only [nameEnds, List.mem_cons, List.not_mem_nil, or_false] at he
  rcases he with rfl | rfl | rfl | rfl | rfl | rfl | rfl <;> revert halphanum <;> decide

theorem nameChars_lang : NameChars "lang".toList := nameChars_of_alphanum (by simp)

theorem nameChars_html : NameChars "html".toList := nameChars_of_alphanum (by simp)

namespace Reader

@[simp] theorem run_nil (r : Reader) : r.run [] = some r := rfl

theorem run_cons (r : Reader) (c : Char) (s : List Char) : r.run (c :: s) = (r.step c).bind (·.run s) := rfl

theorem run_append (r : Reader) (s t : List Char) : r.run (s ++ t) = (r.run s).bind (·.run t) :=
  List.foldlM_append

/-- When each character extends what was read, so does the whole. -/
theorem run_each (write : Char → List Char) {f : List Char → Reader} {s : List Char}
    (h : ∀ t c, c ∈ s → (f t).run (write c) = some (f (t ++ [c]))) (t : List Char) :
    (f t).run (s.flatMap write) = some (f (t ++ s)) := by
  induction s generalizing t with
  | nil => simp
  | cons c s ih =>
    have hs := ih (fun t d hd => h t d (List.mem_cons_of_mem c hd)) (t ++ [c])
    rw [List.flatMap_cons, run_append, h t c List.mem_cons_self, Option.bind_some, hs]
    simp

theorem run_name {f : List Char → Reader} {name : List Char} (hn : NameChars name)
    (h : ∀ t c, NameChar c → (f t).step c = some (f (t ++ [c]))) (t : List Char) :
    (f t).run name = some (f (t ++ name)) := by
  have hs := run_each (f := f) (fun c => [c]) (s := name)
    (fun t c hc => by rw [run_cons, h t c (hn c hc)]; rfl) t
  simpa using hs

/-- The element that the mode is in the start tag of, with its attributes so far. -/
def started : Mode → Option (List Char × List Attr)
  | .tag name => some (name, [])
  | .attr tag attrs name => some (tag, attrs ++ [(name, none)])
  | .quoted tag attrs => some (tag, attrs)
  | _ => none

variable {stack : List Frame} {cur : Content} {mode : Mode} {tag : List Char} {attrs : List Attr}

theorem step_space (h : started mode = some (tag, attrs)) :
    step ⟨stack, cur, mode⟩ ' ' = some ⟨stack, cur, .attr tag attrs []⟩ := by
  cases mode <;> simp_all [started, step]

theorem step_start (h : started mode = some (tag, attrs)) :
    step ⟨stack, cur, mode⟩ '>' = some (opened ⟨stack, cur, .text⟩ tag attrs) := by
  cases mode <;> simp_all [started, step, opened]

theorem step_nameChar_attr {c : Char} (hc : NameChar c) (name : List Char) :
    step ⟨stack, cur, .attr tag attrs name⟩ c = some ⟨stack, cur, .attr tag attrs (name ++ [c])⟩ := by
  simp_all [NameChar, nameEnds, step]

theorem step_nameChar_tag {c : Char} (hc : NameChar c) (name : List Char) :
    step ⟨stack, cur, .tag name⟩ c = some ⟨stack, cur, .tag (name ++ [c])⟩ := by
  simp_all [NameChar, nameEnds, step]

theorem step_nameChar_closing {c : Char} (hc : NameChar c) (name : List Char) :
    step ⟨stack, cur, .closing name⟩ c = some ⟨stack, cur, .closing (name ++ [c])⟩ := by
  simp_all [NameChar, nameEnds, step]

theorem run_encodeChar_text (c : Char) :
    run ⟨stack, cur, .text⟩ (encodeChar c) = some ⟨stack, cur.append (.text [c]), .text⟩ := by
  by_cases hq : c = '"'
  · subst hq; rfl
  by_cases ha : c = '&'
  · subst ha; rfl
  by_cases hl : c = '<'
  · subst hl; rfl
  by_cases hg : c = '>'
  · subst hg; rfl
  simp [encodeChar, hq, ha, hl, hg, run_cons, step]

theorem run_encodeChar_value (c : Char) (name value : List Char) :
    run ⟨stack, cur, .value tag attrs name value⟩ (encodeChar c) =
      some ⟨stack, cur, .value tag attrs name (value ++ [c])⟩ := by
  by_cases hq : c = '"'
  · subst hq; rfl
  by_cases ha : c = '&'
  · subst ha; rfl
  by_cases hl : c = '<'
  · subst hl; rfl
  by_cases hg : c = '>'
  · subst hg; rfl
  simp [encodeChar, hq, ha, hl, hg, run_cons, step]

/-- A value in quotes, after the name of its attribute. -/
theorem run_value (name value : List Char) :
    run ⟨stack, cur, .attr tag attrs name⟩ (['=', '"'] ++ encode value ++ ['"']) =
      some ⟨stack, cur, .quoted tag (attrs ++ [(name, some value)])⟩ := by
  have hv := run_each encodeChar (f := fun v => ⟨stack, cur, .value tag attrs name v⟩) (s := value)
    (fun t c _ => run_encodeChar_value c name t) []
  have hq : run ⟨stack, cur, .attr tag attrs name⟩ ['=', '"'] = some ⟨stack, cur, .value tag attrs name []⟩ := rfl
  rw [run_append, run_append, hq, Option.bind_some, encode, hv]
  rfl

/-- What write-attrs writes for one attribute is read as that attribute. -/
theorem run_writeAttr {x attr : Datum} {out : List Char} (hp : PlainAttr attr)
    (h : writeAttr x attr = .ok out) (hm : started mode = some (tag, attrs)) :
    ∃ mode', run ⟨stack, cur, mode⟩ out = some ⟨stack, cur, mode'⟩ ∧
      started mode' = some (tag, attrs ++ attrTree attr) := by
  have key_read (key : List Char) (hk : NameChars key) :
      run ⟨stack, cur, mode⟩ (' ' :: key) = some ⟨stack, cur, .attr tag attrs key⟩ := by
    rw [run_cons, step_space hm, Option.bind_some]
    exact run_name (f := fun name => ⟨stack, cur, .attr tag attrs name⟩) hk
      (fun name c hc => step_nameChar_attr hc name) []
  have value_read (key value : List Char) (hk : NameChars key) :
      run ⟨stack, cur, mode⟩ (' ' :: key ++ ['=', '"'] ++ encode value ++ ['"']) =
        some ⟨stack, cur, .quoted tag (attrs ++ [(key, some value)])⟩ := by
    rw [List.append_assoc, List.append_assoc, run_append, key_read key hk, Option.bind_some, ← List.append_assoc]
    exact run_value key value
  unfold writeAttr at h
  split at h
  · cases h
    exact ⟨mode, rfl, by simpa [attrTree] using hm⟩
  · cases h
    exact ⟨_, key_read _ hp, rfl⟩
  · cases h
    exact ⟨_, value_read _ _ hp, rfl⟩
  · cases h
    exact ⟨_, value_read _ _ hp, rfl⟩
  · cases h

end Reader

theorem writeAttrs_pair {x attr attrs : Datum} {out : List Char} (h : writeAttrs x (.pair attr attrs) = .ok out) :
    ∃ first rest, writeAttr x attr = .ok first ∧ writeAttrs x attrs = .ok rest ∧ out = first ++ rest := by
  obtain ⟨first, hfirst, h⟩ := bind_ok h
  obtain ⟨rest, hrest, h⟩ := bind_ok h
  cases h
  exact ⟨first, rest, hfirst, hrest, rfl⟩

theorem writePatterns_pair {pattern patterns : Datum} {out : List Char}
    (h : writePatterns (.pair pattern patterns) = .ok out) :
    ∃ first rest, htmlString pattern = .ok first ∧ writePatterns patterns = .ok rest ∧ out = first ++ rest := by
  rw [writePatterns] at h
  obtain ⟨first, hfirst, h⟩ := bind_ok h
  obtain ⟨rest, hrest, h⟩ := bind_ok h
  cases h
  exact ⟨first, rest, hfirst, hrest, rfl⟩

namespace Reader

variable {stack : List Frame} {cur : Content} {mode : Mode} {tag : List Char} {as : List Attr}

theorem run_writeAttrs {x attrs : Datum} {out : List Char} (hp : PlainAttrs attrs)
    (h : writeAttrs x attrs = .ok out) (hm : started mode = some (tag, as)) :
    ∃ mode', run ⟨stack, cur, mode⟩ out = some ⟨stack, cur, mode'⟩ ∧
      started mode' = some (tag, as ++ attrsTree attrs) := by
  induction attrs generalizing out mode as with
  | null =>
    cases h
    exact ⟨mode, rfl, by simpa [attrsTree] using hm⟩
  | pair attr attrs _ ih =>
    obtain ⟨first, rest, hfirst, hrest, rfl⟩ := writeAttrs_pair h
    obtain ⟨hattr, hattrs⟩ := hp
    obtain ⟨m, hrun, hm⟩ := run_writeAttr hattr hfirst hm
    obtain ⟨m', hrun', hm'⟩ := ih hattrs hrest hm
    refine ⟨m', ?_, by simpa [attrsTree] using hm'⟩
    rw [run_append, hrun, Option.bind_some, hrun']
  | void => cases h
  | string s => cases h
  | number n => cases h
  | symbol name => cases h
  | other => cases h

theorem run_openTag {x attrs : Datum} {out : List Char} (ht : NameChars tag) (hp : PlainAttrs attrs)
    (h : openTag x tag attrs = .ok out) :
    run ⟨stack, cur, .text⟩ out = some (opened ⟨stack, cur, .text⟩ tag (attrsTree attrs)) := by
  obtain ⟨written, hw, h⟩ := bind_ok h
  cases h
  have htag := run_name (f := fun name => ⟨stack, cur, .tag name⟩) ht
    (fun name c hc => step_nameChar_tag hc name) []
  obtain ⟨m, hrun, hm⟩ : ∃ m, run ⟨stack, cur, .tag tag⟩ written = some ⟨stack, cur, m⟩ ∧
      started m = some (tag, [] ++ attrsTree attrs) := run_writeAttrs hp hw rfl
  have hlt : step ⟨stack, cur, .text⟩ '<' = some ⟨stack, cur, .tag []⟩ := rfl
  rw [List.append_assoc, List.cons_append, run_cons, hlt, Option.bind_some, run_append, htag, Option.bind_some,
    List.nil_append, run_append, hrun, Option.bind_some, run_cons, step_start hm]
  rfl

theorem run_closeTag (ht : NameChars tag) :
    run ⟨stack, cur, .text⟩ (closeTag tag) = closed ⟨stack, cur, .text⟩ tag := by
  have htag := run_name (f := fun name => ⟨stack, cur, .closing name⟩) ht
    (fun name c hc => step_nameChar_closing hc name) []
  have hlt : run ⟨stack, cur, .text⟩ ['<', '/'] = some ⟨stack, cur, .closing []⟩ := rfl
  rw [closeTag, run_append, run_append, hlt, Option.bind_some, htag, Option.bind_some, List.nil_append, run_cons]
  simp [step, closed]

end Reader

/-- The text adds the content to what is read, wherever it stands. -/
def Reads (out : List Char) (c : Content) : Prop :=
  ∀ stack cur, Reader.run ⟨stack, cur, .text⟩ out = some ⟨stack, cur.append c, .text⟩

/-- A text with none of the four characters is written as it is. -/
theorem encode_plain {s : List Char} (h : ∀ c, c ∈ s → named c = false) : encode s = s := by
  induction s with
  | nil => rfl
  | cons c s ih =>
    have hc := h c List.mem_cons_self
    have hs := ih fun d hd => h d (List.mem_cons_of_mem c hd)
    simp only [named, Bool.or_eq_false_iff, decide_eq_false_iff_not] at hc
    rw [encode] at hs
    rw [encode, List.flatMap_cons, hs]
    simp [encodeChar, hc]

theorem not_declaration {tag : List Char} (h : NameChars tag) : ¬tag.head? = some '!' := by
  intro he
  exact absurd (h '!' (List.mem_of_head? he)) (by decide)

namespace Reads

variable {s t : List Char} {c d : Content} {tag : List Char}

theorem nil : Reads [] (.text []) := by
  intro stack cur
  simp

theorem append (hs : Reads s c) (ht : Reads t d) : Reads (s ++ t) (c.append d) := by
  intro stack cur
  rw [Reader.run_append, hs stack cur, Option.bind_some, ht stack, Content.append_assoc]

theorem encode (s : List Char) : Reads (encode s) (.text s) := by
  intro stack cur
  have hs := Reader.run_each encodeChar (f := fun t => ⟨stack, cur.append (.text t), .text⟩) (s := s)
    (fun t c _ => by rw [Reader.run_encodeChar_text, Content.append_assoc]; rfl) []
  rw [Content.append_text_nil, List.nil_append] at hs
  exact hs

theorem number (n : Number) : Reads n.text (.text n.text) := by
  have hs := Reads.encode n.text
  rwa [encode_plain n.plain] at hs

theorem doctype : Reads "<!DOCTYPE html>".toList (.text []) := by
  intro stack cur
  rw [Content.append_text_nil]
  rfl

variable {x attrs : Datum} {start : List Char}

/-- A void tag has no closing tag. -/
theorem void (hv : voidTags.contains tag) (ht : NameChars tag) (hp : PlainAttrs attrs) (h : openTag x tag attrs = .ok start) :
    Reads start (.single tag (attrsTree attrs) (.text [])) := by
  intro stack cur
  rw [Reader.run_openTag ht hp h, Reader.opened, if_neg (not_declaration ht), if_pos hv]

theorem element (hv : ¬voidTags.contains tag) (ht : NameChars tag) (hp : PlainAttrs attrs) (h : openTag x tag attrs = .ok start)
    (hc : Reads s c) : Reads (start ++ s ++ closeTag tag) (.single tag (attrsTree attrs) c) := by
  intro stack cur
  rw [Reader.run_append, Reader.run_append, Reader.run_openTag ht hp h, Option.bind_some, Reader.opened,
    if_neg (not_declaration ht), if_neg hv, hc, Option.bind_some, Reader.run_closeTag ht, Reader.closed]
  simp

end Reads

/-- The tree has a lang when the attributes have one. -/
theorem langPresent_eq {x attrs : Datum} {out : List Char} (h : writeAttrs x attrs = .ok out) :
    langPresent attrs = (attrsTree attrs).any (·.1 = "lang".toList) := by
  induction attrs generalizing out with
  | pair attr attrs _ ih =>
    obtain ⟨first, rest, hfirst, hrest, -⟩ := writeAttrs_pair h
    rw [attrsTree, List.any_append, ← ih hrest]
    unfold writeAttr at hfirst
    split at hfirst
    · rfl
    · simp [langPresent, attrTree]
    · simp [langPresent, attrTree]
    · simp [langPresent, attrTree]
    · cases hfirst
  | null => rfl
  | void => rfl
  | string s => rfl
  | number n => rfl
  | symbol name => rfl
  | other => rfl

theorem attrsTree_withLang {x attrs : Datum} {tag out : List Char} (h : openTag x tag (withLang attrs) = .ok out) :
    attrsTree (withLang attrs) = langTree (attrsTree attrs) := by
  obtain ⟨written, hw, -⟩ := bind_ok h
  by_cases hl : langPresent attrs
  · rw [withLang, if_pos hl] at hw ⊢
    rw [langTree, ← langPresent_eq hw, if_pos hl]
  · rw [withLang, if_neg hl] at hw ⊢
    obtain ⟨first, rest, -, hw, -⟩ := writeAttrs_pair hw
    rw [langTree, ← langPresent_eq hw, if_neg hl]
    rfl

theorem plainAttrs_withLang {attrs : Datum} (h : PlainAttrs attrs) : PlainAttrs (withLang attrs) := by
  rw [withLang]
  split
  · exact h
  · exact ⟨nameChars_lang, h⟩

/-- What tag->string writes, when what write-patterns writes is read back. -/
theorem reads_tagString {x attrs patterns : Datum} {tag out : List Char} {children : Content}
    {written : Except HtmlError (List Char)} (hu : tag ∉ unescaped) (ht : NameChars tag) (hp : PlainAttrs attrs)
    (hn : patterns.isNull → children = .text []) (hw : ∀ content, written = .ok content → Reads content children)
    (h : tagString x tag attrs patterns written = .ok out) : Reads out (tagTree tag (attrsTree attrs) children) := by
  unfold tagString at h
  split at h
  · cases h
  · split at h
    · next hv =>
      have hne : tag ≠ "html5".toList := by
        intro he
        subst he
        exact absurd hv (by decide)
      split at h
      · cases h
      · next hnull =>
        rw [tagTree, if_neg hne, hn (by simpa using hnull)]
        exact .void hv ht hp h
    · next hv =>
      split at h
      · next he =>
        obtain ⟨start, hstart, h⟩ := bind_ok h
        obtain ⟨content, hcontent, h⟩ := bind_ok h
        cases h
        have hread := Reads.doctype.append
          (Reads.element (by decide) nameChars_html (plainAttrs_withLang hp) hstart (hw content hcontent))
        rw [Content.text_nil_append, attrsTree_withLang hstart] at hread
        rw [tagTree, if_pos he]
        simpa using hread
      · next he =>
        split at h
        · next hs => exact absurd (show tag ∈ unescaped by rcases hs with rfl | rfl <;> decide) hu
        · obtain ⟨start, hstart, h⟩ := bind_ok h
          obtain ⟨content, hcontent, h⟩ := bind_ok h
          cases h
          rw [tagTree, if_neg he]
          exact .element hv ht hp hstart (hw content hcontent)

/-- What follows a tag, as a list of attributes and the patterns. -/
def Parts (rest attrs patterns : Datum) : Prop :=
  rest = .pair (.pair (.symbol "@".toList) attrs) patterns ∨
    attrs = .null ∧ patterns = rest ∧ ∀ a p, rest ≠ .pair (.pair (.symbol "@".toList) a) p

section

variable {tag out : List Char} {rest attrs patterns : Datum}

theorem htmlString_tag (hb : tag ≠ "begin".toList) (hu : tag ∉ unescaped)
    (h : htmlString (.pair (.symbol tag) rest) = .ok out) :
    ∃ attrs patterns, Parts rest attrs patterns ∧
      tagString (.pair (.symbol tag) rest) tag attrs patterns (writePatterns patterns) = .ok out := by
  have hc : tag ≠ "cdata".toList := fun he => hu (by subst he; decide)
  have hr : tag ≠ "raw".toList := fun he => hu (by subst he; decide)
  unfold htmlString at h
  simp only [hb, hc, hr, false_and, if_false] at h
  split at h
  · next key attrs patterns =>
    split at h
    · next hk =>
      obtain ⟨rfl, -⟩ := hk
      exact ⟨attrs, patterns, .inl rfl, h⟩
    · next hk =>
      split at h
      · next hl =>
        refine ⟨.null, _, .inr ⟨rfl, rfl, fun a p he => hk ?_⟩, h⟩
        cases he
        exact ⟨rfl, hl⟩
      · cases h
  · next hne =>
    split at h
    · exact ⟨.null, rest, .inr ⟨rfl, rfl, fun a p he => hne _ a p he⟩, h⟩
    · cases h

theorem tree_tag (hb : tag ≠ "begin".toList) (h : Parts rest attrs patterns) :
    tree (.pair (.symbol tag) rest) = tagTree tag (attrsTree attrs) (trees patterns) := by
  unfold tree
  simp only [hb, if_false]
  rcases h with rfl | ⟨rfl, rfl, hne⟩
  · rfl
  · split
    · next key a p =>
      rw [if_neg fun he => hne a p (by rw [he])]
      rfl
    · rfl

theorem plain_tag (hb : tag ≠ "begin".toList) (hp : Plain (.pair (.symbol tag) rest)) :
    tag ∉ unescaped ∧ NameChars tag ∧
      ∀ attrs patterns, Parts rest attrs patterns → PlainAttrs attrs ∧ PlainPatterns patterns := by
  unfold Plain at hp
  simp only [hb, if_false] at hp
  obtain ⟨hu, ht, hp⟩ := hp
  refine ⟨hu, ht, fun attrs patterns h => ?_⟩
  rcases h with rfl | ⟨rfl, rfl, hne⟩
  · simpa using hp
  · refine ⟨trivial, ?_⟩
    split at hp
    · next key a p =>
      rw [if_neg fun he => hne a p (by rw [he])] at hp
      exact hp
    · exact hp

/-- An improper list is no pattern, also after begin. -/
theorem htmlString_begin (h : htmlString (.pair (.symbol "begin".toList) rest) = .ok out) :
    writePatterns rest = .ok out := by
  unfold htmlString at h
  by_cases hl : rest.isList
  · simpa [hl] using h
  · simp only [hl, Bool.false_eq_true, and_false, if_false] at h
    split at h
    · next key attrs patterns =>
      have hp : ¬patterns.isList := hl
      simp [hp] at h
    · simp [hl] at h

theorem trees_isNull {d : Datum} (h : d.isNull) : trees d = .text [] := by
  cases d with
  | null => rw [trees]; nofun
  | _ => cases h

end

/-- The datum is read back, as a pattern and as a list of patterns. -/
structure ReadsBack (d : Datum) : Prop where
  pattern : ∀ out, Plain d → htmlString d = .ok out → Reads out (tree d)
  patterns : ∀ out, PlainPatterns d → writePatterns d = .ok out → Reads out (trees d)
  afterTag : ∀ attrs patterns out, Parts d attrs patterns → PlainPatterns patterns →
    writePatterns patterns = .ok out → Reads out (trees patterns)

/-- A datum that is no pair is its only part. -/
theorem ReadsBack.atom {d : Datum} (hd : ∀ first rest, d ≠ .pair first rest)
    (hpattern : ∀ out, htmlString d = .ok out → Reads out (tree d))
    (hpatterns : ∀ out, writePatterns d = .ok out → Reads out (trees d)) : ReadsBack d where
  pattern := fun out _ h => hpattern out h
  patterns := fun out _ h => hpatterns out h
  afterTag := by
    intro attrs patterns out hparts _ h
    rcases hparts with rfl | ⟨-, rfl, -⟩
    · exact absurd rfl (hd _ _)
    · exact hpatterns out h

theorem readsBack (d : Datum) : ReadsBack d := by
  induction d with
  | null =>
    refine .atom nofun ?_ ?_
    · intro out h
      rw [htmlString] at h
      cases h
      exact .nil
    · intro out h
      rw [writePatterns] at h
      cases h
      exact .nil
  | void =>
    refine .atom nofun ?_ (fun _ h => (by cases h))
    intro out h
    rw [htmlString] at h
    cases h
    exact .nil
  | string s =>
    refine .atom nofun ?_ (fun _ h => (by cases h))
    intro out h
    rw [htmlString] at h
    cases h
    exact .encode s
  | number n =>
    refine .atom nofun ?_ (fun _ h => (by cases h))
    intro out h
    rw [htmlString] at h
    cases h
    exact .number n
  | symbol name => exact .atom nofun (fun _ h => (by cases h)) (fun _ h => (by cases h))
  | other => exact .atom nofun (fun _ h => (by cases h)) (fun _ h => (by cases h))
  | pair first rest ihf ihr =>
    have hpatterns : ∀ out, PlainPatterns (.pair first rest) → writePatterns (.pair first rest) = .ok out →
        Reads out (trees (.pair first rest)) := by
      intro out hp h
      obtain ⟨s, t, hs, ht, rfl⟩ := writePatterns_pair h
      exact (ihf.pattern s hp.1 hs).append (ihr.patterns t hp.2 ht)
    refine ⟨?_, hpatterns, ?_⟩
    · intro out hp h
      cases first with
      | symbol tag =>
        by_cases hb : tag = "begin".toList
        · subst hb
          exact ihr.patterns out (by simpa [Plain] using hp) (htmlString_begin h)
        · obtain ⟨hu, ht, hplain⟩ := plain_tag hb hp
          obtain ⟨attrs, patterns, hparts, h⟩ := htmlString_tag hb hu h
          obtain ⟨hattrs, hpatterns⟩ := hplain attrs patterns hparts
          rw [tree_tag hb hparts]
          exact reads_tagString hu ht hattrs trees_isNull
            (fun content hcontent => ihr.afterTag attrs patterns content hparts hpatterns hcontent) h
      | _ => cases h
    · intro attrs patterns out hparts hp h
      rcases hparts with he | ⟨-, rfl, -⟩
      · cases he
        exact ihr.patterns out hp h
      · exact hpatterns out hp h

/-- What is written is read back as the tree of the pattern. -/
theorem read_htmlString {d : Datum} {out : List Char} (hp : Plain d) (h : htmlString d = .ok out) :
    read out = some (tree d) := by
  have hread := (readsBack d).pattern out hp h [] (.text [])
  rw [Content.text_nil_append] at hread
  rw [read, hread]

/-- The pattern `(html5 (p (@ (class "a\"b")) "x<y" (br) (begin "z" ())))`. -/
def page : Datum :=
  .list [.symbol "html5".toList,
    .list [.symbol "p".toList,
      .list [.symbol "@".toList, .list [.symbol "class".toList, .string "a\"b".toList]],
      .string "x<y".toList, .list [.symbol "br".toList],
      .list [.symbol "begin".toList, .string "z".toList, .null]]]

theorem read_htmlString_page :
    read "<!DOCTYPE html><html lang=\"en\"><p class=\"a&quot;b\">x&lt;y<br>z</p></html>".toList =
      some (.single "html".toList [("lang".toList, some "en".toList)]
        (.single "p".toList [("class".toList, some "a\"b".toList)]
          (.element "x<y".toList "br".toList [] (.text []) (.text "z".toList)))) :=
  read_htmlString (d := page)
    (by simp [page, Datum.list, Plain, PlainPatterns, PlainAttrs, PlainAttr, unescaped, NameChars, NameChar, nameEnds])
    rfl

end Swish.Html
