import Swish.Http.Sections

/-!
The temporary files of parse-multipart/form-data: they are deleted when it throws, and
are found in the table when it returns, unless a later part takes the place of a file.
-/

set_option autoImplicit false

namespace Swish.Http

/-- The numbers of the files are below the next one. -/
def Form.Fresh (form : Form) : Prop := ∀ fn ∈ form.files, fn < form.next

/-- After an exception the files are those of the form. -/
def Restores (form : Form) (o : Outcome) : Prop := ∀ e form', o = .error (e, form') → form'.files = form.files

theorem restores_error {form form' : Form} {e : FormError} (h : form'.files = form.files) :
    Restores form (.error (e, form')) := by
  intro e₁ form₁ h₁
  cases h₁
  exact h

theorem restores_ok {form : Form} (r : InPort × Form) : Restores form (.ok r) := by
  intro e form' h
  cases h

theorem filter_files {form : Form} (h : form.Fresh) :
    (form.files ++ [form.next]).filter (· ≠ form.next) = form.files := by
  have hall : form.files.filter (· ≠ form.next) = form.files := by
    apply List.filter_eq_self.mpr
    intro fn hfn
    have := h fn hfn
    simp only [decide_eq_true_eq]
    omega
  rw [List.filter_append, hall]
  simp

theorem restores_deleteOnError {form form₁ : Form} (hfresh : form.Fresh) (hfiles : form₁.files = form.files ++ [form.next])
    {o : Outcome} (h : Restores form₁ o) : Restores form (deleteOnError form.next o) := by
  cases o with
  | ok r => exact restores_ok r
  | error x =>
    obtain ⟨e, form'⟩ := x
    refine restores_error ?_
    show form'.files.filter (· ≠ form.next) = form.files
    rw [h e form' rfl, hfiles, filter_files hfresh]

section

variable {env : FormEnv} {k : AfterPart} {climit flimit : Int} {ip : InPort} {form : Form}

theorem fresh_stored (h : form.Fresh) (key : List Char) : (form.stored key).Fresh := by
  intro fn hfn
  show fn < form.next + 1
  obtain hfn | hfn := List.mem_append.mp hfn
  · have := h fn hfn
    omega
  · rw [List.mem_singleton.mp hfn]
    omega

theorem parseFile_restores (hk : ∀ c f ip form, form.Fresh → Restores form (k c f ip form)) (hfresh : form.Fresh)
    (key : List Char) : Restores form (parseFile env k key climit flimit ip form) := by
  unfold parseFile
  simp only
  split
  · split
    · exact restores_deleteOnError hfresh rfl (restores_error rfl)
    · split
      · exact restores_deleteOnError hfresh rfl (hk _ _ _ (form.stored key) (fresh_stored hfresh key))
      · exact restores_deleteOnError hfresh rfl (restores_error rfl)
  · exact restores_error rfl

theorem parseNext_restores (hk : ∀ c f ip form, form.Fresh → Restores form (k c f ip form)) (hfresh : form.Fresh) :
    Restores form (parseNext env k climit flimit ip form) := by
  unfold parseNext
  split
  · exact restores_error rfl
  · simp only
    split
    · split
      · exact restores_error rfl
      · split
        · exact parseFile_restores hk hfresh _
        · split
          · exact restores_error rfl
          · exact hk _ _ _ form hfresh
    · split
      · exact restores_error rfl
      · split
        · exact restores_error rfl
        · exact hk _ _ _ _ hfresh

/-- An exception leaves no file behind that was not there before. -/
theorem parseEnd_restores (env : FormEnv) (fuel : Nat) :
    ∀ climit flimit ip form, form.Fresh → Restores form (parseEnd env fuel climit flimit ip form) := by
  induction fuel with
  | zero =>
    intro climit flimit ip form hfresh
    exact restores_error rfl
  | succ fuel ih =>
    intro climit flimit ip form hfresh
    unfold parseEnd
    split
    · exact restores_error rfl
    · exact parseNext_restores ih hfresh
    · exact restores_ok _

end

/-- The values of the table name files that exist, each of them once. -/
structure Form.Sound (form : Form) : Prop where
  fresh : form.Fresh
  keys : (form.result.map Prod.fst).Nodup
  exist : ∀ key fn, (key, .file fn) ∈ form.result → fn ∈ form.files
  once : ∀ key key' fn, (key, .file fn) ∈ form.result → (key', .file fn) ∈ form.result → key = key'

/-- Every file is a value of the table. -/
def Form.Kept (form : Form) : Prop := ∀ fn ∈ form.files, ∃ key, (key, .file fn) ∈ form.result

theorem Form.Sound.stored {form : Form} (h : form.Sound) (key : List Char) : (form.stored key).Sound where
  fresh := fresh_stored h.fresh key
  keys := Assoc.nodup_set h.keys key _
  exist := by
    intro k fn hmem
    obtain ⟨hmem, -⟩ | heq := Assoc.mem_set.mp hmem
    · exact List.mem_append_left _ (h.exist k fn hmem)
    · cases heq
      exact List.mem_append_right _ (List.mem_singleton_self _)
  once := by
    intro k k' fn hk hk'
    have hold : ∀ key fn, (key, .file fn) ∈ form.result → fn ≠ form.next := by
      intro key fn hmem heq
      have := h.fresh fn (h.exist key fn hmem)
      omega
    obtain ⟨hk, -⟩ | heq := Assoc.mem_set.mp hk
    · obtain ⟨hk', -⟩ | heq' := Assoc.mem_set.mp hk'
      · exact h.once k k' fn hk hk'
      · cases heq'
        exact absurd rfl (hold k _ hk)
    · cases heq
      obtain ⟨hk', -⟩ | heq' := Assoc.mem_set.mp hk'
      · exact absurd rfl (hold k' _ hk')
      · cases heq'
        rfl

theorem mem_named {form : Form} {name s key : List Char} {fn : Nat} :
    (key, .file fn) ∈ (form.named name s).result ↔ (key, .file fn) ∈ form.result ∧ key ≠ name := by
  unfold Form.named
  simp only [Assoc.mem_set]
  constructor
  · intro h
    obtain h | h := h
    · exact h
    · cases h
  · exact Or.inl

theorem Form.Sound.named {form : Form} (h : form.Sound) (name s : List Char) : (form.named name s).Sound where
  fresh := h.fresh
  keys := Assoc.nodup_set h.keys name _
  exist := fun key fn hmem => h.exist key fn (mem_named.mp hmem).1
  once := fun key key' fn hk hk' => h.once key key' fn (mem_named.mp hk).1 (mem_named.mp hk').1

/-- No part to come takes the place of a file under the key. -/
def KeyKept (files : List (List Char)) (form : Form) (sections : List Section) (key : List Char) : Prop :=
  ((∃ fn, Assoc.find form.result key = some (.file fn)) ∨
    (Assoc.find form.result key = none ∧ key ∈ files ∧
      ∃ s, sections.find? (fun s => s.name = some key) = some s ∧ s.isFile = true)) →
  ∀ s ∈ sections, s.name = some key → s.isFile = true

/-- For every name in files: when the first part with that name is a file, so are all the others. -/
def KeepsFiles (files : List (List Char)) (sections : List Section) : Prop :=
  ∀ key ∈ files, ∀ s, sections.find? (fun s => s.name = some key) = some s → s.isFile = true →
    ∀ s' ∈ sections, s'.name = some key → s'.isFile = true

theorem keepsFiles_iff {files : List (List Char)} {sections : List Section} :
    KeepsFiles files sections ↔ ∀ key, KeyKept files Form.empty sections key := by
  constructor
  · intro h key hkey
    obtain ⟨fn, hfn⟩ | ⟨-, hmem, s, hs, hfile⟩ := hkey
    · cases hfn
    · exact h key hmem s hs hfile
  · intro h key hmem s hs hfile
    exact h key (Or.inr ⟨rfl, hmem, s, hs, hfile⟩)

section

variable {files : List (List Char)} {form : Form} {s : Section} {sections : List Section}

theorem find_other {name key : List Char} (hname : s.name = some name) (hne : name ≠ key) :
    (s :: sections).find? (fun s => s.name = some key) = sections.find? (fun s => s.name = some key) := by
  apply List.find?_cons_of_neg
  simp [hname, hne]

theorem find_this {key : List Char} (hname : s.name = some key) :
    (s :: sections).find? (fun s => s.name = some key) = some s := by
  apply List.find?_cons_of_pos
  simp [hname]

/-- A part has no effect on another name. -/
theorem keyKept_other {form' : Form} {name key : List Char} (hname : s.name = some name) (hne : name ≠ key)
    (hfind : Assoc.find form'.result key = Assoc.find form.result key) :
    KeyKept files form (s :: sections) key ↔ KeyKept files form' sections key := by
  have hother : ∀ t ∈ s :: sections, t.name = some key → t ∈ sections := by
    intro t ht htkey
    obtain rfl | ht := List.mem_cons.mp ht
    · rw [hname] at htkey
      exact absurd (Option.some.inj htkey) hne
    · exact ht
  unfold KeyKept
  rw [find_other hname hne, hfind]
  constructor
  · intro h hkey t ht htkey
    exact h hkey t (List.mem_cons_of_mem _ ht) htkey
  · intro h hkey t ht htkey
    exact h hkey t (hother t ht htkey) htkey

theorem forall_file_cons {key : List Char} (hfile : s.isFile = true) :
    (∀ t ∈ s :: sections, t.name = some key → t.isFile = true) ↔ ∀ t ∈ sections, t.name = some key → t.isFile = true := by
  constructor
  · intro h t ht
    exact h t (List.mem_cons_of_mem _ ht)
  · intro h t ht
    obtain rfl | ht := List.mem_cons.mp ht
    · exact fun _ => hfile
    · exact h t ht

theorem keyKept_stored {name : List Char} (hfile : s.isFile = true) (hname : s.name = some name) (hmem : name ∈ files)
    (hnone : Assoc.find form.result name = none) (key : List Char) :
    KeyKept files form (s :: sections) key ↔ KeyKept files (form.stored name) sections key := by
  have hfind : Assoc.find (form.stored name).result key =
      if name = key then some (.file form.next) else Assoc.find form.result key := Assoc.find_set _ _ _ _
  by_cases hne : name = key
  · subst hne
    rw [if_pos rfl] at hfind
    unfold KeyKept
    rw [forall_file_cons hfile, hfind]
    constructor
    · intro h _
      exact h (Or.inr ⟨hnone, hmem, s, find_this hname, hfile⟩)
    · intro h _
      exact h (Or.inl ⟨_, rfl⟩)
  · rw [if_neg hne] at hfind
    exact keyKept_other hname hne hfind

theorem keyKept_skipped {name : List Char} (hfile : s.isFile = true) (hname : s.name = some name)
    (hsave : ¬ (name ∈ files ∧ Assoc.find form.result name = none)) (key : List Char) :
    KeyKept files form (s :: sections) key ↔ KeyKept files form sections key := by
  by_cases hne : name = key
  · subst hne
    unfold KeyKept
    rw [forall_file_cons hfile]
    constructor
    · intro h hkey
      obtain hkey | ⟨hnone, hmem, -⟩ := hkey
      · exact h (Or.inl hkey)
      · exact absurd ⟨hmem, hnone⟩ hsave
    · intro h hkey
      obtain hkey | ⟨hnone, hmem, -⟩ := hkey
      · exact h (Or.inl hkey)
      · exact absurd ⟨hmem, hnone⟩ hsave
  · exact keyKept_other hname hne rfl

theorem keyKept_named {name : List Char} (htext : s.isFile = false) (hname : s.name = some name)
    (hfind : ∀ fn, Assoc.find form.result name ≠ some (.file fn)) (str key : List Char) :
    KeyKept files form (s :: sections) key ↔ KeyKept files (form.named name str) sections key := by
  have hset : Assoc.find (form.named name str).result key =
      if name = key then some (.text str) else Assoc.find form.result key := Assoc.find_set _ _ _ _
  by_cases hne : name = key
  · subst hne
    rw [if_pos rfl] at hset
    unfold KeyKept
    rw [hset, find_this hname]
    constructor
    · intro _ hkey
      obtain ⟨fn, hfn⟩ | ⟨hnone, -⟩ := hkey
      · cases hfn
      · cases hnone
    · intro _ hkey
      obtain ⟨fn, hfn⟩ | ⟨-, -, t, ht, hfile⟩ := hkey
      · exact absurd hfn (hfind fn)
      · cases ht
        rw [htext] at hfile
        cases hfile
  · rw [if_neg hne] at hset
    exact keyKept_other hname hne hset

end

theorem kept_stored {form : Form} (h : form.Sound) {key : List Char} (hnone : Assoc.find form.result key = none) :
    (form.stored key).Kept ↔ form.Kept := by
  constructor
  · intro hkept fn hfn
    obtain ⟨k, hk⟩ := hkept fn (List.mem_append_left _ hfn)
    obtain ⟨hk, -⟩ | heq := Assoc.mem_set.mp hk
    · exact ⟨k, hk⟩
    · cases heq
      exact absurd (h.fresh _ hfn) (Nat.lt_irrefl _)
  · intro hkept fn hfn
    obtain hfn | hfn := List.mem_append.mp hfn
    · obtain ⟨k, hk⟩ := hkept fn hfn
      exact ⟨k, Assoc.mem_set.mpr (Or.inl ⟨hk, Assoc.find_eq_none.mp hnone _ hk⟩)⟩
    · rw [List.mem_singleton.mp hfn]
      exact ⟨key, Assoc.mem_set.mpr (Or.inr rfl)⟩

theorem kept_named {form : Form} (h : form.Sound) {name : List Char}
    (hfind : ∀ fn, Assoc.find form.result name ≠ some (.file fn)) (s : List Char) :
    (form.named name s).Kept ↔ form.Kept := by
  constructor
  · intro hkept fn hfn
    obtain ⟨k, hk⟩ := hkept fn hfn
    exact ⟨k, (mem_named.mp hk).1⟩
  · intro hkept fn hfn
    obtain ⟨k, hk⟩ := hkept fn hfn
    refine ⟨k, mem_named.mpr ⟨hk, fun heq => ?_⟩⟩
    exact hfind fn (heq ▸ Assoc.find_of_mem h.keys hk)

/-- The file whose place is taken is lost. -/
theorem not_kept_named {form : Form} (h : form.Sound) {name : List Char} {fn : Nat}
    (hfind : Assoc.find form.result name = some (.file fn)) (s : List Char) : ¬ (form.named name s).Kept := by
  intro hkept
  have hmem := Assoc.find_eq_some hfind
  obtain ⟨k, hk⟩ := hkept fn (h.exist name fn hmem)
  obtain ⟨hk, hne⟩ := mem_named.mp hk
  exact hne (h.once k name fn hk hmem)

/-- One part: the form stays sound, and what is kept after it is kept by it. -/
theorem takeSection_kept {env : FormEnv} {s : Section} (sections : List Section) {climit flimit climit' flimit' : Int}
    {form form' : Form} (hsound : form.Sound)
    (h : takeSection env s climit flimit form = .ok (climit', flimit', form')) :
    form'.Sound ∧ ((form'.Kept ∧ ∀ key, KeyKept env.files form' sections key) ↔
      form.Kept ∧ ∀ key, KeyKept env.files form (s :: sections) key) := by
  obtain ⟨key, hfile, hname, hmem, hnone, rfl⟩ | ⟨key, hfile, hname, hsave, rfl⟩ | ⟨name, htext, hname, rfl⟩ :=
    takeSection_cases h
  · refine ⟨hsound.stored key, ?_⟩
    rw [kept_stored hsound hnone]
    simp only [keyKept_stored hfile hname hmem hnone]
  · refine ⟨hsound, ?_⟩
    simp only [keyKept_skipped hfile hname hsave]
  · refine ⟨hsound.named name _, ?_⟩
    by_cases hfind : ∃ fn, Assoc.find form.result name = some (.file fn)
    · obtain ⟨fn, hfn⟩ := hfind
      constructor
      · intro hkept
        exact absurd hkept.1 (not_kept_named hsound hfn _)
      · intro hkept
        have := hkept.2 name (Or.inl ⟨fn, hfn⟩) s List.mem_cons_self hname
        rw [htext] at this
        cases this
    · have hfind : ∀ fn, Assoc.find form.result name ≠ some (.file fn) := fun fn hfn => hfind ⟨fn, hfn⟩
      rw [kept_named hsound hfind]
      simp only [keyKept_named htext hname hfind (env.text.decode s.content)]

/-- All parts. -/
theorem fill_kept {env : FormEnv} (sections : List Section) {climit flimit : Int} {form form' : Form}
    (hsound : form.Sound) (h : fill env sections climit flimit form = .ok form') :
    form'.Sound ∧ (form'.Kept ↔ form.Kept ∧ ∀ key, KeyKept env.files form sections key) := by
  induction sections generalizing climit flimit form with
  | nil =>
    cases h
    refine ⟨hsound, ?_⟩
    constructor
    · intro hkept
      exact ⟨hkept, fun key _ s hs => (by cases hs)⟩
    · exact fun hkept => hkept.1
  | cons s sections ih =>
    cases htake : takeSection env s climit flimit form with
    | error e =>
      rw [fill_cons_error htake] at h
      cases h
    | ok x =>
      obtain ⟨climit', flimit', form₁⟩ := x
      rw [fill_cons htake] at h
      obtain ⟨hsound₁, hstep⟩ := takeSection_kept sections hsound htake
      obtain ⟨hsound', hrest⟩ := ih hsound₁ h
      exact ⟨hsound', hrest.trans hstep⟩

theorem sound_empty : Form.empty.Sound where
  fresh := fun _ h => (by cases h)
  keys := List.nodup_nil
  exist := fun _ _ h => (by cases h)
  once := fun _ _ _ h => (by cases h)

theorem mem_deleteTmpFiles {params : List (List Char × FormValue)} {fn : Nat} :
    fn ∈ deleteTmpFiles params ↔ ∃ key, (key, .file fn) ∈ params := by
  unfold deleteTmpFiles
  rw [List.mem_filterMap]
  constructor
  · intro h
    obtain ⟨⟨key, v⟩, hmem, hv⟩ := h
    cases v with
    | text s => cases hv
    | file n =>
      cases hv
      exact ⟨key, hmem⟩
  · intro h
    obtain ⟨key, hmem⟩ := h
    exact ⟨(key, .file fn), hmem, rfl⟩

/-- delete-tmp-files deletes exactly the files of the form when all of them are kept. -/
theorem Form.Sound.deleted_iff {form : Form} (h : form.Sound) :
    (∀ fn, fn ∈ form.files ↔ fn ∈ deleteTmpFiles form.result) ↔ form.Kept := by
  simp only [mem_deleteTmpFiles]
  constructor
  · intro hall fn hfn
    exact (hall fn).mp hfn
  · intro hkept fn
    refine ⟨hkept fn, fun hmem => ?_⟩
    obtain ⟨key, hkey⟩ := hmem
    exact h.exist key fn hkey

/-- A call that throws leaves no file. One that returns leaves the files of its table, exactly when
no part with a name in files takes the place of a file. -/
theorem uploads_leave_no_file (t : Text) (disk : Disk) (headerLimit : Int) (boundary : List Char)
    (contentLimit fileLimit : Nat) (files : List (List Char)) (ip : InPort) :
    (∀ e form, parseMultipart t disk headerLimit boundary contentLimit fileLimit files ip = .error (e, form) →
      form.files = []) ∧
    ∀ ip' form, parseMultipart t disk headerLimit boundary contentLimit fileLimit files ip = .ok (ip', form) →
      ∃ sections, formSections t headerLimit boundary ip = .ok (sections, ip') ∧
        ((∀ fn, fn ∈ form.files ↔ fn ∈ deleteTmpFiles form.result) ↔ KeepsFiles files sections) := by
  refine ⟨fun e form h => ?_, fun ip' form h => ?_⟩
  · unfold parseMultipart at h
    split at h
    · cases h
      rfl
    · split at h
      · cases h
        rfl
      · exact parseEnd_restores _ _ _ _ _ Form.empty sound_empty.fresh e form h
  · obtain ⟨sections, table, hsections, hfill⟩ := parseMultipart_ok h
    obtain ⟨hsound, hkept⟩ := fill_kept sections sound_empty hfill
    refine ⟨sections, hsections, ?_⟩
    rw [hsound.deleted_iff, hkept, keepsFiles_iff]
    exact ⟨fun h => h.2, fun h => ⟨fun fn hfn => (by cases hfn), h⟩⟩

/-- A file and then a string under the same name. -/
def overwritingForm : List Char :=
  ("--\r\nContent-Disposition: form-data; name=\"f\"; filename=\"x\"\r\n\r\nA" ++
    "\r\n--\r\nContent-Disposition: form-data; name=\"f\"\r\n\r\nB\r\n----\r\n").toList

/-- The temporary file is not in the table. -/
theorem upload_left_behind :
    parseMultipart leanText Disk.working 100 ['-', '-'] 100 100 [['f']] ⟨0, utf8 overwritingForm⟩ =
      .ok (⟨122, []⟩, ⟨[(['f'], .text ['B'])], [0], 1⟩) ∧
    deleteTmpFiles [(['f'], .text ['B'])] = [] := by
  decide +kernel

end Swish.Http
