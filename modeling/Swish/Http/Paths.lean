import Swish.Http.Utf8
import Swish.Lib.LexicalPath

/-!
The file names that the http cache makes of the path of a request, as Scheme has them
and as the operating system does: a foreign string ends at its first NUL.
-/

set_option autoImplicit false

namespace Swish.Http

open LexicalPath

def nul : Char := Char.ofNat 0

/-- http:valid-path? where / is the only directory separator. -/
def validPath (path : List Char) : Bool := path.head? == some '/' && !(split '/' path).contains ['.', '.']

/-- (path-extension path), as far as Chez Scheme documents it: what follows the last dot of the last
component, if there is one. -/
structure PathExtension where
  ext : List Char → List Char
  last : ∀ path, ext path ≠ [] → '/' ∉ ext path ∧ ∃ pre, path = pre ++ '.' :: ext path

/-- (path-combine x y). -/
def pathCombine (x y : List Char) : List Char :=
  if x = [] then y
  else if y = [] then x
  else if x.getLast? = some '/' ∨ y.head? = some '/' then x ++ y
  else x ++ '/' :: y

/-- The two values of url->abs-paths, with none for #f. -/
def urlToAbsPaths (extension : PathExtension) (searchExtensions : List (List Char)) (rootDir path : List Char) :
    List (List Char) × Option (List (List Char)) :=
  let path := pathCombine rootDir path
  if path.getLast? = some '/' then
    (searchExtensions.map fun ext => path ++ "index".toList ++ ext, none)
  else if extension.ext path = [] then
    (searchExtensions.map fun ext => path ++ ext, some (searchExtensions.map fun ext => path ++ "/index".toList ++ ext))
  else ([path], none)

/-- Every file name that is made. -/
def candidates (extension : PathExtension) (searchExtensions : List (List Char)) (rootDir path : List Char) :
    List (List Char) :=
  let (paths, redirect) := urlToAbsPaths extension searchExtensions rootDir path
  paths ++ redirect.getD []

/-- The name that the operating system is given. -/
def osName (q : List Char) : List Char := q.takeWhile (· ≠ nul)

/-- A file-search extension such as .html. -/
structure IsSearchExtension (ext : List Char) : Prop where
  long : 2 ≤ ext.length
  slash : '/' ∉ ext
  nul : nul ∉ ext

theorem osName_append {a b : List Char} (h : nul ∉ a) : osName (a ++ b) = a ++ osName b := by
  unfold osName
  rw [List.takeWhile_append_of_pos]
  intro c hc
  simp only [decide_eq_true_eq]
  exact fun heq => h (heq ▸ hc)

theorem osName_of_not_mem {q : List Char} (h : nul ∉ q) : osName q = q := by
  have hnil := osName_append (b := []) h
  rw [List.append_nil] at hnil
  exact hnil.trans (List.append_nil q)

/-- The first NUL ends the name. -/
theorem osName_of_mem {a : List Char} (h : nul ∈ a) (b : List Char) : osName (a ++ b) = osName a := by
  induction a with
  | nil => cases h
  | cons c a ih =>
    unfold osName at ih ⊢
    by_cases hc : c = nul
    · rw [List.cons_append, List.takeWhile_cons_of_neg (by simpa using hc), List.takeWhile_cons_of_neg (by simpa using hc)]
    · have hmem : nul ∈ a := by
        obtain heq | hmem := List.mem_cons.mp h
        · exact absurd heq.symm hc
        · exact hmem
      rw [List.cons_append, List.takeWhile_cons_of_pos (by simpa using hc), List.takeWhile_cons_of_pos (by simpa using hc),
        ih hmem]

section

variable {extension : PathExtension} {searchExtensions : List (List Char)} {rootDir path : List Char}

theorem pathCombine_slash (hroot : rootDir ≠ []) (hpath : path.head? = some '/') :
    pathCombine rootDir path = rootDir ++ path := by
  have hne : path ≠ [] := by
    intro h
    rw [h] at hpath
    cases hpath
  unfold pathCombine
  rw [if_neg hroot, if_neg hne, if_pos (Or.inr hpath)]

theorem validPath_cases (h : validPath path = true) :
    ∃ rest, path = '/' :: rest ∧ ['.', '.'] ∉ split '/' rest := by
  unfold validPath at h
  simp only [Bool.and_eq_true, beq_iff_eq, Bool.not_eq_true', List.contains_eq_mem, decide_eq_false_iff_not] at h
  cases path with
  | nil => cases h.1
  | cons c rest =>
    cases h.1
    refine ⟨rest, rfl, fun hmem => h.2 ?_⟩
    rw [split, if_pos rfl]
    exact List.mem_cons_of_mem _ hmem

theorem candidates_cases (hroot : rootDir ≠ []) (hpath : path.head? = some '/') {q : List Char}
    (hq : q ∈ candidates extension searchExtensions rootDir path) :
    (∃ ext ∈ searchExtensions, q = rootDir ++ path ++ ("index".toList ++ ext)) ∨
    (path.getLast? ≠ some '/' ∧ ∃ ext ∈ searchExtensions, q = rootDir ++ path ++ ext) ∨
    (∃ ext ∈ searchExtensions, q = rootDir ++ path ++ '/' :: ("index".toList ++ ext)) ∨
    (extension.ext (rootDir ++ path) ≠ [] ∧ q = rootDir ++ path) := by
  have hindex : "/index".toList = '/' :: "index".toList := by decide
  have hlast : (rootDir ++ path).getLast? = path.getLast? := by
    rw [List.getLast?_append_of_ne_nil]
    intro h
    rw [h] at hpath
    cases hpath
  unfold candidates urlToAbsPaths at hq
  dsimp only at hq
  rw [pathCombine_slash hroot hpath, hlast] at hq
  by_cases hslash : path.getLast? = some '/'
  · rw [if_pos hslash] at hq
    simp only [Option.getD_none, List.append_nil, List.mem_map] at hq
    obtain ⟨ext, hext, rfl⟩ := hq
    exact Or.inl ⟨ext, hext, List.append_assoc _ _ _⟩
  · rw [if_neg hslash] at hq
    by_cases hnone : extension.ext (rootDir ++ path) = []
    · rw [if_pos hnone] at hq
      simp only [Option.getD_some, List.mem_append, List.mem_map] at hq
      obtain ⟨ext, hext, rfl⟩ | ⟨ext, hext, rfl⟩ := hq
      · exact Or.inr (Or.inl ⟨hslash, ext, hext, rfl⟩)
      · refine Or.inr (Or.inr (Or.inl ⟨ext, hext, ?_⟩))
        rw [hindex, List.append_assoc, List.cons_append]
    · rw [if_neg hnone] at hq
      simp only [Option.getD_none, List.append_nil, List.mem_singleton] at hq
      exact Or.inr (Or.inr (Or.inr ⟨hnone, hq⟩))

theorem ne_special {w : List Char} (h : 3 ≤ w.length) : w ≠ [] ∧ w ≠ ['.'] ∧ w ≠ ['.', '.'] := by
  refine ⟨fun heq => ?_, fun heq => ?_, fun heq => ?_⟩
  · rw [heq] at h
    exact absurd h (by decide)
  · rw [heq] at h
    exact absurd h (by decide)
  · rw [heq] at h
    exact absurd h (by decide)

/-- A long last component keeps the path below the root. -/
theorem below_of_last (hroot : rootDir ≠ []) {rest s₀ s : List Char} (hrest : ['.', '.'] ∉ split '/' (rest ++ s₀))
    (hs₀ : '/' ∉ s₀) (hs : '/' ∉ s) (hlen : 3 ≤ s.length) : Below rootDir (rootDir ++ '/' :: (rest ++ s)) := by
  obtain ⟨ws, w, -, happend⟩ := split_append '/' rest
  have hlong : 3 ≤ (w ++ s).length := by
    rw [List.length_append]
    omega
  obtain ⟨h1, h2, h3⟩ := ne_special hlong
  refine below_append hroot (happend s hs) (fun hmem => hrest ?_) h1 h2 h3
  rw [happend s₀ hs₀]
  exact List.mem_append_left _ hmem

/-- The last component has a dot and something after it. -/
theorem below_of_extension (hroot : rootDir ≠ []) {rest : List Char} (hrest : ['.', '.'] ∉ split '/' rest)
    (hext : extension.ext (rootDir ++ '/' :: rest) ≠ []) : Below rootDir (rootDir ++ '/' :: rest) := by
  obtain ⟨hslash, pre, hpre⟩ := extension.last _ hext
  generalize extension.ext (rootDir ++ '/' :: rest) = e at hext hslash hpre
  have hdot : '/' ∉ '.' :: e := by simpa using hslash
  have hend : ∃ a, rest = a ++ '.' :: e := by
    obtain ⟨a, -, ha⟩ | ⟨c, -, hc⟩ := List.append_eq_append_iff.mp hpre
    · cases a with
      | nil => cases ha
      | cons x a => exact ⟨a, (List.cons.inj ha).2⟩
    · exact absurd (hc ▸ List.mem_append_right c List.mem_cons_self) hdot
  obtain ⟨a, rfl⟩ := hend
  obtain ⟨ws, w, -, happend⟩ := split_append '/' a
  have hsplit := happend _ hdot
  rw [hsplit] at hrest
  have hlen : 2 ≤ (w ++ '.' :: e).length := by
    have := List.length_pos_of_ne_nil hext
    rw [List.length_append, List.length_cons]
    omega
  refine below_append hroot hsplit (fun hmem => hrest (List.mem_append_left _ hmem)) (fun heq => ?_) (fun heq => ?_)
    fun heq => hrest ?_
  · rw [heq] at hlen
    exact absurd hlen (by decide)
  · rw [heq] at hlen
    exact absurd hlen (by decide)
  · rw [heq]
    exact List.mem_append_right _ (List.mem_singleton_self _)

/-- Without NUL every candidate is below the root. -/
theorem candidates_below (hroot : rootDir ≠ []) (hvalid : validPath path = true)
    (hexts : ∀ ext ∈ searchExtensions, IsSearchExtension ext) {q : List Char}
    (hq : q ∈ candidates extension searchExtensions rootDir path) : Below rootDir q := by
  have hindex : '/' ∉ "index".toList ∧ 3 ≤ "index".toList.length := by decide
  have hname : ∀ ext ∈ searchExtensions, '/' ∉ "index".toList ++ ext ∧ 3 ≤ ("index".toList ++ ext).length := by
    intro ext hext
    refine ⟨fun hmem => ?_, ?_⟩
    · obtain hmem | hmem := List.mem_append.mp hmem
      · exact hindex.1 hmem
      · exact (hexts ext hext).slash hmem
    · rw [List.length_append]
      exact Nat.le_trans hindex.2 (Nat.le_add_right _ _)
  obtain ⟨rest, rfl, hrest⟩ := validPath_cases hvalid
  obtain ⟨ext, hext, rfl⟩ | ⟨hlast, ext, hext, rfl⟩ | ⟨ext, hext, rfl⟩ | ⟨hext, rfl⟩ := candidates_cases hroot rfl hq
  · have hrest' : ['.', '.'] ∉ split '/' (rest ++ []) := by rwa [List.append_nil]
    rw [List.append_assoc, List.cons_append]
    exact below_of_last hroot hrest' List.not_mem_nil (hname ext hext).1 (hname ext hext).2
  · obtain hnil | ⟨rest₀, c, rfl⟩ := List.eq_nil_or_concat rest
    · rw [hnil] at hlast
      exact absurd rfl hlast
    · rw [List.concat_eq_append] at hrest hlast ⊢
      have hc : '/' ≠ c := by
        intro heq
        rw [← List.cons_append, List.getLast?_append_of_ne_nil _ (List.cons_ne_nil c []), heq] at hlast
        exact hlast rfl
      have hs : '/' ∉ c :: ext := by
        intro hmem
        obtain heq | hmem := List.mem_cons.mp hmem
        · exact hc heq
        · exact (hexts ext hext).slash hmem
      have hlen : 3 ≤ (c :: ext).length := Nat.succ_le_succ (hexts ext hext).long
      rw [List.append_assoc, List.cons_append, List.append_assoc, List.singleton_append]
      exact below_of_last hroot hrest (by simpa using hc) hs hlen
  · obtain ⟨h1, h2, h3⟩ := ne_special (hname ext hext).2
    have hsplit : split '/' (rest ++ '/' :: ("index".toList ++ ext)) = split '/' rest ++ ["index".toList ++ ext] := by
      rw [split_append_sep, split_of_not_mem (hname ext hext).1]
    rw [List.append_assoc, List.cons_append]
    exact below_append hroot hsplit hrest h1 h2 h3
  · exact below_of_extension hroot hrest hext

/-- Every candidate begins with the root and the path. -/
theorem candidates_start (hroot : rootDir ≠ []) (hpath : path.head? = some '/')
    (hexts : ∀ ext ∈ searchExtensions, IsSearchExtension ext) {q : List Char}
    (hq : q ∈ candidates extension searchExtensions rootDir path) : ∃ s, nul ∉ s ∧ q = rootDir ++ (path ++ s) := by
  have hindex : nul ∉ "index".toList := by decide
  have hslash : nul ≠ '/' := by decide
  have hname : ∀ ext ∈ searchExtensions, nul ∉ "index".toList ++ ext := by
    intro ext hext hmem
    obtain hmem | hmem := List.mem_append.mp hmem
    · exact hindex hmem
    · exact (hexts ext hext).nul hmem
  obtain ⟨ext, hext, rfl⟩ | ⟨-, ext, hext, rfl⟩ | ⟨ext, hext, rfl⟩ | ⟨-, rfl⟩ := candidates_cases hroot hpath hq
  · exact ⟨_, hname ext hext, List.append_assoc _ _ _⟩
  · exact ⟨_, (hexts ext hext).nul, List.append_assoc _ _ _⟩
  · refine ⟨_, fun hmem => ?_, List.append_assoc _ _ _⟩
    obtain heq | hmem := List.mem_cons.mp hmem
    · exact hslash heq
    · exact hname ext hext hmem
  · exact ⟨[], List.not_mem_nil, by rw [List.append_nil]⟩

end

theorem osNames_below_iff {extension : PathExtension} {searchExtensions : List (List Char)} {rootDir path : List Char}
    (hexts : ∀ ext ∈ searchExtensions, IsSearchExtension ext) (hne : rootDir ≠ []) (hroot : nul ∉ rootDir)
    (hvalid : validPath path = true) :
    (∀ q ∈ candidates extension searchExtensions rootDir path,
      Below rootDir (osName q) ∧ extension.ext (osName q) = extension.ext q) ↔
    (nul ∈ path → ∀ q ∈ candidates extension searchExtensions rootDir path,
      Below rootDir (rootDir ++ osName path) ∧ extension.ext (rootDir ++ osName path) = extension.ext q) := by
  obtain ⟨rest, hpath, -⟩ := validPath_cases hvalid
  have hhead : path.head? = some '/' := by rw [hpath]; rfl
  by_cases hnul : nul ∈ path
  · have hcut : ∀ q ∈ candidates extension searchExtensions rootDir path, osName q = rootDir ++ osName path := by
      intro q hq
      obtain ⟨s, -, rfl⟩ := candidates_start hne hhead hexts hq
      rw [osName_append hroot, osName_of_mem hnul]
    constructor
    · intro h _ q hq
      rw [← hcut q hq]
      exact h q hq
    · intro h q hq
      rw [hcut q hq]
      exact h hnul q hq
  · constructor
    · intro _ h
      exact absurd h hnul
    · intro _ q hq
      obtain ⟨s, hs, rfl⟩ := candidates_start hne hhead hexts hq
      have hall : nul ∉ rootDir ++ (path ++ s) := by
        simp only [List.mem_append, not_or]
        exact ⟨hroot, hnul, hs⟩
      rw [osName_of_not_mem hall]
      exact ⟨candidates_below hne hvalid hexts hq, rfl⟩

/-- The names that the operating system is given are below the root, with the extensions that were decided
upon, exactly when the path has no NUL or is cut at one that leaves them so. -/
theorem accepted_paths_below_root (t : Text) (extension : PathExtension) (searchExtensions : List (List Char))
    (hexts : ∀ ext ∈ searchExtensions, IsSearchExtension ext) (rootDir : List Char) (hne : rootDir ≠ [])
    (hroot : nul ∉ rootDir) (bv : List UInt8) :
    ∀ request, parseRequest t bv = some request → validPath request.path = true →
      ((∀ q ∈ candidates extension searchExtensions rootDir request.path,
        Below rootDir (osName q) ∧ extension.ext (osName q) = extension.ext q) ↔
      (nul ∈ request.path → ∀ q ∈ candidates extension searchExtensions rootDir request.path,
        Below rootDir (rootDir ++ osName request.path) ∧
          extension.ext (rootDir ++ osName request.path) = extension.ext q)) := by
  intro request _ hvalid
  exact osNames_below_iff hexts hne hroot hvalid

/-- What follows the last dot of the last component. -/
def afterDot : List Char → List Char
  | [] => []
  | c :: s => if c = '.' ∧ '.' ∉ s ∧ '/' ∉ s then s else afterDot s

theorem afterDot_last (path : List Char) (h : afterDot path ≠ []) :
    '/' ∉ afterDot path ∧ ∃ pre, path = pre ++ '.' :: afterDot path := by
  induction path with
  | nil => exact absurd rfl h
  | cons c s ih =>
    rw [afterDot] at h ⊢
    by_cases hdot : c = '.' ∧ '.' ∉ s ∧ '/' ∉ s
    · rw [if_pos hdot]
      exact ⟨hdot.2.2, [], by rw [hdot.1]; rfl⟩
    · rw [if_neg hdot] at h ⊢
      obtain ⟨hslash, pre, hpre⟩ := ih h
      refine ⟨hslash, c :: pre, ?_⟩
      rw [List.cons_append, ← hpre]

def dotExtension : PathExtension := ⟨afterDot, afterDot_last⟩

theorem isSearchExtension_html : ∀ ext ∈ [".html".toList], IsSearchExtension ext := by
  intro ext hext
  rw [List.mem_singleton.mp hext]
  exact ⟨by decide, by decide, by decide⟩

theorem accepted_paths_below_root_plain :
    (∀ ext ∈ [".html".toList], IsSearchExtension ext) ∧ "/w".toList ≠ [] ∧ nul ∉ "/w".toList ∧
    ∃ request, parseRequest leanText (utf8 "GET /a HTTP/1.1".toList) = some request ∧ validPath request.path = true ∧
      ∀ q ∈ candidates dotExtension [".html".toList] "/w".toList request.path,
        Below "/w".toList (osName q) ∧ dotExtension.ext (osName q) = dotExtension.ext q := by
  have hpath : (parseRequest leanText (utf8 "GET /a HTTP/1.1".toList)).map Request.path = some ['/', 'a'] := by
    decide +kernel
  obtain ⟨request, hrequest, hpath⟩ := Option.map_eq_some_iff.mp hpath
  have hvalid : validPath request.path = true := by rw [hpath]; decide
  have hnul : nul ∉ request.path := by rw [hpath]; decide
  refine ⟨isSearchExtension_html, by decide, by decide, request, hrequest, hvalid, ?_⟩
  exact (accepted_paths_below_root leanText dotExtension [".html".toList] isSearchExtension_html "/w".toList (by decide)
    (by decide) (utf8 "GET /a HTTP/1.1".toList) request hrequest hvalid).mpr fun h => absurd h hnul

/-- The path has no component .. but the name that is opened has. -/
theorem nul_leaves_root :
    (parseRequest leanText (utf8 "GET /..%00x HTTP/1.1".toList)).map Request.path = some ['/', '.', '.', nul, 'x'] ∧
    validPath ['/', '.', '.', nul, 'x'] = true ∧
    candidates dotExtension [".html".toList] "/w".toList ['/', '.', '.', nul, 'x'] =
      ["/w/..".toList ++ [nul, 'x']] ∧
    osName ("/w/..".toList ++ [nul, 'x']) = "/w/..".toList ∧
    normalise "/w/..".toList = [] ∧ normalise "/w".toList = [['w']] ∧ ¬ Below "/w".toList "/w/..".toList := by
  have hnormal : normalise "/w/..".toList = [] ∧ normalise "/w".toList = [['w']] := by decide
  refine ⟨by decide +kernel, by decide, by decide +kernel, by decide, hnormal.1, hnormal.2, fun h => ?_⟩
  have := h.2.2
  rw [hnormal.1, hnormal.2] at this
  exact absurd this (by decide)

end Swish.Http
