import Swish.Lib.Fill
import Swish.WrapText.Paragraphs

/-!
The lines that wrap-text writes.
-/

set_option autoImplicit false

namespace Swish.WrapText

open Lib

def joined (line : List Word) : List Char := [' '].intercalate line

/-- A line as it is written. An empty line has no indentation. -/
def render (indent : Nat) (line : List Word) : List Char :=
  if line = [] then [] else spaces indent ++ joined line

def indented (initialIndent subsequentIndent : Nat) : List (List Word) → List (List Char)
  | [] => []
  | line :: lines => render initialIndent line :: lines.map (render subsequentIndent)

/-- The output is made of lines of words, the paragraphs of the text one after the other. -/
structure Wrapped (width initialIndent subsequentIndent : Nat) (text out : List Char)
    (lines : List (List (List Word))) : Prop where
  /-- Each paragraph has its words, in order. -/
  words : lines.map List.flatten = paragraphs text
  /-- A paragraph without words is an empty line. All other lines have words. -/
  nonempty : ∀ p, p ∈ lines → p = [[]] ∨ p ≠ [] ∧ [] ∉ p
  layout : out.splitOn '\n' = indented initialIndent subsequentIndent lines.flatten
  fits : ∀ line, line ∈ lines.flatten → line.length = 1 ∨ (joined line).length ≤ width
  ends : ∀ l, l ∈ out.splitOn '\n' → l.getLast? ≠ some ' '

variable {width k sub pos indent : Nat} {flag : Bool} {tail : List Char} {R : List Token}

/-- The text as it is written, with newlines between the lines. -/
def written (initialIndent subsequentIndent : Nat) (lines : List (List Word)) : List Char :=
  ['\n'].intercalate (indented initialIndent subsequentIndent lines)

theorem indented_cons (line : List Word) (lines : List (List Word)) :
    indented k sub (line :: lines) = render k line :: indented sub sub lines := by
  cases lines <;> rfl

theorem written_cons (line : List Word) {lines : List (List Word)} (h : lines ≠ []) :
    written k sub (line :: lines) = render k line ++ '\n' :: written sub sub lines := by
  obtain ⟨l, ls, rfl⟩ := List.exists_cons_of_ne_nil h
  rw [written, indented_cons, indented_cons, List.intercalate_cons_cons, ← indented_cons, written, List.append_assoc]
  rfl

theorem written_append {lines more : List (List Word)} (h : lines ≠ []) (hm : more ≠ []) :
    written k sub (lines ++ more) = written k sub lines ++ '\n' :: written sub sub more := by
  induction lines generalizing k with
  | nil => exact absurd rfl h
  | cons line lines ih =>
    cases lines with
    | nil =>
      rw [List.singleton_append, written_cons line hm]
      simp [written, indented]
    | cons l ls =>
      rw [List.cons_append, written_cons line (by simp), ih (by simp), written_cons line (by simp), List.append_assoc]
      rfl

theorem joined_snoc {line : List Word} (h : line ≠ []) (w : Word) : joined (line ++ [w]) = joined line ++ ' ' :: w := by
  induction line with
  | nil => exact absurd rfl h
  | cons v line ih =>
    rw [joined] at ih ⊢
    cases line with
    | nil => simp [joined]
    | cons u line =>
      rw [List.cons_append, List.cons_append, List.intercalate_cons_cons, ← List.cons_append, ih (by simp)]
      simp [joined]

/-- Whether a word still fits on the line, with the space before it. -/
def fitsOn (width : Nat) (line : List Word) (w : Word) : Bool := w.length + (joined line).length < width

section

variable {s : Word} {rest : List Token} {out : List Char}

theorem wrapLoop_word (flag : Bool) (h : wrapLoop width sub rest (pos + s.length) indent false = .ok out) :
    wrapLoop width sub (.word s :: rest) pos indent flag =
      .ok ((if flag then spaces indent else []) ++ s ++ out) := by
  rw [wrapLoop, h]
  rfl

theorem wrapLoop_space (flag : Bool) (hs : s.length + pos < width)
    (h : wrapLoop width sub (.word s :: rest) (pos + 1) indent flag = .ok out) :
    wrapLoop width sub (.ws :: .word s :: rest) pos indent flag = .ok (' ' :: out) := by
  rw [wrapLoop, if_pos hs, h]
  rfl

theorem wrapLoop_break (indent : Nat) (flag : Bool) (hs : ¬s.length + pos < width)
    (h : wrapLoop width sub (.word s :: rest) 0 sub true = .ok out) :
    wrapLoop width sub (.ws :: .word s :: rest) pos indent flag = .ok ('\n' :: out) := by
  rw [wrapLoop, if_neg hs, h]
  rfl

theorem wrapLoop_newline (h : wrapLoop width sub rest 0 sub true = .ok out) :
    wrapLoop width sub (.line :: rest) pos indent flag = .ok ('\n' :: out) := by
  rw [wrapLoop, h]
  rfl

end

/-- The loop of wrap-text within a line. The tokens after the paragraph are written in the same way at all
positions. -/
theorem wrapLoop_line (hR : ∀ pos indent flag, wrapLoop width sub R pos indent flag = .ok tail) (p : List Word)
    (cur : List Word) (hcur : cur ≠ []) (k indent : Nat) :
    ∃ body, wrapLoop width sub (p.flatMap (fun v => [.ws, .word v]) ++ R) (joined cur).length indent false =
        .ok (body ++ tail) ∧
      spaces k ++ joined cur ++ body = written k sub (fillFrom (fitsOn width) cur p) := by
  induction p generalizing cur k indent with
  | nil =>
    refine ⟨[], hR _ _ _, ?_⟩
    simp [fillFrom, written, indented, render, hcur]
  | cons w p ih =>
    rw [fillFrom]
    by_cases hw : w.length + (joined cur).length < width
    · obtain ⟨body, hbody, hwritten⟩ := ih (cur ++ [w]) (by simp) k indent
      have hpos : (joined (cur ++ [w])).length = (joined cur).length + 1 + w.length := by
        rw [joined_snoc hcur, List.length_append, List.length_cons]
        omega
      rw [hpos] at hbody
      refine ⟨' ' :: w ++ body, ?_, ?_⟩
      · have hloop := wrapLoop_space false hw (wrapLoop_word false hbody)
        simpa using hloop
      · rw [if_pos (by simpa [fitsOn] using hw), ← hwritten, joined_snoc hcur]
        simp
    · obtain ⟨body, hbody, hwritten⟩ := ih [w] (by simp) sub sub
      have hpos : (joined [w]).length = 0 + w.length := by simp [joined]
      rw [hpos] at hbody
      refine ⟨'\n' :: (spaces sub ++ w ++ body), ?_, ?_⟩
      · have hloop := wrapLoop_break indent false hw (wrapLoop_word true hbody)
        simpa using hloop
      · rw [if_neg (by simpa [fitsOn] using hw), written_cons cur (fillFrom_ne_nil [w] p), ← hwritten]
        simp [render, hcur, joined]

theorem wrapLoop_spaced (hR : ∀ pos indent flag, wrapLoop width sub R pos indent flag = .ok tail) (p : List Word)
    (k : Nat) :
    wrapLoop width sub (spaced p ++ R) 0 k true = .ok (written k sub (fill (fitsOn width) p) ++ tail) := by
  cases p with
  | nil => exact hR 0 k true
  | cons w p =>
    obtain ⟨body, hbody, hwritten⟩ := wrapLoop_line hR p [w] (by simp) k k
    have hpos : (joined [w]).length = 0 + w.length := by simp [joined]
    rw [hpos] at hbody
    have hloop := wrapLoop_word true hbody
    rw [fill, ← hwritten]
    simpa [spaced, joined] using hloop

theorem wrapLoop_compact {ps : List (List Word)} (h : ps ≠ []) (k : Nat) :
    wrapLoop width sub (compact ps) 0 k true = .ok (written k sub (ps.flatMap (fill (fitsOn width)))) := by
  induction ps generalizing k with
  | nil => exact absurd rfl h
  | cons p ps ih =>
    cases ps with
    | nil =>
      have hloop : wrapLoop width sub (spaced p ++ []) 0 k true = .ok (written k sub (fill (fitsOn width) p) ++ []) :=
        wrapLoop_spaced (fun _ _ _ => rfl) p k
      simpa [compact] using hloop
    | cons q ps =>
      have hrest := ih (by simp) sub
      have hloop := wrapLoop_spaced (fun _ _ _ => wrapLoop_newline hrest) p k
      have hne : (q :: ps).flatMap (fill (fitsOn width)) ≠ [] := by
        simp [fill_ne_nil]
      rw [compact, hloop, ← written_append (fill_ne_nil p) hne]
      rfl

theorem mem_joined {line : List Word} {c : Char} (h : c ∈ joined line) : c = ' ' ∨ ∃ w, w ∈ line ∧ c ∈ w := by
  induction line with
  | nil => cases h
  | cons w line ih =>
    cases line with
    | nil => exact .inr ⟨w, by simp, by simpa [joined] using h⟩
    | cons v line =>
      rw [joined, List.intercalate_cons_cons, List.append_assoc] at h
      rcases List.mem_append.mp h with hc | hc
      · exact .inr ⟨w, by simp, hc⟩
      · rcases List.mem_cons.mp hc with rfl | hc
        · exact .inl rfl
        · rcases ih hc with he | ⟨u, hu, hc⟩
          · exact .inl he
          · exact .inr ⟨u, List.mem_cons_of_mem w hu, hc⟩

theorem mem_render {line : List Word} {c : Char} (h : c ∈ render k line) : c = ' ' ∨ ∃ w, w ∈ line ∧ c ∈ w := by
  rw [render] at h
  split at h
  · cases h
  · rcases List.mem_append.mp h with hc | hc
    · exact .inl (List.eq_of_mem_replicate hc)
    · exact mem_joined hc

/-- A line that is not empty ends with its last word. -/
theorem render_snoc (line : List Word) (w : Word) : ∃ start, render k (line ++ [w]) = start ++ w := by
  rw [render, if_neg (by simp)]
  by_cases h : line = []
  · subst h
    exact ⟨spaces k, by simp [joined]⟩
  · rw [joined_snoc h]
    exact ⟨spaces k ++ joined line ++ [' '], by simp⟩

theorem render_getLast? {line : List Word} (h : ∀ w, w ∈ line → w ≠ [] ∧ ∀ c, c ∈ w → inWord c) :
    (render k line).getLast? ≠ some ' ' := by
  rcases List.eq_nil_or_concat line with rfl | ⟨line, w, rfl⟩
  · simp [render]
  · obtain ⟨hne, hw⟩ := h w (by simp)
    obtain ⟨start, hstart⟩ := render_snoc (k := k) line w
    intro hlast
    rw [List.concat_eq_append, hstart, List.getLast?_append_of_ne_nil start hne] at hlast
    exact absurd (hw ' ' (List.mem_of_getLast? hlast)) (by decide)

theorem mem_indented {lines : List (List Word)} {l : List Char} (h : l ∈ indented k sub lines) :
    ∃ n line, line ∈ lines ∧ l = render n line := by
  cases lines with
  | nil => cases h
  | cons line lines =>
    rcases List.mem_cons.mp h with rfl | h
    · exact ⟨k, line, List.mem_cons_self, rfl⟩
    · obtain ⟨line', hline, rfl⟩ := List.mem_map.mp h
      exact ⟨sub, line', List.mem_cons_of_mem line hline, rfl⟩

theorem fill_fits (p : List Word) :
    ∀ line, line ∈ fill (fitsOn width) p → line.length = 1 ∨ (joined line).length ≤ width := by
  refine fill_forall (.inr (Nat.zero_le width)) (fun w => .inl rfl) (fun cur w _ hw => ?_) p
  by_cases hcur : cur = []
  · subst hcur
    exact .inl rfl
  · have hlt : w.length + (joined cur).length < width := by simpa [fitsOn] using hw
    refine .inr ?_
    rw [joined_snoc hcur, List.length_append, List.length_cons]
    omega

/-- The lines of each paragraph. -/
def linesOf (width : Nat) (text : Text) : List (List (List Word)) :=
  (paragraphs text.chars).map (fill (fitsOn width))

theorem linesOf_inWord {text : Text} {line : List Word} (h : line ∈ (linesOf width text).flatten) :
    ∀ w, w ∈ line → w ≠ [] ∧ ∀ c, c ∈ w → inWord c := by
  intro w hw
  obtain ⟨lines, hlines, hline⟩ := List.mem_flatten.mp h
  obtain ⟨p, hp, rfl⟩ := List.mem_map.mp hlines
  have hwp : w ∈ (fill (fitsOn width) p).flatten := List.mem_flatten.mpr ⟨line, hline, hw⟩
  rw [fill_flatten] at hwp
  exact (tokens_runs text).inWord p hp w hwp

/-- The newlines of the output are those between the lines. -/
theorem written_splitOn (text : Text) :
    (written k sub (linesOf width text).flatten).splitOn '\n' = indented k sub (linesOf width text).flatten := by
  refine List.splitOn_intercalate '\n' (fun l hl hmem => ?_) ?_
  · obtain ⟨n, line, hline, rfl⟩ := mem_indented hl
    rcases mem_render hmem with he | ⟨w, hw, hc⟩
    · exact absurd he (by decide)
    · exact absurd ((linesOf_inWord hline w hw).2 '\n' hc) (by decide)
  · obtain ⟨p, ps, hp⟩ := List.exists_cons_of_ne_nil (paragraphs_ne_nil text.chars)
    obtain ⟨l, ls, hl⟩ := List.exists_cons_of_ne_nil (@fill_ne_nil _ (fitsOn width) p)
    simp [linesOf, hp, hl, indented]

theorem wrapText_eq (width initialIndent subsequentIndent : Nat) (text : Text) :
    wrapText width initialIndent subsequentIndent text =
      .ok (written initialIndent subsequentIndent (linesOf width text).flatten) := by
  rw [wrapText, minimizeWhitespace_eq, wrapLoop_compact (paragraphs_ne_nil text.chars), linesOf, List.flatMap_def]

/-- wrap-text returns, and what it writes is made of the words and the newlines of the text. -/
theorem wrapText_wrapped (width initialIndent subsequentIndent : Nat) (text : Text) :
    ∃ out lines, wrapText width initialIndent subsequentIndent text = .ok out ∧
      Wrapped width initialIndent subsequentIndent text.chars out lines := by
  refine ⟨_, linesOf width text, wrapText_eq width initialIndent subsequentIndent text, ?_, ?_, written_splitOn text,
    ?_, ?_⟩
  · rw [linesOf, List.map_map]
    exact (List.map_congr_left fun p _ => fill_flatten p).trans (List.map_id _)
  · intro lines hlines
    obtain ⟨p, -, rfl⟩ := List.mem_map.mp hlines
    by_cases hp : p = []
    · exact .inl (by rw [hp]; rfl)
    · exact .inr ⟨fill_ne_nil p, fill_line_ne_nil hp⟩
  · intro line hline
    obtain ⟨lines, hlines, hline⟩ := List.mem_flatten.mp hline
    obtain ⟨p, -, rfl⟩ := List.mem_map.mp hlines
    exact fill_fits p line hline
  · intro l hl
    rw [written_splitOn] at hl
    obtain ⟨n, line, hline, rfl⟩ := mem_indented hl
    exact render_getLast? (linesOf_inWord hline)

end Swish.WrapText
