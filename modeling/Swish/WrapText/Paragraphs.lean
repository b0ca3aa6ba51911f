import Mathlib.Data.List.TakeWhile
import Swish.WrapText.Text

/-!
The words between newlines, and what is left of the tokens when white space is minimized.
-/

set_option autoImplicit false

namespace Swish.WrapText

def words (l : List Char) : List Word := (l.splitOn ' ').filter (· ≠ [])

/-- The words of each stretch between newlines. -/
def paragraphs (s : List Char) : List (List Word) := (s.splitOn '\n').map words

/-- The characters of a text. A space follows each string of a list. -/
def Text.chars : Text → List Char
  | .string s => s
  | .strings ls => ls.flatMap (· ++ [' '])

/-- The tokens are maximal runs, single spaces and newlines. -/
inductive Runs : List Char → List Token → Prop where
  | nil : Runs [] []
  | space {text : List Char} {ls : List Token} (h : Runs text ls) : Runs (' ' :: text) (.ws :: ls)
  | newline {text : List Char} {ls : List Token} (h : Runs text ls) : Runs ('\n' :: text) (.line :: ls)
  | word {w text : List Char} {ls : List Token} (hne : w ≠ []) (hw : ∀ c, c ∈ w → inWord c)
      (hmax : ∀ s rest, ls ≠ .word s :: rest) (h : Runs text ls) : Runs (w ++ text) (.word w :: ls)

theorem inWord_of_not {c : Char} (h : ¬inWord c) : c = ' ' ∨ c = '\n' := by
  simpa [inWord, or_iff_not_imp_left] using h

theorem token_word {w : List Char} (hw : ∀ c, c ∈ w → inWord c) : token w = .word w := by
  have hspace : w ≠ [' '] := fun he => absurd (hw ' ' (by simp [he])) (by decide)
  have hline : w ≠ ['\n'] := fun he => absurd (hw '\n' (by simp [he])) (by decide)
  rw [token, if_neg hspace, if_neg hline]

/-- After a maximal run there is no other run. -/
theorem Runs.no_word {text s : List Char} {ls rest : List Token} (h : Runs text ls)
    (hhead : ∀ c, c ∈ text.head? → ¬inWord c) : ls ≠ .word s :: rest := by
  intro he
  subst he
  cases h with
  | word hne hw hmax h =>
    obtain ⟨c, w, rfl⟩ := List.exists_cons_of_ne_nil hne
    exact hhead c rfl (hw c List.mem_cons_self)

theorem head_dropWhile {p : Char → Bool} {l : List Char} : ∀ c, c ∈ (l.dropWhile p).head? → ¬p c := by
  intro c hc
  have := List.head?_dropWhile_not p l
  rw [Option.mem_def.mp hc] at this
  simpa using this

theorem extract_none (acc : List Token) : extract [] acc = acc := by
  rw [extract]
  rfl

theorem extract_some {text s rest : List Char} (h : matchPositions text = some (s, rest)) (acc : List Token) :
    extract text acc = extract rest (token s :: acc) := by
  rw [extract]
  split
  · next hnone =>
    rw [h] at hnone
    cases hnone
  · next hsome =>
    rw [h] at hsome
    cases hsome
    rfl

/-- What pregexp splits the text into. -/
theorem extract_runs (text : List Char) :
    ∃ ls, Runs text ls ∧ ∀ acc, extract text acc = ls.reverse ++ acc := by
  induction hn : text.length using Nat.strongRecOn generalizing text with
  | ind n ih =>
    subst hn
    cases text with
    | nil =>
      exact ⟨[], .nil, extract_none⟩
    | cons c text =>
      by_cases hc : inWord c
      · have hm : matchPositions (c :: text) = some (c :: text.takeWhile inWord, text.dropWhile inWord) := by
          rw [matchPositions, if_pos hc]
        obtain ⟨ls, hruns, hls⟩ := ih _ (matchPositions_lt hm) (text.dropWhile inWord) rfl
        have hw : ∀ d, d ∈ c :: text.takeWhile inWord → inWord d := by
          intro d hd
          rcases List.mem_cons.mp hd with rfl | hd
          · exact hc
          · exact List.mem_takeWhile_imp hd
        refine ⟨.word (c :: text.takeWhile inWord) :: ls, ?_, fun acc => ?_⟩
        · have h := Runs.word (List.cons_ne_nil c _) hw (fun s rest => hruns.no_word head_dropWhile) hruns
          rwa [List.cons_append, List.takeWhile_append_dropWhile] at h
        · rw [extract_some hm, hls, token_word hw, List.reverse_cons, List.append_assoc]
          rfl
      · have hm : matchPositions (c :: text) = some ([c], text) := by
          rw [matchPositions, if_neg hc]
        obtain ⟨ls, hruns, hls⟩ := ih _ (matchPositions_lt hm) text rfl
        have hstep (acc : List Token) : extract (c :: text) acc = (token [c] :: ls).reverse ++ acc := by
          rw [extract_some hm, hls, List.reverse_cons, List.append_assoc]
          rfl
        rcases inWord_of_not hc with rfl | rfl
        · exact ⟨.ws :: ls, .space hruns, hstep⟩
        · exact ⟨.line :: ls, .newline hruns, hstep⟩

/-- Two texts with a space between them. -/
theorem Runs.append {s t : List Char} {ls ms : List Token} (hs : Runs s ls) (ht : Runs t ms) :
    Runs (s ++ ' ' :: t) (ls ++ .ws :: ms) := by
  induction hs with
  | nil => exact .space ht
  | space h ih => exact .space ih
  | newline h ih => exact .newline ih
  | @word w text ls hne hw hmax h ih =>
    rw [List.append_assoc]
    refine .word hne hw (fun s rest he => ?_) ih
    cases ls with
    | nil => cases he
    | cons x ls =>
      cases he
      exact hmax _ _ rfl

theorem tokens_runs (text : Text) : Runs text.chars text.tokens := by
  cases text with
  | string s =>
    obtain ⟨ls, hruns, hls⟩ := extract_runs s
    rw [Text.tokens, hls [], List.append_nil, List.reverse_reverse]
    exact hruns
  | strings strings =>
    have hfold (acc : List Token) : ∃ ls, Runs (strings.flatMap (· ++ [' '])) ls ∧
        strings.foldl (fun ls s => .ws :: extract s ls) acc = ls.reverse ++ acc := by
      induction strings generalizing acc with
      | nil => exact ⟨[], .nil, rfl⟩
      | cons s strings ih =>
        obtain ⟨ls, hruns, hls⟩ := extract_runs s
        obtain ⟨ms, hms, hfold⟩ := ih (.ws :: extract s acc)
        refine ⟨ls ++ .ws :: ms, ?_, ?_⟩
        · have h := hruns.append hms
          rwa [List.flatMap_cons, List.append_assoc]
        · rw [List.foldl_cons, hfold, hls]
          simp
    obtain ⟨ls, hruns, hls⟩ := hfold []
    rw [Text.tokens, hls, List.append_nil, List.reverse_reverse]
    exact hruns

theorem words_space (l : List Char) : words (' ' :: l) = words l := by
  simp [words, List.splitOn_cons_eq_if_modifyHead]

section

variable {w : List Char} (hne : w ≠ []) (hw : ∀ c, c ∈ w → inWord c)
include hw

theorem not_mem_of_inWord {c : Char} (h : ¬inWord c) : c ∉ w := fun hc => h (hw c hc)

include hne

theorem words_word : words w = [w] := by
  rw [words, List.splitOn_eq_singleton (not_mem_of_inWord hw (by decide))]
  simp [hne]

theorem words_word_space (l : List Char) : words (w ++ ' ' :: l) = w :: words l := by
  rw [words, List.splitOn_append_cons_self_of_not_mem (not_mem_of_inWord hw (by decide)), List.filter_cons_of_pos]
  · rfl
  · simpa using hne

end

theorem paragraphs_nil : paragraphs [] = [[]] := by
  simp [paragraphs, words]

theorem paragraphs_space (text : List Char) : paragraphs (' ' :: text) = paragraphs text := by
  obtain ⟨l, ls, hl⟩ := List.exists_cons_of_ne_nil (List.splitOn_ne_nil '\n' text)
  simp [paragraphs, List.splitOn_cons_eq_if_modifyHead, hl, words_space]

theorem paragraphs_newline (text : List Char) : paragraphs ('\n' :: text) = [] :: paragraphs text := by
  simp [paragraphs, List.splitOn_cons_eq_if_modifyHead, words]

/-- A text without the separator before the first piece. -/
theorem splitOn_append {a : Char} {w : List Char} (hw : a ∉ w) (text : List Char) :
    (w ++ text).splitOn a = (text.splitOn a).modifyHead (w ++ ·) := by
  obtain ⟨l, ls, hl⟩ := List.exists_cons_of_ne_nil (List.splitOn_ne_nil a text)
  induction w with
  | nil => simp [hl]
  | cons c w ih =>
    have hc : c ≠ a := fun he => hw (by simp [he])
    have hw' : a ∉ w := fun hm => hw (List.mem_cons_of_mem c hm)
    simp [List.splitOn_cons_eq_if_modifyHead, hc, ih hw', hl]

/-- A run is a word of the first paragraph after it. -/
theorem paragraphs_word {w text : List Char} {ls : List Token} (hne : w ≠ []) (hw : ∀ c, c ∈ w → inWord c)
    (hmax : ∀ s rest, ls ≠ .word s :: rest) (h : Runs text ls) :
    paragraphs (w ++ text) = (paragraphs text).modifyHead (w :: ·) := by
  have hline : '\n' ∉ w := not_mem_of_inWord hw (by decide)
  cases h with
  | nil =>
    rw [List.append_nil, paragraphs_nil, paragraphs, List.splitOn_eq_singleton hline, List.map_singleton,
      words_word hne hw]
    rfl
  | @space text ls h =>
    obtain ⟨l, ls, hl⟩ := List.exists_cons_of_ne_nil (List.splitOn_ne_nil '\n' text)
    have hsplit : (' ' :: text).splitOn '\n' = (' ' :: l) :: ls := by
      simp [List.splitOn_cons_eq_if_modifyHead, hl]
    simp [paragraphs, splitOn_append hline, hsplit, words_word_space hne hw, words_space]
  | @newline text ls h =>
    rw [paragraphs_newline, paragraphs, List.splitOn_append_cons_self_of_not_mem hline, List.map_cons,
      words_word hne hw]
    rfl
  | word => exact absurd rfl (hmax _ _)

theorem paragraphs_ne_nil (text : List Char) : paragraphs text ≠ [] := by
  simp [paragraphs]

/-- Words are not empty, and have no spaces and no newlines. -/
theorem Runs.inWord {text : List Char} {ls : List Token} (h : Runs text ls) :
    ∀ p, p ∈ paragraphs text → ∀ w, w ∈ p → w ≠ [] ∧ ∀ c, c ∈ w → inWord c := by
  induction h with
  | nil => simp [paragraphs_nil]
  | space h ih => rwa [paragraphs_space]
  | newline h ih =>
    intro p hp
    rw [paragraphs_newline] at hp
    rcases List.mem_cons.mp hp with rfl | hp
    · simp
    · exact ih p hp
  | @word w text ls hne hw hmax h ih =>
    obtain ⟨q, ps, hq⟩ := List.exists_cons_of_ne_nil (paragraphs_ne_nil text)
    intro p hp v hv
    rw [paragraphs_word hne hw hmax h, hq, List.modifyHead_cons] at hp
    rw [hq] at ih
    rcases List.mem_cons.mp hp with rfl | hp
    · rcases List.mem_cons.mp hv with rfl | hv
      · exact ⟨hne, hw⟩
      · exact ih q List.mem_cons_self v hv
    · exact ih p (List.mem_cons_of_mem q hp) v hv

/-- The words of a line, with white space between them. -/
def spaced : List Word → List Token
  | [] => []
  | w :: p => .word w :: p.flatMap fun v => [.ws, .word v]

/-- The tokens of paragraphs with no white space to spare. -/
def compact : List (List Word) → List Token
  | [] => []
  | [p] => spaced p
  | p :: q :: ps => spaced p ++ .line :: compact (q :: ps)

/-- The white space before the first word, unless it is at the beginning of a line. -/
def gap (bol : Bool) : List (List Word) → List Token
  | (_ :: _) :: _ => if bol then [] else [.ws]
  | _ => []

theorem gap_true (ps : List (List Word)) : gap true ps = [] := by
  unfold gap
  split <;> rfl

theorem compact_word (w : Word) (p : List Word) (ps : List (List Word)) :
    compact ((w :: p) :: ps) = .word w :: (gap false (p :: ps) ++ compact (p :: ps)) := by
  cases p <;> cases ps <;> rfl

theorem compact_line {ps : List (List Word)} (h : ps ≠ []) : compact ([] :: ps) = .line :: compact ps := by
  cases ps with
  | nil => exact absurd rfl h
  | cons p ps => rfl

/-- The loop of minimize-whitespace. No two words are adjacent, so white space has been seen before a word
that is not at the beginning of a line. -/
theorem Runs.minimize {text : List Char} {ls : List Token} (h : Runs text ls) :
    ∀ bol ws : Bool, ((∃ s rest, ls = .word s :: rest) → bol = true ∨ ws = true) →
      minimize ls bol ws = gap bol (paragraphs text) ++ compact (paragraphs text) := by
  induction h with
  | nil =>
    intro bol ws _
    rw [paragraphs_nil]
    rfl
  | space h ih =>
    intro bol ws _
    rw [paragraphs_space]
    exact ih bol true fun _ => .inr rfl
  | @newline text ls h ih =>
    intro bol ws _
    rw [paragraphs_newline, compact_line (paragraphs_ne_nil text), WrapText.minimize, ih true false fun _ => .inl rfl,
      gap_true]
    rfl
  | @word w text ls hne hw hmax h ih =>
    intro bol ws hb
    obtain ⟨q, ps, hq⟩ := List.exists_cons_of_ne_nil (paragraphs_ne_nil text)
    have hrest := ih false ws fun hw => by
      obtain ⟨s, rest, he⟩ := hw
      exact absurd he (hmax s rest)
    rw [paragraphs_word hne hw hmax h, hq, List.modifyHead_cons, compact_word, WrapText.minimize, hrest, hq]
    cases bol with
    | true => rfl
    | false =>
      have hws : ws = true := by simpa using hb ⟨w, ls, rfl⟩
      subst hws
      rfl

theorem minimizeWhitespace_eq (text : Text) : minimizeWhitespace text.tokens = compact (paragraphs text.chars) := by
  rw [minimizeWhitespace, (tokens_runs text).minimize true false fun _ => .inl rfl, gap_true]
  rfl

end Swish.WrapText
