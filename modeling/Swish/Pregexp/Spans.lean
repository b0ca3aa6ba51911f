import Swish.Pregexp.Loops

/-!
Whatever the pattern, the matcher never takes a character or a substring that is not in the
searched part of the string, and the positions it records lie there.
-/

set_option autoImplicit false

namespace Swish.Pregexp

open Lib Lib.Attempt

variable {C : Chars} {s : List Char} {start top fuel : Nat} {keys : List (Option Nat)}

mutual

/-- The numbers of the pattern are numbers: a quantifier that starts with a comma has no first one. -/
def Re.numbered : Re → Bool
  | .symbol _ | .char _ | .charRange _ _ => true
  | .oneOfChars res | .seq res | .or res => numberedAll res
  | .backref k => k.isSome
  | .between _ p _ re => p.isSome && re.numbered
  | .sub _ re | .negChar re | .lookahead re | .negLookahead re | .lookbehind re | .negLookbehind re | .noBacktrack re
  | .caseSensitive re | .caseInsensitive re => re.numbered

def numberedAll : List Re → Bool
  | [] => true
  | re :: res => re.numbered && numberedAll res

end

/-- The groups are those of the pattern, and what they matched lies between start and top. -/
structure Within (keys : List (Option Nat)) (start top : Nat) (st : St) : Prop where
  keys : st.backrefs.map (·.1) = keys
  spans : ∀ b ∈ st.backrefs, ∀ i j, b.2 = some (i, j) → start ≤ i ∧ i ≤ j ∧ j ≤ top

theorem Within.setBackref {i j : Nat} {st : St} (h : Within keys start top st) (id : Nat) (hlo : start ≤ i) (hij : i ≤ j)
    (hj : j ≤ top) : Within keys start top (st.setBackref id i j) where
  keys := by
    rw [← h.keys]
    simp only [St.setBackref, List.map_map]
    refine List.map_congr_left fun b _ => ?_
    simp only [Function.comp_apply]
    split <;> rfl
  spans := by
    simp only [St.setBackref, List.mem_map]
    rintro b ⟨b', hb', rfl⟩ i' j' hb
    split at hb
    · cases hb
      exact ⟨hlo, hij, hj⟩
    · exact h.spans b' hb' i' j' hb

theorem Within.withCase {st : St} (h : Within keys start top st) (sensitive : Bool) :
    Within keys start top { st with caseSensitive := sensitive } := ⟨h.keys, h.spans⟩

/-- From i the search goes on within n, and takes nothing from outside the string. -/
abbrev Stays (keys : List (Option Nat)) (start top n i : Nat) (m : Step) : Prop :=
  Sound (Within keys start top) (· ≠ .notValid) (fun x => i ≤ x ∧ x ≤ n) m

variable {n i : Nat} {m m' : Step}

theorem stays_pass {j : Nat} (hj : i ≤ j) (hn : j ≤ n) : Stays keys start top n i (fun sk _ => sk j) :=
  sound_of_choice fun _ _ st hst => .inl ⟨j, st, ⟨hj, hn⟩, hst, rfl⟩

theorem stays_block : Stays keys start top n i (fun _ fk => fk) := sound_of_choice fun _ _ _ _ => .inr (.inl rfl)

theorem stays_fail {e : Failure} (he : e ≠ .notValid) : Stays keys start top n i (fun _ _ => fail e) :=
  sound_of_choice fun _ _ _ _ => .inr (.inr ⟨e, he, rfl⟩)

theorem stays_withChar {j : Nat} {f : Char → Step} (hj : j < s.length) (h : ∀ c, Stays keys start top n i (f c)) :
    Stays keys start top n i (fun sk fk => withChar s j fun c => f c sk fk) := by
  simpa [withChar, List.getElem?_eq_getElem hj] using h s[j]

theorem stays_stringMatch_go (hs : n ≤ s.length) (cs : List Char) {k : Nat} (hk : i ≤ k) (hn : k ≤ n) :
    Stays keys start top n i (stringMatch.go s n cs k) := by
  induction cs generalizing k with
  | nil => exact stays_pass hk hn
  | cons c cs ih =>
    refine sound_ite (fun _ => stays_block) fun hnk => stays_withChar (by omega) fun d => ?_
    exact sound_ite (fun _ => ih (by omega) (by omega)) fun _ => stays_block

theorem stays_stringMatch (hs : n ≤ s.length) (s1 : List Char) (hin : i ≤ n) :
    Stays keys start top n i (stringMatch s s1 i n) :=
  sound_ite (fun _ => stays_block) fun _ => stays_stringMatch_go hs s1 (Nat.le_refl i) hin

theorem stays_atWordBoundary (hs : n ≤ s.length) (h : Stays keys start top n i m) (h' : Stays keys start top n i m') :
    Stays keys start top n i (fun sk fk => atWordBoundary C s i n (m sk fk) (m' sk fk)) := by
  refine sound_ite (fun _ => h) fun hi => stays_withChar (by omega) fun d => stays_withChar (by omega) fun c => ?_
  exact sound_ite (fun _ => h) fun _ => h'

/-- What an attempt that looks for a place leaves. -/
abbrev Looks (keys : List (Option Nat)) (start top : Nat) (B : Nat → Prop) (go : Go) : Prop :=
  Safe (Within keys start top) (fun x st => B x ∧ Within keys start top st) (· ≠ .notValid) go

theorem Sound.looks {R : Nat → Prop} (h : Sound (Within keys start top) (· ≠ .notValid) R m) :
    Looks keys start top R (m answer refuse) := h.look fun _ he => he

theorem stays_ifFound {go : Go} {B : Nat → Prop} {my : Nat → Step} (hgo : Looks keys start top B go)
    (hy : ∀ x, B x → Stays keys start top n i (my x)) (hn : Stays keys start top n i m) :
    Stays keys start top n i (fun sk fk => ifFound go (fun x => my x sk fk) (m sk fk)) := by
  intro A E hE sk fk hsk hfk
  have hgo' : Safe (Within keys start top) (fun x st => B x ∧ Within keys start top st) E go := hgo.mono hE
  exact hgo'.ifFound (fun x st hx => hy x hx.1 A E hE sk fk hsk hfk st hx.2) fun _ => hn A E hE sk fk hsk hfk

theorem looks_loopLookbehind {ms : Nat → Step} (hm : ∀ i, start ≤ i → i ≤ n → Stays keys start top n i (ms i)) :
    ∀ i, start ≤ i → i ≤ n → Looks keys start top (fun _ => True) (loopLookbehind ms start n i) := by
  have hend : ∀ x, Looks keys start top (fun _ => True) (if x = n then answer x else refuse : Go) := by
    intro x
    split
    · exact safe_answer fun _ hst => ⟨True.intro, hst⟩
    · exact safe_refuse
  intro i
  induction i with
  | zero => exact fun hi hn => hm 0 hi hn _ _ (fun _ he => he) _ _ (fun x _ => hend x) safe_refuse
  | succ i ih =>
    intro hi hn
    refine hm (i + 1) hi hn _ _ (fun _ he => he) _ _ (fun x _ => hend x) ?_
    split
    · exact ih (by omega) (by omega)
    · exact safe_refuse

theorem stays_withCase {sensitive : Bool} (h : Stays keys start top n i m) :
    Stays keys start top n i (fun sk fk old => m (fun i1 st => sk i1 { st with caseSensitive := old.caseSensitive })
      (fun st => fk { st with caseSensitive := old.caseSensitive }) { old with caseSensitive := sensitive }) := by
  intro A E hE sk fk hsk hfk old hold
  exact h A E hE _ _ (fun x hx st hst => hsk x hx _ (hst.withCase _)) (fun st hst => hfk _ (hst.withCase _)) _ (hold.withCase _)

theorem stays_setBackref (id : Nat) (hi : start ≤ i) (hn : n ≤ top) (h : Stays keys start top n i m) :
    Stays keys start top n i (fun sk fk => m (fun i1 st => sk i1 (st.setBackref id i i1)) fk) :=
  sound_record (g := fun i1 st => st.setBackref id i i1) h fun _ _ hx hst => hst.setBackref id hi hx.1 (Nat.le_trans hx.2 hn)

/-- What a group matched is a substring. -/
theorem stays_backref {k : Option Nat} (hk : k.isSome) (hs : top ≤ s.length) (hin : i ≤ n) (hn : n ≤ top) :
    Stays keys start top n i (sub C s start fuel (.backref k) n i) := by
  intro A E hE sk fk hsk hfk st hst
  obtain ⟨k, rfl⟩ := Option.isSome_iff_exists.mp hk
  simp only [sub]
  cases hb : st.backrefs[k]? with
  | none => exact hE _ (by simp)
  | some b =>
    obtain ⟨key, _ | ⟨a, b⟩⟩ := b
    · exact hsk i ⟨Nat.le_refl i, hin⟩ st hst
    · have hspan := hst.spans _ (List.mem_of_getElem? hb) a b rfl
      have hsub : a ≤ b ∧ b ≤ s.length := ⟨hspan.2.1, by omega⟩
      simp only [hsub, and_self, if_true]
      exact stays_stringMatch (by omega) _ hin A E hE sk fk hsk hfk st hst

theorem stays_between {minimal : Bool} {p q : Option Nat} (hp : p.isSome) {ms : Nat → Step}
    (hm : ∀ i, start ≤ i → i ≤ n → Stays keys start top n i (ms i)) (hi : start ≤ i) (hin : i ≤ n) :
    Stays keys start top n i (between fuel minimal p q ms i) := by
  obtain ⟨b, rfl⟩ := Option.isSome_iff_exists.mp hp
  have hforward : Forward (fun i => start ≤ i ∧ i ≤ n) (fun i x => i ≤ x ∧ x ≤ n) n := fun i x hi hx =>
    ⟨⟨Nat.le_trans hi.1 hx.1, hx.2⟩, hx⟩
  have hsound : Sound (Within keys start top) (· ≠ .notValid) (Quantified (fun i x => i ≤ x ∧ x ≤ n) b q i)
      (between fuel minimal (some b) q ms i) :=
    between_sound (P := fun i => start ≤ i ∧ i ≤ n) (fun i hi => hm i hi.1 hi.2) hforward
      ⟨fun _ _ _ _ _ => by simp, .inl (by simp)⟩ ⟨hi, hin⟩
  refine hsound.mono fun y hy => ?_
  obtain ⟨x, hx, c, -, hy⟩ := hy
  have hstep : ∀ x y, (i ≤ x ∧ x ≤ n) → (x ≤ y ∧ y ≤ n) → i ≤ y ∧ y ≤ n := fun _ _ hx hy => ⟨Nat.le_trans hx.1 hy.1, hy.2⟩
  exact hy.induct hstep (hx.induct hstep ⟨Nat.le_refl i, hin⟩)

mutual

theorem sub_stays (hs : top ≤ s.length) : ∀ (re : Re) {n i : Nat}, re.numbered = true → start ≤ i → i ≤ n → n ≤ top →
    Stays keys start top n i (sub C s start fuel re n i)
  | .symbol .bos, _, i, _, _, hin, _ => sound_ite (fun _ => stays_pass (Nat.le_refl i) hin) fun _ => stays_block
  | .symbol .eos, _, i, _, _, hin, _ => sound_ite (fun _ => stays_pass (Nat.le_refl i) hin) fun _ => stays_block
  | .symbol .empty, _, i, _, _, hin, _ => stays_pass (Nat.le_refl i) hin
  | .symbol .wbdry, _, i, _, _, hin, hn => stays_atWordBoundary (Nat.le_trans hn hs) (stays_pass (Nat.le_refl i) hin) stays_block
  | .symbol .notWbdry, _, i, _, _, hin, hn =>
    stays_atWordBoundary (Nat.le_trans hn hs) stays_block (stays_pass (Nat.le_refl i) hin)
  | .symbol (.cls x), _, i, _, _, _, hn => sound_ite (fun hlt => stays_withChar (by omega) fun c =>
      sound_ite (fun _ => stays_pass (Nat.le_succ i) hlt) fun _ => stays_block) fun _ => stays_block
  | .symbol (.other _), _, _, _, _, _, hn =>
    sound_ite (fun _ => stays_withChar (by omega) fun _ => stays_fail (by simp)) fun _ => stays_block
  | .char c, _, i, _, _, _, hn => sound_ite (fun hlt => stays_withChar (by omega) fun d =>
      sound_choose (stays_pass (Nat.le_succ i) hlt) stays_block) fun _ => stays_block
  | .charRange lo hi, _, i, _, _, _, hn => sound_ite (fun hlt => stays_withChar (by omega) fun c =>
      sound_choose (stays_pass (Nat.le_succ i) hlt) stays_block) fun _ => stays_block
  | .oneOfChars chars, _, _, hv, hi, hin, hn =>
    sound_ite (fun _ => stays_block) fun _ => loopOneOfChars_stays hs chars hv hi hin hn
  | .negChar re, _, i, hv, hi, hin, hn => sound_ite (fun _ => stays_block) fun hlt => fun A E hE sk fk hsk hfk =>
      sub_stays hs re hv hi hin hn A E hE _ _ (fun _ _ => hfk) (hsk (i + 1) ⟨Nat.le_succ i, by omega⟩)
  | .seq res, _, _, hv, hi, hin, hn => loopSeq_stays hs res hv hi hin hn
  | .or res, _, _, hv, hi, hin, hn => loopOr_stays hs res hv hi hin hn
  | .backref k, _, _, hv, _, hin, hn => stays_backref hv hs hin hn
  | .sub id re, _, _, hv, hi, hin, hn => stays_setBackref id hi hn (sub_stays hs re hv hi hin hn)
  | .lookahead re, _, i, hv, hi, hin, hn => stays_ifFound (Sound.looks (sub_stays hs re hv hi hin hn))
      (fun _ _ => stays_pass (Nat.le_refl i) hin) stays_block
  | .negLookahead re, _, i, hv, hi, hin, hn => stays_ifFound (Sound.looks (sub_stays hs re hv hi hin hn))
      (fun _ _ => stays_block) (stays_pass (Nat.le_refl i) hin)
  | .lookbehind re, _, i, hv, hi, hin, hn => stays_ifFound (looks_loopLookbehind (fun _ hj hji => sub_stays hs re hv hj hji
      (Nat.le_trans hin hn)) i hi (Nat.le_refl i)) (fun _ _ => stays_pass (Nat.le_refl i) hin) stays_block
  | .negLookbehind re, _, i, hv, hi, hin, hn => stays_ifFound (looks_loopLookbehind (fun _ hj hji => sub_stays hs re hv hj hji
      (Nat.le_trans hin hn)) i hi (Nat.le_refl i)) (fun _ _ => stays_block) (stays_pass (Nat.le_refl i) hin)
  | .noBacktrack re, _, _, hv, hi, hin, hn => stays_ifFound (Sound.looks (sub_stays hs re hv hi hin hn))
      (fun _ hx => stays_pass hx.1 hx.2) stays_block
  | .caseSensitive re, _, _, hv, hi, hin, hn => stays_withCase (sub_stays hs re hv hi hin hn)
  | .caseInsensitive re, _, _, hv, hi, hin, hn => stays_withCase (sub_stays hs re hv hi hin hn)
  | .between minimal p q re, _, _, hv, hi, hin, hn =>
    stays_between (Bool.and_eq_true_iff.mp hv).1 (fun _ hj hjn => sub_stays hs re (Bool.and_eq_true_iff.mp hv).2 hj hjn hn) hi hin

theorem loopOneOfChars_stays (hs : top ≤ s.length) : ∀ (res : List Re) {n i : Nat}, numberedAll res = true → start ≤ i → i ≤ n →
    n ≤ top → Stays keys start top n i (loopOneOfChars C s start fuel res n i)
  | [], _, _, _, _, _, _ => stays_block
  | re :: res, _, _, hv, hi, hin, hn => fun A E hE sk fk hsk hfk =>
    sub_stays hs re (Bool.and_eq_true_iff.mp hv).1 hi hin hn A E hE sk _ hsk
      (loopOneOfChars_stays hs res (Bool.and_eq_true_iff.mp hv).2 hi hin hn A E hE sk fk hsk hfk)

theorem loopSeq_stays (hs : top ≤ s.length) : ∀ (res : List Re) {n i : Nat}, numberedAll res = true → start ≤ i → i ≤ n → n ≤ top →
    Stays keys start top n i (loopSeq C s start fuel res n i)
  | [], _, i, _, _, hin, _ => stays_pass (Nat.le_refl i) hin
  | re :: res, _, _, hv, hi, hin, hn =>
    (sound_andThen (sub_stays hs re (Bool.and_eq_true_iff.mp hv).1 hi hin hn) fun _ hx =>
      loopSeq_stays hs res (Bool.and_eq_true_iff.mp hv).2 (Nat.le_trans hi hx.1) hx.2 hn).mono
        fun _ ⟨_, hx, hy⟩ => ⟨Nat.le_trans hx.1 hy.1, hy.2⟩

theorem loopOr_stays (hs : top ≤ s.length) : ∀ (res : List Re) {n i : Nat}, numberedAll res = true → start ≤ i → i ≤ n → n ≤ top →
    Stays keys start top n i (loopOr C s start fuel res n i)
  | [], _, _, _, _, _, _ => stays_block
  | re :: res, _, _, hv, hi, hin, hn => (sound_alt (sub_stays hs re (Bool.and_eq_true_iff.mp hv).1 hi hin hn)
      (loopOr_stays hs res (Bool.and_eq_true_iff.mp hv).2 hi hin hn)).mono fun _ => Or.rec id id

end

mutual

theorem makeBackrefList_fresh : ∀ (re : Re) (b), b ∈ makeBackrefList re → b.2 = none
  | .symbol x, b, h => by
    simp only [makeBackrefList] at h
    split at h
    · simp_all
    · cases h
  | .char _, _, h | .charRange _ _, _, h | .backref _, _, h => by cases h
  | .oneOfChars res, b, h | .seq res, b, h | .or res, b, h => makeBackrefLists_fresh res b h
  | .sub id re, b, h => by
    rcases List.mem_cons.mp h with rfl | h
    · rfl
    · exact makeBackrefList_fresh re b h
  | .negChar re, b, h | .lookahead re, b, h | .negLookahead re, b, h | .lookbehind re, b, h | .negLookbehind re, b, h
  | .noBacktrack re, b, h | .caseSensitive re, b, h | .caseInsensitive re, b, h | .between _ _ _ re, b, h =>
    makeBackrefList_fresh re b h

theorem makeBackrefLists_fresh : ∀ (res : List Re) (b), b ∈ makeBackrefLists res → b.2 = none
  | re :: res, b, h => by
    rcases List.mem_append.mp h with h | h
    · exact makeBackrefList_fresh re b h
    · exact makeBackrefLists_fresh res b h

end

/-- As many groups as the pattern has, each without a match or within the bounds, and the first with one. -/
structure Fits (re : Re) (start n : Nat) (spans : List (Option (Nat × Nat))) : Prop where
  groups : spans.length = (makeBackrefList re).length
  within : ∀ i j, some (i, j) ∈ spans → start ≤ i ∧ i ≤ j ∧ j ≤ n
  whole : ∃ p groups, spans = some p :: groups

/-- No string-ref or substring fails, and what matches fits. -/
def Answers (re : Re) (start n : Nat) : Except Failure (Option (List (Option (Nat × Nat)))) → Prop
  | .error e => e ≠ .notValid
  | .ok none => True
  | .ok (some spans) => Fits re start n spans

variable {re : Re}

theorem matchPositionsAux_answers (hs : n ≤ s.length) (hv : re.numbered = true) (hre : makeBackrefList re ≠ []) (hi : start ≤ i)
    (hin : i ≤ n) : Answers re start n (matchPositionsAux C s fuel re start n i) := by
  have hfresh : Within ((makeBackrefList re).map (·.1)) start n ⟨makeBackrefList re, true⟩ :=
    ⟨rfl, fun b hb i j hij => by simp [makeBackrefList_fresh re b hb] at hij⟩
  have hlooks := Sound.looks (@sub_stays C s start n fuel _ hs re n i hv hi hin (Nat.le_refl n)) _ hfresh
  have hfits : ∀ st, Within ((makeBackrefList re).map (·.1)) start n st →
      Answers re start n (groupsOf st) := by
    intro st hst
    have hlength : (st.backrefs.map (·.2)).length = (makeBackrefList re).length := by
      simpa using congrArg List.length hst.keys
    have hwithin : ∀ i j, some (i, j) ∈ st.backrefs.map (·.2) → start ≤ i ∧ i ≤ j ∧ j ≤ n := by
      intro i j hij
      obtain ⟨b, hb, hbij⟩ := List.mem_map.mp hij
      exact hst.spans b hb i j hbij
    unfold groupsOf
    cases hspans : st.backrefs.map (·.2) with
    | nil =>
      rw [hspans] at hlength
      exact absurd (List.length_eq_zero_iff.mp hlength.symm) hre
    | cons span groups =>
      rw [hspans] at hlength hwithin
      cases span with
      | none => exact True.intro
      | some p => exact ⟨hlength, hwithin, p, groups, rfl⟩
  unfold matchPositionsAux
  revert hlooks
  cases sub C s start fuel re n i answer refuse ⟨makeBackrefList re, true⟩ with
  | error e => exact id
  | ok out =>
    obtain ⟨_ | x, st⟩ := out
    · exact hfits st
    · exact fun h => hfits st h.2

theorem matchLoop_answers (hs : n ≤ s.length) (hv : re.numbered = true) (hre : makeBackrefList re ≠ []) (left : Nat) :
    ∀ i, start ≤ i → i + left = n → Answers re start n (matchLoop C s fuel re start n left i) := by
  induction left with
  | zero =>
    intro i hi hleft
    have h := @matchPositionsAux_answers C s start fuel n i re hs hv hre hi (by omega)
    rw [matchLoop]
    cases hm : matchPositionsAux C s fuel re start n i with
    | error e => rwa [hm] at h
    | ok out => cases out <;> rwa [hm] at h
  | succ left ih =>
    intro i hi hleft
    have h := @matchPositionsAux_answers C s start fuel n i re hs hv hre hi (by omega)
    rw [matchLoop]
    cases hm : matchPositionsAux C s fuel re start n i with
    | error e => rwa [hm] at h
    | ok out =>
      cases out with
      | none => exact ih (i + 1) (by omega) (by omega)
      | some spans => rwa [hm] at h

theorem matchPositions_answers (hs : n ≤ s.length) (hv : re.numbered = true) (hre : makeBackrefList re ≠ []) :
    Answers re start n (matchPositions C s fuel re start n) := by
  unfold matchPositions
  split
  · exact matchLoop_answers hs hv hre _ start (Nat.le_refl _) (by omega)
  · exact True.intro

/-- The substrings at the positions. -/
def substrings (s : List Char) (spans : List (Option (Nat × Nat))) : List (Option (List Char)) :=
  spans.map (Option.map fun p => (s.take p.2).drop p.1)

theorem mapM_substring (hs : n ≤ s.length) (spans : List (Option (Nat × Nat)))
    (h : ∀ i j, some (i, j) ∈ spans → start ≤ i ∧ i ≤ j ∧ j ≤ n) :
    spans.mapM (substringIfAny s) = .ok (substrings s spans) := by
  induction spans with
  | nil => rfl
  | cons span spans ih =>
    have hrest := ih fun i j hij => h i j (List.mem_cons_of_mem _ hij)
    rw [List.mapM_cons, hrest]
    obtain _ | ⟨i, j⟩ := span
    · rfl
    · have hspan := h i j List.mem_cons_self
      have hsub : i ≤ j ∧ j ≤ s.length := ⟨hspan.2.1, by omega⟩
      simp only [substringIfAny, substring, hsub, and_self, if_true]
      rfl

/-- With bounds in the string nothing outside of it is asked for, the groups of a match lie between the bounds, and
pregexp-match returns the substrings at the positions that pregexp-match-positions returns. -/
theorem pregexpMatch_within (hs : n ≤ s.length) (hv : re.numbered = true) (hre : makeBackrefList re ≠ []) :
    Answers re start n (matchPositions C s fuel re start n) ∧
      pregexpMatch C s fuel re start n = (matchPositions C s fuel re start n).map (Option.map (substrings s)) := by
  have h := @matchPositions_answers C s start fuel n re hs hv hre
  refine ⟨h, ?_⟩
  unfold pregexpMatch
  revert h
  cases matchPositions C s fuel re start n with
  | error e => exact fun _ => rfl
  | ok out =>
    cases out with
    | none => exact fun _ => rfl
    | some spans =>
      intro h
      have hsubs := mapM_substring hs spans h.within
      change (spans.mapM (substringIfAny s) >>= fun strings => pure (some strings)) = _
      rw [hsubs]
      rfl

/-- The reference of a repeated string. -/
theorem pregexpMatch_within_backref :
    pregexpMatch ascii ['x', 'a', 'a'] 4 (.sub 0 (.or [.seq [.sub 1 (.char 'a'), .backref (some 1)]])) 0 3 =
      .ok (some [some ['a', 'a'], some ['a']]) := by
  have h := (@pregexpMatch_within ascii ['x', 'a', 'a'] 0 4 3 (.sub 0 (.or [.seq [.sub 1 (.char 'a'), .backref (some 1)]]))
    (by decide) rfl (by decide)).2
  have hfound : matchPositions ascii ['x', 'a', 'a'] 4 (.sub 0 (.or [.seq [.sub 1 (.char 'a'), .backref (some 1)]])) 0 3 =
      .ok (some [some (1, 3), some (1, 2)]) := by decide +kernel
  rw [h, hfound]
  rfl

end Swish.Pregexp
