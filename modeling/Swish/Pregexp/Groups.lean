import Swish.Pregexp.Plain

/-!
The reader stops on every string, and what it returns is well formed: the groups are numbered by
where they start, from left to right.
-/

set_option autoImplicit false

namespace Swish.Pregexp

/-- What may stand between brackets. -/
def Re.item : Re → Bool
  | .char _ | .charRange _ _ | .symbol _ | .negChar (.symbol _) => true
  | _ => false

def Re.bracket : Re → Bool
  | .symbol _ => true
  | .oneOfChars res => !res.isEmpty && res.all Re.item
  | _ => false

mutual

def Re.wellFormed : Re → Bool
  | .symbol _ | .char _ | .charRange _ _ | .backref _ => true
  | .oneOfChars res => !res.isEmpty && res.all Re.item
  | .negChar re => re.bracket
  | .seq res | .or res => wellFormedAll res
  | .sub _ re | .lookahead re | .negLookahead re | .lookbehind re | .negLookbehind re | .noBacktrack re
  | .caseSensitive re | .caseInsensitive re | .between _ _ _ re => re.wellFormed

def wellFormedAll : List Re → Bool
  | [] => true
  | re :: res => re.wellFormed && wellFormedAll res

end

/-- Where the groups start. -/
def ids (re : Re) : List Nat := (makeBackrefList re).filterMap (·.1)

def idsAll (res : List Re) : List Nat := (makeBackrefLists res).filterMap (·.1)

/-- In ascending order, after i and up to j. -/
def Rising (i j : Nat) (l : List Nat) : Prop := l.Pairwise (· < ·) ∧ ∀ k ∈ l, i < k ∧ k ≤ j

/-- What is read from i to j. -/
structure ReadAs (i j : Nat) (re : Re) : Prop where
  rising : Rising i j (ids re)
  wellFormed : re.wellFormed = true

structure ReadAll (i j : Nat) (res : List Re) : Prop where
  rising : Rising i j (idsAll res)
  wellFormed : wellFormedAll res = true

theorem rising_nil (i j : Nat) : Rising i j [] := ⟨.nil, by simp⟩

theorem Rising.append {i j k : Nat} {l l' : List Nat} (h : Rising i j l) (h' : Rising j k l') (hij : i ≤ j) (hjk : j ≤ k) :
    Rising i k (l ++ l') := by
  refine ⟨List.pairwise_append.mpr ⟨h.1, h'.1, fun a ha b hb => ?_⟩, fun a ha => ?_⟩
  · have hle := (h.2 a ha).2
    have hlt := (h'.2 b hb).1
    omega
  · rcases List.mem_append.mp ha with ha | ha
    · have hb := h.2 a ha
      omega
    · have hb := h'.2 a ha
      omega

theorem Rising.mono {i i' j j' : Nat} {l : List Nat} (h : Rising i j l) (hi : i' ≤ i) (hj : j ≤ j') : Rising i' j' l :=
  ⟨h.1, fun k hk => ⟨Nat.lt_of_le_of_lt hi (h.2 k hk).1, Nat.le_trans (h.2 k hk).2 hj⟩⟩

theorem ReadAs.mono {i i' j j' : Nat} {re : Re} (h : ReadAs i j re) (hi : i' ≤ i) (hj : j ≤ j') : ReadAs i' j' re :=
  ⟨h.rising.mono hi hj, h.wellFormed⟩

theorem readAll_nil (i j : Nat) : ReadAll i j [] := ⟨rising_nil i j, rfl⟩

theorem ReadAs.cons {i j k : Nat} {re : Re} {res : List Re} (h : ReadAs i j re) (h' : ReadAll j k res) (hij : i ≤ j) (hjk : j ≤ k) :
    ReadAll i k (re :: res) where
  rising := by
    have happ := h.rising.append h'.rising hij hjk
    simpa [ids, idsAll, makeBackrefLists] using happ
  wellFormed := Bool.and_eq_true_iff.mpr ⟨h.wellFormed, h'.wellFormed⟩

variable {α β : Type} {E : Failure → Prop} {P : α → Prop} {Q : β → Prop}

/-- What is known of a result. -/
def Gives (E : Failure → Prop) (P : α → Prop) : Except Failure α → Prop
  | .error e => E e
  | .ok a => P a

/-- From either value of the parameter. -/
def Yields (E : Failure → Prop) (P : α → Prop) (m : Reader α) : Prop := ∀ b, Gives E (fun r => P r.1) (m b)

theorem Gives.bind {x : Except Failure α} {f : α → Except Failure β} (h : Gives E P x) (hf : ∀ a, P a → Gives E Q (f a)) :
    Gives E Q (x >>= f) := by
  cases x with
  | error e => exact h
  | ok a => exact hf a h

theorem yields_pure {a : α} (h : P a) : Yields E P (pure a) := fun _ => h

theorem yields_throw {e : Failure} (h : E e) : Yields E P (throw e : Reader α) := fun _ => h

theorem Yields.bind {m : Reader α} {f : α → Reader β} (h : Yields E P m) (hf : ∀ a, P a → Yields E Q (f a)) :
    Yields E Q (m >>= f) := fun b => Gives.bind (h b) fun r hr => hf r.1 hr r.2

theorem yields_lift {x : Except Failure α} (h : Gives E P x) : Yields E P (liftM x) := by
  intro b
  cases x with
  | error e => exact h
  | ok a => exact h

theorem yields_get : Yields E (fun _ => True) (get : Reader Bool) := fun _ => True.intro

theorem yields_set (b : Bool) : Yields E (fun _ => True) (set b : Reader PUnit) := fun _ => True.intro

theorem Gives.mono {x : Except Failure α} {P' : α → Prop} (h : Gives E P x) (hP : ∀ a, P a → P' a) : Gives E P' x := by
  cases x with
  | error e => exact h
  | ok a => exact hP a h

theorem Yields.mono {m : Reader α} {P' : α → Prop} (h : Yields E P m) (hP : ∀ a, P a → P' a) : Yields E P' m :=
  fun b => (h b).mono fun r => hP r.1

variable (C : Chars) (s : List Char) {i : Nat}

theorem gives_stringRef (hE : E .notValid) : Gives E (fun c => s[i]? = some c) (stringRef s i) := by
  unfold stringRef
  cases hc : s[i]? with
  | none => exact hE
  | some c => exact rfl

theorem readEscapedNumber_next {r : Option Nat × Nat} (h : readEscapedNumber C s i = some r) : i < r.2 := by
  unfold readEscapedNumber at h
  split at h
  · cases h
  · cases h
    simp only
    omega

theorem readEscapedChar_next {r : Re × Nat} (h : readEscapedChar s i = some r) : i < r.2 ∧ r.1.item = true := by
  unfold readEscapedChar at h
  obtain ⟨c, -, rfl⟩ := Option.map_eq_some_iff.mp h
  refine ⟨by simp only; omega, ?_⟩
  simp only
  split <;> rfl

theorem readPosixCharClass_gives (rest : List Char) (neg : Bool) (r : List Char) (hE : E .readPosixCharClass) :
    Gives E (fun r => i < r.2 ∧ r.1.item = true) (readPosixCharClass C rest neg r i) := by
  induction rest generalizing neg r i with
  | nil => exact hE
  | cons c rest ih =>
    have hrest := fun neg r => (ih (i := i + 1) neg r).mono fun (a : Re × Nat) (h : i + 1 < a.2 ∧ a.1.item = true) =>
      (⟨by omega, h.2⟩ : i < a.2 ∧ a.1.item = true)
    unfold readPosixCharClass
    split
    · exact hrest true r
    · split
      · exact hrest neg (c :: r)
      · split
        · split
          · refine ⟨by simp only; omega, ?_⟩
            cases neg <;> rfl
          · exact hE
        · exact hE

theorem readCharList_gives (fuel : Nat) (r : List Re) (hr : r.all Re.item = true) (hfuel : s.length - i < fuel) :
    Gives (· ≠ .outOfFuel) (fun out => i < out.2 ∧ out.1.bracket = true) (readCharList C s fuel r i) := by
  induction fuel generalizing r i with
  | zero => omega
  | succ fuel ih =>
    have hnext : i < s.length → ∀ {j : Nat} {re : Re} {r : List Re}, i < j → re.item = true → r.all Re.item = true →
        Gives (· ≠ .outOfFuel) (fun out : Re × Nat => i < out.2 ∧ out.1.bracket = true) (readCharList C s fuel (re :: r) j) := by
      intro hi j re r hj hre hr
      exact (ih (i := j) (re :: r) (by simp [hre, hr]) (by omega)).mono fun out h => ⟨by omega, h.2⟩
    unfold readCharList
    split
    · exact fun h => by cases h
    · rename_i hi
      have hnext := @hnext (Nat.not_le.mp hi)
      refine (gives_stringRef s (by simp)).bind fun c hc => ?_
      split
      · split
        · exact hnext (Nat.lt_succ_self i) rfl hr
        · rename_i hne
          refine ⟨Nat.lt_succ_self i, ?_⟩
          simpa [Re.bracket] using ⟨by simpa using hne, by simpa using hr⟩
      · split
        · split
          · rename_i out hout
            have hout := readEscapedChar_next s hout
            exact hnext hout.1 hout.2 hr
          · exact fun h => by cases h
        · split
          · split
            · exact hnext (Nat.lt_succ_self i) rfl hr
            · split
              · refine (gives_stringRef s (by simp)).bind fun hi _ => ?_
                exact hnext (by omega) rfl (Bool.and_eq_true_iff.mp hr).2
              · exact hnext (Nat.lt_succ_self i) rfl hr
          · split
            · refine (gives_stringRef s (by simp)).bind fun c' _ => ?_
              split
              · refine (readPosixCharClass_gives C _ false [] (by simp)).bind fun out hout => ?_
                exact hnext (by omega) hout.2 hr
              · exact hnext (Nat.lt_succ_self i) rfl hr
            · exact hnext (Nat.lt_succ_self i) rfl hr

theorem readNums_gives (sensitive : Bool) (rest p q : List Char) (second : Bool) :
    Gives (· ≠ .outOfFuel) (fun out => ∀ p q k, out = some (p, q, k) → i ≤ k) (readNums C sensitive rest p q i second) := by
  induction rest generalizing p q i second with
  | nil => exact fun h => by cases h
  | cons c rest ih =>
    have hrest := fun p q second => (ih (i := i + 1) p q second).mono fun _ h p q k heq => Nat.le_of_succ_le (h p q k heq)
    unfold readNums
    split
    · split
      · exact hrest p (c :: q) true
      · exact hrest (c :: p) q false
    · split
      · exact hrest p q second
      · split
        · exact hrest p q true
        · split
          · dsimp only
            split
            · rintro p q k ⟨⟩
              exact Nat.le_refl _
            · split <;> · rintro p q k ⟨⟩
                          exact Nat.le_refl _
          · rintro p q k ⟨⟩

theorem le_skipWhitespace (sensitive : Bool) (i : Nat) : i ≤ skipWhitespace C s sensitive i := by
  unfold skipWhitespace
  split <;> omega

theorem lt_readMinimal (sensitive : Bool) (i : Nat) : i < (readMinimal C s sensitive i).2 := by
  have hle := le_skipWhitespace C s sensitive (i + 1)
  unfold readMinimal
  dsimp only
  split
  · dsimp only
    omega
  · exact hle

theorem le_skipComments (rest : List Char) (comment : Bool) : i ≤ skipComments C rest comment i := by
  induction rest generalizing comment i with
  | nil => exact Nat.le_refl i
  | cons c rest ih =>
    have hrest := fun comment => Nat.le_of_succ_le (ih (i := i + 1) comment)
    unfold skipComments
    split
    · exact hrest _
    · split
      · exact hrest _
      · split
        · exact hrest _
        · exact Nat.le_refl i

theorem lt_skipComments {c : Char} (rest : List Char) (h : C.whitespace c = false → c = ';') :
    i < skipComments C (c :: rest) false i := by
  unfold skipComments
  simp only [Bool.false_eq_true, if_false]
  split
  · exact le_skipComments C rest false
  · rename_i hws
    rw [if_pos (h (Bool.eq_false_iff.mpr hws))]
    exact le_skipComments C rest true

/-- A quantifier has the groups of its operand. -/
theorem wrapQuantifierIfAny_yields {vv : Re × Nat} (hi : i < vv.2) (h : ReadAs i vv.2 vv.1) :
    Yields (· ≠ .outOfFuel) (fun out => i < out.2 ∧ ReadAs i out.2 out.1) (wrapQuantifierIfAny C s vv) := by
  intro sensitive
  have hle := le_skipWhitespace C s sensitive vv.2
  have hquantified : ∀ (minimal : Bool) (p q : Option Nat) (j : Nat), vv.2 ≤ j → i < j ∧ ReadAs i j (.between minimal p q vv.1) :=
    fun minimal p q j hj => ⟨by omega, h.rising.mono (Nat.le_refl i) hj, h.wellFormed⟩
  have hnext : ∀ (p q : Option Nat) (j : Nat), vv.2 ≤ j → i < (readMinimal C s sensitive j).2 ∧
      ReadAs i (readMinimal C s sensitive j).2 (.between (readMinimal C s sensitive j).1 p q vv.1) := fun p q j hj =>
    hquantified _ p q _ (Nat.le_of_lt (Nat.lt_of_le_of_lt hj (lt_readMinimal C s sensitive j)))
  unfold wrapQuantifierIfAny
  dsimp only
  split
  · exact hnext _ _ _ hle
  · exact hnext _ _ _ hle
  · exact hnext _ _ _ hle
  · have hnums := readNums_gives C (i := skipWhitespace C s sensitive vv.2 + 1) sensitive
      (s.drop (skipWhitespace C s sensitive vv.2 + 1)) [] [] false
    revert hnums
    split
    · rename_i p q k heq
      rw [heq]
      intro hnums
      exact hnext _ _ _ (by have := hnums p q k rfl; omega)
    · exact fun _ h => by cases h
    · rename_i e heq
      rw [heq]
      exact id
  · exact ⟨hi, h⟩

theorem readFlags_yields (rest : List Char) (r : List Cluster) (hr : .sub ∉ r) (inv : Bool) :
    Yields (· ≠ .outOfFuel) (fun out => i ≤ out.2 ∧ .sub ∉ out.1) (readFlags rest r inv i) := by
  induction rest generalizing r inv i with
  | nil => exact yields_throw (by simp)
  | cons c rest ih =>
    have hrest := fun r hr inv => (ih (i := i + 1) r hr inv).mono fun _ h => (⟨Nat.le_of_succ_le h.1, h.2⟩ : i ≤ _ ∧ _)
    unfold readFlags
    split
    · exact hrest r hr true
    · exact hrest _ (by cases inv <;> simpa using hr) false
    · exact (yields_set inv).bind fun _ _ => hrest r hr false
    · exact yields_pure ⟨Nat.le_succ i, hr⟩
    · exact yields_throw (by simp)

theorem readClusterType_yields :
    Yields (· ≠ .outOfFuel) (fun out => i ≤ out.2 ∧ (out.1 = [.sub] ∨ .sub ∉ out.1)) (readClusterType s i) := by
  have hc : ∀ j, Yields (· ≠ .outOfFuel) (fun c => s[j]? = some c) (liftM (stringRef s j) : Reader Char) :=
    fun j => yields_lift (gives_stringRef s (by simp))
  unfold readClusterType
  refine (hc i).bind fun c _ => ?_
  split
  · refine (hc (i + 1)).bind fun c _ => ?_
    split
    · exact yields_pure ⟨by simp, .inr (by simp)⟩
    · exact yields_pure ⟨by simp, .inr (by simp)⟩
    · exact yields_pure ⟨by simp, .inr (by simp)⟩
    · exact yields_pure ⟨by simp, .inr (by simp)⟩
    · refine (hc (i + 2)).bind fun c _ => ?_
      split
      · exact yields_pure ⟨by simp, .inr (by simp)⟩
      · exact yields_pure ⟨by simp, .inr (by simp)⟩
      · exact yields_throw (by simp)
    · exact (readFlags_yields (i := i + 1) _ [] (by simp) false).mono fun _ h => ⟨by omega, .inr h.2⟩
  · exact yields_pure ⟨Nat.le_refl i, .inl rfl⟩

/-- A cluster that is not a group has the groups of its pattern. -/
theorem readAs_clusters {start j : Nat} (ctyp : List Cluster) (h : .sub ∉ ctyp) {re : Re} (hre : ReadAs i j re) :
    ReadAs i j (ctyp.foldl (Cluster.wrap start) re) := by
  induction ctyp generalizing re with
  | nil => exact hre
  | cons c ctyp ih =>
    simp only [List.mem_cons, not_or] at h
    refine ih h.2 ?_
    cases c with
    | sub => exact absurd rfl h.1
    | _ => exact ⟨hre.rising, hre.wellFormed⟩

theorem readAs_group {j : Nat} {re : Re} (hj : i < j) (h : ReadAs (i + 1) j re) : ReadAs i j (.sub (i + 1) re) where
  rising := by
    have happ := Rising.append (i := i) (j := i + 1) (k := j) (l := [i + 1]) ⟨by simp, by simp⟩ h.rising (Nat.le_succ i) hj
    simpa [ids, makeBackrefList] using happ
  wellFormed := h.wellFormed

theorem item_ids {re : Re} (h : re.item = true) : ids re = [] ∧ re.wellFormed = true := by
  have hsymbol : ∀ x : Symbol, (makeBackrefList (.symbol x)).filterMap (·.1) = [] := by
    intro x
    simp only [makeBackrefList]
    split <;> rfl
  cases re with
  | symbol x => exact ⟨hsymbol x, rfl⟩
  | negChar re =>
    cases re with
    | symbol x => exact ⟨hsymbol x, rfl⟩
    | _ => simp [Re.item] at h
  | char c => exact ⟨rfl, rfl⟩
  | charRange lo hi => exact ⟨rfl, rfl⟩
  | _ => simp [Re.item] at h

theorem idsAll_items (res : List Re) (h : res.all Re.item = true) : idsAll res = [] := by
  induction res with
  | nil => rfl
  | cons re res ih =>
    obtain ⟨hre, hres⟩ := Bool.and_eq_true_iff.mp h
    have hids : ids re ++ idsAll res = [] := by simp [(item_ids hre).1, ih hres]
    simpa [ids, idsAll, makeBackrefLists] using hids

theorem bracket_ids {re : Re} (h : re.bracket = true) : ids re = [] ∧ re.wellFormed = true := by
  cases re with
  | symbol x => exact @item_ids (.symbol x) rfl
  | oneOfChars res => exact ⟨idsAll_items res (Bool.and_eq_true_iff.mp h).2, h⟩
  | _ => simp [Re.bracket] at h

/-- The fuel that is left suffices for five calls at each index. -/
def Enough (s : List Char) (fuel i more : Nat) : Prop := 5 * (s.length - i) + more ≤ fuel

theorem Enough.call {fuel more : Nat} (h : Enough s (fuel + 1) i (more + 1)) : Enough s fuel i more := by
  unfold Enough at h ⊢
  omega

theorem Enough.next {fuel more j more' : Nat} (h : Enough s (fuel + 1) i more) (hc : i < s.length) (hj : i < j)
    (hmore : more' ≤ more + 4) : Enough s fuel j more' := by
  unfold Enough at h ⊢
  omega

theorem lt_of_stringRef {c : Char} (hc : s[i]? = some c) : i < s.length := (List.getElem?_eq_some_iff.mp hc).1

mutual

theorem readPattern_yields : ∀ (fuel i : Nat), Enough s fuel i 3 →
    Yields (· ≠ .outOfFuel) (fun out => i ≤ out.2 ∧ ReadAs i out.2 out.1) (readPattern C s fuel i)
  | 0, i, h => absurd h (by unfold Enough; omega)
  | fuel + 1, i, h => by
    unfold readPattern
    split
    · exact yields_pure ⟨Nat.le_refl i, rising_nil i i, rfl⟩
    · refine (readBranches_yields fuel [] i (h.call)).mono fun out hout => ?_
      obtain ⟨hle, res, hre, hall⟩ := hout
      simp only [List.reverse_nil, List.nil_append] at hre
      rw [hre]
      exact ⟨hle, hall.rising, hall.wellFormed⟩

theorem readBranches_yields : ∀ (fuel : Nat) (branches : List Re) (i : Nat), Enough s fuel i 2 →
    Yields (· ≠ .outOfFuel) (fun out => i ≤ out.2 ∧ ∃ res, out.1 = .or (branches.reverse ++ res) ∧ ReadAll i out.2 res)
      (readBranches C s fuel branches i)
  | 0, _, i, h => absurd h (by unfold Enough; omega)
  | fuel + 1, branches, i, h => by
    have hdone : i ≤ i ∧ ∃ res, Re.or branches.reverse = .or (branches.reverse ++ res) ∧ ReadAll i i res :=
      ⟨Nat.le_refl i, [], by simp, readAll_nil i i⟩
    unfold readBranches
    split
    · exact yields_pure hdone
    · exact yields_pure hdone
    · rename_i c hne hc
      have hlt := lt_of_stringRef s hc
      -- the branch starts after the bar, if there is one
      have hbranch : Yields (· ≠ .outOfFuel) (fun out => i < out.2 ∧ ReadAs i out.2 out.1)
          (readBranch C s fuel [] (if c = '|' then i + 1 else i)) := by
        by_cases hbar : c = '|'
        · simp only [hbar, if_true]
          refine (readBranch_yields fuel [] (i + 1) (h.next s hlt (Nat.lt_succ_self i) (by omega))).mono fun out hout => ?_
          obtain ⟨hle, -, res, hre, hall⟩ := hout
          simp only [List.reverse_nil, List.nil_append] at hre
          rw [hre]
          exact ⟨hle, hall.rising.mono (Nat.le_succ i) (Nat.le_refl _), hall.wellFormed⟩
        · simp only [hbar, if_false]
          refine (readBranch_yields fuel [] i h.call).mono fun out hout => ?_
          obtain ⟨-, hlt', res, hre, hall⟩ := hout
          simp only [List.reverse_nil, List.nil_append] at hre
          rw [hre]
          exact ⟨hlt' c hc hbar hne, hall.rising, hall.wellFormed⟩
      refine hbranch.bind fun out hout => ?_
      obtain ⟨re, j⟩ := out
      refine (readBranches_yields fuel (re :: branches) j (h.next s hlt hout.1 (by omega))).mono fun out' hout' => ?_
      obtain ⟨hle, res, hre, hall⟩ := hout'
      exact ⟨by have := hout.1; omega, re :: res, by simpa using hre, hout.2.cons hall (Nat.le_of_lt hout.1) hle⟩

theorem readBranch_yields : ∀ (fuel : Nat) (pieces : List Re) (i : Nat), Enough s fuel i 1 →
    Yields (· ≠ .outOfFuel) (fun out => i ≤ out.2 ∧ (∀ c, s[i]? = some c → c ≠ '|' → c ≠ ')' → i < out.2) ∧
      ∃ res, out.1 = .seq (pieces.reverse ++ res) ∧ ReadAll i out.2 res) (readBranch C s fuel pieces i)
  | 0, _, i, h => absurd h (by unfold Enough; omega)
  | fuel + 1, pieces, i, h => by
    have hdone : ∃ res, Re.seq pieces.reverse = .seq (pieces.reverse ++ res) ∧ ReadAll i i res := ⟨[], by simp, readAll_nil i i⟩
    unfold readBranch
    split
    · rename_i hc
      exact yields_pure ⟨Nat.le_refl i, fun c hc' => by simp [hc] at hc', hdone⟩
    · rename_i hc
      exact yields_pure ⟨Nat.le_refl i, fun c hc' hne => absurd (by simpa [hc] using hc'.symm) hne, hdone⟩
    · rename_i hc
      exact yields_pure ⟨Nat.le_refl i, fun c hc' _ hne => absurd (by simpa [hc] using hc'.symm) hne, hdone⟩
    · rename_i c _ _ hc
      refine (readPiece_yields fuel c i hc h.call).bind fun out hout => ?_
      obtain ⟨re, j⟩ := out
      refine (readBranch_yields fuel (re :: pieces) j (h.next s (lt_of_stringRef s hc) hout.1 (by omega))).mono fun out' hout' => ?_
      obtain ⟨hle, -, res, hre, hall⟩ := hout'
      have hlt : i < out'.2 := Nat.lt_of_lt_of_le hout.1 hle
      exact ⟨Nat.le_of_lt hlt, fun _ _ _ _ => hlt, re :: res, by simpa using hre, hout.2.cons hall (Nat.le_of_lt hout.1) hle⟩

theorem readPiece_yields : ∀ (fuel : Nat) (c : Char) (i : Nat), s[i]? = some c → Enough s fuel i 0 →
    Yields (· ≠ .outOfFuel) (fun out => i < out.2 ∧ ReadAs i out.2 out.1) (readPiece C s fuel c i)
  | 0, c, i, hc, h => absurd h (by have := lt_of_stringRef s hc; unfold Enough; omega)
  | fuel + 1, c, i, hc, h => by
    have hleaf : ∀ (re : Re) (j : Nat), ids re = [] → re.wellFormed = true → i < j → i < j ∧ ReadAs i j re :=
      fun re j hids hwf hj => ⟨hj, by rw [hids]; exact rising_nil i j, hwf⟩
    have hwrap : ∀ (re : Re) (j : Nat), ids re = [] → re.wellFormed = true → i < j →
        Yields (· ≠ .outOfFuel) (fun out => i < out.2 ∧ ReadAs i out.2 out.1) (wrapQuantifierIfAny C s (re, j)) :=
      fun re j hids hwf hj => wrapQuantifierIfAny_yields C s hj (hleaf re j hids hwf hj).2
    have hchars : ∀ j, i < j → Gives (· ≠ .outOfFuel) (fun out => j < out.2 ∧ out.1.bracket = true) (readCharList C s (s.length + 1) [] j) :=
      fun j _ => readCharList_gives C s (s.length + 1) [] rfl (by omega)
    unfold readPiece
    split
    · exact yields_pure (hleaf _ _ rfl rfl (Nat.lt_succ_self i))
    · exact yields_pure (hleaf _ _ rfl rfl (Nat.lt_succ_self i))
    · exact hwrap _ _ rfl rfl (Nat.lt_succ_self i)
    · split
      · refine (yields_lift (hchars (i + 2) (by omega))).bind fun out hout => ?_
        obtain ⟨hids, -⟩ := bracket_ids hout.2
        exact hwrap (.negChar out.1) out.2 hids hout.2 (by omega)
      · refine (yields_lift (hchars (i + 1) (by omega))).bind fun out hout => ?_
        obtain ⟨hids, hwf⟩ := bracket_ids hout.2
        exact hwrap out.1 out.2 hids hwf (by omega)
    · have hsub : Enough s fuel (i + 1) 4 := h.next s (lt_of_stringRef s hc) (Nat.lt_succ_self i) (Nat.le_refl 4)
      exact (readSubpattern_yields fuel i hsub).bind fun out hout => wrapQuantifierIfAny_yields C s hout.1 hout.2
    · split
      · rename_i k j hnumber
        exact hwrap _ _ rfl rfl (readEscapedNumber_next C s hnumber)
      · split
        · rename_i vv hchar
          obtain ⟨hlt, hitem⟩ := readEscapedChar_next s hchar
          obtain ⟨hids, hwf⟩ := item_ids hitem
          exact hwrap vv.1 vv.2 hids hwf hlt
        · exact yields_throw (by simp)
    · refine yields_get.bind fun sensitive _ => ?_
      split
      · exact hwrap _ _ rfl rfl (Nat.lt_succ_self i)
      · rename_i hskip
        simp only [Bool.or_eq_true, Bool.and_eq_true, Bool.not_eq_true', bne_iff_ne, not_or, not_and, not_not] at hskip
        have hdrop := List.drop_eq_getElem_cons (lt_of_stringRef s hc)
        rw [(List.getElem?_eq_some_iff.mp hc).2] at hdrop
        refine yields_pure (hleaf _ _ rfl rfl ?_)
        rw [hdrop]
        exact lt_skipComments C _ fun hws => hskip.2 hws

theorem readSubpattern_yields : ∀ (fuel i : Nat), Enough s fuel (i + 1) 4 →
    Yields (· ≠ .outOfFuel) (fun out => i < out.2 ∧ ReadAs i out.2 out.1) (readSubpattern C s fuel (i + 1))
  | 0, i, h => absurd h (by unfold Enough; omega)
  | fuel + 1, i, h => by
    unfold readSubpattern
    refine yields_get.bind fun remember _ => (readClusterType_yields s).bind fun out hout => ?_
    obtain ⟨ctyp, j⟩ := out
    have henough : Enough s fuel j 3 := by
      have hle : i + 1 ≤ j := hout.1
      unfold Enough at h ⊢
      omega
    refine (readPattern_yields fuel j henough).bind fun out' hout' => ?_
    obtain ⟨re, k⟩ := out'
    refine (yields_set remember).bind fun _ _ => ?_
    have hij : i < k := Nat.lt_of_lt_of_le (Nat.lt_of_lt_of_le (Nat.lt_succ_self i) hout.1) hout'.1
    have hre : ReadAs (i + 1) k re := hout'.2.mono hout.1 (Nat.le_refl k)
    split
    · refine yields_pure ⟨Nat.lt_succ_of_lt hij, ?_⟩
      rcases hout.2 with hsub | hsub
      · rw [show ctyp = [.sub] from hsub]
        exact (readAs_group hij hre).mono (Nat.le_refl i) (Nat.le_succ k)
      · exact (readAs_clusters ctyp hsub hre).mono (Nat.le_succ i) (Nat.le_succ k)
    · exact yields_throw (by simp)

end

variable {C} {s}

end Swish.Pregexp
