import Swish.Pregexp.Spans

/-!
What a pattern says, for the patterns without back references, lookbehind, clusters of flags and
clusters that do not backtrack, and that the matcher finds it: pregexp-match-positions returns a
match that starts as far to the left as there is one.
-/

set_option autoImplicit false

namespace Swish.Pregexp

open Lib Lib.Attempt

mutual

/-- A pattern for one character. -/
def Re.isSet : Re → Bool
  | .symbol (.cls _) | .char _ | .charRange _ _ => true
  | .oneOfChars res => areSets res
  | .negChar re => re.isSet
  | _ => false

def areSets : List Re → Bool
  | [] => true
  | re :: res => re.isSet && areSets res

end

mutual

def Re.plain : Re → Bool
  | .symbol (.other _) => false
  | .symbol _ | .char _ | .charRange _ _ => true
  | .oneOfChars res => areSets res
  | .negChar re => re.isSet
  | .seq res | .or res => plainAll res
  | .sub _ re | .lookahead re | .negLookahead re => re.plain
  | .between _ p _ re => p.isSome && re.plain
  | _ => false

def plainAll : List Re → Bool
  | [] => true
  | re :: res => re.plain && plainAll res

end

mutual

/-- Whether the pattern may match the empty string. -/
def Re.nullable : Re → Bool
  | .symbol (.cls _) | .char _ | .charRange _ _ | .oneOfChars _ | .negChar _ => false
  | .seq res => nullableAll res
  | .or res => nullableAny res
  | .sub _ re => re.nullable
  | .between _ p _ re => p == some 0 || re.nullable
  | _ => true

def nullableAll : List Re → Bool
  | [] => true
  | re :: res => re.nullable && nullableAll res

def nullableAny : List Re → Bool
  | [] => false
  | re :: res => re.nullable || nullableAny res

end

mutual

/-- No quantifier without a bound has an operand that may be empty. -/
def Re.guarded : Re → Bool
  | .seq res | .or res => guardedAll res
  | .sub _ re | .lookahead re | .negLookahead re => re.guarded
  | .between _ _ q re => (q.isSome || !re.nullable) && re.guarded
  | _ => true

def guardedAll : List Re → Bool
  | [] => true
  | re :: res => re.guarded && guardedAll res

end

section

variable (C : Chars)

mutual

/-- The characters of a set. -/
def accepts : Re → Char → Bool
  | .symbol (.cls x), c => C.checkIfInCharClass c x
  | .char d, c => c == d
  | .charRange lo hi, c => lo.toNat ≤ c.toNat && c.toNat ≤ hi.toNat
  | .oneOfChars res, c => acceptsAny res c
  | .negChar re, c => !accepts re c
  | _, _ => false

def acceptsAny : List Re → Char → Bool
  | [], _ => false
  | re :: res, c => accepts re c || acceptsAny res c

end

variable (s : List Char)

/-- The boundary of a word, of the string before n, or the start of the string. -/
def AtWordBoundary (n i : Nat) : Prop := i = 0 ∨ n ≤ i ∨ ∃ c d, s[i - 1]? = some c ∧ s[i]? = some d ∧ boundary C c d = true

/-- The character at i is one of the set. -/
def InSet (n : Nat) (re : Re) (i j : Nat) : Prop := (i < n ∧ ∃ c, s[i]? = some c ∧ accepts C re c = true) ∧ j = i + 1

mutual

/-- The pattern matches the string from i to j, where the search starts at start and ends at n. -/
def Matches (start n : Nat) : Re → Nat → Nat → Prop
  | .symbol .bos, i, j => i = start ∧ j = i
  | .symbol .eos, i, j => n ≤ i ∧ j = i
  | .symbol .empty, i, j => j = i
  | .symbol .wbdry, i, j => AtWordBoundary C s n i ∧ j = i
  | .symbol .notWbdry, i, j => ¬ AtWordBoundary C s n i ∧ j = i
  | .symbol (.cls x), i, j => InSet C s n (.symbol (.cls x)) i j
  | .char c, i, j => InSet C s n (.char c) i j
  | .charRange lo hi, i, j => InSet C s n (.charRange lo hi) i j
  | .oneOfChars res, i, j => InSet C s n (.oneOfChars res) i j
  | .negChar re, i, j => InSet C s n (.negChar re) i j
  | .seq res, i, j => MatchesSeq start n res i j
  | .or res, i, j => MatchesOr start n res i j
  | .sub _ re, i, j => Matches start n re i j
  | .lookahead re, i, j => (∃ k, Matches start n re i k) ∧ j = i
  | .negLookahead re, i, j => (¬ ∃ k, Matches start n re i k) ∧ j = i
  | .between _ (some p) q re, i, j => Quantified (Matches start n re) p q i j
  | _, _, _ => False

def MatchesSeq (start n : Nat) : List Re → Nat → Nat → Prop
  | [], i, j => j = i
  | re :: res, i, j => ∃ k, Matches start n re i k ∧ MatchesSeq start n res k j

def MatchesOr (start n : Nat) : List Re → Nat → Nat → Prop
  | [], _, _ => False
  | re :: res, i, j => Matches start n re i j ∨ MatchesOr start n res i j

end

end

variable {C : Chars} {s : List Char} {start n i : Nat}

/-- A match goes forward, up to n. -/
def Ahead (n i j : Nat) : Prop := i ≤ j ∧ (i ≤ n → j ≤ n)

theorem ahead_refl (n i : Nat) : Ahead n i i := ⟨Nat.le_refl i, id⟩

theorem Ahead.trans {j k : Nat} (h : Ahead n i j) (h' : Ahead n j k) : Ahead n i k :=
  ⟨Nat.le_trans h.1 h'.1, fun hi => h'.2 (h.2 hi)⟩

theorem InSet.ahead {re : Re} {j : Nat} (h : InSet C s n re i j) : Ahead n i j := by
  obtain ⟨⟨hlt, -⟩, rfl⟩ := h
  exact ⟨Nat.le_succ i, fun _ => hlt⟩

theorem Quantified.induct {R : Nat → Nat → Prop} {P : Nat → Prop} (hP : ∀ x y, P x → R x y → P y) {p : Nat} {q : Option Nat}
    {i j : Nat} (h : Quantified R p q i j) (hi : P i) : P j := by
  obtain ⟨x, hx, c, -, hj⟩ := h
  exact hj.induct hP (hx.induct hP hi)

mutual

theorem Matches.ahead : ∀ (re : Re) {i j : Nat}, Matches C s start n re i j → Ahead n i j
  | .symbol .bos, i, _, ⟨_, rfl⟩ | .symbol .eos, i, _, ⟨_, rfl⟩ | .symbol .empty, i, _, rfl => ahead_refl n i
  | .symbol .wbdry, i, _, ⟨_, rfl⟩ | .symbol .notWbdry, i, _, ⟨_, rfl⟩ => ahead_refl n i
  | .symbol (.cls _), _, _, h | .char _, _, _, h | .charRange _ _, _, _, h | .oneOfChars _, _, _, h | .negChar _, _, _, h =>
    InSet.ahead h
  | .seq res, _, _, h => MatchesSeq.ahead res h
  | .or res, _, _, h => MatchesOr.ahead res h
  | .sub _ re, _, _, h => Matches.ahead re h
  | .lookahead _, i, _, ⟨_, rfl⟩ | .negLookahead _, i, _, ⟨_, rfl⟩ => ahead_refl n i
  | .between _ (some _) _ re, i, _, h =>
    Quantified.induct (P := Ahead n i) (fun _ _ hx hy => hx.trans (Matches.ahead re hy)) h (ahead_refl n i)

theorem MatchesSeq.ahead : ∀ (res : List Re) {i j : Nat}, MatchesSeq C s start n res i j → Ahead n i j
  | [], i, _, rfl => ahead_refl n i
  | re :: res, _, _, ⟨_, h, hs⟩ => (Matches.ahead re h).trans (MatchesSeq.ahead res hs)

theorem MatchesOr.ahead : ∀ (res : List Re) {i j : Nat}, MatchesOr C s start n res i j → Ahead n i j
  | re :: _, _, _, .inl h => Matches.ahead re h
  | _ :: res, _, _, .inr h => MatchesOr.ahead res h

end

theorem times_first {R : Nat → Nat → Prop} (hR : ∀ x y, R x y → x < y) {p x y : Nat} (h : Times R p x y) : p = 0 ∨ x < y := by
  induction h with
  | zero => exact .inl rfl
  | succ hxy _ ih =>
    right
    have hlt := hR _ _ hxy
    rcases ih with rfl | hlt'
    · rename_i hs
      cases hs
      exact hlt
    · omega

mutual

/-- A pattern that is not nullable matches some character. -/
theorem Matches.consumes : ∀ (re : Re) {i j : Nat}, re.nullable = false → Matches C s start n re i j → i < j
  | .symbol (.cls _), i, _, _, ⟨_, rfl⟩ | .char _, i, _, _, ⟨_, rfl⟩ | .charRange _ _, i, _, _, ⟨_, rfl⟩
  | .oneOfChars _, i, _, _, ⟨_, rfl⟩ | .negChar _, i, _, _, ⟨_, rfl⟩ => Nat.lt_succ_self i
  | .seq res, _, _, hn, h => MatchesSeq.consumes res hn h
  | .or res, _, _, hn, h => MatchesOr.consumes res hn h
  | .sub _ re, _, _, hn, h => Matches.consumes re hn h
  | .between _ (some p) _ re, i, j, hn, ⟨x, hx, c, _, hy⟩ => by
    simp only [Re.nullable, Bool.or_eq_false_iff, beq_eq_false_iff_ne, ne_eq, Option.some.injEq] at hn
    have hahead : Ahead n x j := hy.induct (fun _ _ hx hy => hx.trans (Matches.ahead re hy)) (ahead_refl n x)
    have hfirst := times_first (fun _ _ => Matches.consumes re hn.2) hx
    exact Nat.lt_of_lt_of_le (hfirst.resolve_left hn.1) hahead.1
  | .symbol .bos, _, _, hn, _ | .symbol .eos, _, _, hn, _ | .symbol .empty, _, _, hn, _ | .symbol .wbdry, _, _, hn, _
  | .symbol .notWbdry, _, _, hn, _ | .lookahead _, _, _, hn, _ | .negLookahead _, _, _, hn, _ => by simp [Re.nullable] at hn

theorem MatchesSeq.consumes : ∀ (res : List Re) {i j : Nat}, nullableAll res = false → MatchesSeq C s start n res i j → i < j
  | re :: res, _, _, hn, ⟨_, h, hs⟩ => by
    have hle := (Matches.ahead re h).1
    have hle' := (MatchesSeq.ahead res hs).1
    rcases Bool.and_eq_false_iff.mp hn with hn | hn
    · have hlt := Matches.consumes re hn h
      omega
    · have hlt := MatchesSeq.consumes res hn hs
      omega

theorem MatchesOr.consumes : ∀ (res : List Re) {i j : Nat}, nullableAny res = false → MatchesOr C s start n res i j → i < j
  | re :: _, _, _, hn, .inl h => Matches.consumes re (Bool.or_eq_false_iff.mp hn).1 h
  | _ :: res, _, _, hn, .inr h => MatchesOr.consumes res (Bool.or_eq_false_iff.mp hn).2 h

end

section

variable {fuel : Nat} {sk : Nat → Go} {fk : Go} {c : Char}

mutual

/-- A set takes the character where it is. -/
theorem sub_set (hi : i < n) (hc : s[i]? = some c) (st : St) (hst : st.caseSensitive = true) : ∀ (re : Re) (sk : Nat → Go) (fk : Go),
    re.isSet = true → sub C s start fuel re n i sk fk st = bif accepts C re c then sk (i + 1) st else fk st
  | .symbol (.cls x), sk, fk, _ => by
    simp only [sub, hi, if_true, withChar, hc, accepts]
    cases C.checkIfInCharClass c x <;> rfl
  | .char d, sk, fk, _ => by
    simp only [sub, hi, if_true, withChar, hc, accepts, Chars.charEq, hst]
    cases c == d <;> rfl
  | .charRange lo hi', sk, fk, _ => by
    simp only [sub, hi, if_true, withChar, hc, accepts, Chars.charLe, hst]
    cases decide (lo.toNat ≤ c.toNat) && decide (c.toNat ≤ hi'.toNat) <;> rfl
  | .oneOfChars res, sk, fk, h => by
    simp only [sub, Nat.not_le.mpr hi, if_false, accepts]
    exact loopOneOfChars_set hi hc st hst res sk fk h
  | .negChar re, sk, fk, h => by
    simp only [sub, Nat.not_le.mpr hi, if_false, accepts, sub_set hi hc st hst re _ _ h]
    cases accepts C re c <;> rfl

theorem loopOneOfChars_set (hi : i < n) (hc : s[i]? = some c) (st : St) (hst : st.caseSensitive = true) :
    ∀ (res : List Re) (sk : Nat → Go) (fk : Go), areSets res = true →
      loopOneOfChars C s start fuel res n i sk fk st = bif acceptsAny C res c then sk (i + 1) st else fk st
  | [], _, _, _ => rfl
  | re :: res, sk, fk, h => by
    obtain ⟨hre, hres⟩ := Bool.and_eq_true_iff.mp h
    simp only [loopOneOfChars, acceptsAny, sub_set hi hc st hst re _ _ hre, loopOneOfChars_set hi hc st hst res _ _ hres]
    cases accepts C re c <;> rfl

end

theorem sub_set_end (hi : n ≤ i) {re : Re} (h : re.isSet = true) : sub C s start fuel re n i sk fk = fk := by
  have hlt : ¬ i < n := Nat.not_lt.mpr hi
  cases re with
  | symbol x =>
    cases x with
    | cls x => simp [sub, hlt]
    | _ => simp [Re.isSet] at h
  | char d => simp [sub, hlt]
  | charRange lo hi' => simp [sub, hlt]
  | oneOfChars res => simp [sub, hi]
  | negChar re => simp [sub, hi]
  | _ => simp [Re.isSet] at h

end

/-- The group of the whole pattern has not matched, and case counts. -/
structure Open (key : Nat) (st : St) : Prop where
  sensitive : st.caseSensitive = true
  unset : st.backrefs.head? = some (some key, none)

theorem Open.setBackref {key id j : Nat} {st : St} (h : Open key st) (hne : id ≠ key) : Open key (st.setBackref id i j) where
  sensitive := h.sensitive
  unset := by simp [St.setBackref, List.head?_map, h.unset, hne.symm]

/-- Either a quantifier may fail, or the pattern is guarded and the fuel suffices. -/
def Excused (own : Failure → Prop) (guarded : Bool) (n fuel : Nat) : Prop :=
  (own .operandCouldBeEmpty ∧ own .outOfFuel) ∨ (guarded = true ∧ n < fuel)

theorem Excused.left {own : Failure → Prop} {b b' : Bool} {fuel : Nat} (h : Excused own (b && b') n fuel) : Excused own b n fuel :=
  h.imp_right fun h => ⟨(Bool.and_eq_true_iff.mp h.1).1, h.2⟩

theorem Excused.right {own : Failure → Prop} {b b' : Bool} {fuel : Nat} (h : Excused own (b && b') n fuel) :
    Excused own b' n fuel :=
  h.imp_right fun h => ⟨(Bool.and_eq_true_iff.mp h.1).2, h.2⟩

variable {own : Failure → Prop} {fuel key : Nat}

theorem finds_set (hs : n ≤ s.length) {re : Re} (h : re.isSet = true) :
    Finds (Open key) own (InSet C s n re i) (sub C s start fuel re n i) := by
  refine finds_of_test (fun hp sk fk st hst => ?_) (fun hp sk fk st hst => ?_)
  · obtain ⟨hi, c, hc, ha⟩ := hp
    rw [sub_set hi hc st hst.sensitive re sk fk h, ha]
    rfl
  · by_cases hi : i < n
    · have hc : s[i]? = some s[i] := List.getElem?_eq_getElem (by omega)
      have ha : accepts C re s[i] = false := Bool.eq_false_iff.mpr fun ha => hp ⟨hi, s[i], hc, ha⟩
      rw [sub_set hi hc st hst.sensitive re sk fk h, ha]
      rfl
    · rw [sub_set_end (Nat.not_lt.mp hi) h]

theorem atWordBoundary_pos (h : AtWordBoundary C s n i) (yes no : Go) : atWordBoundary C s i n yes no = yes := by
  unfold atWordBoundary
  split
  · rfl
  · rename_i hi
    rcases h with h | h | ⟨c, d, hc, hd, hcd⟩
    · exact absurd (.inl h) hi
    · exact absurd (.inr h) hi
    · simp [withChar, hc, hd, hcd]

theorem atWordBoundary_neg (hs : n ≤ s.length) (h : ¬ AtWordBoundary C s n i) (yes no : Go) : atWordBoundary C s i n yes no = no := by
  simp only [AtWordBoundary, not_or, not_exists, not_and, Bool.not_eq_true] at h
  obtain ⟨hi, hn, hcd⟩ := h
  have hc : s[i - 1]? = some s[i - 1] := List.getElem?_eq_getElem (by omega)
  have hd : s[i]? = some s[i] := List.getElem?_eq_getElem (by omega)
  simp [atWordBoundary, withChar, hi, hn, hc, hd, hcd _ _ hc hd]

theorem matches_forward (re : Re) : Forward (· ≤ n) (Matches C s start n re) n := fun _ _ hi hx =>
  have h := Matches.ahead re hx
  ⟨h.2 hi, h.1, h.2 hi⟩

theorem allowed_of_excused {re : Re} {minimal : Bool} {q : Option Nat}
    (h : Excused own ((q.isSome || !re.nullable) && re.guarded) n fuel) :
    Allowed own (· ≤ n) (Matches C s start n re) n fuel minimal q := by
  rcases h with h | ⟨h, hn⟩
  · exact ⟨fun _ _ _ _ _ => h.1, .inl h.2⟩
  · simp only [Bool.and_eq_true, Bool.or_eq_true, Bool.not_eq_true'] at h
    have hconsumes : q = none → ∀ i, ¬ Matches C s start n re i i := by
      rintro rfl i hi
      have hlt := Matches.consumes re (h.1.resolve_left (by simp)) hi
      omega
    exact ⟨fun _ hq i _ hi => absurd hi (hconsumes hq i), .inr ⟨hn, fun _ hq i _ => hconsumes hq i⟩⟩

mutual

theorem sub_finds (hs : n ≤ s.length) : ∀ (re : Re) {i : Nat}, re.plain = true → (some key, none) ∉ makeBackrefList re →
    Excused own re.guarded n fuel → i ≤ n → Finds (Open key) own (Matches C s start n re i) (sub C s start fuel re n i)
  | .symbol .bos, i, _, _, _, _ => finds_of_test (fun h _ _ _ _ => by simp [sub, h]) (fun h _ _ _ _ => by simp [sub, h])
  | .symbol .eos, i, _, _, _, _ => finds_of_test (fun h _ _ _ _ => by simp [sub, h]) (fun h _ _ _ _ => by simp only [sub, h, if_false])
  | .symbol .empty, i, _, _, _, _ => finds_pass
  | .symbol .wbdry, i, _, _, _, _ => finds_of_test (fun h sk fk _ _ => by simp only [sub, atWordBoundary_pos h])
      (fun h sk fk _ _ => by simp only [sub, atWordBoundary_neg hs h])
  | .symbol .notWbdry, i, _, _, _, _ => finds_of_test (fun h sk fk _ _ => by simp only [sub, atWordBoundary_neg hs h])
      (fun h sk fk _ _ => by simp only [sub, atWordBoundary_pos (not_not.mp h)])
  | .symbol (.cls x), _, _, _, _, _ => finds_set hs rfl
  | .char c, _, _, _, _, _ => finds_set hs rfl
  | .charRange lo hi, _, _, _, _, _ => finds_set hs rfl
  | .oneOfChars res, _, hp, _, _, _ => finds_set hs (show (Re.oneOfChars res).isSet = true from hp)
  | .negChar re, _, hp, _, _, _ => finds_set hs (show (Re.negChar re).isSet = true from hp)
  | .seq res, _, hp, hid, hx, hin => loopSeq_finds hs res hp hid hx hin
  | .or res, _, hp, hid, hx, hin => loopOr_finds hs res hp hid hx hin
  | .sub id re, i, hp, hid, hx, hin => by
    simp only [makeBackrefList, List.mem_cons, Prod.mk.injEq, Option.some.injEq, and_true, not_or] at hid
    exact Finds.record (g := fun j st => st.setBackref id i j) (sub_finds hs re hp hid.2 hx hin) fun _ _ _ hst =>
      hst.setBackref fun h => hid.1 h.symm
  | .lookahead re, _, hp, hid, hx, hin => (sub_finds hs re hp hid hx hin).ahead
  | .negLookahead re, _, hp, hid, hx, hin => (sub_finds hs re hp hid hx hin).notAhead
  | .between _ (some _) _ re, _, hp, hid, hx, hin => Finds.between (P := (· ≤ n))
      (fun _ hin => sub_finds hs re hp hid hx.right hin) (matches_forward re) (allowed_of_excused hx) hin

theorem loopSeq_finds (hs : n ≤ s.length) : ∀ (res : List Re) {i : Nat}, plainAll res = true → (some key, none) ∉ makeBackrefLists res →
    Excused own (guardedAll res) n fuel → i ≤ n → Finds (Open key) own (MatchesSeq C s start n res i) (loopSeq C s start fuel res n i)
  | [], _, _, _, _, _ => finds_pass
  | re :: res, _, hp, hid, hx, hin => by
    obtain ⟨hp, hps⟩ := Bool.and_eq_true_iff.mp hp
    simp only [makeBackrefLists, List.mem_append, not_or] at hid
    exact (sub_finds hs re hp hid.1 hx.left hin).andThen fun _ hk =>
      loopSeq_finds hs res hps hid.2 hx.right ((Matches.ahead re hk).2 hin)

theorem loopOr_finds (hs : n ≤ s.length) : ∀ (res : List Re) {i : Nat}, plainAll res = true → (some key, none) ∉ makeBackrefLists res →
    Excused own (guardedAll res) n fuel → i ≤ n → Finds (Open key) own (MatchesOr C s start n res i) (loopOr C s start fuel res n i)
  | [], _, _, _, _, _ => finds_block
  | re :: res, _, hp, hid, hx, hin => by
    obtain ⟨hp, hps⟩ := Bool.and_eq_true_iff.mp hp
    simp only [makeBackrefLists, List.mem_append, not_or] at hid
    exact (sub_finds hs re hp hid.1 hx.left hin).alt (loopOr_finds hs res hps hid.2 hx.right hin)

end

/-- What is known when the matcher has been tried at the indices from i to n. -/
def Tells (own : Failure → Prop) (R : Nat → Nat → Prop) (i n : Nat) : Except Failure (Option (List (Option (Nat × Nat)))) → Prop
  | .error e => own e
  | .ok none => ∀ k, i ≤ k → k ≤ n → ∀ j, ¬ R k j
  | .ok (some spans) => ∃ k j rest, spans = some (k, j) :: rest ∧ i ≤ k ∧ k ≤ n ∧ R k j ∧ ∀ l, i ≤ l → l < k → ∀ j, ¬ R l j

theorem matchPositionsAux_tells (hs : n ≤ s.length) {re : Re} (hp : re.plain = true) (hid : (some key, none) ∉ makeBackrefList re)
    (hx : Excused own re.guarded n fuel) (hin : i ≤ n) :
    Tells own (Matches C s start n re) i i (matchPositionsAux C s fuel (.sub key re) start n i) := by
  have hopen : Open key ⟨makeBackrefList (.sub key re), true⟩ := ⟨rfl, rfl⟩
  have hfinds : Finds (Open key) own (Matches C s start n re i) (sub C s start fuel re n i) := sub_finds hs re hp hid hx hin
  have hset : ∀ x st, Open key st → (st.setBackref key i x).backrefs.head? = some (some key, some (i, x)) := by
    intro x st hst
    simp [St.setBackref, List.head?_map, hst.unset]
  have hends := hfinds.sound (fun x st => Matches C s start n re i x ∧ st.backrefs.head? = some (some key, some (i, x))) own
    (fun _ he => he) (fun x st => answer x (st.setBackref key i x)) refuse (fun x hx st hst => ⟨hx, hset x st hst⟩) safe_refuse _ hopen
  have hnone : Refuses (Open key) (sub C s start fuel re n i (fun x st => answer x (st.setBackref key i x)) refuse) →
      ∀ j, ¬ Matches C s start n re i j := by
    intro h j hj
    obtain ⟨st, t, hst, ht⟩ := (hfinds.complete _ _ (fun x _ st t _ ht => by cases ht)
      (safe_refuse (A := fun _ _ => True) (E := fun _ => True)).keeps h).1 j hj
    cases ht
  unfold matchPositionsAux
  rw [sub]
  cases ho : sub C s start fuel re n i (fun x st => answer x (st.setBackref key i x)) refuse ⟨makeBackrefList (.sub key re), true⟩ with
  | error e =>
    rw [ho] at hends
    exact hends
  | ok out =>
    rw [ho] at hends
    obtain ⟨_ | x, st⟩ := out
    · obtain ⟨rest, hrest⟩ := List.head?_eq_some_iff.mp hends.unset
      simp only [groupsOf, hrest, List.map_cons]
      intro k hik hki
      obtain rfl : k = i := by omega
      exact hnone ⟨_, st, hopen, ho⟩
    · obtain ⟨rest, hrest⟩ := List.head?_eq_some_iff.mp hends.2
      simp only [groupsOf, hrest, List.map_cons]
      exact ⟨i, x, rest.map (·.2), rfl, Nat.le_refl i, Nat.le_refl i, hends.1, fun l hil hli => by omega⟩

theorem matchLoop_tells (hs : n ≤ s.length) {re : Re} (hp : re.plain = true) (hid : (some key, none) ∉ makeBackrefList re)
    (hx : Excused own re.guarded n fuel) (left : Nat) :
    ∀ i, i + left = n → Tells own (Matches C s start n re) i n (matchLoop C s fuel (.sub key re) start n left i) := by
  induction left with
  | zero =>
    rintro i rfl
    have h := @matchPositionsAux_tells C s start _ i own fuel key hs re hp hid hx (Nat.le_refl i)
    rw [matchLoop]
    revert h
    cases matchPositionsAux C s fuel (.sub key re) start i i with
    | error e => exact id
    | ok out => cases out <;> exact id
  | succ left ih =>
    intro i hleft
    have h := @matchPositionsAux_tells C s start n i own fuel key hs re hp hid hx (by omega)
    have hrest := ih (i + 1) (by omega)
    rw [matchLoop]
    revert h
    cases matchPositionsAux C s fuel (.sub key re) start n i with
    | error e => exact id
    | ok out =>
      cases out with
      | some spans =>
        rintro ⟨k, j, rest, rfl, hik, hki, hmatch, hleast⟩
        exact ⟨k, j, rest, rfl, hik, by omega, hmatch, hleast⟩
      | none =>
        intro hnone
        change Tells own _ i n (matchLoop C s fuel (.sub key re) start n left (i + 1))
        revert hrest
        cases matchLoop C s fuel (.sub key re) start n left (i + 1) with
        | error e => exact id
        | ok out =>
          cases out with
          | none =>
            intro hrest k hik hkn
            rcases Nat.eq_or_lt_of_le hik with rfl | hlt
            · exact hnone i (Nat.le_refl i) (Nat.le_refl i)
            · exact hrest k hlt hkn
          | some spans =>
            rintro ⟨k, j, rest, rfl, hik, hki, hmatch, hleast⟩
            refine ⟨k, j, rest, rfl, by omega, hki, hmatch, fun l hil hlk => ?_⟩
            rcases Nat.eq_or_lt_of_le hil with rfl | hlt
            · exact hnone i (Nat.le_refl i) (Nat.le_refl i)
            · exact hleast l hlt hlk

theorem matchPositions_tells (hs : n ≤ s.length) {re : Re} (hp : re.plain = true) (hid : (some key, none) ∉ makeBackrefList re)
    (hx : Excused own re.guarded n fuel) :
    Tells own (Matches C s start n re) start n (matchPositions C s fuel (.sub key re) start n) := by
  unfold matchPositions
  split
  · exact matchLoop_tells hs hp hid hx (n - start) start (by omega)
  · rename_i hlt
    exact fun k hk hkn => by omega

/-- The answer for a plain pattern is its leftmost match; a guarded pattern has an answer. -/
theorem matchPositions_leftmost (hs : n ≤ s.length) {re : Re} (hp : re.plain = true) (hid : (some key, none) ∉ makeBackrefList re) :
    (re.guarded = true → n < fuel → ∃ out, matchPositions C s fuel (.sub key re) start n = .ok out) ∧
    (∀ spans, matchPositions C s fuel (.sub key re) start n = .ok (some spans) →
      ∃ i j rest, spans = some (i, j) :: rest ∧ start ≤ i ∧ Matches C s start n re i j ∧
        ∀ k, start ≤ k → k < i → ∀ l, ¬ Matches C s start n re k l) ∧
    (matchPositions C s fuel (.sub key re) start n = .ok none →
      ∀ i, start ≤ i → i ≤ n → ∀ j, ¬ Matches C s start n re i j) := by
  refine ⟨fun hg hn => ?_, fun spans h => ?_, fun h => ?_⟩
  · have htells := @matchPositions_tells C s start n (fun _ => False) fuel key hs re hp hid (.inr ⟨hg, hn⟩)
    cases ho : matchPositions C s fuel (.sub key re) start n with
    | error e =>
      rw [ho] at htells
      exact htells.elim
    | ok out => exact ⟨out, rfl⟩
  · have htells := @matchPositions_tells C s start n (fun _ => True) fuel key hs re hp hid
      (.inl ⟨True.intro, True.intro⟩)
    rw [h] at htells
    obtain ⟨i, j, rest, hspans, hi, -, hmatch, hleast⟩ := htells
    exact ⟨i, j, rest, hspans, hi, hmatch, hleast⟩
  · have htells := @matchPositions_tells C s start n (fun _ => True) fuel key hs re hp hid
      (.inl ⟨True.intro, True.intro⟩)
    rw [h] at htells
    exact htells

end Swish.Pregexp
