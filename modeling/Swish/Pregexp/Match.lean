import Swish.Lib.Search
import Swish.Pregexp.Read

/-!
The matcher of pregexp.ss: pregexp-match-positions-aux goes through a pattern with a success and
a failure continuation, over the groups matched so far and the case-sensitivity flag.
-/

set_option autoImplicit false

namespace Swish.Pregexp

open Lib Lib.Attempt

/-- The variables backrefs and case-sensitive?. The pair of a group is found by its identity; a pair
made for a symbol :sub, which is read for a class of that name, has none. -/
structure St where
  backrefs : List (Option Nat × Option (Nat × Nat))
  caseSensitive : Bool

/-- (set-cdr! (assv re backrefs) (cons i j)). -/
def St.setBackref (st : St) (id i j : Nat) : St :=
  { st with backrefs := st.backrefs.map fun b => if b.1 = some id then (b.1, some (i, j)) else b }

mutual

/-- What pregexp-make-backref-list collects from an element of a list. -/
def makeBackrefList : Re → List (Option Nat × Option (Nat × Nat))
  | .symbol x => if x = .other "sub".toList then [(none, none)] else []
  | .char _ | .charRange _ _ | .backref _ => []
  | .oneOfChars res | .seq res | .or res => makeBackrefLists res
  | .sub id re => (some id, none) :: makeBackrefList re
  | .negChar re | .lookahead re | .negLookahead re | .lookbehind re | .negLookbehind re | .noBacktrack re
  | .caseSensitive re | .caseInsensitive re | .between _ _ _ re => makeBackrefList re

def makeBackrefLists : List Re → List (Option Nat × Option (Nat × Nat))
  | [] => []
  | re :: res => makeBackrefList re ++ makeBackrefLists res

end

/-- What goes on from an index. -/
abbrev Go := Attempt St Failure Nat

abbrev Step := Search St Failure Nat Nat

variable (C : Chars) (s : List Char)

/-- Goes on with (string-ref s i). -/
def withChar (i : Nat) (f : Char → Go) : Go :=
  match s[i]? with
  | some c => f c
  | none => fail .notValid

/-- pregexp-string-match. -/
def stringMatch (s1 : List Char) (i n : Nat) : Step := fun sk fk =>
  if n < s1.length then fk else go s1 i sk fk
where
  go : List Char → Nat → Step
    | [], k, sk, _ => sk k
    | c :: cs, k, sk, fk =>
      if n ≤ k then fk else withChar s k fun d => if c = d then go cs (k + 1) sk fk else fk

/-- pregexp-at-word-boundary?, before a character at i > 0. -/
def boundary (c d : Char) : Bool := C.charWord d && !C.charWord c || !C.charWord d && C.charWord c

def atWordBoundary (i n : Nat) (yes no : Go) : Go :=
  if i = 0 ∨ n ≤ i then yes
  else withChar s i fun d => withChar s (i - 1) fun c => if boundary C c d then yes else no

/-- The loop of a lookbehind, from i down to start; the match has to end at n. -/
def loopLookbehind (m : Nat → Step) (start n : Nat) : Nat → Go
  | 0 => m 0 (fun i => if i = n then answer i else refuse) refuse
  | i + 1 => m (i + 1) (fun i => if i = n then answer i else refuse)
    (if start < i + 1 then loopLookbehind m start n i else refuse)

/-- A greedy quantifier without a bound must not go on from where it is. -/
def couldLoop (infinitely : Bool) (i i1 : Nat) (go : Go) : Go :=
  if infinitely && i1 == i then fail .operandCouldBeEmpty else go

/-- loop-q, after k turns. -/
def loopQ (m : Nat → Step) (maximal infinitely : Bool) (q : Option Nat) (sk : Nat → Go) : Nat → Nat → Nat → Go
  | 0, _, _ => fail .outOfFuel
  | fuel + 1, k, i =>
    if q.any (· ≤ k) then sk i
    else if maximal then
      m i (fun i1 => couldLoop infinitely i i1 (orElse (loopQ m maximal infinitely q sk fuel (k + 1) i1) (sk i))) (sk i)
    else orElse (sk i) (m i (fun i1 => loopQ m maximal infinitely q sk fuel (k + 1) i1) (sk i))

/-- loop-p, with left turns to make. -/
def loopP (m : Nat → Step) (infinitely : Bool) (q : Nat → Go) (fk : Go) : Nat → Nat → Go
  | 0, i => q i
  | left + 1, i => m i (fun i1 => couldLoop infinitely i i1 (loopP m infinitely q fk left i1)) fk

/-- A bounded loop makes at most q - p turns after the first p. -/
def loopTurns (fuel p : Nat) : Option Nat → Nat
  | none => fuel
  | some q => q - p + 1

/-- The :between of a pattern. -/
def between (fuel : Nat) (minimal : Bool) (p q : Option Nat) (m : Nat → Step) (i : Nat) : Step := fun sk fk =>
  match p with
  | none => fail .notValid
  | some p =>
    let infinitely := !minimal && q.isNone
    loopP m infinitely (loopQ m (!minimal) infinitely (q.map (· - p)) sk (loopTurns fuel p q) 0) fk p i

mutual

/-- The procedure sub. The variable n is rebound by a lookbehind; fuel bounds the turns of a loop. -/
def sub (start fuel : Nat) : Re → Nat → Nat → Step
  | .symbol .bos, _, i, sk, fk => if i = start then sk i else fk
  | .symbol .eos, n, i, sk, fk => if n ≤ i then sk i else fk
  | .symbol .empty, _, i, sk, _ => sk i
  | .symbol .wbdry, n, i, sk, fk => atWordBoundary C s i n (sk i) fk
  | .symbol .notWbdry, n, i, sk, fk => atWordBoundary C s i n fk (sk i)
  | .symbol (.cls x), n, i, sk, fk =>
    if i < n then withChar s i fun c => if C.checkIfInCharClass c x then sk (i + 1) else fk else fk
  | .symbol (.other _), n, i, _, fk => if i < n then withChar s i fun _ => fail .checkIfInCharClass else fk
  | .char c, n, i, sk, fk =>
    if i < n then withChar s i fun d st => if C.charEq st.caseSensitive d c then sk (i + 1) st else fk st else fk
  | .charRange lo hi, n, i, sk, fk =>
    if i < n then
      withChar s i fun c st =>
        if C.charLe st.caseSensitive lo c && C.charLe st.caseSensitive c hi then sk (i + 1) st else fk st
    else fk
  | .oneOfChars chars, n, i, sk, fk => if n ≤ i then fk else loopOneOfChars start fuel chars n i sk fk
  | .negChar re, n, i, sk, fk => if n ≤ i then fk else sub start fuel re n i (fun _ => fk) (sk (i + 1))
  | .seq res, n, i, sk, fk => loopSeq start fuel res n i sk fk
  | .or res, n, i, sk, fk => loopOr start fuel res n i sk fk
  | .backref k, n, i, sk, fk => fun st =>
    match k with
    | none => .error .notValid
    | some k =>
      match st.backrefs[k]? with
      | none => .error .nonExistentBackref
      | some (_, none) => sk i st
      | some (_, some (a, b)) =>
        if a ≤ b ∧ b ≤ s.length then stringMatch s ((s.take b).drop a) i n sk fk st else .error .notValid
  | .sub id re, n, i, sk, fk => sub start fuel re n i (fun i1 st => sk i1 (st.setBackref id i i1)) fk
  | .lookahead re, n, i, sk, fk => ifFound (sub start fuel re n i answer refuse) (fun _ => sk i) fk
  | .negLookahead re, n, i, sk, fk => ifFound (sub start fuel re n i answer refuse) (fun _ => fk) (sk i)
  | .lookbehind re, _, i, sk, fk => ifFound (loopLookbehind (sub start fuel re i) start i i) (fun _ => sk i) fk
  | .negLookbehind re, _, i, sk, fk => ifFound (loopLookbehind (sub start fuel re i) start i i) (fun _ => fk) (sk i)
  | .noBacktrack re, n, i, sk, fk => ifFound (sub start fuel re n i answer refuse) sk fk
  | .caseSensitive re, n, i, sk, fk => fun old =>
    sub start fuel re n i (fun i1 st => sk i1 { st with caseSensitive := old.caseSensitive })
      (fun st => fk { st with caseSensitive := old.caseSensitive }) { old with caseSensitive := true }
  | .caseInsensitive re, n, i, sk, fk => fun old =>
    sub start fuel re n i (fun i1 st => sk i1 { st with caseSensitive := old.caseSensitive })
      (fun st => fk { st with caseSensitive := old.caseSensitive }) { old with caseSensitive := false }
  | .between minimal p q re, n, i, sk, fk => between fuel minimal p q (sub start fuel re n) i sk fk

def loopOneOfChars (start fuel : Nat) : List Re → Nat → Nat → Step
  | [], _, _, _, fk => fk
  | re :: res, n, i, sk, fk => sub start fuel re n i sk (loopOneOfChars start fuel res n i sk fk)

def loopSeq (start fuel : Nat) : List Re → Nat → Nat → Step
  | [], _, i, sk, _ => sk i
  | re :: res, n, i, sk, fk => sub start fuel re n i (fun i1 => loopSeq start fuel res n i1 sk fk) fk

def loopOr (start fuel : Nat) : List Re → Nat → Nat → Step
  | [], _, _, _, fk => fk
  | re :: res, n, i, sk, fk =>
    sub start fuel re n i (fun i1 => orElse (sk i1) (loopOr start fuel res n i sk fk)) (loopOr start fuel res n i sk fk)

end

/-- The positions of the groups, where the first group has some. -/
def groupsOf (st : St) : Except Failure (Option (List (Option (Nat × Nat)))) :=
  match st.backrefs.map (·.2) with
  | [] => .error .notValid
  | none :: _ => .ok none
  | backrefs => .ok (some backrefs)

def matchPositionsAux (fuel : Nat) (re : Re) (start n i : Nat) : Except Failure (Option (List (Option (Nat × Nat)))) :=
  match sub C s start fuel re n i answer refuse ⟨makeBackrefList re, true⟩ with
  | .error e => .error e
  | .ok (_, st) => groupsOf st

/-- The loop of pregexp-match-positions, with left indices to try after i. -/
def matchLoop (fuel : Nat) (re : Re) (start n : Nat) : Nat → Nat → Except Failure (Option (List (Option (Nat × Nat))))
  | left, i => do
    match ← matchPositionsAux C s fuel re start n i with
    | some backrefs => pure (some backrefs)
    | none =>
      match left with
      | 0 => pure none
      | left + 1 => matchLoop fuel re start n left (i + 1)

def matchPositions (fuel : Nat) (re : Re) (start n : Nat) : Except Failure (Option (List (Option (Nat × Nat)))) :=
  if start ≤ n then matchLoop C s fuel re start n (n - start) start else .ok none

/-- (substring s i j). -/
def substring (i j : Nat) : Except Failure (List Char) :=
  if i ≤ j ∧ j ≤ s.length then .ok ((s.take j).drop i) else .error .notValid

def substringIfAny : Option (Nat × Nat) → Except Failure (Option (List Char))
  | none => .ok none
  | some (i, j) => (substring s i j).map some

def pregexpMatch (fuel : Nat) (re : Re) (start n : Nat) : Except Failure (Option (List (Option (List Char)))) := do
  match ← matchPositions C s fuel re start n with
  | none => pure none
  | some pairs =>
    let strings ← pairs.mapM (substringIfAny s)
    pure (some strings)

end Swish.Pregexp
