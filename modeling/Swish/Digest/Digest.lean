import Swish.Sha1.Result

/-!
Digests: hash!, get-hash and close-digest over the SHA-1 functions of osi.c. A digest
that is open stands for the bytes since the last get-hash.
-/

set_option autoImplicit false

namespace Swish.Digest

open Swish.Lib Swish.Sha1

/-- What a call raises: a refused argument, an argument that is no unsigned-32, an error pair of osi.c, an error code of
the SHA-1 code, or the use of a closed digest. -/
inductive Failure where
  | badArg (who : String)
  | foreignArg
  | ioError (name who : String) (err : Int)
  | shaError (name who : String) (code : Code)
  | closed (who what : String)
  deriving DecidableEq

inductive Value where
  | void
  | bytes (bv : List UInt8)
  deriving DecidableEq

/-- UV_EINVAL. -/
def einval : Int := -22

/-- The greatest fixnum. -/
def mostPositiveFixnum : Int := 2 ^ 60 - 1

def osiHashData (ctxt : Context) (bv : List UInt8) (startIndex size : Nat) : Option (Except Failure Value × Context) :=
  let last := (startIndex + size) % 2 ^ 64
  if last < startIndex ∨ bv.length < last then
    some (.error (.ioError "osi_hash_data" "osi_hash_data" einval), ctxt)
  else if size = 0 then some (.ok .void, ctxt)
  else (ctxt.input ((bv.drop startIndex).take size)).map fun r =>
    (if r.1 = .success then .ok .void else .error (.shaError "osi_hash_data" "SHA1Input" r.1), r.2)

def osiGetSha1 (ctxt : Context) : Option (Except Failure Value × Context) :=
  ctxt.result.map fun r =>
    match r.1 with
    | .ok digest => (.ok (.bytes digest), r.2.reset)
    | .error code => (.error (.shaError "osi_get_SHA1" "SHA1Result" code), r.2)

/-- The ctx field of a digest, its only mutable one; none is #f. -/
abbrev Ctx := Option Context

/-- help-hash!. -/
def helpHash (digest : Ctx) (data : List UInt8) (startIndex size : Nat) : Option (Except Failure Value × Ctx) :=
  match digest with
  | none => some (.error (.closed "hash!" "write to"), none)
  | some ctxt =>
    if 2 ^ 32 ≤ size then some (.error .foreignArg, some ctxt)
    else (osiHashData ctxt data startIndex size).map fun r => (r.1, some r.2)

/-- (fixnum>= lower-bound). -/
def fixnumGe (lowerBound n : Int) : Prop := lowerBound ≤ n ∧ n ≤ mostPositiveFixnum

instance (lowerBound n : Int) : Decidable (fixnumGe lowerBound n) := inferInstanceAs (Decidable (_ ∧ _))

/-- hash! with two arguments. -/
def hash (digest : Ctx) (data : List UInt8) : Option (Except Failure Value × Ctx) :=
  helpHash digest data 0 data.length

/-- hash! with four arguments. -/
def hashPart (digest : Ctx) (data : List UInt8) (startIndex size : Int) : Option (Except Failure Value × Ctx) :=
  if fixnumGe 0 startIndex ∧ fixnumGe 1 size then helpHash digest data startIndex.toNat size.toNat
  else some (.error (.badArg "hash!"), digest)

def getHash (digest : Ctx) : Option (Except Failure Value × Ctx) :=
  match digest with
  | none => some (.error (.closed "get-hash" "read from"), none)
  | some ctxt => (osiGetSha1 ctxt).map fun r => (r.1, some r.2)

def closeDigest (_digest : Ctx) : Option (Except Failure Value × Ctx) := some (.ok .void, none)

/-- The calls on a digest. -/
inductive Op where
  | hash (data : List UInt8)
  | hashPart (data : List UInt8) (startIndex size : Int)
  | getHash
  | close

def step (digest : Ctx) : Op → Option (Except Failure Value × Ctx)
  | .hash data => hash digest data
  | .hashPart data startIndex size => hashPart digest data startIndex size
  | .getHash => getHash digest
  | .close => closeDigest digest

/-! What a digest is for. -/

/-- The bytes since the last get-hash, fewer than 2^61; that many; or a digest that is closed. -/
inductive Phase where
  | taking (m : List UInt8)
  | tooLong
  | closed

/-- Some bytes are added. Beyond 2^61 bytes this has no meaning. -/
def Phase.add (bs : List UInt8) : Phase → Option (Except Failure Value × Phase)
  | .closed => some (.error (.closed "hash!" "write to"), .closed)
  | .tooLong =>
    some (if bs = [] then .ok .void else .error (.shaError "osi_hash_data" "SHA1Input" .inputTooLong), .tooLong)
  | .taking m =>
    if m.length + bs.length < 2 ^ 61 then some (.ok .void, .taking (m ++ bs))
    else if m.length + bs.length = 2 ^ 61 then
      some (.error (.shaError "osi_hash_data" "SHA1Input" .inputTooLong), .tooLong)
    else none

/-- A part of some bytes. A part that reaches behind them is refused, and so is one of 2^32 bytes. -/
def Phase.addPart (data : List UInt8) (startIndex size : Nat) (p : Phase) : Option (Except Failure Value × Phase) :=
  match p with
  | .closed => some (.error (.closed "hash!" "write to"), .closed)
  | p =>
    if 2 ^ 32 ≤ size then some (.error .foreignArg, p)
    else if data.length < startIndex + size then
      some (.error (.ioError "osi_hash_data" "osi_hash_data" einval), p)
    else p.add ((data.drop startIndex).take size)

def Phase.get : Phase → Option (Except Failure Value × Phase)
  | .closed => some (.error (.closed "get-hash" "read from"), .closed)
  | .tooLong => some (.error (.shaError "osi_get_SHA1" "SHA1Result" .inputTooLong), .tooLong)
  | .taking m => some (.ok (.bytes (sha1 (bytesBits m))), .taking [])

def Phase.step (p : Phase) : Op → Option (Except Failure Value × Phase)
  | .hash data => p.addPart data 0 data.length
  | .hashPart data startIndex size =>
    if fixnumGe 0 startIndex ∧ fixnumGe 1 size then p.addPart data startIndex.toNat size.toNat
    else some (.error (.badArg "hash!"), p)
  | .getHash => p.get
  | .close => some (.ok .void, .closed)

/-- The digest is in the phase. -/
inductive Stands : Ctx → Phase → Prop where
  | taking {c : Context} {m : List UInt8} (h : Represents c m) : Stands (some c) (.taking m)
  | tooLong {c : Context} (hcorrupted : c.corrupted = .inputTooLong) (hcomputed : c.computed = false) :
    Stands (some c) .tooLong
  | closed : Stands none .closed

theorem osiHashData_ok {c : Context} {data : List UInt8} {startIndex size : Nat} (hstart : startIndex < 2 ^ 63)
    (hsize : size < 2 ^ 32) (hlast : startIndex + size ≤ data.length) (hne : size ≠ 0) :
    osiHashData c data startIndex size = (c.input ((data.drop startIndex).take size)).map fun r =>
      (if r.1 = .success then .ok .void else .error (.shaError "osi_hash_data" "SHA1Input" r.1), r.2) := by
  have hmod : (startIndex + size) % 2 ^ 64 = startIndex + size := Nat.mod_eq_of_lt (by omega)
  simp only [osiHashData, hmod]
  rw [if_neg (by omega), if_neg hne]

theorem osiHashData_refused {c : Context} {data : List UInt8} {startIndex size : Nat} (hstart : startIndex < 2 ^ 63)
    (hsize : size < 2 ^ 32) (hlast : data.length < startIndex + size) :
    osiHashData c data startIndex size = some (.error (.ioError "osi_hash_data" "osi_hash_data" einval), c) := by
  have hmod : (startIndex + size) % 2 ^ 64 = startIndex + size := Nat.mod_eq_of_lt (by omega)
  simp only [osiHashData, hmod]
  rw [if_pos (by omega)]

/-- A digest takes in bytes, unless they are too many. -/
theorem add_stands {c : Context} {p : Phase} (h : Stands (some c) p) {bs : List UInt8} (hne : bs ≠ []) :
    Option.Rel (Same Stands) ((c.input bs).map fun r =>
      ((if r.1 = .success then .ok .void else .error (.shaError "osi_hash_data" "SHA1Input" r.1) : Except Failure Value),
        some r.2)) (p.add bs) := by
  cases h with
  | tooLong hcorrupted hcomputed =>
    have hinput : c.input bs = some (.inputTooLong, c) := by
      rw [Context.input, if_neg hne, if_neg (by rw [hcomputed]; decide), if_pos (by rw [hcorrupted]; decide), hcorrupted]
    rw [hinput, Phase.add, if_neg hne]
    exact .some ⟨rfl, .tooLong hcorrupted hcomputed⟩
  | @taking _ m hm =>
    obtain ⟨hshort, hfull, hbeyond⟩ := input_at_limit hm bs
    rw [Phase.add]
    rcases Nat.lt_trichotomy (m.length + bs.length) (2 ^ 61) with hlt | heq | hgt
    · obtain ⟨c', hinput, hc'⟩ := hshort hlt
      rw [if_pos hlt, hinput]
      exact .some ⟨rfl, .taking hc'⟩
    · obtain ⟨c', hinput, hcorrupted, hcomputed⟩ := hfull heq
      rw [if_neg (by omega), if_pos heq, hinput]
      exact .some ⟨rfl, .tooLong hcorrupted hcomputed⟩
    · rw [if_neg (by omega), if_neg (by omega), hbeyond hgt]
      exact .none

theorem add_nil {c : Context} {p : Phase} (h : Stands (some c) p) : p.add [] = some (.ok .void, p) := by
  cases h with
  | tooLong hcorrupted hcomputed => rfl
  | taking hm => rw [Phase.add, if_pos (by simpa using hm.length_lt), List.append_nil]

theorem helpHash_stands {d : Ctx} {p : Phase} (h : Stands d p) (data : List UInt8) {startIndex : Nat}
    (hstart : startIndex < 2 ^ 63) (size : Nat) :
    Option.Rel (Same Stands) (helpHash d data startIndex size) (p.addPart data startIndex size) := by
  cases d with
  | none =>
    cases h
    exact .some ⟨rfl, .closed⟩
  | some c =>
    have hopen : p.addPart data startIndex size =
        if 2 ^ 32 ≤ size then some (.error .foreignArg, p)
        else if data.length < startIndex + size then
          some (.error (.ioError "osi_hash_data" "osi_hash_data" einval), p)
        else p.add ((data.drop startIndex).take size) := by
      cases h <;> rfl
    rw [hopen, helpHash]
    by_cases hbig : 2 ^ 32 ≤ size
    · rw [if_pos hbig, if_pos hbig]
      exact .some ⟨rfl, h⟩
    · rw [if_neg hbig, if_neg hbig]
      by_cases hout : data.length < startIndex + size
      · rw [if_pos hout, osiHashData_refused hstart (by omega) hout]
        exact .some ⟨rfl, h⟩
      · rw [if_neg hout]
        by_cases hzero : size = 0
        · subst hzero
          have hnone : osiHashData c data startIndex 0 = some (.ok .void, c) := by
            simp only [osiHashData, Nat.add_zero, Nat.mod_eq_of_lt (show startIndex < 2 ^ 64 by omega)]
            rw [if_neg (by omega), if_pos trivial]
          rw [hnone, List.take_zero, add_nil h]
          exact .some ⟨rfl, h⟩
        · have hne : (data.drop startIndex).take size ≠ [] := by
            apply List.ne_nil_of_length_pos
            rw [List.length_take, List.length_drop]
            omega
          rw [osiHashData_ok hstart (by omega) (by omega) hzero, Option.map_map]
          exact add_stands h hne

theorem getHash_stands {d : Ctx} {p : Phase} (h : Stands d p) : Option.Rel (Same Stands) (getHash d) p.get := by
  cases h with
  | closed => exact .some ⟨rfl, .closed⟩
  | @tooLong c hcorrupted hcomputed =>
    have hresult : c.result = some (.error .inputTooLong, c) := by
      rw [Context.result, if_pos (by rw [hcorrupted]; decide), hcorrupted]
    rw [getHash, osiGetSha1, hresult]
    exact .some ⟨rfl, .tooLong hcorrupted hcomputed⟩
  | taking hm =>
    obtain ⟨c', hresult⟩ := result_ok hm
    rw [getHash, osiGetSha1, hresult]
    exact .some ⟨rfl, .taking (represents_reset c')⟩

theorem step_refines : Refines Stands step Phase.step := by
  intro d p op h
  cases op with
  | hash data => exact helpHash_stands h data (by decide) data.length
  | hashPart data startIndex size =>
    rw [step, hashPart, Phase.step]
    by_cases hargs : fixnumGe 0 startIndex ∧ fixnumGe 1 size
    · have hfix := hargs.1.2
      rw [if_pos hargs, if_pos hargs]
      exact helpHash_stands h data (by unfold mostPositiveFixnum at hfix; omega) size.toNat
    · rw [if_neg hargs, if_neg hargs]
      exact .some ⟨rfl, h⟩
  | getHash => exact getHash_stands h
  | close => exact .some ⟨rfl, .closed⟩

/-- osi_open_SHA1, with what malloc left there. -/
def osiOpenSha1 (garbage : Context) : Ctx := some garbage.reset

/-- Every call on an open digest returns or raises what it does for the bytes since the last get-hash, and get-hash
returns their digest. -/
theorem digest_refines (garbage : Context) (ops : List Op) :
    (calls step (osiOpenSha1 garbage) ops).map Prod.fst = (calls Phase.step (.taking []) ops).map Prod.fst :=
  step_refines.outputs ops (.taking (represents_reset garbage))

end Swish.Digest
