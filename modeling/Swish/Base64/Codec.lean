import Mathlib.Algebra.Ring.Int.Defs
import Mathlib.Algebra.Group.Nat.Defs
import Mathlib.Data.Int.Bitwise
import Mathlib.Data.List.Perm.Basic
import Mathlib.Order.Fin.Basic

/-!
base64.ss. Bytevectors are lists of bytes. A new bytevector is full of zeros here;
its contents are open in Scheme. The references and stores of optimize-level 3 do not
check their index: a reference to the decoding table outside of it finds whatever
memory holds there.
-/

set_option autoImplicit false

namespace Swish.Base64

instance neZeroFour : NeZero 4 := ⟨by decide⟩

/-- (char->integer #\=). -/
def pad : UInt8 := 61

def base64EncodedSize (inSize : Nat) : Nat := 4 * (if inSize % 3 = 0 then inSize / 3 else inSize / 3 + 1)

def base64DecodedSize (inSize : Nat) : Nat := 3 * (inSize / 4)

/-- add-range: one character, or the first and the last of a range. -/
def addRange : List Char → List UInt8
  | [i] => [i.toUInt8]
  | [start, stop] => (List.range' start.toNat (stop.toNat + 1 - start.toNat)).map UInt8.ofNat
  | _ => []

def makeEncode (ranges : List (List Char)) : List UInt8 := ranges.flatMap addRange

/-- The loop of encode->decode. -/
def fillDecode : List UInt8 → Nat → List UInt8 → List UInt8
  | [], _, out => out
  | b :: bv, i, out => fillDecode bv (i + 1) (out.set b.toNat (UInt8.ofNat i))

/-- encode->decode; -1 is stored as the byte 255. -/
def encodeToDecode (bv : List UInt8) : List UInt8 := fillDecode bv 0 (List.replicate 256 255)

/-- An encoding table, with what the code relies on. -/
structure Alphabet where
  encoding : List UInt8
  length : encoding.length = 64
  nodup : encoding.Nodup
  ascii : ∀ b ∈ encoding, b < 128
  noPad : pad ∉ encoding

namespace Alphabet

def decoding (a : Alphabet) : List UInt8 := encodeToDecode a.encoding

def base64 : Alphabet where
  encoding := makeEncode [['A', 'Z'], ['a', 'z'], ['0', '9'], ['+'], ['/']]
  length := by decide
  nodup := by decide +kernel
  ascii := by decide +kernel
  noPad := by decide +kernel

def base64url : Alphabet where
  encoding := makeEncode [['A', 'Z'], ['a', 'z'], ['0', '9'], ['-'], ['_']]
  length := by decide
  nodup := by decide +kernel
  ascii := by decide +kernel
  noPad := by decide +kernel

end Alphabet

/-- A byte as bytevector-s8-ref gives it. -/
def signed (b : UInt8) : Int := if b < 128 then b.toNat else (b.toNat : Int) - 256

/-- #3%bytevector-s8-ref of a table at any index. -/
def s8Ref (table : List UInt8) (beyond : Int → UInt8) (i : Int) : Int :=
  signed (if 0 ≤ i then table[i.toNat]?.getD (beyond i) else beyond i)

/-- The low byte of a number. -/
def lowByte (v : Int) : UInt8 := UInt8.ofNat (v % 256).toNat

/-- bytevector-u24-set!, big endian. -/
def u24Set (out : List UInt8) (j : Nat) (v : Int) : List UInt8 :=
  ((out.set j (lowByte (v / 65536))).set (j + 1) (lowByte (v / 256))).set (j + 2) (lowByte v)

structure BadArg where

/-- Decoding may throw bad-arg. The state collects the indices at which the
decoding table is read. -/
abbrev Decode := EStateM BadArg (List Int)

/-- The machine's part of decoding: the order in which the arguments of
fxlogor are evaluated, and the memory around the table. -/
structure Machine where
  order : List (Fin 4)
  perm : order.Perm [0, 1, 2, 3]
  beyond : Int → UInt8

section

variable (a : Alphabet) (machine : Machine)

/-- ->bits. -/
def toBits (byte : Int) : Decode Int := fun trace =>
  .ok (s8Ref a.decoding machine.beyond byte) (trace ++ [byte])

def check (bits : Int) : Decode Int := if 0 ≤ bits then return bits else throw ⟨⟩

def padOrBits (byte : Int) : Decode Int :=
  if byte = signed pad then return 0 else toBits a machine byte

def checkGetBits (byte : Int) : Decode Int := do check (← toBits a machine byte)

def shift (bits : Int) (offset : Fin 4) : Int := bits * 2 ^ (24 - 6 * (offset.val + 1))

/-- The arguments of fxlogor in the order of the machine. -/
def evalArgs (arg : Fin 4 → Decode Int) : List (Fin 4) → (Fin 4 → Int) → Decode (Fin 4 → Int)
  | [], v => return v
  | k :: ks, v => do
    let x ← arg k
    evalArgs arg ks fun i => if i = k then x else v i

def combine (checkGetBits : Int → Decode Int) (q : Fin 4 → Int) : Decode Int := do
  let arg : Fin 4 → Decode Int := fun k =>
    if k = 0 then do return shift (← check (← toBits a machine (q k))) k
    else do return shift (← checkGetBits (q k)) k
  let v ← evalArgs arg machine.order fun _ => 0
  return (v 0).lor ((v 1).lor ((v 2).lor (v 3)))

/-- extract-bytes at i. -/
def extractBytes (bv : List UInt8) (i : Nat) : Fin 4 → Int := fun k => signed (bv[i + k.val]?.getD 0)

def finish (bv : List UInt8) (i j : Nat) (out : List UInt8) : Decode (List UInt8) := do
  let q := extractBytes bv i
  let out := u24Set out j (← combine a machine (padOrBits a machine) q)
  if q 1 = signed pad then throw ⟨⟩
  else if q 2 = signed pad then
    if q 3 ≠ signed pad then throw ⟨⟩
    else return out.take (j + 1)
  else if q 3 = signed pad then return out.take (j + 2)
  else return out

/-- The do loop; the first argument is how many groups come before the last one. -/
def decodeLoop (bv : List UInt8) : Nat → Nat → Nat → List UInt8 → Decode (List UInt8)
  | 0, i, j, out => finish a machine bv i j out
  | n+1, i, j, out => do
    let bits ← combine a machine (checkGetBits a machine) (extractBytes bv i)
    decodeLoop bv n (i + 4) (j + 3) (u24Set out j bits)

def base64Decode (bv : List UInt8) : Decode (List UInt8) :=
  let inputSize := bv.length
  if inputSize % 4 ≠ 0 then throw ⟨⟩
  else if inputSize = 0 then return []
  else
    decodeLoop a machine bv ((inputSize - 4) / 4) 0 0 (List.replicate (base64DecodedSize inputSize) 0)

end

section

variable (a : Alphabet) (bv : List UInt8)

/-- (translate bits k/4). -/
def translate (bits k : Nat) : UInt8 := a.encoding[(bits >>> (6 * k)) &&& 0x3F]?.getD 0

def u16Set (out : List UInt8) (i v : Nat) : List UInt8 :=
  (out.set i (UInt8.ofNat (v / 256))).set (i + 1) (UInt8.ofNat v)

def u32Set (out : List UInt8) (i v : Nat) : List UInt8 :=
  (((out.set i (UInt8.ofNat (v / 16777216))).set (i + 1) (UInt8.ofNat (v / 65536))).set (i + 2)
    (UInt8.ofNat (v / 256))).set (i + 3) (UInt8.ofNat v)

/-- bytevector-u24-ref, big endian. -/
def u24Ref (i : Nat) : Nat :=
  (bv[i]?.getD 0).toNat * 65536 + (bv[i + 1]?.getD 0).toNat * 256 + (bv[i + 2]?.getD 0).toNat

/-- write-encoded; narrow tells that fixnums have less than 32 bits. -/
def writeEncoded (narrow : Bool) (base i : Nat) (out : List UInt8) : List UInt8 :=
  let bits := u24Ref bv i
  let t := fun k => (translate a bits k).toNat
  if narrow then
    u16Set (u16Set out base ((t 3 <<< 8) ||| (t 2 <<< 0))) (base + 2) ((t 1 <<< 8) ||| (t 0 <<< 0))
  else u32Set out base ((t 3 <<< 24) ||| (t 2 <<< 16) ||| (t 1 <<< 8) ||| (t 0 <<< 0))

def writePadded (base bits n : Nat) (out : List UInt8) : List UInt8 :=
  let out := out.set (base + 0) (translate a bits 3)
  let out := out.set (base + 1) (translate a bits 2)
  let out := if n = 1 then out.set (base + 2) (translate a bits 1) else out.set (base + 2) pad
  out.set (base + 3) pad

def get (i shift : Nat) : Nat := if bv.length ≤ i then 0 else (bv[i]?.getD 0).toNat <<< shift

def getBits (i : Nat) : Nat := get bv i 16 ||| get bv (i + 1) 8 ||| get bv (i + 2) 0

/-- The loop of base64-encode; the first argument bounds the number of groups. -/
def encodeLoop (narrow : Bool) : Nat → Nat → Nat → List UInt8 → List UInt8
  | 0, _, _, out => out
  | n+1, i, base, out =>
    let next := i + 3
    if next < bv.length then encodeLoop narrow n next (base + 4) (writeEncoded a bv narrow base i out)
    else if next = bv.length then writeEncoded a bv narrow base i out
    else writePadded a base (getBits bv i) (next - bv.length) out

def base64Encode (narrow : Bool) : List UInt8 :=
  if bv.length = 0 then []
  else encodeLoop a bv narrow bv.length 0 0 (List.replicate (base64EncodedSize bv.length) 0)

end

end Swish.Base64
