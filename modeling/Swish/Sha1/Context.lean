import Swish.Sha1.Standard

/-!
The SHA-1 code of RFC 6234: the context, the input of bytes and of the last bits,
padding, and the compression of one block.
-/

set_option autoImplicit false

namespace Swish.Sha1

/-- The error codes. There are no null pointers here. -/
inductive Code where
  | success
  | inputTooLong
  | stateError
  | badParam
  deriving DecidableEq, Repr

structure Context where
  intermediateHash : Vector UInt32 5
  lengthHigh : UInt32
  lengthLow : UInt32
  messageBlockIndex : Nat
  messageBlock : Vector UInt8 64
  computed : Bool
  corrupted : Code

def rotl (bits word : UInt32) : UInt32 := (word <<< bits) ||| (word >>> (32 - bits))

def ch (x y z : UInt32) : UInt32 := (x &&& y) ^^^ (~~~x &&& z)

def maj (x y z : UInt32) : UInt32 := (x &&& y) ^^^ (x &&& z) ^^^ (y &&& z)

def parity (x y z : UInt32) : UInt32 := x ^^^ y ^^^ z

/-- The first 16 words of the array W. -/
def loadWords (block : Vector UInt8 64) (w : List UInt32) : List UInt32 :=
  (List.range 16).foldl (fun w t => w.set t
    ((block.toList.getD (4 * t) 0).toUInt32 <<< 24 ||| (block.toList.getD (4 * t + 1) 0).toUInt32 <<< 16 |||
      (block.toList.getD (4 * t + 2) 0).toUInt32 <<< 8 ||| (block.toList.getD (4 * t + 3) 0).toUInt32)) w

/-- The other words. -/
def extendWords (w : List UInt32) : List UInt32 :=
  (List.range' 16 64).foldl (fun w t => w.set t
    (rotl 1 (w.getD (t - 3) 0 ^^^ w.getD (t - 8) 0 ^^^ w.getD (t - 14) 0 ^^^ w.getD (t - 16) 0))) w

/-- One of the four loops over 20 words, from t on. -/
def rounds (f : UInt32 → UInt32 → UInt32 → UInt32) (k : UInt32) (w : List UInt32) (t : Nat) (v : Words) : Words :=
  (List.range' t 20).foldl (fun v t => ⟨rotl 5 v.a + f v.b v.c v.d + v.e + w.getD t 0 + k, v.a, rotl 30 v.b, v.c, v.d⟩) v

/-- The four loops. -/
def allRounds (w : List UInt32) (v : Words) : Words :=
  rounds parity 0xCA62C1D6 w 60 (rounds maj 0x8F1BBCDC w 40 (rounds parity 0x6ED9EBA1 w 20
    (rounds ch 0x5A827999 w 0 v)))

/-- `Intermediate_Hash[0] += A` and so on. -/
def addWords (h : Vector UInt32 5) (v : Words) : Vector UInt32 5 :=
  ((Words.ofVector h).add v).toVector

def compressBlock (h : Vector UInt32 5) (block : Vector UInt8 64) : Vector UInt32 5 :=
  addWords h (allRounds (extendWords (loadWords block (List.replicate 80 0))) (.ofVector h))

namespace Context

/-- SHA1Reset. The block keeps its bytes. -/
def reset (c : Context) : Context :=
  { c with
    lengthHigh := 0
    lengthLow := 0
    messageBlockIndex := 0
    intermediateHash := Words.toVector ⟨0x67452301, 0xEFCDAB89, 0x98BADCFE, 0x10325476, 0xC3D2E1F0⟩
    computed := false
    corrupted := .success }

/-- SHA1AddLength. -/
def addLength (c : Context) (length : UInt32) : Context :=
  if c.lengthLow + length < c.lengthLow then
    { c with
      lengthLow := c.lengthLow + length
      lengthHigh := c.lengthHigh + 1
      corrupted := if c.lengthHigh + 1 = 0 then .inputTooLong else c.corrupted }
  else { c with lengthLow := c.lengthLow + length }

/-- SHA1ProcessMessageBlock. -/
def processMessageBlock (c : Context) : Context :=
  { c with intermediateHash := compressBlock c.intermediateHash c.messageBlock, messageBlockIndex := 0 }

/-- `Message_Block[Message_Block_Index++] = b`; nothing if that is behind the array. -/
def store (c : Context) (b : UInt8) : Option Context :=
  if h : c.messageBlockIndex < 64 then
    some { c with
      messageBlock := c.messageBlock.set c.messageBlockIndex b h
      messageBlockIndex := c.messageBlockIndex + 1 }
  else none

/-- The loop body of SHA1Input. -/
def inputByte (c : Context) (b : UInt8) : Option Context := do
  let c ← c.store b
  let c := c.addLength 8
  if c.corrupted = .success ∧ c.messageBlockIndex = 64 then some c.processMessageBlock else some c

/-- SHA1Input. -/
def input (c : Context) (messageArray : List UInt8) : Option (Code × Context) :=
  if messageArray = [] then some (.success, c)
  else if c.computed then some (.stateError, { c with corrupted := .stateError })
  else if c.corrupted ≠ .success then some (c.corrupted, c)
  else (messageArray.foldlM inputByte c).map fun c => (c.corrupted, c)

/-- `while (Message_Block_Index < n) Message_Block[Message_Block_Index++] = 0`. -/
def fill (c : Context) (n : Nat) : Option Context :=
  (List.replicate (n - c.messageBlockIndex) 0).foldlM store c

/-- The length as the last 8 bytes of the block. -/
def storeLength (c : Context) : Context :=
  { c with messageBlock :=
      ((((((((c.messageBlock.set 56 (c.lengthHigh >>> 24).toUInt8).set 57 (c.lengthHigh >>> 16).toUInt8).set
        58 (c.lengthHigh >>> 8).toUInt8).set 59 c.lengthHigh.toUInt8).set
        60 (c.lengthLow >>> 24).toUInt8).set 61 (c.lengthLow >>> 16).toUInt8).set
        62 (c.lengthLow >>> 8).toUInt8).set 63 c.lengthLow.toUInt8) }

/-- The pad byte. If the length does not fit behind it, zeros fill the block. -/
def storePadByte (c : Context) (padByte : UInt8) : Option Context :=
  if 56 ≤ c.messageBlockIndex then ((c.store padByte).bind fun c => c.fill 64).map processMessageBlock
  else c.store padByte

/-- SHA1PadMessage. -/
def padMessage (c : Context) (padByte : UInt8) : Option Context :=
  (c.storePadByte padByte).bind fun c => (c.fill 56).map fun c => c.storeLength.processMessageBlock

/-- SHA1Finalize. -/
def finalize (c : Context) (padByte : UInt8) : Option Context :=
  (c.padMessage padByte).map fun c =>
    { c with messageBlock := Vector.replicate 64 0, lengthHigh := 0, lengthLow := 0, computed := true }

def masks : Vector UInt8 8 := #v[0x00, 0x80, 0xC0, 0xE0, 0xF0, 0xF8, 0xFC, 0xFE]

def markbit : Vector UInt8 8 := #v[0x80, 0x40, 0x20, 0x10, 0x08, 0x04, 0x02, 0x01]

/-- SHA1FinalBits. -/
def finalBits (c : Context) (messageBits : UInt8) (length : Nat) : Option (Code × Context) :=
  if length = 0 then some (.success, c)
  else if c.corrupted ≠ .success then some (c.corrupted, c)
  else if c.computed then some (.stateError, { c with corrupted := .stateError })
  else if h : length < 8 then
    ((c.addLength (UInt32.ofNat length)).finalize ((messageBits &&& masks[length]) ||| markbit[length])).map
      fun c => (c.corrupted, c)
  else some (.badParam, { c with corrupted := .badParam })

/-- The digest as SHA1Result copies it out. -/
def messageDigest (c : Context) : List UInt8 :=
  List.ofFn fun i : Fin 20 =>
    (c.intermediateHash.get ⟨i.val >>> 2, by omega⟩ >>> (8 * (3 - (UInt32.ofNat i &&& 0x03)))).toUInt8

/-- SHA1Result. -/
def result (c : Context) : Option (Except Code (List UInt8) × Context) :=
  if c.corrupted ≠ .success then some (.error c.corrupted, c)
  else do
    let c ← if c.computed then some c else c.finalize 0x80
    pure (.ok c.messageDigest, c)

end Context

end Swish.Sha1
