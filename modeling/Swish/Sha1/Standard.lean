import Swish.Lib.Bits
import Swish.Lib.Blocks
import Swish.Lib.Bytes

/-!
SHA-1 as FIPS 180-3 defines it: a message of any number of bits is padded, cut into
blocks of 512 bits and compressed.
-/

set_option autoImplicit false

namespace Swish.Sha1

open Swish.Lib

namespace Standard

def rotl (n : Nat) (x : UInt32) : UInt32 := ⟨x.toBitVec.rotateLeft n⟩

def ch (x y z : UInt32) : UInt32 := (x &&& y) ^^^ (~~~x &&& z)

def parity (x y z : UInt32) : UInt32 := x ^^^ y ^^^ z

def maj (x y z : UInt32) : UInt32 := (x &&& y) ^^^ (x &&& z) ^^^ (y &&& z)

def f (t : Nat) : UInt32 → UInt32 → UInt32 → UInt32 :=
  if t < 20 then ch else if t < 40 then parity else if t < 60 then maj else parity

def k (t : Nat) : UInt32 :=
  if t < 20 then 0x5A827999 else if t < 40 then 0x6ED9EBA1 else if t < 60 then 0x8F1BBCDC else 0xCA62C1D6

/-- The message schedule. -/
def w (m : Nat → UInt32) (t : Nat) : UInt32 :=
  if _ : t < 16 then m t else rotl 1 (w m (t - 3) ^^^ w m (t - 8) ^^^ w m (t - 14) ^^^ w m (t - 16))
termination_by t

end Standard

/-- The five working variables. -/
structure Words where
  a : UInt32
  b : UInt32
  c : UInt32
  d : UInt32
  e : UInt32

def Words.ofVector (h : Vector UInt32 5) : Words := ⟨h[0], h[1], h[2], h[3], h[4]⟩

def Words.toVector (v : Words) : Vector UInt32 5 := #v[v.a, v.b, v.c, v.d, v.e]

def Words.add (v w : Words) : Words := ⟨v.a + w.a, v.b + w.b, v.c + w.c, v.d + w.d, v.e + w.e⟩

namespace Standard

def step (m : Nat → UInt32) (v : Words) (t : Nat) : Words :=
  ⟨rotl 5 v.a + f t v.b v.c v.d + v.e + k t + w m t, v.a, rotl 30 v.b, v.c, v.d⟩

/-- The hash value after the working variables v. -/
def next (h : Vector UInt32 5) (v : Words) : Vector UInt32 5 :=
  (v.add (.ofVector h)).toVector

/-- The hash value after a block with the words m. -/
def compress (h : Vector UInt32 5) (m : Nat → UInt32) : Vector UInt32 5 :=
  next h ((List.range 80).foldl (step m) (.ofVector h))

def initial : Vector UInt32 5 := Words.toVector ⟨0x67452301, 0xEFCDAB89, 0x98BADCFE, 0x10325476, 0xC3D2E1F0⟩

/-- A one, as few zeros as make the length 448 modulo 512, and the length of the message. -/
def pad (m : List Bool) : List Bool :=
  m ++ true :: (List.replicate ((959 - m.length % 512) % 512) false ++ bits 64 m.length)

def word (block : List Bool) (t : Nat) : UInt32 := UInt32.ofNat (ofBits ((block.drop (32 * t)).take 32))

def hash (m : List Bool) : Vector UInt32 5 :=
  (blocks 512 ((pad m).length / 512) (pad m)).foldl (fun h b => compress h (word b)) initial

end Standard

/-- The digest of a message. -/
def sha1 (m : List Bool) : List UInt8 := (Standard.hash m).toList.flatMap fun w => beBytes 4 w.toNat

/-- A message of bytes, the highest bit of each byte first. -/
def bytesBits (bs : List UInt8) : List Bool := bs.flatMap fun b => bits 8 b.toNat

theorem Standard.w_lt {m : Nat → UInt32} {t : Nat} (h : t < 16) : Standard.w m t = m t := by
  rw [Standard.w, dif_pos h]

theorem Standard.w_ge {m : Nat → UInt32} {t : Nat} (h : 16 ≤ t) : Standard.w m t =
    rotl 1 (Standard.w m (t - 3) ^^^ Standard.w m (t - 8) ^^^ Standard.w m (t - 14) ^^^ Standard.w m (t - 16)) := by
  rw [Standard.w, dif_neg (by omega)]

@[simp] theorem bytesBits_nil : bytesBits [] = [] := rfl

@[simp] theorem bytesBits_cons (b : UInt8) (bs : List UInt8) : bytesBits (b :: bs) = bits 8 b.toNat ++ bytesBits bs :=
  List.flatMap_cons

@[simp] theorem bytesBits_append (bs cs : List UInt8) : bytesBits (bs ++ cs) = bytesBits bs ++ bytesBits cs :=
  List.flatMap_append

@[simp] theorem length_bytesBits (bs : List UInt8) : (bytesBits bs).length = 8 * bs.length := by
  induction bs with
  | nil => rfl
  | cons b bs ih =>
    rw [bytesBits_cons, List.length_append, bits_length, ih, List.length_cons]
    omega

theorem take_bytesBits (n : Nat) (bs : List UInt8) : (bytesBits bs).take (8 * n) = bytesBits (bs.take n) := by
  induction n generalizing bs with
  | zero => rfl
  | succ n ih =>
    cases bs with
    | nil => simp
    | cons b bs =>
      have hn : 8 * (n + 1) = (bits 8 b.toNat).length + 8 * n := by
        rw [bits_length]
        omega
      rw [bytesBits_cons, hn, List.take_length_add_append, ih, List.take_succ_cons, bytesBits_cons]

theorem drop_bytesBits (n : Nat) (bs : List UInt8) : (bytesBits bs).drop (8 * n) = bytesBits (bs.drop n) := by
  induction n generalizing bs with
  | zero => rfl
  | succ n ih =>
    cases bs with
    | nil => simp
    | cons b bs =>
      have hn : 8 * (n + 1) = (bits 8 b.toNat).length + 8 * n := by
        rw [bits_length]
        omega
      rw [bytesBits_cons, hn, List.drop_length_add_append, ih, List.drop_succ_cons]

end Swish.Sha1
