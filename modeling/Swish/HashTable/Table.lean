import Mathlib.Data.List.Basic

/-!
The functional hash table of ht.ss. Indices are integers and every access to a
vector is checked, as it is in the source.
-/

set_option autoImplicit false

namespace Swish.HashTable

def segSize : Int := 16
def expandLoad : Int := 5
def contractLoad : Int := 3

inductive Who where
  | ref | delete | set
  deriving DecidableEq, Repr

inductive HtError (K : Type) where
  | badArg (who : Who) (key : K)
  | badIndex (index : Int)
  | assertion
  deriving DecidableEq, Repr

abbrev Bucket (K V : Type) := List (K × V)

abbrev Segments (K V : Type) := List (List (Bucket K V))

structure Ht (K V : Type) where
  hashKey : K → Int
  equalKey : K → K → Bool
  validKey : K → Bool
  size : Int
  n : Int
  maxN : Int
  bso : Int
  expandSize : Int
  contractSize : Int
  segments : Segments K V

variable {K V α : Type}

def empty : List (Bucket K V) := List.replicate segSize.toNat []

def emptySegments : Segments K V := [empty]

/-- ht:make. -/
def make (hashKey : K → Int) (equalKey : K → K → Bool) (validKey : K → Bool) : Ht K V where
  hashKey := hashKey
  equalKey := equalKey
  validKey := validKey
  size := 0
  n := segSize
  maxN := segSize
  bso := segSize / 2
  expandSize := segSize * expandLoad
  contractSize := segSize * contractLoad
  segments := emptySegments

def vectorRef (v : List α) (i : Int) : Except (HtError K) α :=
  if 0 ≤ i then
    match v[i.toNat]? with
    | some x => .ok x
    | none => .error (.badIndex i)
  else .error (.badIndex i)

def vectorSet (v : List α) (i : Int) (x : α) : Except (HtError K) (List α) :=
  if 0 ≤ i ∧ i.toNat < v.length then .ok (v.set i.toNat x) else .error (.badIndex i)

def element (index : Int) (tuple : List α) : Except (HtError K) α := vectorRef tuple (index - 1)

/-- set-element works on a copy. -/
def setElement (index : Int) (tuple : List α) (value : α) : Except (HtError K) (List α) :=
  vectorSet tuple (index - 1) value

def phash (hashKey : K → Int) (key : K) (range : Int) : Int := (hashKey key).fmod range + 1

def internalFind (key : K) (equalKey : K → K → Bool) : Bucket K V → Option (K × V)
  | [] => none
  | kv :: bucket => if equalKey kv.1 key then some kv else internalFind key equalKey bucket

/-- What a function on buckets returns: the bucket, the count, and whether the
bucket is the very list that came in, as eq? sees it. -/
structure Change (K V : Type) where
  bucket : Bucket K V
  count : Int
  same : Bool

def internalRemove (key : K) (equalKey : K → K → Bool) : Bucket K V → Change K V
  | [] => ⟨[], 0, true⟩
  | kv :: bucket =>
    if equalKey kv.1 key then ⟨bucket, 1, false⟩
    else
      let c := internalRemove key equalKey bucket
      if c.count = 0 then ⟨kv :: bucket, 0, true⟩ else ⟨kv :: c.bucket, c.count, false⟩

def internalSet (key : K) (val : V) (equalKey : K → K → Bool) : Bucket K V → Change K V
  | [] => ⟨[(key, val)], 1, false⟩
  | kv :: rest =>
    if equalKey key kv.1 then ⟨(key, val) :: rest, 0, false⟩
    else
      let c := internalSet key val equalKey rest
      ⟨kv :: c.bucket, c.count, false⟩

def segIndex (slot : Int) : Int := (slot - 1) / segSize + 1

def bucketIndex (slot : Int) : Int := (slot - 1).tmod segSize + 1

def getBucketS (segs : Segments K V) (slot : Int) : Except (HtError K) (Bucket K V) := do
  let seg ← element (segIndex slot) segs
  element (bucketIndex slot) seg

def putBucketS (segs : Segments K V) (slot : Int) (bucket : Bucket K V) :
    Except (HtError K) (Segments K V) := do
  let seg ← element (segIndex slot) segs
  let seg ← setElement (bucketIndex slot) seg bucket
  setElement (segIndex slot) segs seg

/-- on-bucket, with whether the segments are the very ones that came in. -/
def onBucket (f : Bucket K V → Change K V) (segments : Segments K V) (slot : Int) :
    Except (HtError K) (Segments K V × Int × Bool) := do
  let seg ← element (segIndex slot) segments
  let b0 ← element (bucketIndex slot) seg
  let c := f b0
  if c.same then return (segments, c.count, true)
  else
    let seg ← setElement (bucketIndex slot) seg c.bucket
    let segments ← setElement (segIndex slot) segments seg
    return (segments, c.count, false)

def rehash (slot1 slot2 maxN : Int) (hashKey : K → Int) :
    Bucket K V → Except (HtError K) (Bucket K V × Bucket K V)
  | [] => .ok ([], [])
  | kv :: bucket => do
    let (l1, l2) ← rehash slot1 slot2 maxN hashKey bucket
    let slot := phash hashKey kv.1 maxN
    if slot = slot1 then return (kv :: l1, l2)
    else if slot = slot2 then return (l1, kv :: l2)
    else throw .assertion

/-- The do loop of expand-segments and contract-segments from i on, with the
number of iterations left. -/
def copySegments (segments : Segments K V) : Nat → Int → Segments K V → Except (HtError K) (Segments K V)
  | 0, _, v => .ok v
  | k+1, i, v => do
    let seg ← vectorRef segments i
    let v ← vectorSet v i seg
    copySegments segments k (i + 1) v

def expandSegments (segments : Segments K V) : Except (HtError K) (Segments K V) :=
  copySegments segments segments.length 0 (List.replicate (segments.length * 2) empty)

/-- The vector made for the result is filled with something else at first. -/
def contractSegments (segments : Segments K V) : Except (HtError K) (Segments K V) :=
  copySegments segments (segments.length / 2) 0 (List.replicate (segments.length / 2) [])

namespace Ht

def getSlot (ht : Ht K V) (key : K) : Int :=
  let hash := phash ht.hashKey key ht.maxN
  if hash > ht.n then hash - ht.bso else hash

/-- ht:ref. -/
def ref (ht : Ht K V) (key : K) (default : V) : Except (HtError K) V := do
  if !ht.validKey key then throw (.badArg .ref key)
  let bucket ← getBucketS ht.segments (ht.getSlot key)
  match internalFind key ht.equalKey bucket with
  | some kv => return kv.2
  | none => return default

def maybeExpand (ht : Ht K V) (size : Int) (segments : Segments K V) : Except (HtError K) (Ht K V) := do
  if size > ht.expandSize then
    let (maxN, bso, segments) ←
      if ht.n = ht.maxN then do
        let segments ← expandSegments segments
        pure (2 * ht.maxN, 2 * ht.bso, segments)
      else pure (ht.maxN, ht.bso, segments)
    let n := ht.n + 1
    let slot1 := n - bso
    let b ← getBucketS segments slot1
    let slot2 := n
    let (b1, b2) ← rehash slot1 slot2 maxN ht.hashKey b
    let segments ← putBucketS segments slot1 b1
    let segments ← putBucketS segments slot2 b2
    return { ht with
      size := size, n := n, maxN := maxN, bso := bso
      expandSize := n * expandLoad, contractSize := n * contractLoad, segments := segments }
  else return { ht with size := size, segments := segments }

/-- same tells whether segments are those of ht, as eq? sees it. -/
def maybeContract (ht : Ht K V) (size : Int) (segments : Segments K V) (same : Bool) :
    Except (HtError K) (Ht K V) := do
  if same then return ht
  else if size < ht.contractSize ∧ ht.n > segSize then
    let slot1 := ht.n - ht.bso
    let b1 ← getBucketS segments slot1
    let slot2 := ht.n
    let b2 ← getBucketS segments slot2
    let segments ← putBucketS segments slot1 (b1 ++ b2)
    let segments ← putBucketS segments slot2 []
    let n := ht.n - 1
    if n = ht.bso then
      let segments ← contractSegments segments
      return { ht with
        maxN := ht.maxN / 2, bso := ht.bso / 2, size := size, n := n
        expandSize := n * expandLoad, contractSize := n * contractLoad, segments := segments }
    else
      return { ht with
        size := size, n := n
        expandSize := n * expandLoad, contractSize := n * contractLoad, segments := segments }
  else return { ht with size := size, segments := segments }

/-- ht:delete. -/
def delete (ht : Ht K V) (key : K) : Except (HtError K) (Ht K V) := do
  if !ht.validKey key then throw (.badArg .delete key)
  let (segments, count, same) ←
    onBucket (internalRemove key ht.equalKey) ht.segments (ht.getSlot key)
  ht.maybeContract (ht.size - count) segments same

/-- ht:set. -/
def set (ht : Ht K V) (key : K) (val : V) : Except (HtError K) (Ht K V) := do
  if !ht.validKey key then throw (.badArg .set key)
  let (segments, count, _) ←
    onBucket (internalSet key val ht.equalKey) ht.segments (ht.getSlot key)
  ht.maybeExpand (ht.size + count) segments

def foldBucket (f : K → V → α → α) (acc : α) : Bucket K V → α
  | [] => acc
  | kv :: bucket => foldBucket f (f kv.1 kv.2 acc) bucket

def foldSegment (f : K → V → α → α) (seg : List (Bucket K V)) : Nat → α → Except (HtError K) α
  | 0, acc => .ok acc
  | i+1, acc => do
    let bucket ← element (i + 1) seg
    foldSegment f seg i (foldBucket f acc bucket)

def foldSegments (f : K → V → α → α) (segs : Segments K V) : Nat → α → Except (HtError K) α
  | 0, acc => .ok acc
  | i+1, acc => do
    let seg ← element (i + 1) segs
    let acc ← foldSegment f seg seg.length acc
    foldSegments f segs i acc

/-- ht:fold. -/
def fold (ht : Ht K V) (f : K → V → α → α) (init : α) : Except (HtError K) α :=
  foldSegments f ht.segments ht.segments.length init

/-- ht:keys. -/
def keys (ht : Ht K V) : Except (HtError K) (List K) := ht.fold (fun key _ acc => key :: acc) []

end Ht

inductive Op (K V : Type) where
  | set (key : K) (val : V)
  | delete (key : K)

namespace Ht

/-- A call with a bad argument raises and the caller goes on with the table it
has; any other exception ends the run. -/
def step (ht : Ht K V) (op : Op K V) : Except (HtError K) (Ht K V) :=
  let r := match op with
    | .set key val => ht.set key val
    | .delete key => ht.delete key
  match r with
  | .error (.badArg _ _) => .ok ht
  | r => r

def run (ht : Ht K V) : List (Op K V) → Except (HtError K) (Ht K V)
  | [] => .ok ht
  | op :: ops => do
    let ht ← ht.step op
    ht.run ops

end Ht

end Swish.HashTable
