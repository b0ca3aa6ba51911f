import Swish.WebSocket.Frame

/-!
payloads->input-port and extract. The codec may read a text into the bytevector that
holds its first payload, so a read can overwrite bytes of the payload it comes from.
-/

set_option autoImplicit false

namespace Swish.WebSocket

/-- The custom port, with the buffer that its reader fills. -/
structure PayloadPort where
  payloads : List (List UInt8)
  pp : Nat
  buffer : List UInt8
  /-- The first of the payloads is the buffer itself. -/
  shared : Bool

/-- bytevector-copy!. -/
def bytevectorCopy (source : List UInt8) (sourceStart : Nat) (target : List UInt8) (targetStart count : Nat) :
    List UInt8 :=
  target.take targetStart ++ ((source.drop sourceStart).take count ++ target.drop (targetStart + count))

/-- The procedure r!. -/
def readPayloads (pp start n : Nat) (buffer : List UInt8) : Bool → List (List UInt8) → Nat × PayloadPort
  | shared, [] => (0, ⟨[], pp, buffer, shared⟩)
  | shared, payload :: rest =>
    let contents := if shared then buffer else payload
    let count := min (contents.length - pp) n
    if count = 0 then readPayloads 0 start n buffer false rest
    else
      let buffer := if shared ∧ pp = start then buffer else bytevectorCopy contents pp buffer start count
      (count, ⟨payload :: rest, pp + count, buffer, shared⟩)

def PayloadPort.read (p : PayloadPort) (start n : Nat) : Nat × PayloadPort :=
  readPayloads p.pp start n p.buffer p.shared p.payloads

/-- How a reader asks for bytes, by the size of its buffer and the number of bytes it has
got so far. It asks for at least one, and what it keeps in the buffer it was given before. -/
structure Requests where
  start : Nat → Nat → Nat
  count : Nat → Nat → Nat
  some : ∀ size got, 0 < size → 0 < count size got
  fits : ∀ size got, 0 < size → start size got + count size got ≤ size
  kept : ∀ size got, start size got ≤ got
  /-- The size of a buffer that get-bytevector-all makes. -/
  bufferSize : Nat
  bufferSize_pos : 0 < bufferSize

/-- The bytes up to the end of the port. A read that is not the last gives a byte. -/
def readAll (r : Requests) : Nat → Nat → PayloadPort → List UInt8
  | 0, _, _ => []
  | fuel + 1, got, p =>
    let start := r.start p.buffer.length got
    let (count, p) := p.read start (r.count p.buffer.length got)
    if count = 0 then []
    else (p.buffer.drop start).take count ++ readAll r fuel (got + count) p

def defaultBufSize : Nat := 1024

/-- The port that extract makes, with the buffer of its reader. -/
def extractPort (r : Requests) (type : Kind) (payloads : List (List UInt8)) : PayloadPort :=
  match type, payloads with
  | .text, bv0 :: _ =>
    if defaultBufSize ≤ bv0.length then ⟨payloads, 0, bv0, true⟩
    else ⟨payloads, 0, List.replicate defaultBufSize 0, false⟩
  | _, _ => ⟨payloads, 0, List.replicate r.bufferSize 0, false⟩

def extract (r : Requests) (type : Kind) (payloads : List (List UInt8)) : List UInt8 :=
  readAll r (payloads.flatten.length + 1) 0 (extractPort r type payloads)

variable {r : Requests} {p : PayloadPort} {start n got fuel pp : Nat} {buffer : List UInt8} {shared : Bool}
  {payloads : List (List UInt8)}

/-- The bytes that a port is still to give. -/
def unread (pp : Nat) (buffer : List UInt8) : Bool → List (List UInt8) → List UInt8
  | _, [] => []
  | shared, payload :: rest => (if shared then buffer else payload).drop pp ++ rest.flatten

def PayloadPort.unread (p : PayloadPort) : List UInt8 :=
  WebSocket.unread p.pp p.buffer p.shared p.payloads

/-- What r! does for a request at start, from a place pp in the first payload. -/
structure Delivers (pp start : Nat) (shared : Bool) (before : List UInt8) (size count : Nat) (p : PayloadPort) :
    Prop where
  delivered : (p.buffer.drop start).take count = before.take count
  left : p.unread = before.drop count
  length : p.buffer.length = size
  place : p.shared = true → shared = true ∧ p.pp = pp + count ∧ p.pp ≤ size
  done : count = 0 → before = []
  bound : count ≤ before.length

theorem drop_bytevectorCopy {source target : List UInt8} {i j count : Nat} (hs : i + count ≤ source.length)
    (ht : j + count ≤ target.length) :
    ((bytevectorCopy source i target j count).drop j).take count = (source.drop i).take count := by
  have hj : (target.take j).length = j := by
    rw [List.length_take]
    omega
  have hc : ((source.drop i).take count).length = count := by
    rw [List.length_take, List.length_drop]
    omega
  rw [bytevectorCopy, List.drop_append_of_le_length (by omega), List.drop_of_length_le (by omega), List.nil_append]
  rw [List.take_append_of_le_length (by omega), List.take_of_length_le (by omega)]

theorem length_bytevectorCopy {source target : List UInt8} {i j count : Nat} (hs : i + count ≤ source.length)
    (ht : j + count ≤ target.length) : (bytevectorCopy source i target j count).length = target.length := by
  simp only [bytevectorCopy, List.length_append, List.length_take, List.length_drop]
  omega

/-- Bytes behind the copy are as they were. -/
theorem bytevectorCopy_behind {source target : List UInt8} {i j k count : Nat} (hs : i + count ≤ source.length)
    (ht : j + count ≤ target.length) (hk : j + count ≤ k) :
    (bytevectorCopy source i target j count).drop k = target.drop k := by
  have hlen : (target.take j).length + ((source.drop i).take count).length = j + count := by
    simp only [List.length_take, List.length_drop]
    omega
  rw [bytevectorCopy, ← List.append_assoc, List.drop_append, List.drop_of_length_le (by rw [List.length_append]; omega)]
  rw [List.nil_append, List.drop_drop, List.length_append, hlen]
  congr 1
  omega

theorem unread_start (buffer : List UInt8) (payloads : List (List UInt8)) :
    unread 0 buffer false payloads = payloads.flatten := by
  cases payloads <;> rfl

/-- A read from the first payload. Where it is the buffer, the bytes not yet read lie behind
those that the read writes. -/
theorem read_first (payload : List UInt8) (rest : List (List UInt8)) {count : Nat} (hfit : start + count ≤ buffer.length)
    (hs : shared = true → start ≤ pp) (hc : pp + count ≤ (if shared then buffer else payload).length)
    (hpos : count ≠ 0) :
    Delivers pp start shared (unread pp buffer shared (payload :: rest)) buffer.length count
      ⟨payload :: rest, pp + count,
        if shared ∧ pp = start then buffer
        else bytevectorCopy (if shared then buffer else payload) pp buffer start count, shared⟩ := by
  have htake : (unread pp buffer shared (payload :: rest)).take count =
      ((if shared then buffer else payload).drop pp).take count := by
    rw [unread, List.take_append_of_le_length (by rw [List.length_drop]; omega)]
  have hdrop : (unread pp buffer shared (payload :: rest)).drop count =
      (if shared then buffer else payload).drop (pp + count) ++ rest.flatten := by
    rw [unread, List.drop_append_of_le_length (by rw [List.length_drop]; omega), List.drop_drop]
  have hbound : count ≤ (unread pp buffer shared (payload :: rest)).length := by
    rw [unread, List.length_append, List.length_drop]
    omega
  by_cases hsame : shared = true ∧ pp = start
  · obtain ⟨h1, h2⟩ := hsame
    subst h1 h2
    simp only [if_true, true_and] at hc htake hdrop ⊢
    exact ⟨htake.symm, hdrop.symm, rfl, fun _ => ⟨rfl, rfl, hc⟩, fun h => absurd h hpos, hbound⟩
  · rw [if_neg hsame]
    refine ⟨?_, ?_, length_bytevectorCopy hc hfit, ?_, fun h => absurd h hpos, hbound⟩
    · rw [htake]
      exact drop_bytevectorCopy hc hfit
    · rw [hdrop]
      cases shared with
      | false => rfl
      | true =>
        have hstart := hs rfl
        simp only [PayloadPort.unread, unread, if_true] at hc ⊢
        rw [bytevectorCopy_behind hc hfit (by omega)]
    · intro h
      subst h
      exact ⟨rfl, rfl, hc⟩

theorem readPayloads_delivers (hn : 0 < n) (hfit : start + n ≤ buffer.length)
    (hs : shared = true → start ≤ pp) (hp : shared = true → pp ≤ buffer.length) :
    Delivers pp start shared (unread pp buffer shared payloads) buffer.length
      (readPayloads pp start n buffer shared payloads).1 (readPayloads pp start n buffer shared payloads).2 := by
  induction payloads generalizing pp shared with
  | nil => exact ⟨by simp [readPayloads], rfl, rfl, fun h => ⟨h, rfl, hp h⟩, fun _ => rfl, Nat.le_refl 0⟩
  | cons payload rest ih =>
    rw [readPayloads]
    dsimp only
    by_cases hzero : min ((if shared then buffer else payload).length - pp) n = 0
    · rw [if_pos hzero]
      -- the first payload is read to its end
      have hend : (if shared then buffer else payload).drop pp = [] := List.drop_of_length_le (by omega)
      have hrest := @ih 0 false (fun h => (by cases h)) (fun h => (by cases h))
      rw [unread, hend, List.nil_append]
      rw [unread_start] at hrest
      exact ⟨hrest.delivered, hrest.left, hrest.length, fun h => (by cases (hrest.place h).1), hrest.done, hrest.bound⟩
    · rw [if_neg hzero]
      exact read_first payload rest (by omega) hs (by omega) hzero

theorem readAll_eq (hb : 0 < p.buffer.length) (hs : p.shared = true → p.pp = got ∧ got ≤ p.buffer.length)
    (hf : p.unread.length < fuel) : readAll r fuel got p = p.unread := by
  induction fuel generalizing got p with
  | zero => omega
  | succ fuel ih =>
    have hkept := r.kept p.buffer.length got
    have hd : Delivers p.pp (r.start p.buffer.length got) p.shared p.unread p.buffer.length
        (p.read (r.start p.buffer.length got) (r.count p.buffer.length got)).1
        (p.read (r.start p.buffer.length got) (r.count p.buffer.length got)).2 := by
      refine readPayloads_delivers (r.some _ _ hb) (r.fits _ _ hb) ?_ ?_
      · intro h
        rw [(hs h).1]
        exact hkept
      · intro h
        rw [(hs h).1]
        exact (hs h).2
    rw [readAll]
    generalize p.read (r.start p.buffer.length got) (r.count p.buffer.length got) = result at hd ⊢
    obtain ⟨count, q⟩ := result
    dsimp only at hd ⊢
    split
    · rename_i hzero
      rw [hd.done hzero]
    · rename_i hpos
      have hplace : q.shared = true → q.pp = got + count ∧ got + count ≤ q.buffer.length := by
        intro h
        obtain ⟨h1, h2, h3⟩ := hd.place h
        rw [h2, (hs h1).1] at h3
        rw [h2, (hs h1).1, hd.length]
        exact ⟨rfl, h3⟩
      have hshort : q.unread.length < fuel := by
        have hcount := hd.bound
        rw [hd.left, List.length_drop]
        omega
      rw [ih (by rw [hd.length]; exact hb) hplace hshort, hd.delivered, hd.left, List.take_append_drop]

/-- extract gives the bytes of its payloads, one payload after the other. -/
theorem extract_eq (r : Requests) (type : Kind) (payloads : List (List UInt8)) :
    extract r type payloads = payloads.flatten := by
  have hport : (extractPort r type payloads).unread = payloads.flatten ∧
      0 < (extractPort r type payloads).buffer.length ∧ (extractPort r type payloads).pp = 0 := by
    unfold extractPort
    split
    · split
      · rename_i hsize
        exact ⟨rfl, Nat.lt_of_lt_of_le (by decide) hsize, rfl⟩
      · exact ⟨unread_start _ _, by rw [List.length_replicate]; decide, rfl⟩
    · exact ⟨unread_start _ _, by rw [List.length_replicate]; exact r.bufferSize_pos, rfl⟩
  obtain ⟨h1, h2, h3⟩ := hport
  rw [extract, readAll_eq h2 (fun _ => ⟨h3, Nat.zero_le _⟩) (by rw [h1]; omega), h1]

end Swish.WebSocket
