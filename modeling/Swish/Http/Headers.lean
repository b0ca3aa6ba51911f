import Swish.Http.Utf8
import Swish.Lib.Assoc

/-!
http:write-header, and http:read-header on what it writes. A line of the text may end
with CR LF, with LF, or with a CR that no LF follows.
-/

set_option autoImplicit false

namespace Swish.Http

/-- The text of ~a: ~a. -/
def headerLine (kv : List Char × List Char) : List Char := kv.1 ++ ':' :: ' ' :: kv.2

def headerText (header : Object) : List Char :=
  header.flatMap (fun kv => headerLine kv ++ ['\r', '\n']) ++ ['\r', '\n']

/-- The bytes that http:write-header writes. -/
def writeHeader (header : Object) : List UInt8 := utf8 (headerText header)

/-- The line at the start of the text, and the text after it if the line is not the last one. -/
def firstLine : List Char → List Char × Option (List Char)
  | [] => ([], none)
  | c :: s =>
    if c = '\n' then ([], some s)
    else if c = '\r' then ([], some (if s.head? = some '\n' then s.tail else s))
    else (c :: (firstLine s).1, (firstLine s).2)

theorem firstLine_shorter {s s' : List Char} (h : (firstLine s).2 = some s') : s'.length < s.length := by
  induction s with
  | nil => cases h
  | cons c s ih =>
    unfold firstLine at h
    split at h
    · cases h
      exact Nat.lt_succ_self _
    · split at h
      · cases h
        split
        · rw [List.length_tail, List.length_cons]
          omega
        · exact Nat.lt_succ_self _
      · exact Nat.lt_succ_of_lt (ih h)

def splitLines (s : List Char) : List (List Char) :=
  match _h : (firstLine s).2 with
  | none => [(firstLine s).1]
  | some s' => (firstLine s).1 :: splitLines s'
termination_by s.length
decreasing_by exact firstLine_shorter _h

def beforeColon (line : List Char) : List Char := line.takeWhile (· ≠ ':')

/-- The values of the header for a key, joined by commas in order. -/
def joinedValues (t : Text) (header : Object) (key : List Char) : Option (List Char) :=
  match header.filter fun kv => t.downcase kv.1 = key with
  | [] => none
  | kv :: kvs => some (List.intercalate [','] ((kv :: kvs).map Prod.snd))

/-- What ends a line before the bytes rest. -/
def LineEnd (sep rest : List UInt8) : Prop :=
  sep = [newline] ∨ sep = [carriageReturn, newline] ∨ sep = [carriageReturn] ∧ rest.head? ≠ some newline

def Unbroken (s : List Char) : Prop := '\n' ∉ s ∧ '\r' ∉ s

theorem not_mem_utf8 {c : Char} (hc : c.toNat < 128) {s : List Char} (h : c ∉ s) : UInt8.ofNat c.toNat ∉ utf8 s := by
  intro hmem
  have hn : (UInt8.ofNat c.toNat).toNat = c.toNat := by
    rw [UInt8.toNat_ofNat']
    omega
  obtain ⟨c', hc', heq⟩ := mem_utf8 (by omega) hmem
  rw [hn] at heq
  exact h (Char.toNat_inj.mp heq ▸ hc')

theorem Unbroken.bytes {s : List Char} (h : Unbroken s) : newline ∉ utf8 s ∧ carriageReturn ∉ utf8 s :=
  ⟨not_mem_utf8 (c := '\n') (by decide) h.1, not_mem_utf8 (c := '\r') (by decide) h.2⟩

theorem readLineLoop_line {line sep rest : List UInt8} (hline : newline ∉ line ∧ carriageReturn ∉ line)
    (hsep : LineEnd sep rest) {limit : Int} {n : Nat} (hlimit : ((n + line.length : Nat) : Int) ≤ limit) :
    readLineLoop limit n (line ++ sep ++ rest) = .ok (line, rest) := by
  induction line generalizing n with
  | nil =>
    have hn : ¬ limit < (n : Int) := by simpa using hlimit
    have hcr : ¬ carriageReturn = newline := by decide
    obtain rfl | rfl | ⟨rfl, hrest⟩ := hsep
    · simp only [List.nil_append, List.singleton_append, readLineLoop, hn, if_false, if_true]
    · simp only [List.nil_append, List.cons_append, readLineLoop, hn, hcr, if_false, if_true, skipNewline]
    · simp only [List.nil_append, List.singleton_append, readLineLoop, hn, hcr, if_false, if_true]
      cases rest with
      | nil => rfl
      | cons b rest =>
        have hb : ¬ b = newline := fun h => hrest (by rw [h]; rfl)
        simp only [skipNewline, hb, if_false]
  | cons b line ih =>
    have hn : ¬ limit < (n : Int) := by
      rw [List.length_cons] at hlimit
      omega
    have hnl : ¬ b = newline := fun h => hline.1 (by simp [h])
    have hcr : ¬ b = carriageReturn := fun h => hline.2 (by simp [h])
    have htail : newline ∉ line ∧ carriageReturn ∉ line :=
      ⟨fun h => hline.1 (by simp [h]), fun h => hline.2 (by simp [h])⟩
    have := ih (n := n + 1) htail (by rw [List.length_cons] at hlimit; omega)
    simp only [List.cons_append, readLineLoop, hn, hnl, hcr, if_false, this]
    rfl

theorem LineEnd.ne_nil {sep rest : List UInt8} (h : LineEnd sep rest) : sep ≠ [] := by
  obtain rfl | rfl | ⟨rfl, -⟩ := h
  · simp
  · simp
  · simp

theorem readLine_line {line sep rest : List UInt8} (hline : newline ∉ line ∧ carriageReturn ∉ line)
    (hsep : LineEnd sep rest) {limit : Int} (hlimit : (line.length : Int) ≤ limit) (pos : Nat) :
    readLine limit ⟨pos, line ++ sep ++ rest⟩ = .ok (some line, ⟨pos + (line.length + sep.length), rest⟩) := by
  have hloop := readLineLoop_line (n := 0) hline hsep (by simpa using hlimit)
  have hne : line ++ sep ++ rest ≠ [] := by simp [hsep.ne_nil]
  have hport : InPort.leaving ⟨pos, line ++ sep ++ rest⟩ rest = ⟨pos + (line.length + sep.length), rest⟩ := by
    have : (line ++ sep ++ rest).length - rest.length = line.length + sep.length := by
      simp only [List.length_append]
      omega
    simp only [InPort.leaving, this]
  unfold readLine
  simp only
  split
  · rename_i h
    exact absurd h hne
  · rw [hloop, ← hport]
    rfl

theorem bvMatchPositions_colon {name : List UInt8} (h : 58 ∉ name) (rest : List UInt8) (e : Nat) :
    bvMatchPositions 58 e 1 (name ++ 58 :: rest) = [e + name.length] := by
  induction name generalizing e with
  | nil =>
    cases rest with
    | nil => rfl
    | cons b rest => rfl
  | cons b name ih =>
    have hb : ¬ b = 58 := fun heq => h (by simp [heq])
    have := ih (fun hmem => h (by simp [hmem])) (e + 1)
    simp only [List.cons_append, bvMatchPositions, Nat.one_ne_zero, if_false, hb, this, List.length_cons]
    congr 1
    omega

theorem bvMatchPositions_none {line : List UInt8} (h : 58 ∉ line) (e : Nat) : bvMatchPositions 58 e 1 line = [] := by
  induction line generalizing e with
  | nil => rfl
  | cons b line ih =>
    have hb : ¬ b = 58 := fun heq => h (by simp [heq])
    have := ih (fun hmem => h (by simp [hmem])) (e + 1)
    simp only [bvMatchPositions, Nat.one_ne_zero, if_false, hb, this]

/-- The bytes of the value in a line. -/
def skipLws (bytes : List UInt8) : List UInt8 := bytes.dropWhile fun c => c = 32 ∨ c = 9

theorem bvExtract_value (name rest : List UInt8) :
    bvExtract (name ++ 58 :: rest) (bvNextNonLws (name ++ 58 :: rest) (name.length + 1)) (name ++ 58 :: rest).length =
      skipLws rest := by
  have hdrop : (name ++ 58 :: rest).drop (name.length + 1) = rest := by
    rw [← List.drop_drop, List.drop_left, List.drop_one, List.tail_cons]
  have hskip : ∀ l : List UInt8, l.drop (l.takeWhile fun c => c = 32 ∨ c = 9).length = skipLws l := by
    intro l
    have h := @List.drop_left _ (l.takeWhile fun c => c = 32 ∨ c = 9) (l.dropWhile fun c => c = 32 ∨ c = 9)
    rw [List.takeWhile_append_dropWhile] at h
    exact h
  unfold bvExtract bvNextNonLws
  rw [List.take_length, hdrop, ← List.drop_drop, hdrop]
  exact hskip rest

/-- One line of the header is read. -/
theorem readHeaderLoop_line (t : Text) {name rest sep after : List UInt8} (hname : 58 ∉ name)
    (hline : newline ∉ name ++ 58 :: rest ∧ carriageReturn ∉ name ++ 58 :: rest) (hsep : LineEnd sep after)
    {limit : Int} (hlimit : ((name ++ 58 :: rest).length : Int) ≤ limit) (fuel pos : Nat) (hdr : Object) :
    readHeaderLoop t (fuel + 1) limit hdr ⟨pos, name ++ 58 :: rest ++ sep ++ after⟩ =
      readHeaderLoop t fuel (limit - (name ++ 58 :: rest).length)
        (Object.join hdr (t.downcase (t.decode name)) (t.decode (skipLws rest)))
        ⟨pos + ((name ++ 58 :: rest).length + sep.length), after⟩ := by
  have hne : ¬ name ++ 58 :: rest = [] := by simp
  have hkey : bvExtract (name ++ 58 :: rest) 0 name.length = name := by simp [bvExtract]
  have hvalue := bvExtract_value name rest
  rw [readHeaderLoop, readLine_line hline hsep hlimit]
  have hcolon := bvMatchPositions_colon hname rest 0
  rw [Nat.zero_add] at hcolon
  show (if name ++ 58 :: rest = [] then _ else _) = _
  rw [if_neg hne, hcolon]
  simp only [hkey, hvalue]

theorem readHeaderLoop_colonless (t : Text) {line sep after : List UInt8} (hcolon : 58 ∉ line) (hne : line ≠ [])
    (hline : newline ∉ line ∧ carriageReturn ∉ line) (hsep : LineEnd sep after)
    {limit : Int} (hlimit : (line.length : Int) ≤ limit) (fuel pos : Nat) (hdr : Object) :
    readHeaderLoop t (fuel + 1) limit hdr ⟨pos, line ++ sep ++ after⟩ = .error .invalidHeader := by
  rw [readHeaderLoop, readLine_line hline hsep hlimit]
  show (if line = [] then _ else _) = _
  rw [if_neg hne, bvMatchPositions_none hcolon]

/-- The header ends at a blank line. -/
theorem readHeaderLoop_blank (t : Text) {sep after : List UInt8} (hsep : LineEnd sep after) {limit : Int}
    (hlimit : 0 ≤ limit) (fuel pos : Nat) (hdr : Object) :
    readHeaderLoop t (fuel + 1) limit hdr ⟨pos, sep ++ after⟩ = .ok (hdr, ⟨pos + sep.length, after⟩) := by
  have hline : readLine limit ⟨pos, [] ++ sep ++ after⟩ = .ok (some [], ⟨pos + (0 + sep.length), after⟩) :=
    readLine_line (by simp) hsep (by simpa using hlimit) pos
  rw [List.nil_append, Nat.zero_add] at hline
  rw [readHeaderLoop, hline]
  rfl

theorem utf8_headerLine (kv : List Char × List Char) : utf8 (headerLine kv) = utf8 kv.1 ++ 58 :: 32 :: utf8 kv.2 := by
  unfold headerLine
  rw [utf8_append, utf8_ascii (by decide), utf8_ascii (by decide)]
  rfl

theorem writeHeader_nil : writeHeader [] = [carriageReturn, newline] := by decide

theorem writeHeader_cons (kv : List Char × List Char) (header : Object) :
    writeHeader (kv :: header) = utf8 (headerLine kv) ++ [carriageReturn, newline] ++ writeHeader header := by
  have hend : utf8 ['\r', '\n'] = [carriageReturn, newline] := by decide
  unfold writeHeader headerText
  rw [List.flatMap_cons, List.append_assoc, utf8_append, utf8_append, hend]

theorem lineEnd_crlf (rest : List UInt8) : LineEnd [carriageReturn, newline] rest := Or.inr (Or.inl rfl)

/-- A field that http:write-header puts on one line and http:read-header takes apart again. -/
structure Writable (kv : List Char × List Char) : Prop where
  colon : ':' ∉ kv.1
  name : Unbroken kv.1
  value : Unbroken kv.2
  start : kv.2.head? ≠ some ' ' ∧ kv.2.head? ≠ some '\t'

theorem Writable.unbroken {kv : List Char × List Char} (h : Writable kv) : Unbroken (headerLine kv) := by
  constructor
  · simp [headerLine, h.name.1, h.value.1]
  · simp [headerLine, h.name.2, h.value.2]

theorem skipLws_utf8 {s : List Char} (h : s.head? ≠ some ' ' ∧ s.head? ≠ some '\t') : skipLws (32 :: utf8 s) = utf8 s := by
  have hspace : skipLws (32 :: utf8 s) = skipLws (utf8 s) := rfl
  rw [hspace]
  cases hbytes : utf8 s with
  | nil => rfl
  | cons b bytes =>
    have hhead : (utf8 s).head? = some b := by rw [hbytes]; rfl
    have hb : ¬ (b = 32 ∨ b = 9) := by
      intro hb
      obtain rfl | rfl := hb
      · obtain ⟨c, hc, hval⟩ := head_utf8 hhead (by decide)
        exact h.1 (by rw [hc, Char.toNat_inj.mp (hval.trans (by decide : _ = ' '.toNat))])
      · obtain ⟨c, hc, hval⟩ := head_utf8 hhead (by decide)
        exact h.2 (by rw [hc, Char.toNat_inj.mp (hval.trans (by decide : _ = '\t'.toNat))])
    simp [skipLws, hb]

theorem readHeaderLoop_field (t : Text) (ht : t.Decodes) {kv : List Char × List Char} (hkv : Writable kv)
    {limit : Int} (hlimit : ((utf8 (headerLine kv)).length : Int) ≤ limit) (fuel pos : Nat) (hdr : Object)
    (after : List UInt8) :
    readHeaderLoop t (fuel + 1) limit hdr ⟨pos, utf8 (headerLine kv) ++ [carriageReturn, newline] ++ after⟩ =
      readHeaderLoop t fuel (limit - (utf8 (headerLine kv)).length) (Object.join hdr (t.downcase kv.1) kv.2)
        ⟨pos + ((utf8 (headerLine kv)).length + 2), after⟩ := by
  have hcolon : 58 ∉ utf8 kv.1 := not_mem_utf8 (c := ':') (by decide) hkv.colon
  have hline := hkv.unbroken.bytes
  rw [utf8_headerLine] at hline hlimit ⊢
  rw [readHeaderLoop_line t hcolon hline (lineEnd_crlf after) hlimit, skipLws_utf8 hkv.start, ht, ht]
  rfl

/-- The object that http:read-header makes of the fields. -/
def joinAll (t : Text) (header hdr : Object) : Object :=
  header.foldl (fun hdr kv => Object.join hdr (t.downcase kv.1) kv.2) hdr

theorem readHeaderLoop_written (t : Text) (ht : t.Decodes) (header : Object) (hheader : ∀ kv ∈ header, Writable kv)
    (tail : List UInt8) :
    ∀ (fuel : Nat) (limit : Int) (hdr : Object) (pos : Nat), header.length < fuel →
      ((utf8 (header.flatMap headerLine)).length : Int) ≤ limit →
      readHeaderLoop t fuel limit hdr ⟨pos, writeHeader header ++ tail⟩ =
        .ok (joinAll t header hdr, ⟨pos + (writeHeader header).length, tail⟩) := by
  induction header with
  | nil =>
    intro fuel limit hdr pos hfuel hlimit
    cases fuel with
    | zero => simp at hfuel
    | succ fuel =>
      rw [writeHeader_nil, readHeaderLoop_blank t (lineEnd_crlf tail) hlimit]
      rfl
  | cons kv header ih =>
    intro fuel limit hdr pos hfuel hlimit
    rw [List.flatMap_cons, utf8_append, List.length_append] at hlimit
    cases fuel with
    | zero => simp at hfuel
    | succ fuel =>
      rw [writeHeader_cons, List.append_assoc _ (writeHeader header),
        readHeaderLoop_field t ht (hheader kv (by simp)) (by omega),
        ih (fun kv hkv => hheader kv (by simp [hkv])) fuel _ _ _ (Nat.lt_of_succ_lt_succ hfuel) (by omega)]
      have hpos : pos + ((utf8 (headerLine kv)).length + 2) + (writeHeader header).length =
          pos + (utf8 (headerLine kv) ++ [carriageReturn, newline] ++ writeHeader header).length := by
        simp only [List.length_append, List.length_cons, List.length_nil]
        omega
      rw [hpos]
      rfl

/-- What json:update! makes of the old value. -/
def joinValue (old : Option (List Char)) (value : List Char) : Option (List Char) :=
  some (old.elim value (· ++ ',' :: value))

theorem Object.join_eq (o : Object) (key value : List Char) :
    Object.join o key value = Assoc.set o key ((Assoc.find o key).elim value (· ++ ',' :: value)) := by
  have hfind : Object.find o key = Assoc.find o key := rfl
  unfold Object.join
  rw [hfind]
  cases Assoc.find o key with
  | none => rfl
  | some old => rfl

theorem Object.find_join (o : Object) (key value k : List Char) :
    Assoc.find (Object.join o key value) k = if key = k then joinValue (Assoc.find o key) value else Assoc.find o k := by
  rw [Object.join_eq, Assoc.find_set]
  rfl

theorem find_joinAll (t : Text) (header hdr : Object) (key : List Char) :
    Assoc.find (joinAll t header hdr) key =
      ((header.filter fun kv => t.downcase kv.1 = key).map Prod.snd).foldl joinValue (Assoc.find hdr key) := by
  induction header generalizing hdr with
  | nil => rfl
  | cons kv header ih =>
    have hstep : joinAll t (kv :: header) hdr = joinAll t header (Object.join hdr (t.downcase kv.1) kv.2) := rfl
    rw [hstep, ih, Object.find_join]
    by_cases h : t.downcase kv.1 = key
    · rw [if_pos h, h, List.filter_cons_of_pos (by simpa using h)]
      rfl
    · rw [if_neg h, List.filter_cons_of_neg (by simpa using h)]

theorem foldl_joinValue (value : List Char) (values : List (List Char)) :
    values.foldl joinValue (some value) = some (List.intercalate [','] (value :: values)) := by
  induction values generalizing value with
  | nil => simp [List.intercalate]
  | cons v values ih =>
    have hstep : joinValue (some value) v = some (value ++ ',' :: v) := rfl
    rw [List.foldl_cons, hstep, ih]
    cases values with
    | nil => simp [List.intercalate]
    | cons w values => simp [List.intercalate]

theorem joinedValues_eq (t : Text) (header : Object) (key : List Char) :
    ((header.filter fun kv => t.downcase kv.1 = key).map Prod.snd).foldl joinValue none = joinedValues t header key := by
  unfold joinedValues
  cases header.filter fun kv => t.downcase kv.1 = key with
  | nil => rfl
  | cons kv kvs => exact foldl_joinValue kv.2 (kvs.map Prod.snd)

theorem nodup_joinAll (t : Text) (header : Object) {hdr : Object} (h : (hdr.map Prod.fst).Nodup) :
    ((joinAll t header hdr).map Prod.fst).Nodup := by
  induction header generalizing hdr with
  | nil => exact h
  | cons kv header ih =>
    have hjoin : ((Object.join hdr (t.downcase kv.1) kv.2).map Prod.fst).Nodup := by
      rw [Object.join_eq]
      exact Assoc.nodup_set h _ _
    exact ih hjoin

theorem length_le_writeHeader (header : Object) : header.length < (writeHeader header).length := by
  induction header with
  | nil => decide
  | cons kv header ih =>
    rw [writeHeader_cons]
    simp only [List.length_append, List.length_cons, List.length_nil]
    omega

theorem lines_le_writeHeader (header : Object) :
    (utf8 (header.flatMap headerLine)).length ≤ (writeHeader header).length := by
  induction header with
  | nil => exact Nat.zero_le _
  | cons kv header ih =>
    rw [writeHeader_cons, List.flatMap_cons, utf8_append]
    simp only [List.length_append]
    omega

/-- A field whose name no other field has. -/
theorem joinedValues_single (t : Text) {name value key : List Char} {header : Object} (hname : t.downcase name = key)
    (hother : ∀ kv ∈ header, t.downcase kv.1 ≠ key) : joinedValues t ((name, value) :: header) key = some value := by
  have hfilter : ((name, value) :: header).filter (fun kv => t.downcase kv.1 = key) = [(name, value)] := by
    rw [List.filter_cons_of_pos (by simpa using hname), List.filter_eq_nil_iff.mpr]
    intro kv hkv
    simpa using hother kv hkv
  unfold joinedValues
  rw [hfilter]
  simp [List.intercalate]

theorem readHeader_written (t : Text) (ht : t.Decodes) {header : Object} (hheader : ∀ kv ∈ header, Writable kv)
    {limit : Int} (hlimit : ((utf8 (header.flatMap headerLine)).length : Int) ≤ limit) (pos : Nat) (tail : List UInt8) :
    readHeader t limit ⟨pos, writeHeader header ++ tail⟩ =
      .ok (joinAll t header [], ⟨pos + (writeHeader header).length, tail⟩) := by
  have hfuel : header.length < (writeHeader header ++ tail).length + 1 := by
    have := length_le_writeHeader header
    rw [List.length_append]
    omega
  exact readHeaderLoop_written t ht header hheader tail _ limit [] pos hfuel hlimit

theorem find_read (t : Text) (header : Object) (key : List Char) :
    Object.find (joinAll t header []) key = joinedValues t header key := by
  rw [← joinedValues_eq]
  exact find_joinAll t header [] key

/-- A header that was written is read back, up to its end. -/
theorem read_header_of_written (t : Text) (ht : t.Decodes) (header : Object)
    (hheader : ∀ kv ∈ header, ':' ∉ kv.1 ∧ Unbroken kv.1 ∧ Unbroken kv.2 ∧
      kv.2.head? ≠ some ' ' ∧ kv.2.head? ≠ some '\t')
    (limit : Int) (hlimit : ((utf8 (header.flatMap headerLine)).length : Int) ≤ limit) (pos : Nat) (tail : List UInt8) :
    ∃ hdr, readHeader t limit ⟨pos, writeHeader header ++ tail⟩ =
        .ok (hdr, ⟨pos + (writeHeader header).length, tail⟩) ∧
      (hdr.map Prod.fst).Nodup ∧ ∀ key, Object.find hdr key = joinedValues t header key := by
  have hwritable : ∀ kv ∈ header, Writable kv := by
    intro kv hkv
    obtain ⟨h1, h2, h3, h4⟩ := hheader kv hkv
    exact ⟨h1, h2, h3, h4⟩
  exact ⟨joinAll t header [], readHeader_written t ht hwritable hlimit pos tail,
    nodup_joinAll t header List.nodup_nil, find_read t header⟩

theorem read_header_of_written_twice :
    leanText.Decodes ∧ ∃ hdr, readHeader leanText 12 ⟨0, writeHeader [(['K'], ['a']), (['k'], [])]⟩ =
        .ok (hdr, ⟨13, []⟩) ∧ (hdr.map Prod.fst).Nodup ∧
      ∀ key, Object.find hdr key = joinedValues leanText [(['K'], ['a']), (['k'], [])] key :=
  ⟨leanText_decodes,
    read_header_of_written leanText leanText_decodes [(['K'], ['a']), (['k'], [])] (by unfold Unbroken; decide) 12
      (by decide) 0 []⟩

/-- Every line of the text has a colon, and before it a name that stands for one of the keys. -/
def LinesNamed (t : Text) (keys : List (List Char)) (s : List Char) : Prop :=
  ∀ line ∈ splitLines s, ':' ∈ line ∧ t.downcase (beforeColon line) ∈ keys

theorem firstLine_last {s : List Char} (h : (firstLine s).2 = none) : (firstLine s).1 = s ∧ Unbroken s := by
  induction s with
  | nil => exact ⟨rfl, by simp [Unbroken]⟩
  | cons c s ih =>
    unfold firstLine at h ⊢
    by_cases hnl : c = '\n'
    · simp [hnl] at h
    · by_cases hcr : c = '\r'
      · simp [hcr] at h
      · simp only [hnl, hcr, if_false] at h ⊢
        obtain ⟨h1, h2, h3⟩ := ih h
        refine ⟨by rw [h1], ?_, ?_⟩
        · simp [Ne.symm hnl, h2]
        · simp [Ne.symm hcr, h3]

/-- The bytes of the first line, of its end and of what comes after it. -/
theorem firstLine_more {s s' : List Char} (h : (firstLine s).2 = some s') (rest : List UInt8) :
    Unbroken (firstLine s).1 ∧ ∃ sep, LineEnd sep (utf8 s' ++ carriageReturn :: rest) ∧
      utf8 s = utf8 (firstLine s).1 ++ sep ++ utf8 s' := by
  induction s with
  | nil => cases h
  | cons c s ih =>
    have hempty : Unbroken [] := by simp [Unbroken]
    unfold firstLine at h ⊢
    by_cases hnl : c = '\n'
    · subst hnl
      simp only [if_true, Option.some.injEq] at h ⊢
      subst h
      exact ⟨hempty, [newline], Or.inl rfl, utf8_ascii (by decide) s⟩
    · by_cases hcr : c = '\r'
      · subst hcr
        simp only [hnl, if_true, if_false, Option.some.injEq] at h ⊢
        refine ⟨hempty, ?_⟩
        by_cases hlf : s.head? = some '\n'
        · rw [if_pos hlf] at h
          cases s with
          | nil => cases hlf
          | cons d s =>
            cases hlf
            subst h
            refine ⟨[carriageReturn, newline], lineEnd_crlf _, ?_⟩
            rw [utf8_ascii (by decide), utf8_ascii (by decide)]
            rfl
        · rw [if_neg hlf] at h
          subst h
          refine ⟨[carriageReturn], Or.inr (Or.inr ⟨rfl, fun hhead => hlf ?_⟩), utf8_ascii (by decide) s⟩
          cases hs : utf8 s with
          | nil =>
            rw [hs] at hhead
            exact absurd (Option.some.inj hhead) (by decide)
          | cons b bytes =>
            have hb : (utf8 s).head? = some newline := by
              rw [hs] at hhead ⊢
              exact hhead
            obtain ⟨d, hd, hval⟩ := head_utf8 hb (by decide)
            rw [hd, show d = '\n' from Char.toNat_inj.mp hval]
      · simp only [hnl, hcr, if_false] at h ⊢
        obtain ⟨⟨h1, h2⟩, sep, h3, h4⟩ := ih h
        refine ⟨⟨by simp [Ne.symm hnl, h1], by simp [Ne.symm hcr, h2]⟩, sep, h3, ?_⟩
        rw [utf8_cons, utf8_cons, h4]
        simp only [List.append_assoc]

theorem splitLines_last {s : List Char} (h : (firstLine s).2 = none) : splitLines s = [(firstLine s).1] := by
  unfold splitLines
  split
  · rfl
  · rename_i s' hs'
    rw [h] at hs'
    cases hs'

theorem splitLines_more {s s' : List Char} (h : (firstLine s).2 = some s') :
    splitLines s = (firstLine s).1 :: splitLines s' := by
  rw [splitLines]
  split
  · rename_i hs'
    rw [h] at hs'
    cases hs'
  · rename_i s'' hs''
    rw [h] at hs''
    cases hs''
    rfl

def KeysIn (keys : List (List Char)) (hdr : Object) : Prop := ∀ kv ∈ hdr, kv.1 ∈ keys

theorem keysIn_join {keys : List (List Char)} {hdr : Object} {key value : List Char} :
    KeysIn keys (Object.join hdr key value) ↔ key ∈ keys ∧ KeysIn keys hdr := by
  rw [Object.join_eq]
  unfold KeysIn
  simp only [Assoc.mem_set]
  constructor
  · intro h
    have hkey := h (key, _) (Or.inr rfl)
    refine ⟨hkey, fun kv hkv => ?_⟩
    by_cases hk : kv.1 = key
    · rw [hk]
      exact hkey
    · exact h kv (Or.inl ⟨hkv, hk⟩)
  · intro h kv hkv
    obtain ⟨hkv, -⟩ | rfl := hkv
    · exact h.2 kv hkv
    · exact h.1

theorem beforeColon_split {line : List Char} (h : ':' ∈ line) :
    ∃ value, line = beforeColon line ++ ':' :: value ∧ ':' ∉ beforeColon line := by
  induction line with
  | nil => cases h
  | cons c line ih =>
    unfold beforeColon
    by_cases hc : c = ':'
    · subst hc
      exact ⟨line, rfl, by simp⟩
    · obtain ⟨value, h1, h2⟩ := ih (by simpa [Ne.symm hc] using h)
      unfold beforeColon at h1 h2
      rw [List.takeWhile_cons_of_pos (by simpa using hc)]
      refine ⟨value, ?_, by simpa [Ne.symm hc] using h2⟩
      rw [List.cons_append, ← h1]

theorem readHeaderLoop_named (t : Text) (ht : t.Decodes) {line : List Char} (hline : Unbroken line) (hcolon : ':' ∈ line)
    {sep after : List UInt8} (hsep : LineEnd sep after) :
    ∃ value, ∀ (limit : Int) (fuel pos : Nat) (hdr : Object), ((utf8 line).length : Int) ≤ limit →
      readHeaderLoop t (fuel + 1) limit hdr ⟨pos, utf8 line ++ sep ++ after⟩ =
        readHeaderLoop t fuel (limit - (utf8 line).length) (Object.join hdr (t.downcase (beforeColon line)) value)
          ⟨pos + ((utf8 line).length + sep.length), after⟩ := by
  obtain ⟨value, hsplit, hname⟩ := beforeColon_split hcolon
  have hbytes : utf8 line = utf8 (beforeColon line) ++ 58 :: utf8 value := by
    nth_rewrite 1 [hsplit]
    rw [utf8_append, utf8_ascii (by decide)]
    rfl
  have hname' : 58 ∉ utf8 (beforeColon line) := not_mem_utf8 (c := ':') (by decide) hname
  have hunbroken := hline.bytes
  refine ⟨t.decode (skipLws (utf8 value)), fun limit fuel pos hdr hlimit => ?_⟩
  rw [hbytes] at hunbroken hlimit ⊢
  have := readHeaderLoop_line t hname' hunbroken hsep hlimit fuel pos hdr
  rwa [ht] at this

section

variable {t : Text} {keys : List (List Char)} {tail : List UInt8}

/-- The loop reads the bytes up to tail, whatever it has read before, and has only these keys. -/
def ReadsSafely (t : Text) (keys : List (List Char)) (tail bytes : List UInt8) : Prop :=
  ∀ (fuel : Nat) (limit : Int) (hdr : Object) (pos : Nat), bytes.length < fuel → (bytes.length : Int) ≤ limit →
    KeysIn keys hdr →
    ∃ o, readHeaderLoop t fuel limit hdr ⟨pos, bytes ++ tail⟩ = .ok (o, ⟨pos + bytes.length, tail⟩) ∧ KeysIn keys o

/-- The loop comes to tail in some run over the bytes, and has only these keys. -/
def ComesTo (t : Text) (keys : List (List Char)) (tail bytes : List UInt8) : Prop :=
  ∃ (fuel : Nat) (limit : Int) (hdr : Object) (pos pos' : Nat) (o : Object), (bytes.length : Int) ≤ limit ∧
    readHeaderLoop t fuel limit hdr ⟨pos, bytes ++ tail⟩ = .ok (o, ⟨pos', tail⟩) ∧ KeysIn keys o

theorem readsSafely_line (ht : t.Decodes) {line : List Char} (hline : Unbroken line) (hcolon : ':' ∈ line)
    (hkey : t.downcase (beforeColon line) ∈ keys) {sep bytes : List UInt8} (hsep : LineEnd sep (bytes ++ tail))
    (h : ReadsSafely t keys tail bytes) : ReadsSafely t keys tail (utf8 line ++ sep ++ bytes) := by
  intro fuel limit hdr pos hfuel hlimit hhdr
  have hlen : (utf8 line ++ sep ++ bytes).length = (utf8 line).length + sep.length + bytes.length := by
    simp only [List.length_append]
  have hpos : 0 < sep.length := List.length_pos_iff.mpr hsep.ne_nil
  rw [hlen] at hfuel hlimit
  obtain ⟨value, hread⟩ := readHeaderLoop_named t ht hline hcolon hsep
  obtain ⟨fuel, rfl⟩ : ∃ n, fuel = n + 1 := ⟨fuel - 1, by omega⟩
  obtain ⟨o, ho, hkeys⟩ := h fuel (limit - (utf8 line).length)
    (Object.join hdr (t.downcase (beforeColon line)) value) (pos + ((utf8 line).length + sep.length)) (by omega)
    (by omega) (keysIn_join.mpr ⟨hkey, hhdr⟩)
  refine ⟨o, ?_, hkeys⟩
  rw [List.append_assoc _ bytes, hread limit fuel pos hdr (by omega), ho, hlen]
  simp only [Nat.add_assoc]

/-- No key is lost. -/
theorem keysIn_of_read {fuel : Nat} {limit : Int} {hdr o : Object} {ip ip' : InPort}
    (h : readHeaderLoop t fuel limit hdr ip = .ok (o, ip')) (ho : KeysIn keys o) : KeysIn keys hdr := by
  induction fuel generalizing limit hdr ip with
  | zero => cases h
  | succ fuel ih =>
    rw [readHeaderLoop] at h
    cases hline : readLine limit ip with
    | error e =>
      rw [hline] at h
      cases h
    | ok r =>
      obtain ⟨line, ip₁⟩ := r
      rw [hline] at h
      cases line with
      | none => cases h
      | some line =>
        change (if line = [] then _ else _) = _ at h
        split at h
        · cases h
          exact ho
        · split at h
          · exact (keysIn_join.mp (ih h)).2
          · cases h

theorem comesTo_line (ht : t.Decodes) {line : List Char} (hline : Unbroken line) {sep bytes : List UInt8}
    (hsep : LineEnd sep (bytes ++ tail)) (hbytes : bytes ≠ [])
    (h : ComesTo t keys tail (utf8 line ++ sep ++ bytes)) :
    (':' ∈ line ∧ t.downcase (beforeColon line) ∈ keys) ∧ ComesTo t keys tail bytes := by
  obtain ⟨fuel, limit, hdr, pos, pos', o, hlimit, hread, ho⟩ := h
  simp only [List.length_append] at hlimit
  cases fuel with
  | zero => cases hread
  | succ fuel =>
    rw [List.append_assoc _ bytes] at hread
    by_cases hcolon : ':' ∈ line
    · obtain ⟨value, hnext⟩ := readHeaderLoop_named t ht hline hcolon hsep
      rw [hnext limit fuel pos hdr (by omega)] at hread
      exact ⟨⟨hcolon, (keysIn_join.mp (keysIn_of_read hread ho)).1⟩,
        fuel, _, _, _, pos', o, by omega, hread, ho⟩
    · exfalso
      have hcolon' : 58 ∉ utf8 line := not_mem_utf8 (c := ':') (by decide) hcolon
      by_cases hempty : line = []
      · -- a blank line, with bytes after it
        subst hempty
        rw [utf8_nil, List.nil_append, readHeaderLoop_blank t hsep (by omega)] at hread
        have hrest : bytes ++ tail = tail := congrArg (fun r => r.rest) (Prod.mk.inj (Except.ok.inj hread)).2
        exact hbytes (List.append_left_eq_self.mp hrest)
      · have hne : utf8 line ≠ [] := fun h => hempty (utf8_eq_nil h)
        rw [readHeaderLoop_colonless t hcolon' hne hline.bytes hsep (by omega)] at hread
        cases hread

theorem writeHeader_starts (header : Object) : writeHeader header ≠ [] := by
  intro h
  have := length_le_writeHeader header
  rw [h] at this
  exact absurd this (Nat.not_lt_zero _)

theorem text_append (s : List Char) (bytes tail : List UInt8) :
    utf8 s ++ [carriageReturn, newline] ++ bytes ++ tail = utf8 s ++ carriageReturn :: (newline :: (bytes ++ tail)) := by
  simp only [List.append_assoc, List.cons_append, List.nil_append]

theorem readsSafely_text (ht : t.Decodes) {bytes : List UInt8} (h : ReadsSafely t keys tail bytes) (s : List Char)
    (hs : LinesNamed t keys s) : ReadsSafely t keys tail (utf8 s ++ [carriageReturn, newline] ++ bytes) := by
  induction s using splitLines.induct with
  | case1 s hlast =>
    obtain ⟨heq, hunbroken⟩ := firstLine_last hlast
    have := hs (firstLine s).1 (by rw [splitLines_last hlast]; exact List.mem_singleton_self _)
    rw [heq] at this
    exact readsSafely_line ht hunbroken this.1 this.2 (lineEnd_crlf _) h
  | case2 s s' hmore ih =>
    obtain ⟨hunbroken, sep, hsep, hbytes⟩ := firstLine_more hmore (newline :: (bytes ++ tail))
    rw [← text_append] at hsep
    have hline := hs (firstLine s).1 (by rw [splitLines_more hmore]; exact List.mem_cons_self)
    have hrest := ih fun line hmem => hs line (by rw [splitLines_more hmore]; exact List.mem_cons_of_mem _ hmem)
    have := readsSafely_line ht hunbroken hline.1 hline.2 hsep hrest
    rw [hbytes]
    simpa only [List.append_assoc] using this

theorem comesTo_text (ht : t.Decodes) {bytes : List UInt8} (hbytes : bytes ≠ []) (s : List Char)
    (h : ComesTo t keys tail (utf8 s ++ [carriageReturn, newline] ++ bytes)) :
    LinesNamed t keys s ∧ ComesTo t keys tail bytes := by
  induction s using splitLines.induct with
  | case1 s hlast =>
    obtain ⟨heq, hunbroken⟩ := firstLine_last hlast
    obtain ⟨hgood, hrest⟩ := comesTo_line ht hunbroken (lineEnd_crlf _) hbytes h
    refine ⟨fun line hline => ?_, hrest⟩
    rw [splitLines_last hlast, heq, List.mem_singleton] at hline
    rw [hline]
    exact hgood
  | case2 s s' hmore ih =>
    obtain ⟨hunbroken, sep, hsep, heq⟩ := firstLine_more hmore (newline :: (bytes ++ tail))
    rw [← text_append] at hsep
    rw [heq] at h
    have h' : ComesTo t keys tail (utf8 (firstLine s).1 ++ sep ++ (utf8 s' ++ [carriageReturn, newline] ++ bytes)) := by
      simpa only [List.append_assoc] using h
    obtain ⟨hgood, hrest⟩ := comesTo_line ht hunbroken hsep (by simp) h'
    obtain ⟨hlines, hbytes⟩ := ih hrest
    refine ⟨fun line hline => ?_, hbytes⟩
    rw [splitLines_more hmore, List.mem_cons] at hline
    obtain rfl | hline := hline
    · exact hgood
    · exact hlines line hline

theorem readsSafely_writeHeader (ht : t.Decodes) (header : Object)
    (h : ∀ kv ∈ header, LinesNamed t keys (headerLine kv)) : ReadsSafely t keys tail (writeHeader header) := by
  induction header with
  | nil =>
    intro fuel limit hdr pos hfuel hlimit hhdr
    cases fuel with
    | zero => cases hfuel
    | succ fuel =>
      rw [writeHeader_nil] at hlimit ⊢
      rw [readHeaderLoop_blank t (lineEnd_crlf tail) (Int.le_trans (by decide) hlimit)]
      exact ⟨hdr, rfl, hhdr⟩
  | cons kv header ih =>
    rw [writeHeader_cons]
    exact readsSafely_text ht (ih fun kv hkv => h kv (by simp [hkv])) _ (h kv (by simp))

theorem comesTo_writeHeader (ht : t.Decodes) (header : Object) (h : ComesTo t keys tail (writeHeader header)) :
    ∀ kv ∈ header, LinesNamed t keys (headerLine kv) := by
  induction header with
  | nil =>
    intro kv hkv
    cases hkv
  | cons kv header ih =>
    rw [writeHeader_cons] at h
    obtain ⟨hkv, hrest⟩ := comesTo_text ht (writeHeader_starts header) _ h
    intro kv' hkv'
    obtain rfl | hkv' := List.mem_cons.mp hkv'
    · exact hkv
    · exact ih hrest kv' hkv'

end

/-- Only the keys of the list are read back exactly when each line that a key or a value
makes begins with one of them. -/
theorem no_header_injection (t : Text) (ht : t.Decodes) (header : Object) :
    (∀ (limit : Int) (pos : Nat) (tail : List UInt8), ((writeHeader header).length : Int) ≤ limit →
      ∃ hdr, readHeader t limit ⟨pos, writeHeader header ++ tail⟩ =
          .ok (hdr, ⟨pos + (writeHeader header).length, tail⟩) ∧
        ∀ kv ∈ hdr, kv.1 ∈ header.map fun kv => t.downcase kv.1) ↔
    ∀ kv ∈ header, ∀ line ∈ splitLines (headerLine kv),
      ':' ∈ line ∧ t.downcase (beforeColon line) ∈ header.map fun kv => t.downcase kv.1 := by
  constructor
  · intro h
    obtain ⟨hdr, hread, hkeys⟩ := h (writeHeader header).length 0 [] (Int.le_refl _)
    exact comesTo_writeHeader ht header ⟨_, _, [], 0, _, hdr, Int.le_refl _, hread, hkeys⟩
  · intro h limit pos tail hlimit
    have hfuel : (writeHeader header).length < (writeHeader header ++ tail).length + 1 := by
      rw [List.length_append]
      omega
    exact readsSafely_writeHeader ht header h _ limit [] pos hfuel hlimit (fun kv hkv => (by cases hkv))

theorem no_header_injection_plain :
    leanText.Decodes ∧ ∃ hdr, readHeader leanText 8 ⟨0, writeHeader [(['K'], ['a'])]⟩ = .ok (hdr, ⟨8, []⟩) ∧
      ∀ kv ∈ hdr, kv.1 ∈ [['k']] := by
  have hlines : splitLines (headerLine (['K'], ['a'])) = [['K', ':', ' ', 'a']] := splitLines_last (by decide)
  refine ⟨leanText_decodes, (no_header_injection leanText leanText_decodes [(['K'], ['a'])]).mpr ?_ 8 0 [] (by decide)⟩
  intro kv hkv
  rw [List.mem_singleton.mp hkv, hlines]
  decide

/-- The value of the field brings another field. -/
theorem header_injected :
    (readHeader leanText 100 ⟨0, writeHeader [("Location".toList, "/a\r\nSet-Cookie: b/".toList)]⟩).map (fun r => r.1) =
      .ok [("location".toList, "/a".toList), ("set-cookie".toList, "b/".toList)] ∧
    "set-cookie".toList ∉ [("Location".toList, "/a\r\nSet-Cookie: b/".toList)].map fun kv => leanText.downcase kv.1 := by
  decide +kernel

end Swish.Http
