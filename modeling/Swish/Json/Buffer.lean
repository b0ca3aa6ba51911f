import Mathlib.Data.List.Induction
import Swish.Json.Tokens
import Swish.Lib.Coupling

/-!
What earlier reads leave in json-buf. Two runs of the reader on the same text, one of
which starts with something in the buffer, take the same steps, and are in the same
state once they have taken a string out of the buffer.
-/

set_option autoImplicit false

namespace Swish.Json

open Swish.Lib

variable {α β : Type} {b : List Char} {φ : Prop} {m : Read α} {f : α → Read β}

/-- The state of the run that started with b in the buffer. -/
def shift (b : List Char) (s : RState) : RState :=
  { s with jsonBuf := (if s.taken = 0 then b else []) ++ s.jsonBuf }

/-- The second run is ahead by b. Until a string is taken, φ is known. -/
def Ahead (b : List Char) (φ : Prop) (s s' : RState) : Prop :=
  s' = shift b s ∧ (s.taken = 0 → φ)

theorem Ahead.imp {ψ : Prop} {s s' : RState} (h : Ahead b φ s s') (hi : φ → ψ) : Ahead b ψ s s' :=
  ⟨h.1, fun h0 => hi (h.2 h0)⟩

/-- A part of the reader that returns the same in both runs. -/
def Steady (m : Read α) : Prop :=
  ∀ b φ, Coupled (Ahead b φ) m m (fun a a' t t' => a = a' ∧ Ahead b φ t t') (Ahead b True)

namespace Steady

theorem bind (h : Steady m) (hf : ∀ a, Steady (f a)) : Steady (m >>= f) := by
  intro b φ
  refine (h b φ).bind fun a a' s s' hs => ?_
  obtain ⟨rfl, hs⟩ := hs
  exact hf a b φ s s' hs

theorem pure (a : α) : Steady (pure a) := fun _ _ => Coupled.pure fun _ _ hs => ⟨rfl, hs⟩

theorem throw (e : ReadError) : Steady (throw e : Read α) :=
  fun _ _ => Coupled.throw e fun _ _ hs => hs.imp fun _ => trivial

theorem ite {c : Prop} [Decidable c] {m' : Read α} (h : Steady m) (h' : Steady m') :
    Steady (if c then m else m') := fun b φ => Coupled.ite Iff.rfl (h b φ) (h' b φ)

end Steady

theorem readChar_steady : Steady readChar := by
  intro b φ s s' hs
  obtain ⟨rest, pos, hp, buf, taken⟩ := s
  obtain ⟨rfl, hφ⟩ := hs
  cases rest with
  | nil => exact ⟨rfl, rfl, hφ⟩
  | cons c rest => exact ⟨rfl, rfl, hφ⟩

theorem unreadChar_steady (c : Option Char) : Steady (unreadChar c) := by
  intro b φ s s' hs
  obtain ⟨rfl, hφ⟩ := hs
  cases c with
  | none => exact ⟨rfl, rfl, hφ⟩
  | some c => exact ⟨rfl, rfl, hφ⟩

theorem unexpectedInput_steady (c : Option Char) : Steady (unexpectedInput c : Read α) := by
  intro b φ s s' hs
  obtain ⟨rfl, hφ⟩ := hs
  cases c with
  | none => exact ⟨rfl, rfl, fun _ => trivial⟩
  | some c => exact ⟨rfl, rfl, fun _ => trivial⟩

theorem nextNonWs_steady : Steady nextNonWs := by
  intro b φ s s' hs
  obtain ⟨rfl, hφ⟩ := hs
  exact ⟨rfl, rfl, hφ⟩

theorem readDigits_steady (mantissa n : Nat) : Steady (readDigits mantissa n) := by
  intro b φ s s' hs
  obtain ⟨rfl, hφ⟩ := hs
  exact ⟨rfl, rfl, hφ⟩

theorem writeBuf_steady (c : Char) : Steady (writeBuf c) := by
  intro b φ s s' hs
  obtain ⟨rfl, hφ⟩ := hs
  refine ⟨rfl, ?_, hφ⟩
  simp [shift]

theorem nextChar_steady : Steady nextChar := by
  refine readChar_steady.bind fun c => ?_
  cases c with
  | none => exact .throw _
  | some c => exact .pure c

theorem hexDigit_steady : Steady hexDigit :=
  nextChar_steady.bind fun _ => .ite (.pure _) (.ite (.pure _) (.ite (.pure _) (unexpectedInput_steady _)))

theorem read4hexdig_steady : Steady read4hexdig :=
  hexDigit_steady.bind fun _ => hexDigit_steady.bind fun _ => hexDigit_steady.bind fun _ =>
    hexDigit_steady.bind fun _ => .pure _

theorem expectChar_steady (c : Char) : Steady (expectChar c) :=
  nextChar_steady.bind fun _ => .ite (.pure _) (unexpectedInput_steady _)

theorem readEscape_steady : Steady readEscape := by
  refine nextChar_steady.bind fun c => ?_
  refine .ite (writeBuf_steady _) ?_
  iterate 5 refine .ite (writeBuf_steady _) ?_
  refine .ite ?_ (unexpectedInput_steady _)
  refine read4hexdig_steady.bind fun x => .ite ?_ (.ite (.throw _) (writeBuf_steady _))
  refine (expectChar_steady _).bind fun _ => (expectChar_steady _).bind fun _ => ?_
  exact read4hexdig_steady.bind fun y => .ite (writeBuf_steady _) (.throw _)

theorem readInt_steady : Steady readInt :=
  (readDigits_steady 0 0).bind fun _ => .ite (unexpectedInput_steady _)
    ((unreadChar_steady _).bind fun _ => .pure _)

theorem readExp_steady (mantissa k : Nat) : Steady (readExp mantissa k) :=
  nextChar_steady.bind fun _ => .ite (readInt_steady.bind fun _ => .pure _)
    (.ite (readInt_steady.bind fun _ => .pure _)
      ((unreadChar_steady _).bind fun _ => readInt_steady.bind fun _ => .pure _))

theorem readUnsigned_steady : Steady readUnsigned := by
  refine (readDigits_steady 0 0).bind fun p => .ite (unexpectedInput_steady _) (.ite ?_ ?_)
  · exact (readDigits_steady _ 0).bind fun _ => .ite (unexpectedInput_steady _)
      (.ite (readExp_steady _ _) ((unreadChar_steady _).bind fun _ => .pure _))
  · exact .ite (readExp_steady _ 0) ((unreadChar_steady _).bind fun _ => .pure _)

/-- Parts of the reader that return the same in both runs, unless a string has
been taken. -/
def Alike (b : List Char) (φ : Prop) (m m' : Read α) : Prop :=
  Coupled (Ahead b φ) m m' (fun a a' => Ahead b (φ ∧ a = a')) (Ahead b True)

namespace Alike

variable {m' : Read α} {f' : α → Read β}

theorem bind (h : Alike b φ m m') (hf : ∀ a a', Alike b (φ ∧ a = a') (f a) (f' a')) :
    Alike b φ (m >>= f) (m' >>= f') :=
  Coupled.bind h fun a a' => (hf a a').imp (fun _ _ hs => hs)
    fun _ _ _ _ ht => ht.imp fun h => ⟨h.1.1, h.2⟩

theorem pure {a a' : α} (h : φ → a = a') : Alike b φ (pure a) (pure a') :=
  Coupled.pure fun _ _ hs => hs.imp fun hφ => ⟨hφ, h hφ⟩

theorem throw (e : ReadError) : Alike b φ (throw e : Read α) (throw e) :=
  Coupled.throw e fun _ _ hs => hs.imp fun _ => trivial

theorem ite {c c' : Prop} [Decidable c] [Decidable c'] {n n' : Read α} (hc : c ↔ c')
    (h : Alike b φ m m') (h' : Alike b φ n n') : Alike b φ (if c then m else n) (if c' then m' else n') :=
  Coupled.ite hc h h'

end Alike

theorem Steady.alike (h : Steady m) : Alike b φ m m :=
  (h b φ).imp (fun _ _ hs => hs) fun _ _ _ _ ht => ht.2.imp fun hφ => ⟨hφ, ht.1⟩

/-- What a steady part returns is the same on both sides. -/
theorem Steady.bindAlike (h : Steady m) {f' : α → Read β} (hf : ∀ a, Alike b φ (f a) (f' a)) :
    Alike b φ (m >>= f) (m >>= f') := by
  refine Coupled.bind (h b φ) fun a a' s s' hs => ?_
  obtain ⟨rfl, hs⟩ := hs
  exact hf a s s' hs

/-- Taking a string makes the states equal. -/
theorem getJsonBufferString_alike : Alike b φ getJsonBufferString getJsonBufferString := by
  intro s s' hs
  obtain ⟨rfl, hφ⟩ := hs
  refine ⟨?_, fun h0 => ?_⟩
  · simp [shift]
  · simp at h0

theorem readStringFuel_alike (n : Nat) : Alike b φ (readStringFuel n) (readStringFuel n) := by
  induction n with
  | zero => exact .throw _
  | succ n ih =>
    refine nextChar_steady.bindAlike fun c => .ite Iff.rfl getJsonBufferString_alike (.ite Iff.rfl ?_ ?_)
    · exact readEscape_steady.bindAlike fun _ => ih
    · exact (writeBuf_steady c).bindAlike fun _ => ih

theorem readString_alike : Alike b φ readString readString := by
  intro s s' hs
  obtain ⟨rfl, hφ⟩ := hs
  exact readStringFuel_alike (s.rest.length + 1) s _ ⟨rfl, hφ⟩

theorem hashtableSet_isEmpty (key : Key) (val : Datum) (cells : List (Key × Datum)) :
    (hashtableSet key val cells).isEmpty = false := by
  cases cells with
  | nil => rfl
  | cons cell cells =>
    rw [hashtableSet]
    split <;> rfl

theorem rd_alike (env : ReadEnv) (n : Nat) :
    (∀ (b : List Char) (φ : Prop), Alike b φ (rd env n) (rd env n)) ∧
    (∀ (b : List Char) (φ : Prop) (acc acc' : List Datum), acc.isEmpty = acc'.isEmpty → (φ → acc = acc') →
      Alike b φ (rdList env n acc) (rdList env n acc')) ∧
    (∀ (b : List Char) (φ : Prop) (cells cells' : List (Key × Datum)), cells.isEmpty = cells'.isEmpty →
      (φ → cells = cells') → Alike b φ (rdObject env n cells) (rdObject env n cells')) := by
  induction n with
  | zero => exact ⟨fun _ _ => .throw _, fun _ _ _ _ _ _ => .throw _, fun _ _ _ _ _ _ => .throw _⟩
  | succ n ih =>
    obtain ⟨ih₁, ih₂, ih₃⟩ := ih
    refine ⟨fun b φ => ?_, fun b φ acc acc' he hacc => ?_, fun b φ cells cells' he hcells => ?_⟩
    · rw [rd]
      refine nextNonWs_steady.bindAlike fun c => ?_
      refine .ite Iff.rfl ?_ (.ite Iff.rfl ?_ (.ite Iff.rfl ?_ (.ite Iff.rfl ?_ (.ite Iff.rfl ?_
        (.ite Iff.rfl ?_ (.ite Iff.rfl ?_ ?_))))))
      · exact (expectChar_steady _).bindAlike fun _ => (expectChar_steady _).bindAlike fun _ =>
          (expectChar_steady _).bindAlike fun _ => .pure fun _ => rfl
      · exact (expectChar_steady _).bindAlike fun _ => (expectChar_steady _).bindAlike fun _ =>
          (expectChar_steady _).bindAlike fun _ => (expectChar_steady _).bindAlike fun _ =>
          .pure fun _ => rfl
      · exact (expectChar_steady _).bindAlike fun _ => (expectChar_steady _).bindAlike fun _ =>
          (expectChar_steady _).bindAlike fun _ => .pure fun _ => rfl
      · exact readString_alike.bind fun s s' => .pure fun h => by rw [h.2]
      · exact ih₂ b φ [] [] rfl fun _ => rfl
      · exact (ih₃ b φ [] [] rfl fun _ => rfl).bind fun o o' => .pure fun h => by rw [h.2]
      · exact readUnsigned_steady.bindAlike fun _ => .pure fun _ => rfl
      · exact (unreadChar_steady c).bindAlike fun _ => readUnsigned_steady.alike
    · rw [rdList, rdList]
      refine nextNonWs_steady.bindAlike fun c => ?_
      refine .ite (by rw [he]) (.pure fun _ => rfl) ?_
      refine (unreadChar_steady c).bindAlike fun _ => (ih₁ b φ).bind fun x x' => ?_
      have hcons : φ ∧ x = x' → x :: acc = x' :: acc' := fun h => by rw [hacc h.1, h.2]
      refine nextNonWs_steady.bindAlike fun c => .ite Iff.rfl (ih₂ b _ _ _ rfl hcons) ?_
      exact .ite Iff.rfl (.pure fun h => by rw [hcons h]) (unexpectedInput_steady c).alike
    · rw [rdObject, rdObject]
      refine nextNonWs_steady.bindAlike fun c => .ite Iff.rfl ?_ ?_
      · refine readString_alike.bind fun key key' => nextNonWs_steady.bindAlike fun c => ?_
        refine .ite Iff.rfl ?_ (unexpectedInput_steady c).alike
        refine (ih₁ b _).bind fun x x' => ?_
        have hset : (φ ∧ key = key') ∧ x = x' → hashtableSet (stringToKey env key) x cells =
            hashtableSet (stringToKey env key') x' cells' := fun h => by
          rw [hcells h.1.1, h.1.2, h.2]
        refine nextNonWs_steady.bindAlike fun c => .ite Iff.rfl (ih₃ b _ _ _ ?_ hset) ?_
        · rw [hashtableSet_isEmpty, hashtableSet_isEmpty]
        · exact .ite Iff.rfl (.pure hset) (unexpectedInput_steady c).alike
      · exact .ite (by rw [he]) (.pure hcells) (unexpectedInput_steady c).alike

theorem read_alike (env : ReadEnv) : Alike b φ (read env) (read env) := by
  refine nextNonWs_steady.bindAlike fun c => ?_
  cases c with
  | none => exact .pure fun _ => rfl
  | some c =>
    refine (unreadChar_steady _).bindAlike fun _ => ?_
    have hrd : Alike b φ (fun s => rd env (2 * s.rest.length + 2) s)
        (fun s => rd env (2 * s.rest.length + 2) s) := by
      intro s s' hs
      obtain ⟨rfl, hφ⟩ := hs
      exact (rd_alike env (2 * s.rest.length + 2)).1 b φ s _ ⟨rfl, hφ⟩
    exact hrd.bind fun x x' => .pure fun h => by rw [h.2]

/-- How the text and the buffer stand before and after a part of the reader that
returns; the bound on the recursion is never what it throws about. -/
def Eats (B : List Char → List Char → Prop) (k : Nat) (m : Read α) : Prop :=
  ∀ s, Ends m s (fun _ t => t.rest.length + k ≤ s.rest.length ∧ B s.jsonBuf t.jsonBuf)
    (fun e _ => e ≠ .outOfFuel)

namespace Eats

variable {B : List Char → List Char → Prop} {j k l : Nat} {m' : Read α}

/-- After a part that leaves the buffer alone. -/
theorem bind (h : Eats Eq k m) (hf : ∀ a, Eats B l (f a)) : Eats B k (m >>= f) := by
  intro s
  refine Ends.bind ((h s).imp (fun a t ht => ?_) fun _ _ he => he)
  refine (hf a t).imp (fun _ u hu => ⟨?_, ?_⟩) fun _ _ he => he
  · have h1 := ht.1
    have h2 := hu.1
    omega
  · rw [ht.2]
    exact hu.2

theorem pure (a : α) : Eats Eq 0 (pure a) := fun _ => Ends.pure ⟨Nat.le_refl _, rfl⟩

theorem throw {e : ReadError} (he : e ≠ .outOfFuel) : Eats B k (throw e : Read α) := fun _ => Ends.throw he

theorem ite {c : Prop} [Decidable c] (h : Eats B k m) (h' : Eats B k m') : Eats B k (if c then m else m') :=
  fun s => Ends.ite (fun _ => h s) fun _ => h' s

theorem imp {B' : List Char → List Char → Prop} (h : Eats B k m) (hk : j ≤ k)
    (hB : ∀ b b', B b b' → B' b b') : Eats B' j m :=
  fun s => (h s).imp (fun _ _ ht => ⟨by have := ht.1; omega, hB _ _ ht.2⟩) fun _ _ he => he

/-- The rest of a part that has already come from s to t. -/
theorem after {s t : RState} (h : Eats B l m) (hl : t.rest.length + k ≤ s.rest.length + l)
    (hb : s.jsonBuf = t.jsonBuf) :
    Ends m t (fun _ u => u.rest.length + k ≤ s.rest.length ∧ B s.jsonBuf u.jsonBuf)
      (fun e _ => e ≠ .outOfFuel) := by
  refine (h t).imp (fun _ u hu => ⟨?_, ?_⟩) fun _ _ he => he
  · have := hu.1
    omega
  · rw [hb]
    exact hu.2

end Eats

theorem unexpectedInput_ends {Q : α → RState → Prop} (c : Option Char) (s : RState) :
    Ends (unexpectedInput c) s Q (fun e _ => e ≠ .outOfFuel) := by
  cases c with
  | none => exact fun h => by cases h
  | some c => exact fun h => by cases h

theorem unexpectedInput_eats {B : List Char → List Char → Prop} {k : Nat} (c : Option Char) :
    Eats B k (unexpectedInput c : Read α) := fun s => unexpectedInput_ends c s

/-- The character that was read is counted. -/
theorem readChar_ends (s : RState) : Ends readChar s
    (fun c t => t.rest.length + c.toList.length ≤ s.rest.length ∧ s.jsonBuf = t.jsonBuf)
    (fun e _ => e ≠ .outOfFuel) := by
  obtain ⟨rest, pos, hp, buf, taken⟩ := s
  cases rest with
  | nil => exact ⟨Nat.le_refl _, rfl⟩
  | cons c rest => exact ⟨Nat.le_refl _, rfl⟩

theorem skipWs_length (rest : List Char) (pos : Int) :
    (skipWs rest pos).2.1.length + (skipWs rest pos).1.toList.length ≤ rest.length := by
  induction rest generalizing pos with
  | nil => simp [skipWs]
  | cons c rest ih =>
    rw [skipWs]
    split
    · have := ih (pos + 1)
      rw [List.length_cons]
      omega
    · simp

theorem nextNonWs_ends (s : RState) : Ends nextNonWs s
    (fun c t => t.rest.length + c.toList.length ≤ s.rest.length ∧ s.jsonBuf = t.jsonBuf)
    (fun e _ => e ≠ .outOfFuel) := ⟨skipWs_length s.rest s.pos, rfl⟩

theorem unreadChar_ends (c : Option Char) (s : RState) : Ends (unreadChar c) s
    (fun _ t => t.rest.length = s.rest.length + c.toList.length ∧ s.jsonBuf = t.jsonBuf)
    (fun e _ => e ≠ .outOfFuel) := by
  cases c with
  | none => exact ⟨rfl, rfl⟩
  | some c => exact ⟨rfl, rfl⟩

theorem takeDigits_length (rest : List Char) (mantissa n : Nat) (pos : Int) :
    let r := takeDigits rest mantissa n pos
    r.2.2.2.1.length + r.2.2.1.toList.length + r.2.1 ≤ rest.length + n := by
  induction rest generalizing mantissa n pos with
  | nil => simp [takeDigits]
  | cons c rest ih =>
    rw [takeDigits]
    split
    · have := ih (mantissa * 10 + digitValue c) (n + 1) (pos + 1)
      rw [List.length_cons]
      omega
    · simp

theorem readDigits_ends (mantissa : Nat) (s : RState) : Ends (readDigits mantissa 0) s
    (fun p t => t.rest.length + p.2.2.toList.length + p.2.1 ≤ s.rest.length ∧ s.jsonBuf = t.jsonBuf)
    (fun e _ => e ≠ .outOfFuel) := ⟨takeDigits_length s.rest mantissa 0 s.pos, rfl⟩

theorem nextChar_eats : Eats Eq 1 nextChar := by
  intro s
  refine Ends.bind ((readChar_ends s).imp (fun c t ht => ?_) fun _ _ he => he)
  cases c with
  | none => exact Ends.throw (by simp)
  | some c => exact Ends.pure ht

theorem writeBuf_eats (c : Char) : Eats (fun _ _ => True) 0 (writeBuf c) := fun _ => ⟨Nat.le_refl _, trivial⟩

theorem hexDigit_eats : Eats Eq 1 hexDigit :=
  nextChar_eats.bind fun _ => .ite (.pure _) (.ite (.pure _) (.ite (.pure _) (unexpectedInput_eats _)))

theorem read4hexdig_eats : Eats Eq 1 read4hexdig :=
  hexDigit_eats.bind fun _ => hexDigit_eats.bind fun _ => hexDigit_eats.bind fun _ =>
    hexDigit_eats.bind fun _ => .pure _

theorem expectChar_eats (c : Char) : Eats Eq 1 (expectChar c) :=
  nextChar_eats.bind fun _ => .ite (.pure _) (unexpectedInput_eats _)

theorem readEscape_eats : Eats (fun _ _ => True) 1 readEscape := by
  refine nextChar_eats.bind (l := 0) fun c => ?_
  iterate 6 refine .ite (writeBuf_eats _) ?_
  refine .ite ?_ (unexpectedInput_eats _)
  refine (read4hexdig_eats.bind (l := 0) fun x => .ite ?_ ?_).imp (Nat.zero_le 1) fun _ _ h => h
  · have hlow : Eats (fun _ _ => True) 1 (do
        let y ← read4hexdig
        if 0xDC00 ≤ y ∧ y ≤ 0xDFFF then
          writeBuf (Char.ofNat (x % 0x400 * 1024 + y % 0x400 + 0x10000))
        else throw .invalidSurrogatePair) :=
      read4hexdig_eats.bind fun y => .ite (writeBuf_eats _) (.throw (by simp))
    exact ((expectChar_eats _).bind fun _ => (expectChar_eats _).bind fun _ => hlow).imp (Nat.zero_le 1)
      fun _ _ h => h
  · exact .ite (.throw (by simp)) (writeBuf_eats _)

/-- The length of the text is enough for the loop, and the buffer is empty after it. -/
theorem readStringFuel_ends (n : Nat) (s : RState) (h : s.rest.length < n) :
    Ends (readStringFuel n) s (fun _ t => t.rest.length < s.rest.length ∧ t.jsonBuf = [])
      (fun e _ => e ≠ .outOfFuel) := by
  induction n generalizing s with
  | zero => omega
  | succ n ih =>
    rw [readStringFuel]
    refine Ends.bind ((nextChar_eats s).imp (fun c t ht => ?_) fun _ _ he => he)
    have hlt : t.rest.length < s.rest.length := ht.1
    have hrec : ∀ u : RState, u.rest.length ≤ t.rest.length → Ends (readStringFuel n) u
        (fun _ t => t.rest.length < s.rest.length ∧ t.jsonBuf = []) (fun e _ => e ≠ .outOfFuel) :=
      fun u hu => (ih u (by omega)).imp (fun _ v hv => ⟨by omega, hv.2⟩) fun _ _ he => he
    refine Ends.ite (fun _ => ⟨hlt, rfl⟩) fun _ => Ends.ite (fun _ => ?_) fun _ => ?_
    · exact Ends.bind ((readEscape_eats t).imp (fun _ u hu => hrec u (by omega)) fun _ _ he => he)
    · exact Ends.bind ((writeBuf_eats c t).imp (fun _ u hu => hrec u hu.1) fun _ _ he => he)

theorem readString_ends (s : RState) : Ends readString s
    (fun _ t => t.rest.length < s.rest.length ∧ t.jsonBuf = []) (fun e _ => e ≠ .outOfFuel) :=
  readStringFuel_ends (s.rest.length + 1) s (by omega)

/-- What comes after the digits of a number: the character behind them goes back. -/
theorem unreadChar_after {Q : α → RState → Prop} {c : Option Char} {t : RState} {a : α}
    (h : ∀ u : RState, u.rest.length = t.rest.length + c.toList.length → t.jsonBuf = u.jsonBuf → Q a u) :
    Ends (do unreadChar c; pure a) t Q (fun e _ => e ≠ .outOfFuel) :=
  Ends.bind ((unreadChar_ends c t).imp (fun _ u hu => Ends.pure (h u hu.1 hu.2)) fun _ _ he => he)

theorem readInt_eats : Eats Eq 1 readInt := by
  intro s
  refine Ends.bind ((readDigits_ends 0 s).imp (fun p t ht => ?_) fun _ _ he => he)
  obtain ⟨int, n, c⟩ := p
  dsimp only at ht ⊢
  refine Ends.ite (fun _ => unexpectedInput_ends _ t) fun hn => unreadChar_after fun u hu hb => ⟨?_, ?_⟩
  · omega
  · rw [ht.2, hb]

theorem readExp_eats (mantissa k : Nat) : Eats Eq 0 (readExp mantissa k) := by
  have hint : ∀ g : Nat → Datum, Eats Eq 1 (do pure (g (← readInt))) :=
    fun g => readInt_eats.bind fun _ => .pure _
  intro s
  refine Ends.bind ((nextChar_eats s).imp (fun c t ht => ?_) fun _ _ he => he)
  refine Ends.ite (fun _ => (hint _).after (by omega) ht.2) fun _ => Ends.ite (fun _ => ?_) fun _ => ?_
  · exact (hint _).after (by omega) ht.2
  · refine Ends.bind ((unreadChar_ends _ t).imp (fun _ u hu => ?_) fun _ _ he => he)
    exact (hint _).after (by simp at hu; omega) (ht.2.trans hu.2)

theorem readUnsigned_eats : Eats Eq 1 readUnsigned := by
  intro s
  refine Ends.bind ((readDigits_ends 0 s).imp (fun p t ht => ?_) fun _ _ he => he)
  obtain ⟨mantissa, n, c⟩ := p
  dsimp only at ht ⊢
  refine Ends.ite (fun _ => unexpectedInput_ends _ t) fun hn => Ends.ite (fun hc => ?_) fun _ => ?_
  · refine Ends.bind ((readDigits_ends mantissa t).imp (fun p u hu => ?_) fun _ _ he => he)
    obtain ⟨mantissa', m, c'⟩ := p
    dsimp only at hu ⊢
    refine Ends.ite (fun _ => unexpectedInput_ends _ u) fun _ => Ends.ite (fun _ => ?_) fun _ => ?_
    · exact (readExp_eats _ _).after (by omega) (ht.2.trans hu.2)
    · exact unreadChar_after fun v hv hb => ⟨by omega, ht.2.trans (hu.2.trans hb)⟩
  · refine Ends.ite (fun _ => (readExp_eats _ _).after (by omega) ht.2) fun _ => ?_
    exact unreadChar_after fun v hv hb => ⟨by omega, ht.2.trans hb⟩

/-- An empty buffer stays empty. -/
def StaysEmpty (b b' : List Char) : Prop := b = [] → b' = []

theorem Eats.staysEmpty {k : Nat} (h : Eats Eq k m) : Eats StaysEmpty k m :=
  h.imp (Nat.le_refl _) fun _ _ hb he => hb ▸ he

/-- A run from s that returns has read k characters, and an empty buffer has stayed empty. -/
abbrev Settles (k : Nat) (m : Read α) (s : RState) : Prop :=
  Ends m s (fun _ t => t.rest.length + k ≤ s.rest.length ∧ StaysEmpty s.jsonBuf t.jsonBuf)
    (fun e _ => e ≠ .outOfFuel)

theorem Settles.bind {k l : Nat} {s t : RState} (h : Settles l m t)
    (hf : ∀ a (u : RState), u.rest.length + l ≤ t.rest.length → StaysEmpty s.jsonBuf u.jsonBuf →
      Ends (f a) u (fun _ v => v.rest.length + k ≤ s.rest.length ∧ StaysEmpty s.jsonBuf v.jsonBuf)
        (fun e _ => e ≠ .outOfFuel)) (hb : StaysEmpty s.jsonBuf t.jsonBuf) :
    Ends (m >>= f) t (fun _ v => v.rest.length + k ≤ s.rest.length ∧ StaysEmpty s.jsonBuf v.jsonBuf)
      (fun e _ => e ≠ .outOfFuel) :=
  Ends.bind (h.imp (fun a u hu => hf a u hu.1 fun he => hu.2 (hb he)) fun _ _ he => he)

/-- The comma or the bracket after an element, from a state u that comes after s. -/
theorem separator_ends {s u : RState} {close : Char} {r : α} {again : Read α}
    (hu : u.rest.length ≤ s.rest.length) (hb : StaysEmpty s.jsonBuf u.jsonBuf)
    (hagain : ∀ v : RState, v.rest.length + 1 ≤ u.rest.length → StaysEmpty s.jsonBuf v.jsonBuf →
      Ends again v (fun _ w => w.rest.length ≤ s.rest.length ∧ StaysEmpty s.jsonBuf w.jsonBuf)
        (fun e _ => e ≠ .outOfFuel)) :
    Ends (do
      let c ← nextNonWs
      if c = some ',' then again
      else if c = some close then pure r
      else unexpectedInput c) u
      (fun _ w => w.rest.length ≤ s.rest.length ∧ StaysEmpty s.jsonBuf w.jsonBuf)
      (fun e _ => e ≠ .outOfFuel) := by
  refine Ends.bind ((nextNonWs_ends u).imp (fun c v hv => ?_) fun _ _ he => he)
  have hvb : StaysEmpty s.jsonBuf v.jsonBuf := fun he => by rw [← hv.2, hb he]
  refine Ends.ite (fun hc => ?_) fun _ => Ends.ite (fun _ => ?_) fun _ => unexpectedInput_ends c v
  · subst hc
    exact hagain v hv.1 hvb
  · exact Ends.pure ⟨by omega, hvb⟩

theorem rd_ends (env : ReadEnv) (n : Nat) (s : RState) :
    (2 * s.rest.length + 2 ≤ n → Settles 1 (rd env n) s) ∧
    (∀ acc, 2 * s.rest.length + 3 ≤ n → Settles 0 (rdList env n acc) s) ∧
    (∀ cells, 2 * s.rest.length + 2 ≤ n → Settles 0 (rdObject env n cells) s) := by
  induction n generalizing s with
  | zero => exact ⟨fun h => by omega, fun _ h => by omega, fun _ h => by omega⟩
  | succ n ih =>
    refine ⟨fun hn => ?_, fun acc hn => ?_, fun cells hn => ?_⟩
    · rw [rd]
      refine Ends.bind ((nextNonWs_ends s).imp (fun c t ht => ?_) fun _ _ he => he)
      have hstay : StaysEmpty s.jsonBuf t.jsonBuf := fun he => ht.2 ▸ he
      have hafter : ∀ r : Read Datum, Eats Eq 1 r → Ends r t
          (fun _ u => u.rest.length + 1 ≤ s.rest.length ∧ StaysEmpty s.jsonBuf u.jsonBuf)
          (fun e _ => e ≠ .outOfFuel) := fun r h => h.staysEmpty.after (by omega) ht.2
      refine Ends.ite (fun _ => hafter _ ?_) fun _ => Ends.ite (fun _ => hafter _ ?_) fun _ =>
        Ends.ite (fun _ => hafter _ ?_) fun _ => Ends.ite (fun _ => ?_) fun _ =>
        Ends.ite (fun hc => ?_) fun _ => Ends.ite (fun hc => ?_) fun _ =>
        Ends.ite (fun _ => hafter _ (readUnsigned_eats.bind fun _ => .pure _)) fun _ => ?_
      · exact (expectChar_eats _).bind fun _ => (expectChar_eats _).bind fun _ =>
          (expectChar_eats _).bind fun _ => .pure _
      · exact (expectChar_eats _).bind fun _ => (expectChar_eats _).bind fun _ =>
          (expectChar_eats _).bind fun _ => (expectChar_eats _).bind fun _ => .pure _
      · exact (expectChar_eats _).bind fun _ => (expectChar_eats _).bind fun _ =>
          (expectChar_eats _).bind fun _ => .pure _
      · refine Ends.bind ((readString_ends t).imp (fun _ u hu => Ends.pure ⟨?_, fun _ => hu.2⟩)
          fun _ _ he => he)
        omega
      · subst hc
        have h1 : t.rest.length + 1 ≤ s.rest.length := ht.1
        exact ((ih t).2.1 [] (by omega)).imp (fun _ u hu => ⟨by omega, fun he => hu.2 (hstay he)⟩)
          fun _ _ he => he
      · subst hc
        have h1 : t.rest.length + 1 ≤ s.rest.length := ht.1
        exact Settles.bind ((ih t).2.2 [] (by omega)) (fun _ u hu hb => Ends.pure ⟨by omega, hb⟩) hstay
      · refine Ends.bind ((unreadChar_ends c t).imp (fun _ u hu => ?_) fun _ _ he => he)
        exact readUnsigned_eats.staysEmpty.after (by omega) (ht.2.trans hu.2)
    · rw [rdList]
      refine Ends.bind ((nextNonWs_ends s).imp (fun c t ht => ?_) fun _ _ he => he)
      refine Ends.ite (fun _ => Ends.pure ⟨by omega, fun he => ht.2 ▸ he⟩) fun _ => ?_
      refine Ends.bind ((unreadChar_ends c t).imp (fun _ u hu => ?_) fun _ _ he => he)
      refine Settles.bind ((ih u).1 (by omega)) (fun x v hv hb => ?_) fun he => by rw [← hu.2, ← ht.2, he]
      refine separator_ends (by omega) hb fun w hw hb => ?_
      exact ((ih w).2.1 _ (by omega)).imp (fun _ y hy => ⟨by omega, fun he => hy.2 (hb he)⟩)
        fun _ _ he => he
    · rw [rdObject]
      refine Ends.bind ((nextNonWs_ends s).imp (fun c t ht => ?_) fun _ _ he => he)
      refine Ends.ite (fun _ => ?_) fun _ => Ends.ite (fun _ => ?_) fun _ => unexpectedInput_ends c t
      · refine Ends.bind ((readString_ends t).imp (fun key u hu => ?_) fun _ _ he => he)
        refine Ends.bind ((nextNonWs_ends u).imp (fun c v hv => ?_) fun _ _ he => he)
        refine Ends.ite (fun _ => ?_) fun _ => unexpectedInput_ends c v
        refine Settles.bind ((ih v).1 (by omega)) (fun x w hw hb => ?_) fun _ => by rw [← hv.2, hu.2]
        refine separator_ends (by omega) hb fun y hy hb => ?_
        exact ((ih y).2.2 _ (by omega)).imp (fun _ z hz => ⟨by omega, fun he => hz.2 (hb he)⟩)
          fun _ _ he => he
      · exact Ends.pure ⟨by omega, fun he => ht.2 ▸ he⟩

/-- The reader never runs into the bound on its recursion, and when it returns it
leaves nothing in the buffer that was not there. -/
theorem read_ends (env : ReadEnv) (s : RState) : Settles 0 (read env) s := by
  refine Ends.bind ((nextNonWs_ends s).imp (fun c t ht => ?_) fun _ _ he => he)
  cases c with
  | none => exact Ends.pure ⟨ht.1, fun he => ht.2 ▸ he⟩
  | some c =>
    refine Ends.bind ((unreadChar_ends _ t).imp (fun _ u hu => ?_) fun _ _ he => he)
    have hrd : Settles 1 (fun s => rd env (2 * s.rest.length + 2) s) u :=
      Ends.of_eq rfl ((rd_ends env (2 * u.rest.length + 2) u).1 (Nat.le_refl _))
    refine Settles.bind hrd (fun x v hv hb => Ends.pure ⟨by omega, hb⟩) fun he => ?_
    rw [← hu.2, ← ht.2, he]

/-- A textual input port at some place of its text. -/
structure Port where
  rest : List Char
  pos : Int
  hasPosition : Bool

/-- The state in which json:read starts on a port. -/
def Port.start (port : Port) (jsonBuf : List Char) : RState where
  rest := port.rest
  pos := port.pos
  hasPosition := port.hasPosition
  jsonBuf := jsonBuf
  taken := 0

/-- What happens to the buffer of a process: json:read is called on a port, or the
collector reclaims the buffer between two calls, since it is held weakly. -/
inductive Event where
  | read (env : ReadEnv) (port : Port)
  | collect

def finalState : EStateM.Result ReadError RState α → RState
  | .ok _ t => t
  | .error _ t => t

/-- What the caller sees: the value or the exception, and where the port stands. -/
def outcome : EStateM.Result ReadError RState α → Except ReadError α × List Char × Int
  | .ok a t => (.ok a, t.rest, t.pos)
  | .error e t => (.error e, t.rest, t.pos)

/-- The contents of json-buf after an event. -/
def Event.after (jsonBuf : List Char) : Event → List Char
  | .read env port => (finalState (Json.read env (port.start jsonBuf))).jsonBuf
  | .collect => []

/-- The contents of json-buf after a sequence of events in a new process. -/
def bufferAfter (history : List Event) : List Char := history.foldl Event.after []

namespace Event

/-- A read of a process of its own throws inside of a string literal, after the
first character of the literal. -/
def CutOff : Event → Prop
  | .read env port =>
    match Json.read env (port.start []) with
    | .ok _ _ => False
    | .error _ t => t.jsonBuf ≠ []
  | .collect => False

/-- A read reaches the end of a string literal; the collector has the same effect. -/
def Clears : Event → Prop
  | .read env port => 0 < (finalState (Json.read env (port.start []))).taken
  | .collect => True

end Event

/-- A read was cut off in a string literal, and the buffer has not been cleared since. -/
def Leftover (history : List Event) : Prop :=
  ∃ before e since, history = before ++ e :: since ∧ e.CutOff ∧ ∀ e' ∈ since, ¬ e'.Clears

theorem start_shift (port : Port) (b : List Char) : port.start b = shift b (port.start []) := by
  simp [shift, Port.start]

theorem agree_finalState {r r' : EStateM.Result ReadError RState α}
    (h : Agree (fun a a' => Ahead b (φ ∧ a = a')) (Ahead b True) r r') :
    finalState r' = shift b (finalState r) := by
  cases r with
  | ok a t =>
    cases r' with
    | ok a' t' => exact h.1
    | error e' t' => exact h.elim
  | error e t =>
    cases r' with
    | ok a' t' => exact h.elim
    | error e' t' => exact h.2.1

/-- The state a read ends in, from the state it ends in with an empty buffer. -/
theorem finalState_shift (env : ReadEnv) (port : Port) (b : List Char) :
    finalState (read env (port.start b)) = shift b (finalState (read env (port.start []))) :=
  agree_finalState
    (@read_alike b True env (port.start []) (port.start b) ⟨start_shift port b, fun _ => trivial⟩)

/-- Only a read that throws leaves something. -/
theorem cutOff_iff (env : ReadEnv) (port : Port) :
    (Event.read env port).CutOff ↔ (finalState (read env (port.start []))).jsonBuf ≠ [] := by
  have h := read_ends env (port.start [])
  unfold Event.CutOff
  dsimp only
  unfold Settles Ends at h
  cases hr : read env (port.start []) with
  | ok a t =>
    rw [hr] at h
    have hempty : t.jsonBuf = [] := h.2 rfl
    simp [finalState, hempty]
  | error e t => rfl

theorem after_ne_nil (e : Event) (b : List Char) :
    e.after b ≠ [] ↔ e.CutOff ∨ (b ≠ [] ∧ ¬ e.Clears) := by
  cases e with
  | collect => simp [Event.after, Event.CutOff, Event.Clears]
  | read env port =>
    rw [cutOff_iff, Event.after, Event.Clears, finalState_shift, shift]
    generalize finalState (read env (port.start [])) = t
    by_cases h0 : t.taken = 0
    · simp [h0]
      tauto
    · have hpos : 0 < t.taken := by omega
      simp [h0, hpos]

theorem bufferAfter_concat (history : List Event) (e : Event) :
    bufferAfter (history ++ [e]) = e.after (bufferAfter history) := by
  simp [bufferAfter]

theorem Leftover.concat (history : List Event) (e : Event) :
    Leftover (history ++ [e]) ↔ e.CutOff ∨ (Leftover history ∧ ¬ e.Clears) := by
  constructor
  · intro h
    obtain ⟨before, e', since, h1, h2, h3⟩ := h
    rcases List.eq_nil_or_concat since with rfl | ⟨since, last, rfl⟩
    · obtain ⟨-, h4⟩ := List.append_inj' h1 rfl
      cases h4
      exact .inl h2
    · have h4 : history ++ [e] = (before ++ e' :: since) ++ [last] := by simp [h1]
      obtain ⟨rfl, h5⟩ := List.append_inj' h4 rfl
      cases h5
      exact .inr ⟨⟨before, e', since, rfl, h2, fun x hx => h3 x (by simp [hx])⟩, h3 e (by simp)⟩
  · intro h
    rcases h with h | ⟨⟨before, e', since, rfl, h2, h3⟩, h4⟩
    · exact ⟨history, e, [], rfl, h, by simp⟩
    · refine ⟨before, e', since ++ [e], by simp, h2, fun x hx => ?_⟩
      rcases List.mem_append.mp hx with hx | hx
      · exact h3 x hx
      · rw [List.mem_singleton.mp hx]
        exact h4

theorem bufferAfter_ne_nil (history : List Event) : bufferAfter history ≠ [] ↔ Leftover history := by
  induction history using List.reverseRecOn with
  | nil => simp [bufferAfter, Leftover]
  | append_singleton history e ih => rw [bufferAfter_concat, after_ne_nil, Leftover.concat, ih]

/-- Reads that throw, and reads that return without a string, do not depend on the buffer. -/
theorem read_outcome_eq (env : ReadEnv) (port : Port) (jsonBuf : List Char)
    (h : (finalState (read env (port.start []))).taken = 0 ∨ ∃ e t, read env (port.start []) = .error e t) :
    outcome (read env (port.start jsonBuf)) = outcome (read env (port.start [])) := by
  have hagree := @read_alike jsonBuf True env (port.start []) (port.start jsonBuf)
    ⟨start_shift port jsonBuf, fun _ => trivial⟩
  generalize read env (port.start jsonBuf) = r' at hagree
  cases hr : read env (port.start []) with
  | ok a t =>
    rw [hr] at hagree h
    cases r' with
    | ok a' t' =>
      have h0 : t.taken = 0 := by
        rcases h with h | ⟨e, u, h⟩
        · exact h
        · cases h
      obtain ⟨rfl, h2⟩ := hagree
      rw [(h2 h0).2]
      rfl
    | error e' t' => exact hagree.elim
  | error e t =>
    rw [hr] at hagree
    cases r' with
    | ok a' t' => exact hagree.elim
    | error e' t' =>
      obtain ⟨rfl, rfl, -⟩ := hagree
      rfl

/-- A string port at its start. -/
def stringPort (text : List Char) : Port where
  rest := text
  pos := 0
  hasPosition := true

/-- The contents of the buffer go before the next string. -/
theorem read_literal (env : ReadEnv) (jsonBuf str : List Char) :
    (outcome (read env ((stringPort (writeString str)).start jsonBuf))).1 =
      .ok (some (.string (jsonBuf ++ str))) := by
  obtain ⟨t, ht, -, -⟩ : ∃ t, read env ((stringPort (writeString str)).start jsonBuf) =
      .ok (some (.string (jsonBuf ++ str))) t ∧ t.rest = [] ∧ t.jsonBuf = [] := by
    refine (nextNonWs_runs allWs_nil (by decide) _).bind ?_ _ rfl rfl
    refine (unreadChar_runs ('"' :: (str.flatMap escapeChar ++ ['"']))).bind ?_
    refine Runs.bind ?_ (Runs.pure _ _ _)
    intro s hs hb
    show ∃ t, rd env (2 * s.rest.length + 1 + 1) s = _ ∧ _
    rw [rd]
    refine (nextNonWs_runs allWs_nil (by decide) _).bind ?_ s hs hb
    iterate 3 refine Runs.ite_false (by decide) ?_
    exact Runs.ite_true rfl ((readString_runs str [] jsonBuf).bind (Runs.pure _ _ _))
  rw [ht]
  rfl

/-- The next read is the same as with a new buffer, whatever its text, exactly when
no earlier read has left anything behind. -/
theorem read_unaffected_iff (history : List Event) :
    (∀ (env : ReadEnv) (port : Port),
      outcome (read env (port.start (bufferAfter history))) = outcome (read env (port.start []))) ↔
    ¬ Leftover history := by
  rw [← bufferAfter_ne_nil]
  constructor
  · intro h hne
    have he := congrArg Prod.fst (h ⟨fun _ => none, id⟩ (stringPort (writeString [])))
    rw [read_literal, read_literal] at he
    exact hne (by simpa using he)
  · intro h env port
    rw [not_not.mp h]

/-- What is left after the text "abc without its closing quote. -/
theorem bufferAfter_cut_off :
    bufferAfter [.read ⟨fun _ => none, id⟩ (stringPort ['"', 'a', 'b', 'c'])] = ['a', 'b', 'c'] := by
  decide +kernel

/-- The text "abc without its closing quote is read first. The string "def" is then
read as abcdef. -/
theorem read_after_cut_off :
    ¬ ∀ (history : List Event) (env : ReadEnv) (port : Port),
      outcome (read env (port.start (bufferAfter history))) = outcome (read env (port.start [])) := by
  intro h
  have he := congrArg Prod.fst (h [.read ⟨fun _ => none, id⟩ (stringPort ['"', 'a', 'b', 'c'])]
    ⟨fun _ => none, id⟩ (stringPort (writeString ['d', 'e', 'f'])))
  rw [bufferAfter_cut_off, read_literal, read_literal] at he
  simp at he

end Swish.Json
