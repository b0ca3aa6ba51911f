import Swish.Db.Statements

/-!
Which failures of a control statement execute-with-retry-on-busy tries again.
-/

set_option autoImplicit false

namespace Swish.Db

/-- What attempt gives for the outcome number count if it does not try again. -/
def Attempt.result (count : Nat) : Attempt → Except Fault Nat
  | .ok => .ok count
  | .dbError rc => .error (.dbError rc)
  | .raises x => .error (.raised x)

/-- The guard of attempt. -/
def Attempt.retries : Attempt → Bool
  | .dbError rc => isBusy rc
  | _ => false

def sleepTimes : List Nat := [2, 3, 6, 11, 16, 21, 26, 26, 26, 51, 51]

/-- The list sleep-times goes on with 101 forever. -/
def sleepTime (count : Nat) : Nat := (sleepTimes[count]?).getD 101

/-- A call of attempt: its result, how many times sqlite:execute has been called when it ends, and
how long it slept before each time it tried again. -/
structure Tried where
  result : Except Fault Nat
  tries : Nat
  sleeps : List Nat

/-- The loop attempt. The outcome of the call of sqlite:execute after count others is o count. -/
def attempts (sql : Sql) (o : Nat → Attempt) (count : Nat) : Tried :=
  if count < 500 then
    if (o count).retries then
      { attempts sql o (count + 1) with
        sleeps := sleepTime count :: (attempts sql o (count + 1)).sleeps }
    else ⟨(o count).result count, count + 1, []⟩
  else ⟨.error (.retryFailed sql count), count, []⟩
termination_by 500 - count

/-- The result code of SQLite, which may be an extended one. -/
def code (sqliteRc : Int) : Int := -sqliteRc - 6000000

/-- The primary code is that of SQLITE_BUSY or of SQLITE_LOCKED. -/
def Attempt.BusyOrLocked (a : Attempt) : Prop :=
  ∃ rc, a = .dbError rc ∧ (code rc % 256 = 5 ∨ code rc % 256 = 6)

/-- A failure with another primary code, in which the bits of 5 or those of 6 are set. -/
def Attempt.Misread (a : Attempt) : Prop :=
  ∃ rc, a = .dbError rc ∧ 5 ≤ code rc % 8 ∧ code rc % 256 ≠ 5 ∧ code rc % 256 ≠ 6

variable {sql : Sql} {o : Nat → Attempt}

theorem and_mod_eight (n bits : Nat) (h : bits < 8) : n &&& bits = n % 8 &&& bits := by
  have hmod := @Nat.and_mod_two_pow n bits 3
  have hle : n &&& bits ≤ bits := Nat.and_le_right
  have hlt : n &&& bits < 8 := Nat.lt_of_le_of_lt hle h
  rw [show (2 : Nat) ^ 3 = 8 from rfl, Nat.mod_eq_of_lt hlt, Nat.mod_eq_of_lt h] at hmod
  exact hmod

theorem bitsSet_mod (rc : Int) (bits : Nat) (h : bits < 8) :
    bitsSet rc bits = bitsSet (rc % 8) bits := by
  have hmod : (0 : Int) ≤ rc % 8 := Int.emod_nonneg rc (by decide)
  cases rc with
  | ofNat n => exact congrArg (fun m => decide (m = bits)) (and_mod_eight n bits h)
  | negSucc n =>
    have hn : Int.negSucc n % 8 = Int.ofNat (7 - n % 8) := by
      rw [Int.negSucc_eq, Int.ofNat_eq_natCast]
      omega
    have hlt : n % 8 < 8 := Nat.mod_lt n (by decide)
    rw [hn]
    simp only [bitsSet]
    rw [and_mod_eight n bits h]
    generalize n % 8 = m at hlt
    revert m bits
    decide

theorem isBusy_iff (sqliteRc : Int) : isBusy sqliteRc = true ↔ 5 ≤ code sqliteRc % 8 := by
  have h0 : 0 ≤ code sqliteRc % 8 := Int.emod_nonneg _ (by decide)
  have h8 : code sqliteRc % 8 < 8 := Int.emod_lt_of_pos _ (by decide)
  obtain ⟨m, hm⟩ := Int.eq_ofNat_of_zero_le h0
  have hlt : m < 8 := by omega
  have hbusy : isBusy sqliteRc = (bitsSet (code sqliteRc % 8) 5 || bitsSet (code sqliteRc % 8) 6) := by
    rw [← bitsSet_mod _ 5 (by decide), ← bitsSet_mod _ 6 (by decide)]
    rfl
  rw [hbusy, hm]
  clear hm h0 h8 hbusy
  revert m
  decide

theorem Attempt.retries_iff (a : Attempt) : a.retries = true ↔ a.BusyOrLocked ∨ a.Misread := by
  cases a with
  | ok => exact ⟨fun h => (by cases h), by simp [BusyOrLocked, Misread]⟩
  | raises x => exact ⟨fun h => (by cases h), by simp [BusyOrLocked, Misread]⟩
  | dbError rc =>
    rw [Attempt.retries, isBusy_iff]
    constructor
    · intro h
      by_cases hb : code rc % 256 = 5 ∨ code rc % 256 = 6
      · exact Or.inl ⟨rc, rfl, hb⟩
      · exact Or.inr ⟨rc, rfl, h, fun h5 => hb (Or.inl h5), fun h6 => hb (Or.inr h6)⟩
    · intro h
      cases h with
      | inl hb =>
        obtain ⟨rc', he, hb⟩ := hb
        cases he
        omega
      | inr hm =>
        obtain ⟨rc', he, h5, _⟩ := hm
        cases he
        exact h5

theorem Attempt.Misread.not_busyOrLocked {a : Attempt} (h : a.Misread) : ¬a.BusyOrLocked := by
  obtain ⟨rc, he, _, h5, h6⟩ := h
  intro hb
  obtain ⟨rc', he', hb⟩ := hb
  rw [he] at he'
  cases he'
  omega

/-- How attempt ends if n is the first outcome that is not tried again. -/
def Ended (sql : Sql) (o : Nat → Attempt) (n : Nat) (r : Tried) : Prop :=
  if n < 500 then (o n).retries = false ∧ r.tries = n + 1 ∧ r.result = (o n).result n
  else r.tries = 500 ∧ r.result = .error (.retryFailed sql 500)

theorem attempts_ended (sql : Sql) (o : Nat → Attempt) (count : Nat) (h : count ≤ 500) :
    ∃ n, count ≤ n ∧ n ≤ 500 ∧ (∀ k, count ≤ k → k < n → (o k).retries = true) ∧
      (attempts sql o count).sleeps = (List.range' count (n - count)).map sleepTime ∧
      Ended sql o n (attempts sql o count) := by
  by_cases hlt : count < 500
  · by_cases hretry : (o count).retries = true
    · obtain ⟨n, hle, hn, hall, hsleeps, hend⟩ := attempts_ended sql o (count + 1) hlt
      have hat : attempts sql o count =
          { attempts sql o (count + 1) with
            sleeps := sleepTime count :: (attempts sql o (count + 1)).sleeps } := by
        rw [attempts, if_pos hlt, if_pos hretry]
      refine ⟨n, by omega, hn, ?_, ?_, ?_⟩
      · intro k hk hkn
        by_cases he : k = count
        · rw [he]
          exact hretry
        · exact hall k (by omega) hkn
      · have hone : n - count = (n - (count + 1)) + 1 := by omega
        rw [hat, hone, List.range'_succ, List.map_cons, hsleeps]
      · rw [hat]
        exact hend
    · have hat : attempts sql o count = ⟨(o count).result count, count + 1, []⟩ := by
        rw [attempts, if_pos hlt, if_neg hretry]
      refine ⟨count, Nat.le_refl _, h, fun k hk hkn => absurd hkn (by omega), ?_, ?_⟩
      · rw [hat, Nat.sub_self]
        rfl
      · rw [hat, Ended, if_pos hlt]
        exact ⟨Bool.eq_false_iff.mpr hretry, rfl, rfl⟩
  · have he : count = 500 := by omega
    have hat : attempts sql o count = ⟨.error (.retryFailed sql count), count, []⟩ := by
      rw [attempts, if_neg hlt]
    refine ⟨count, Nat.le_refl _, h, fun k hk hkn => absurd hkn (by omega), ?_, ?_⟩
    · rw [hat, Nat.sub_self]
      rfl
    · rw [hat, Ended, if_neg hlt, he]
      exact ⟨rfl, rfl⟩
termination_by 500 - count

/-- The loop over a list of outcomes, as the database process takes it, gives the same result. -/
theorem attempt_attempts (sql : Sql) (o : Nat → Attempt) (m count : Nat) (x : Except Fault Nat)
    (h : attempt sql count ((List.range' count m).map o) = some x) :
    (attempts sql o count).result = x := by
  induction m generalizing count with
  | zero =>
    by_cases hlt : count < 500
    · simp [attempt, hlt] at h
    · simp [attempt, hlt] at h
      rw [attempts, if_neg hlt]
      exact h
  | succ m ih =>
    rw [List.range'_succ, List.map_cons] at h
    by_cases hlt : count < 500
    · rw [attempts, if_pos hlt]
      cases ho : o count with
      | ok =>
        simp [attempt, hlt, ho] at h
        exact h
      | raises y =>
        simp [attempt, hlt, ho] at h
        exact h
      | dbError rc =>
        by_cases hb : isBusy rc = true
        · have hrest : attempt sql (count + 1) ((List.range' (count + 1) m).map o) = some x := by
            simpa [attempt, hlt, ho, hb] using h
          rw [Attempt.retries, if_pos hb]
          exact ih (count + 1) hrest
        · rw [Attempt.retries, if_neg hb]
          simpa [attempt, hlt, ho, hb, Attempt.result] using h
    · rw [attempts, if_neg hlt]
      simpa [attempt, hlt] using h

/-- A control statement is executed again after a failure if SQLite was busy or locked, and only
then. It is tried again after the outcome k if attempt sleeps once more. -/
structure RetriesOnlyBusy (sql : Sql) (o : Nat → Attempt) (r : Tried) : Prop where
  tries_le : r.tries ≤ 500
  retried : ∀ k, k < r.tries → o k ≠ .ok → (k < r.sleeps.length ↔ (o k).BusyOrLocked)
  reraised : ∀ k, k < r.tries → o k ≠ .ok → ¬(o k).BusyOrLocked →
    r.tries = k + 1 ∧ r.result = (o k).result k
  succeeded : ∀ k, k < r.tries → o k = .ok → r.tries = k + 1 ∧ r.result = .ok k
  failed : (∀ k, k < r.tries → (o k).BusyOrLocked) →
    r.tries = 500 ∧ r.result = .error (.retryFailed sql 500)

theorem ended_retriesOnlyBusy {n : Nat} {r : Tried} (hn : n ≤ 500)
    (hbusy : ∀ k, k < n → (o k).BusyOrLocked) (hsleeps : r.sleeps.length = n)
    (hend : Ended sql o n r) : RetriesOnlyBusy sql o r := by
  by_cases hlt : n < 500
  · rw [Ended, if_pos hlt] at hend
    obtain ⟨hno, htries, hresult⟩ := hend
    have hnot : ¬(o n).BusyOrLocked := by
      intro hb
      rw [(Attempt.retries_iff _).mpr (Or.inl hb)] at hno
      cases hno
    have hlast : ∀ k, k < r.tries → ¬(o k).BusyOrLocked → k = n := by
      intro k hk hkb
      by_cases hkn : k < n
      · exact absurd (hbusy k hkn) hkb
      · omega
    refine ⟨by omega, ?_, ?_, ?_, ?_⟩
    · intro k hk _
      rw [hsleeps]
      refine ⟨hbusy k, ?_⟩
      intro hb
      have hne : k ≠ n := fun he => hnot (he ▸ hb)
      omega
    · intro k hk _ hkb
      have he := hlast k hk hkb
      subst he
      exact ⟨htries, hresult⟩
    · intro k hk hok
      have he := hlast k hk (by simp [hok, Attempt.BusyOrLocked])
      subst he
      rw [hok] at hresult
      exact ⟨htries, hresult⟩
    · intro hall
      exact absurd (hall n (by omega)) hnot
  · rw [Ended, if_neg hlt] at hend
    obtain ⟨htries, hresult⟩ := hend
    have hall : ∀ k, k < r.tries → (o k).BusyOrLocked := fun k hk => hbusy k (by omega)
    refine ⟨by omega, ?_, ?_, ?_, fun _ => ⟨htries, hresult⟩⟩
    · intro k hk _
      exact ⟨fun _ => hall k hk, fun _ => by omega⟩
    · intro k hk _ hkb
      exact absurd (hall k hk) hkb
    · intro k hk hok
      have hb := hall k hk
      rw [hok] at hb
      obtain ⟨rc, he, _⟩ := hb
      cases he

/-- Only busy and locked errors are tried again, unless the first failure that is neither of them
has a code in which the bits of 5 or those of 6 are set. -/
theorem only_busy_is_retried_iff (sql : Sql) (o : Nat → Attempt) :
    RetriesOnlyBusy sql o (attempts sql o 0) ↔
      ∀ k, k < 500 → (∀ j, j < k → (o j).BusyOrLocked) → ¬(o k).Misread := by
  obtain ⟨n, _, hn, hall, hsleeps, hend⟩ := attempts_ended sql o 0 (Nat.zero_le 500)
  have hlen : (attempts sql o 0).sleeps.length = n := by
    rw [hsleeps, List.length_map, List.length_range', Nat.sub_zero]
  constructor
  · intro h k hk hbefore hmis
    have hkn : k < n := by
      by_cases hkn : k < n
      · exact hkn
      · have hlt : n < 500 := by omega
        rw [Ended, if_pos hlt] at hend
        have hretry : (o n).retries = true := by
          by_cases he : n = k
          · rw [he]
            exact (Attempt.retries_iff _).mpr (Or.inr hmis)
          · exact (Attempt.retries_iff _).mpr (Or.inl (hbefore n (by omega)))
        rw [hend.1] at hretry
        cases hretry
    have htries : k < (attempts sql o 0).tries := by
      unfold Ended at hend
      split at hend
      · omega
      · omega
    have hne : o k ≠ .ok := by
      obtain ⟨rc, he, _⟩ := hmis
      rw [he]
      exact fun h => (by cases h)
    exact hmis.not_busyOrLocked ((h.retried k htries hne).mp (by omega))
  · intro h
    have hbusy : ∀ k, k < n → (o k).BusyOrLocked := by
      intro k
      -- a failure is not misread once all the earlier ones are known to be busy
      induction k using Nat.strongRecOn with
      | ind k ih =>
        intro hk
        cases (Attempt.retries_iff _).mp (hall k (Nat.zero_le k) hk) with
        | inl hb => exact hb
        | inr hm => exact absurd hm (h k (by omega) fun j hj => ih j hj (by omega))
    exact ended_retriesOnlyBusy hn hbusy hlen hend

/-- SQLITE_FULL at first, and then success. -/
def fullOnce (count : Nat) : Attempt := if count = 0 then .dbError (-6000013) else .ok

theorem full_is_retried : ¬RetriesOnlyBusy commit fullOnce (attempts commit fullOnce 0) := by
  have hfirst : attempts commit fullOnce 0 = ⟨.ok 1, 2, [2]⟩ := by
    rw [attempts, attempts]
    rfl
  rw [hfirst]
  intro h
  have hretried := (h.retried 0 (by decide) (by decide)).mp (by decide)
  obtain ⟨rc, he, hrc⟩ := hretried
  cases he
  revert hrc
  decide

end Swish.Db
