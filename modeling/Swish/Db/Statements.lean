import Mathlib.Data.List.Basic

/-!
The statement cache of db.ss, and the control statements that are tried again when the
database is busy. A prepared statement is given by its SQL text.
-/

set_option autoImplicit false

namespace Swish.Db

abbrev Sql := String

def beginImmediate : Sql := "BEGIN IMMEDIATE"

def commit : Sql := "COMMIT"

def rollback : Sql := "ROLLBACK"

/-- The record cache. An entry has a statement and a timestamp. -/
structure Cache where
  ht : List (Sql × Nat)
  expireTimeout : Nat
  waketime : Option Nat

/-- get-statement. The clock says now when the entry is made or found, and later when waketime is
set. There is no result if sqlite:prepare raises an exception. -/
def Cache.getStatement (now later : Nat) (prepared : Bool) (sql : Sql) (cache : Cache) : Option Cache :=
  if cache.ht.any fun x => x.1 = sql then
    some { cache with ht := cache.ht.map fun x => if x.1 = sql then (sql, now) else x }
  else if prepared then
    some { cache with
      ht := (sql, now) :: cache.ht
      waketime := match cache.waketime with
        | some t => some t
        | none => some (later + cache.expireTimeout) }
  else none

/-- The loop of remove-dead-entries. It stops when sqlite:finalize raises an exception. -/
def removeDead (dead : Sql × Nat → Bool) (finalizes : Sql → Bool) : List (Sql × Nat) → Bool × List (Sql × Nat)
  | [] => (true, [])
  | x :: rest =>
    if dead x then
      if finalizes x.1 then removeDead dead finalizes rest else (false, rest)
    else
      let (ok, kept) := removeDead dead finalizes rest
      (ok, x :: kept)

/-- The least timestamp. -/
def oldest : List (Sql × Nat) → Option Nat
  | [] => none
  | x :: rest =>
    match oldest rest with
    | none => some x.2
    | some t => some (min x.2 t)

/-- remove-dead-entries, and whether it returns. -/
def Cache.removeDeadEntries (now : Nat) (expireNow finalizes : Sql → Bool) (cache : Cache) : Bool × Cache :=
  match removeDead (fun x => x.2 + cache.expireTimeout ≤ now || expireNow x.1) finalizes cache.ht with
  | (true, kept) => (true, { cache with ht := kept, waketime := (oldest kept).map (· + cache.expireTimeout) })
  | (false, kept) => (false, { cache with ht := kept })

/-- What db:expire-cache removes. -/
def expires (sql : Sql) : Bool := sql ∉ [beginImmediate, commit]

/-- The result of one sqlite:execute of a control statement. -/
inductive Attempt where
  | ok
  | dbError (rc : Int)
  /-- Any other exception. -/
  | raises (x : Nat)
  deriving DecidableEq

/-- A reason for an exit that is not normal. -/
inductive Fault where
  | prepare (sql : Sql)
  | retryFailed (sql : Sql) (count : Nat)
  | dbError (rc : Int)
  | raised (x : Nat)
  | finalize
  | outOfRange
  | badMatch
  | bulkExecute
  | queue
  | user (x : Nat)
  deriving DecidableEq

def bitsSet (rc : Int) (bits : Nat) : Bool :=
  match rc with
  | .ofNat n => n &&& bits = bits
  | .negSucc n => (bits - (n &&& bits)) = bits

/-- SQLITE_BUSY or SQLITE_LOCKED. -/
def isBusy (sqliteRc : Int) : Bool :=
  let rc := -sqliteRc - 6000000
  bitsSet rc 5 || bitsSet rc 6

/-- The loop attempt of execute-with-retry-on-busy. There is no result while more attempts are to come. -/
def attempt (sql : Sql) (count : Nat) : List Attempt → Option (Except Fault Nat)
  | [] => if count < 500 then none else some (.error (.retryFailed sql count))
  | x :: rest =>
    if count < 500 then
      match x with
      | .ok => some (.ok count)
      | .dbError rc => if isBusy rc then attempt sql (count + 1) rest else some (.error (.dbError rc))
      | .raises y => some (.error (.raised y))
    else some (.error (.retryFailed sql count))

end Swish.Db
