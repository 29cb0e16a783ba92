import Mathlib.Algebra.Ring.Int.Defs
import Mathlib.Data.List.Basic

namespace Wadjet.Storage

open Option

inductive ColType where
  | int32
  | int64
  | string
  | date
  | timestamp
  deriving DecidableEq, Repr

structure Column where
  name : String
  type : ColType
  nullable : Bool := true
  deriving DecidableEq, Repr

-- A `time.Time`, by what the two layouts print and what the leaves store.
structure Time where
  dateText : String
  rfc3339 : String
  days : Int
  millis : Int
  deriving DecidableEq, Repr

-- `other` stands for the narrow and the unsigned kinds, which no DATE accepts.
inductive IntKind where
  | int
  | int32
  | int64
  | other
  deriving DecidableEq, Repr

-- A Go value in a row. A float is kept only when it is whole: any other is
-- refused by every column type here.
inductive Box where
  | int (kind : IntKind) (v : Int)
  | float (v : Int)
  | text (s : String)
  | time (t : Time)
  | null
  deriving DecidableEq, Repr

inductive Stored where
  | int (v : Int)
  | text (s : String)
  | date (days : Int)
  | timestamp (millis : Int)
  deriving DecidableEq, Repr

-- The texts ingest reads and writes: `%v` of a whole float, and the accepted
-- spellings of dates and timestamps.
structure Spelling where
  floatText : Int → String
  parseDateDays : String → Option Int
  parseTimestampMillis : String → Option Int

def datePosInfinity : Int := 2 ^ 31 - 1

def dateNegInfinity : Int := -2 ^ 31

def timestampPosInfinity : Int := 2 ^ 63 - 1

def timestampNegInfinity : Int := -2 ^ 63

def isInfiniteDate (n : Int) : Bool := n = datePosInfinity || n = dateNegInfinity

def isInfiniteTimestamp (ms : Int) : Bool := ms = timestampPosInfinity || ms = timestampNegInfinity

def dateDaysFinite (n : Int) : Bool := decide (-2440588 ≤ n) && decide (n ≤ 2145042905)

def timestampMillisFinite (ms : Int) : Bool :=
  decide (-210866803200000 ≤ ms) && decide (ms < 9224318016000000)

def dateDaysInRange (n : Int) : Bool := isInfiniteDate n || dateDaysFinite n

def timestampMillisInRange (ms : Int) : Bool := isInfiniteTimestamp ms || timestampMillisFinite ms

section Leaves

variable (S : Spelling)

def keep {α : Type} (ok : Bool) (v : α) : Option α := if ok then some v else none

def fitsInt (bits : Nat) (v : Int) : Bool := decide (-2 ^ bits ≤ v) && decide (v < 2 ^ bits)

-- `checkType` and the writer's `CheckLeafBox`: what a box is stored as, and
-- `none` where the row is refused.
def leafValue : ColType → Box → Option Stored
  | .int32, .int _ v | .int32, .float v => keep (fitsInt 31 v) (.int v)
  | .int64, .int _ v | .int64, .float v => keep (fitsInt 63 v) (.int v)
  | .string, .text s => some (.text s)
  | .date, .time t => keep (dateDaysFinite t.days) (.date t.days)
  | .date, .int .other _ => none
  | .date, .int _ v => keep (dateDaysInRange v) (.date v)
  | .date, .text s => (S.parseDateDays s).map .date
  | .timestamp, .time t => keep (timestampMillisFinite t.millis) (.timestamp t.millis)
  | .timestamp, .int .int64 v => keep (timestampMillisInRange v) (.timestamp v)
  | .timestamp, .text s => (S.parseTimestampMillis s).map .timestamp
  | _, _ => none

abbrev InputRow := String → Option Box

variable (schema : List Column)

def validateRow (row : InputRow) : Bool :=
  schema.all fun col =>
    match row col.name with
    | none | some .null => col.nullable
    | some v => (leafValue S col.type v).isSome

def columnType (name : String) : Option ColType :=
  (schema.find? (·.name = name)).map (·.type)

def formatPartitionValue (key : String) (v : Box) : String :=
  match v with
  | .int kind n =>
    if columnType schema key = some .date ∧ kind = .int32 ∧ isInfiniteDate n then
      if n = datePosInfinity then "infinity" else "-infinity"
    else if columnType schema key = some .timestamp ∧ kind = .int64 ∧ isInfiniteTimestamp n then
      if n > 0 then "infinity" else "-infinity"
    else toString n
  | .float n => S.floatText n
  | .text s => s
  | .time t => if columnType schema key = some .date then t.dateText else t.rfc3339
  | .null => "<nil>"

def route (keys : List String) (row : InputRow) : Option (List (String × String)) :=
  if validateRow S schema row then
    keys.mapM fun key => ((row key).map (formatPartitionValue S schema key)).map (key, ·)
  else none

def storedRow (row : InputRow) (name : String) : Option Stored :=
  (columnType schema name).bind fun t => (row name).bind (leafValue S t)

end Leaves

theorem lookup_mapM_key (f : String → Option String) (keys : List String)
    (values : List (String × String)) (h : keys.mapM (fun k => (f k).map (k, ·)) = some values)
    (key text : String) : values.lookup key = some text ↔ key ∈ keys ∧ f key = some text := by
  induction keys generalizing values with
  | nil =>
    obtain rfl := some.inj h
    simp
  | cons k keys ih =>
    rw [List.mapM_cons] at h
    obtain ⟨p, hp, h⟩ := bind_eq_some_iff.mp h
    obtain ⟨ps, hps, h⟩ := bind_eq_some_iff.mp h
    obtain rfl := some.inj h
    obtain ⟨v, hv, rfl⟩ := map_eq_some_iff.mp hp
    rw [List.lookup_cons]
    by_cases heq : key = k
    · subst heq
      simp [hv]
    · rw [show (key == k) = false by simpa using heq]
      simp [heq, ih ps hps]

theorem lookup_route (S : Spelling) (schema : List Column) (keys : List String) (row : InputRow)
    (values : List (String × String)) (h : route S schema keys row = some values)
    (key text : String) :
    values.lookup key = some text ↔
      key ∈ keys ∧ (row key).map (formatPartitionValue S schema key) = some text := by
  unfold route at h
  split at h
  · exact lookup_mapM_key _ keys values h key text
  · cases h

end Wadjet.Storage
