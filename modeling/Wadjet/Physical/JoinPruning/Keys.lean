import Mathlib.Data.String.Basic
import Mathlib.Data.List.Forall2
import Wadjet.Engine.Batch.DecimalKey

namespace Wadjet.Physical.JoinPruning

inductive TypeID where
  | int32
  | int64
  | date
  | timestamp
  | decimal
  | string
  deriving DecidableEq, Repr

-- `scale` is the scale of a DECIMAL vector and is read for no other type.
structure VectorType where
  id : TypeID
  scale : Nat
  deriving DecidableEq, Repr

-- Integers, days, milliseconds and unscaled DECIMALs are all `int`.
inductive Value where
  | int (v : Int)
  | str (s : String)
  deriving DecidableEq, Repr

structure Column where
  name : String
  type : VectorType
  deriving DecidableEq, Repr

abbrev Cell := Column × Option Value

abbrev Row := List Cell

def Row.columnIndex (row : Row) (name : String) : Option Cell :=
  row.find? fun cell => cell.1.name == name

def asciiFolded (name : List Char) : Bool := name.all fun c => !c.isUpper

def asciiEqualFold (a b : List Char) : Bool := a.map Char.toLower == b.map Char.toLower

def splitQualifier (name : List Char) : List Char × List Char :=
  match name.span (· ≠ '.') with
  | (qualifier, _ :: column) => (qualifier, column)
  | (_, []) => ([], name)

def foldedNameMatches (schemaName ref : List Char) : Bool :=
  (splitQualifier schemaName).1 == (splitQualifier ref).1 &&
    asciiEqualFold (splitQualifier schemaName).2 (splitQualifier ref).2

def unique (cells : List Cell) : Option Cell :=
  match cells with
  | [cell] => some cell
  | _ => none

def resolveFoldedIndex (row : Row) (name : List Char) : Option Cell :=
  if asciiFolded name then unique (row.filter fun cell => foldedNameMatches cell.1.name.toList name)
  else none

def resolveColumnIndex (row : Row) (name : String) : Option Cell :=
  (row.columnIndex name).or (resolveFoldedIndex row name.toList)

-- How the join itself finds a key: as the filter does, then without the
-- qualifier, then as the one column that ends in the bare name.
def columnIndexFallback (row : Row) (name : String) : Option Cell :=
  let qualified := name.toList.contains '.'
  let bare := if qualified then (splitQualifier name.toList).2 else name.toList
  let suffix := '.' :: bare
  (resolveColumnIndex row name).or <|
    (if qualified then resolveColumnIndex row (String.ofList bare) else none).or <|
      unique <| row.filter fun cell =>
        let own := cell.1.name.toList
        suffix.isSuffixOf own ||
          (asciiFolded bare && asciiEqualFold (own.drop (own.length - suffix.length)) suffix)

def joinKeyNumeric : TypeID → Bool
  | .int32 | .int64 | .decimal => true
  | .date | .timestamp | .string => false

def joinKeyCommonType (a b : TypeID) : Option TypeID :=
  if (a = .date ∧ b = .timestamp) ∨ (a = .timestamp ∧ b = .date) then some .timestamp
  else if a = b || !joinKeyNumeric a || !joinKeyNumeric b then none
  else if a = .decimal || b = .decimal then some .decimal
  else some .int64

def isIntKeyColumn : TypeID → Bool
  | .int32 | .int64 | .date | .timestamp => true
  | .decimal | .string => false

def keyTypeAt (resolved : Option TypeID) (own : TypeID) : TypeID := resolved.getD own

def joinKeyUsesIntPath (resolved : Option TypeID) (own : TypeID) : Bool :=
  if resolved = some .timestamp then false
  else if keyTypeAt resolved own ≠ own && !isIntKeyColumn (keyTypeAt resolved own) then false
  else isIntKeyColumn own

structure KeyPair where
  left : String
  probe : VectorType
  build : VectorType
  deriving DecidableEq, Repr

def KeyPair.common (pair : KeyPair) : Option TypeID := joinKeyCommonType pair.probe.id pair.build.id

def millisPerDay : Int := 86400000

def dateMidnightMillis (days : Int) : Int :=
  if days = 2 ^ 31 - 1 then 2 ^ 63 - 1
  else if days = -2 ^ 31 then -2 ^ 63
  else days * millisPerDay

def VectorType.millis (type : VectorType) (v : Int) : Int :=
  if type.id = .date then dateMidnightMillis v else v

def VectorType.decimalScale (type : VectorType) : Nat := if type.id = .decimal then type.scale else 0

-- What `=` means for the pair: at the resolved common type, or at the type
-- both sides have.
def KeyPair.equal (pair : KeyPair) : Value → Value → Bool
  | .int a, .int b =>
    match pair.common with
    | some .timestamp => pair.probe.millis a = pair.build.millis b
    | some _ => a * 10 ^ pair.build.decimalScale = b * 10 ^ pair.probe.decimalScale
    | none => pair.probe.id = pair.build.id && pair.probe.id ≠ .string &&
        a * 10 ^ pair.build.decimalScale = b * 10 ^ pair.probe.decimalScale
  | .str a, .str b => pair.probe.id = .string && pair.build.id = .string && a = b
  | .int _, .str _ | .str _, .int _ => false

def leBytes (width : Nat) (v : Int) : List UInt8 :=
  Data.littleEndian width (v % 256 ^ width).toNat

-- The bytes that the engine's key of a DECIMAL has, at an integer of any size.
def appendDecimalKey (unscaled : Int) (scale : Nat) : List UInt8 :=
  Engine.Batch.canonicalKey (Engine.Batch.canonicalDecimal unscaled scale)

-- A value that is not of the vector's type does not occur.
def appendColumnValue (type : VectorType) : Value → List UInt8
  | .int v =>
    match type.id with
    | .int64 | .timestamp => leBytes 8 v
    | .int32 | .date => leBytes 4 v
    | .decimal => appendDecimalKey v type.scale
    | .string => []
  | .str s => leBytes 2 s.utf8ByteSize ++ s.toUTF8.toList

-- The arms after the last are the panic of a pair that no ladder resolves.
def appendCoercedKeyValue (type : VectorType) (target : TypeID) : Value → List UInt8
  | .int v =>
    match target with
    | .int64 => if isIntKeyColumn type.id then leBytes 8 v else []
    | .timestamp => if type.id = .date then leBytes 8 (dateMidnightMillis v) else []
    | .decimal => if isIntKeyColumn type.id then appendDecimalKey v 0 else []
    | .int32 | .date | .string => []
  | .str _ => []

def appendKeyValue (resolved : Option TypeID) (type : VectorType) (v : Value) : List UInt8 :=
  if keyTypeAt resolved type.id ≠ type.id then
    appendCoercedKeyValue type (keyTypeAt resolved type.id) v
  else appendColumnValue type v

-- `none` for a NULL in any key column.
def appendKey : List (Option TypeID × VectorType × Option Value) → Option (List UInt8)
  | [] => some []
  | (_, _, none) :: _ => none
  | (resolved, type, some v) :: rest =>
    (appendKey rest).map fun bytes => 0 :: appendKeyValue resolved type v ++ bytes

end Wadjet.Physical.JoinPruning
