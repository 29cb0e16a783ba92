import Wadjet.Sql.Eval
import Wadjet.Sql.Text
import Wadjet.Storage.Ingest

namespace Wadjet.Logical.PartitionPruning

open Wadjet.Sql Wadjet.Storage

def partitionKeys : List String := ["year", "month", "day", "hour"]

-- `scan.PartitionFilter`: a map, so a key stands in it once.
abbrev PartitionFilter := List (String × String)

def PartitionFilter.set (m : PartitionFilter) (key value : String) : PartitionFilter :=
  (key, value) :: m.filter fun entry => entry.1 != key

-- A Filter or Project chain down to its Scan, which is all that
-- `findDescendantScan` walks through. A projection item is its output name
-- and its expression.
inductive Chain where
  | scan
  | filter (predicates : List Node) (child : Chain)
  | project (items : List (String × Node)) (child : Chain)

section Extract

variable (U : Unicode)

-- The second part of `strings.SplitN(name, ".", 2)`, where there is one.
def stripQualifier (name : String) : String :=
  match name.toList.dropWhile (· != '.') with
  | [] => name
  | _ :: rest => String.ofList rest

def columnKey (column : String) : String := U.lower (stripQualifier column)

def exprColName : Node → String
  | .colRef _ column => columnKey U column
  | _ => ""

def exprLiteral : Node → String
  | .lit value _ => value
  | _ => ""

def extractColLiteral (left right : Node) : String × String :=
  if exprColName U left ≠ "" ∧ exprLiteral right ≠ "" then (exprColName U left, exprLiteral right)
  else if exprColName U right ≠ "" ∧ exprLiteral left ≠ "" then
    (exprColName U right, exprLiteral left)
  else ("", "")

def extractFromAST : Node → PartitionFilter → PartitionFilter
  | .cmp left .eq right, result =>
    let (col, val) := extractColLiteral U left right
    if col ≠ "" ∧ col ∈ partitionKeys then result.set col val else result
  | .and left right, result => extractFromAST right (extractFromAST left result)
  | .paren inner, result => extractFromAST inner result
  | _, result => result

def extractPartitionEqualities (predicates : List Node) : PartitionFilter :=
  predicates.foldl (fun result p => extractFromAST U p result) []

-- The children come first, so an upper filter overrides a lower one.
def extractPartitionFilters : Chain → PartitionFilter
  | .scan => []
  | .filter predicates child =>
    (extractPartitionEqualities U predicates).foldl (fun m entry => m.set entry.1 entry.2)
      (extractPartitionFilters child)
  | .project _ child => extractPartitionFilters child

end Extract

-- A key the partition does not have is skipped.
def matchesPartitionFilter (partValues : List (String × String)) (filter : PartitionFilter) : Bool :=
  filter.all fun entry =>
    match partValues.lookup entry.1 with
    | none => true
    | some pv => pv == entry.2

def readDigits (cs : List Char) : Option Nat :=
  if cs.isEmpty || !cs.all Char.isDigit then none
  else some (cs.foldl (fun n c => 10 * n + (c.toNat - 48)) 0)

def parseInt64 (text : String) : Option Int :=
  Option.filter (fitsInt 63) <|
    match text.toList with
    | '-' :: cs => (readDigits cs).map fun n => -(n : Int)
    | '+' :: cs => (readDigits cs).map fun n => (n : Int)
    | cs => (readDigits cs).map fun n => (n : Int)

-- What the engine decides outside the typed comparison of a column with a
-- literal of its own family: nothing here depends on it.
structure Engine where
  spelling : Spelling
  -- The whole number of a numeric text that `ParseInt` refuses, such as `1.0`.
  wholeNumber : String → Option Int
  mixed : Stored → String → LiteralKind → Bool
  other : Row Stored → Node → Bool
  computed : Row Stored → Node → Option Stored

namespace Engine

variable (E : Engine)

def numeral (text : String) : Option Int := parseInt64 text <|> E.wholeNumber text

def literalEquals : Stored → String → LiteralKind → Bool
  | _, _, .null => false
  | .int v, text, .number => E.numeral text == some v
  | .text s, text, .string => s == text
  | .date days, text, .string => E.spelling.parseDateDays text == some days
  | .timestamp millis, text, .string => E.spelling.parseTimestampMillis text == some millis
  | v, text, kind => E.mixed v text kind

end Engine

structure Equality where
  table : String
  column : String
  text : String
  kind : LiteralKind
  deriving DecidableEq, Repr

def equality? : Node → Node → Option Equality
  | .colRef table column, .lit text kind => some ⟨table, column, text, kind⟩
  | .lit text kind, .colRef table column => some ⟨table, column, text, kind⟩
  | _, _ => none

def Equality.node (e : Equality) : Node := .cmp (.colRef e.table e.column) .eq (.lit e.text e.kind)

variable (U : Unicode) (E : Engine)

abbrev Fields := String → Option (String → Option Stored)

def Equality.holds (ρ : Row Stored) (e : Equality) : Bool :=
  (ρ e.table e.column).any fun v => E.literalEquals v e.text e.kind

def satisfies (ρ : Row Stored) : Node → Bool
  | .cmp left .eq right =>
    match equality? left right with
    | some e => e.holds E ρ
    | none => E.other ρ (.cmp left .eq right)
  | .and left right => satisfies ρ left && satisfies ρ right
  | .paren inner => satisfies ρ inner
  | n => E.other ρ n

-- A qualifier that names a ROW column selects a field of it.
def resolve (fields : Fields) (columns : String → Option Stored) : Row Stored := fun table column =>
  match fields table with
  | some field => field (columnKey U column)
  | none => columns (columnKey U column)

def itemValue (ρ : Row Stored) : Node → Option Stored
  | .colRef table column => ρ table column
  | n => E.computed ρ n

def projected (items : List (String × Node)) (ρ : Row Stored) (name : String) : Option Stored :=
  (items.find? fun item => U.lower item.1 == name).bind fun item => itemValue E ρ item.2

def Chain.run (fields : Fields) (stored : String → Option Stored) : Chain → Option (Row Stored)
  | .scan => some (resolve U fields stored)
  | .filter predicates child =>
    (child.run fields stored).filter fun ρ => predicates.all (satisfies E ρ)
  | .project items child =>
    (child.run fields stored).map fun ρ => resolve U fields (projected U E items ρ)

end Wadjet.Logical.PartitionPruning
