import Wadjet.Data.Aggregates
import Wadjet.Data.Binary64
import Wadjet.Data.Digits
import Wadjet.Data.GroupLoop
import Wadjet.Data.Rollup
import Wadjet.Engine.Decimal

namespace Wadjet.Coordinator.PartialMerge

open Wadjet.Data Wadjet.Engine

abbrev Bytes := List UInt8

-- INT32, INT64 and the types they carry are `int`; STRING and BYTES are `bytes`.
inductive KeyType where
  | int
  | bool
  | bytes
  | cidr
  deriving DecidableEq

inductive KeyValue where
  | int (v : Int)
  | bool (b : Bool)
  | bytes (bs : Bytes)
  | cidr (text : Bytes)
  deriving DecidableEq

-- The other aggregate columns are INT64.
structure AggCol where
  func : AggFunc
  decimal : Bool
  deriving DecidableEq

structure PartialRow where
  keys : List (Option KeyValue)
  aggs : List (Option Int)
  deriving DecidableEq

-- A NULL leaves the zero of its vector in the slot.
def zeroKey : KeyType → KeyValue
  | .int => .int 0
  | .bool => .bool false
  | .bytes => .bytes []
  | .cidr => .cidr []

section Keys

variable (cidrOrderKey : Bytes → Bytes)

def appendKey : KeyValue → Bytes
  | .int v => intText v
  | .bool b => [if b then '1'.toUInt8 else '0'.toUInt8]
  | .bytes bs => bs
  | .cidr text => cidrOrderKey text

-- The encoders read the slots and not the null bitmap.
def rowKey (types : List KeyType) (row : PartialRow) : Bytes :=
  List.intercalate [0] ((types.zip row.keys).map fun entry =>
    appendKey cidrOrderKey (entry.2.getD (zeroKey entry.1)))

end Keys

def wrapInt128 (v : Int) : Int := (v + 2 ^ 127) % 2 ^ 128 - 2 ^ 127

-- What amd64 makes of a float that no int64 holds is the least int64.
def toInt64 (v : Int) : Int := if fitsInt64 v then v else -2 ^ 63

namespace AggCol

variable (col : AggCol)

def load (cell : Option Int) : Int := if col.decimal then cell.getD 0 else roundInt (cell.getD 0)

def merge (cur : Int) (cell : Option Int) : Int :=
  match col.func with
  | .count | .sum =>
    if col.decimal then wrapInt128 (cur + col.load cell) else roundInt (cur + col.load cell)
  | .min => if col.load cell < cur then col.load cell else cur
  | .max => if cur < col.load cell then col.load cell else cur

def store (acc : Int) : Int := if col.decimal then acc else toInt64 acc

end AggCol

structure MergedRow where
  source : PartialRow
  accs : List Int
  rank : Nat

def cellAt (j : Nat) (row : PartialRow) : Option Int := row.aggs.getD j none

def nextMerged (cols : List AggCol) : Option MergedRow → PartialRow × Nat → MergedRow
  | none, (row, rank) => ⟨row, cols.zipIdx.map fun entry => entry.1.load (cellAt entry.2 row), rank⟩
  | some merged, (row, _) =>
    { merged with
      accs := cols.zipIdx.map fun entry => entry.1.merge (merged.accs.getD entry.2 0) (cellAt entry.2 row) }

def resultRow (cols : List AggCol) (merged : MergedRow) : PartialRow :=
  ⟨merged.source.keys, cols.zipIdx.map fun entry => some (entry.1.store (merged.accs.getD entry.2 0))⟩

def parallelMergeMinRows : Nat := 8192

def mergeShardCount (procs totalRows : Nat) : Nat :=
  if totalRows < parallelMergeMinRows then 1 else if procs < 1 then 1 else procs

-- FNV-1a.
def mergeShardOf (key : Bytes) (shards : Nat) : Nat :=
  (key.foldl (fun h c => (h ^^^ c.toUInt64) * 1099511628211) (1469598103934665603 : UInt64)).toNat % shards

section Grouped

variable (cidrOrderKey : Bytes → Bytes) (types : List KeyType) (cols : List AggCol)

def accumulate (owns : Bytes → Bool) (rows : List PartialRow) : List MergedRow :=
  (groupLoop (nextMerged cols) (fun entry => rowKey cidrOrderKey types entry.1)
    (rows.zipIdx.filter fun entry => owns (rowKey cidrOrderKey types entry.1))).map Prod.snd

-- The ranks put the groups of all shards into the order of one pass.
def mergedRows (shards : Nat) (rows : List PartialRow) : List MergedRow :=
  if shards ≤ 1 then accumulate cidrOrderKey types cols (fun _ => true) rows
  else ((List.range shards).flatMap fun w =>
    accumulate cidrOrderKey types cols (fun key => mergeShardOf key shards == w) rows).mergeSort
      fun a b => a.rank ≤ b.rank

def reAggregatePartials (procs : Nat) (rows : List PartialRow) : List PartialRow :=
  if rows.isEmpty || cols.isEmpty then rows
  else (mergedRows cidrOrderKey types cols (mergeShardCount procs rows.length) rows).map (resultRow cols)

end Grouped

def extreme (before : Int → Int → Bool) : List Int → Option Int
  | [] => none
  | v :: rest => some (rest.foldl (fun best v => if before v best then v else best) v)

-- A SUM that leaves the 128 bits answers NULL.
def mergeDecimalPartials (func : AggFunc) : List Int → Option Int
  | [] => none
  | v :: rest => rest.foldlM (fun acc d =>
    match func with
    | .min => some (if d < acc then d else acc)
    | .max => some (if acc < d then d else acc)
    | .sum | .count => if fitsInt128 (acc + d) then some (acc + d) else none) v

structure IntegerRangeError where
  val : Int

-- The total reaches the result through `SetValue`, which raises on a float that no int64 holds.
def int64FromFloatOrRaise (total : Int) : Except IntegerRangeError Int :=
  if fitsInt64 total then .ok total else .error ⟨total⟩

def scalarCell (col : AggCol) (cells : List (Option Int)) : Except IntegerRangeError (Option Int) :=
  let present := cells.filterMap id
  if col.decimal then .ok (mergeDecimalPartials col.func present)
  else
    match col.func with
    | .sum | .count => some <$> int64FromFloatOrRaise (floatTotal 0 present)
    | .min => .ok (extreme (fun v best => v < best) present)
    | .max => .ok (extreme (fun v best => best < v) present)

def mergeScalarAggregates (cols : List AggCol) (rows : List PartialRow) :
    Except IntegerRangeError (List PartialRow) :=
  if cols.isEmpty || rows.length ≤ 1 then .ok rows
  else do
    let cells ← cols.zipIdx.mapM fun entry => scalarCell entry.1 (rows.map (cellAt entry.2))
    return [⟨[], cells⟩]

structure InputRow where
  keys : List (Option KeyValue)
  inputs : List (Option Int)

variable (cidrOrderKey : Bytes → Bytes)

-- A CIDR is the address it names and not its text.
def identity : KeyValue → KeyValue
  | .cidr text => .cidr (cidrOrderKey text)
  | v => v

def keyOf (keys : List (Option KeyValue)) : List (Option KeyValue) := keys.map (Option.map (identity cidrOrderKey))

def inputAt (entry : AggCol × Nat) (rows : List InputRow) : List Int :=
  rows.filterMap fun row => row.inputs.getD entry.2 none

def measure (cols : List AggCol) (rows : List InputRow) : List (Option Int) :=
  cols.zipIdx.map fun entry => entry.1.func.value (inputAt entry rows)

def sqlAggregate (cols : List AggCol) (rows : List InputRow) : List (List (Option KeyValue) × List (Option Int)) :=
  rollup (fun row : InputRow => keyOf cidrOrderKey row.keys) (measure cols) rows

def shown (row : PartialRow) : List (Option KeyValue) × List (Option Int) := (keyOf cidrOrderKey row.keys, row.aggs)

end Wadjet.Coordinator.PartialMerge
