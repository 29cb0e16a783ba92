import Wadjet.Data.Bloom
import Wadjet.Physical.JoinPruning.Keys

namespace Wadjet.Physical.JoinPruning

open Wadjet.Data (Bloom)

structure Hashes where
  int : Int → Nat
  dual : Int → Int → Int
  bytes : List UInt8 → Nat

inductive JoinType where
  | inner
  | left
  | right
  | fullOuter
  | semi
  | anti
  | rightSemi
  | rightAnti
  deriving DecidableEq, Repr

-- A built join. `build` has the key cells of every build row, in the order of
-- `keys`; `spilled` says that some partition left memory.
structure HashJoin where
  joinType : JoinType
  keys : List KeyPair
  build : List (List (Option Value))
  bloomMask : Nat
  spilled : Bool

-- The probe's filter: `useIntKey` and `useDualIntKey` as the build chose them.
structure BloomFilterOp where
  bloom : Bloom
  leftKeys : List String
  useIntKey : Bool
  useDualIntKey : Bool
  keyTypes : List (Option TypeID)

namespace HashJoin

variable (join : HashJoin)

def dropsUnmatchedProbe : Bool :=
  match join.joinType with
  | .inner | .semi | .right => true
  | _ => false

def usesIntPath (pair : KeyPair) : Bool := joinKeyUsesIntPath pair.common pair.build.id

def useIntKey : Bool :=
  match join.keys with
  | [pair] => usesIntPath pair
  | _ => false

def useDualIntKey : Bool :=
  match join.keys with
  | [first, second] => usesIntPath first && usesIntPath second
  | _ => false

def buildKeyHash (hashes : Hashes) (join : HashJoin) (key : List (Option Value)) : Option Nat :=
  if join.useIntKey then
    match key with
    | [some (.int v)] => some (hashes.int v)
    | _ => none
  else if join.useDualIntKey then
    match key with
    | [some (.int a), some (.int b)] => some (hashes.int (hashes.dual a b))
    | _ => none
  else
    (appendKey ((join.keys.zip key).map fun (pair, v) => (pair.common, pair.build, v))).map
      hashes.bytes

def buildBloom (hashes : Hashes) (join : HashJoin) : Option Bloom :=
  match join.build.filterMap (join.buildKeyHash hashes) with
  | [] => none
  | keys => some (Bloom.ofHashes join.bloomMask keys)

def bloomPushdownOp (hashes : Hashes) (join : HashJoin) : Option BloomFilterOp :=
  match join.buildBloom hashes with
  | none => none
  | some bloom =>
    if join.spilled then none
    else if join.dropsUnmatchedProbe then
      some ⟨bloom, join.keys.map KeyPair.left, join.useIntKey, join.useDualIntKey,
        join.keys.map KeyPair.common⟩
    else none

end HashJoin

namespace BloomFilterOp

def keyColumns (op : BloomFilterOp) (row : Row) : List (Option Cell) :=
  op.leftKeys.map (resolveColumnIndex row)

def keyTypesAgree (op : BloomFilterOp) (row : Row) : Bool :=
  !(op.useIntKey || op.useDualIntKey) ||
    (op.keyColumns row).all fun cell => cell.all fun (column, _) => isIntKeyColumn column.type.id

def probeKeyHash (hashes : Hashes) (op : BloomFilterOp) (cells : List Cell) : Option Nat :=
  match op.useIntKey, op.useDualIntKey, cells with
  | true, _, [(_, v)] =>
    match v with
    | some (.int v) => some (hashes.int v)
    | _ => none
  | _, true, [(_, a), (_, b)] =>
    match a, b with
    | some (.int a), some (.int b) => some (hashes.int (hashes.dual a b))
    | _, _ => none
  | _, _, cells =>
    (appendKey ((op.keyTypes.zip cells).map fun (resolved, column, v) =>
      (resolved, column.type, v))).map hashes.bytes

-- A row survives where a key column is missing from the batch.
def mayMatch (hashes : Hashes) (op : BloomFilterOp) (row : Row) : Bool :=
  match (op.keyColumns row).mapM id with
  | none => true
  | some cells => (op.probeKeyHash hashes cells).any op.bloom.contains

structure State where
  resolved : Bool
  disabled : Bool
  totalChecked : Nat
  totalPassed : Nat
  batchesSeen : Nat

def State.initial : State := ⟨false, false, 0, 0, 0⟩

def bloomAdaptiveBatches : Nat := 32

-- The rejection count of the first batches decides whether the filter pays.
def State.count (state : State) (checked passed : Nat) : State :=
  let totalChecked := state.totalChecked + checked
  let totalPassed := state.totalPassed + passed
  let batchesSeen := state.batchesSeen + 1
  { state with
    totalChecked, totalPassed, batchesSeen
    disabled := bloomAdaptiveBatches ≤ batchesSeen && 0 < totalChecked &&
      (totalChecked - totalPassed) * 20 < totalChecked }

def execute (hashes : Hashes) (op : BloomFilterOp) (state : State) (rows : List Row) :
    State × List Row :=
  match rows with
  | [] => (state, [])
  | first :: _ =>
    if state.disabled then (state, rows)
    else if !state.resolved && !op.keyTypesAgree first then
      ({ state with resolved := true, disabled := true }, rows)
    else
      let state := { state with resolved := true }
      if (op.keyColumns first).all Option.isSome then
        let kept := rows.filter (op.mayMatch hashes)
        (state.count rows.length kept.length, kept)
      else (state, rows)

def run (hashes : Hashes) (op : BloomFilterOp) : State → List (List Row) → List Row
  | _, [] => []
  | state, rows :: rest =>
    (op.execute hashes state rows).2 ++ run hashes op (op.execute hashes state rows).1 rest

end BloomFilterOp

structure DynamicRange where
  column : String
  minValue : Value
  maxValue : Value

def Value.int? : Value → Option Int
  | .int v => some v
  | .str _ => none

def Value.str? : Value → Option String
  | .int _ => none
  | .str s => some s

-- The running minimum and maximum over the build batches. There is no arm for
-- DECIMAL.
def updateKeyMinMax (type : TypeID) (values : List Value) : Option (Value × Value) :=
  match type with
  | .int32 | .date | .int64 | .timestamp =>
    (values.filterMap Value.int?).min?.bind fun lo =>
      (values.filterMap Value.int?).max?.map fun hi => (.int lo, .int hi)
  | .string =>
    (values.filterMap Value.str?).min?.bind fun lo =>
      (values.filterMap Value.str?).max?.map fun hi => (.str lo, .str hi)
  | .decimal => none

def HashJoin.buildColumn (join : HashJoin) (i : Nat) : List Value :=
  join.build.filterMap fun key => (key[i]?).join

def HashJoin.buildKeyRange (join : HashJoin) : List DynamicRange :=
  if join.dropsUnmatchedProbe then
    join.keys.zipIdx.filterMap fun (pair, i) =>
      (updateKeyMinMax pair.build.id (join.buildColumn i)).map fun (lo, hi) => ⟨pair.left, lo, hi⟩
  else []

def cmpOrdered {α : Type} [LinearOrder α] (a b : α) : Int := if a < b then -1 else if b < a then 1 else 0

def compareValues : Value → Value → Int
  | .int a, .int b => cmpOrdered a b
  | .str a, .str b => cmpOrdered a b
  | .int _, .str _ | .str _, .int _ => 0

structure ColumnStats where
  hasStats : Bool
  minValue : Option Value
  maxValue : Option Value
  nullCount : Nat

structure RowGroupStats where
  numRows : Nat
  columns : List (String × ColumnStats)

def RowGroupStats.bounds (stats : RowGroupStats) (column : String) : Option (Value × Value) :=
  (stats.columns.lookup column).bind fun colStats =>
    if colStats.hasStats && colStats.nullCount != stats.numRows then
      colStats.minValue.bind fun lo => colStats.maxValue.map fun hi => (lo, hi)
    else none

def canRangePruneRowGroup (ranges : List DynamicRange) (stats : RowGroupStats) : Bool :=
  ranges.any fun range =>
    match stats.bounds range.column with
    | none => false
    | some (lo, hi) =>
      compareValues hi range.minValue < 0 || 0 < compareValues lo range.maxValue

structure BloomScanFilter where
  bloom : Bloom
  column : String

def BloomFilterOp.bloomScanFilter (op : BloomFilterOp) : Option BloomScanFilter :=
  match op.useIntKey, op.leftKeys with
  | true, [column] => some ⟨op.bloom, column⟩
  | _, _ => none

def toBloomInt64 : Value → Int
  | .int v => v
  | .str _ => 0

def isIntType (v : Value) : Bool := v.int?.isSome

def maxRangeSize : Int := 1024

def canBloomPruneRowGroup (hashes : Hashes) (filter : BloomScanFilter) (stats : RowGroupStats) :
    Bool :=
  match stats.bounds filter.column with
  | none => false
  | some (lo, hi) =>
    let minVal := toBloomInt64 lo
    let maxVal := toBloomInt64 hi
    let rangeSize := maxVal - minVal + 1
    if minVal = 0 && maxVal = 0 && !isIntType lo then false
    else if rangeSize ≤ 0 || maxRangeSize < rangeSize then false
    else (List.range rangeSize.toNat).all fun (i : Nat) =>
      !filter.bloom.contains (hashes.int (minVal + i))

section Chain

-- A projection carries a column on under a name or computes one.
inductive Item where
  | column (ref : String)
  | compute (type : VectorType) (eval : Row → Option Value)

structure Projection where
  out : String
  item : Item

def Projection.apply (projection : Projection) (row : Row) : Cell :=
  match projection.item with
  | .column ref =>
    match columnIndexFallback row ref with
    | some (column, v) => (⟨projection.out, column.type⟩, v)
    | none => (⟨projection.out, ⟨.string, 0⟩⟩, none)
  | .compute type eval => (⟨projection.out, type⟩, eval row)

inductive ProbeKind where
  | inner
  | left
  | semi
  | anti
  deriving DecidableEq

-- A probe of another join: the build rows it finds for a row, the padding of
-- an outer join, and the columns its output keeps.
structure Probe where
  kind : ProbeKind
  found : Row → List Row
  padding : Row
  keep : String → Bool

def Probe.emit (probe : Probe) (row build : Row) : Row :=
  (row ++ build).filter fun cell => probe.keep cell.1.name

def Probe.apply (probe : Probe) (row : Row) : List Row :=
  match probe.kind with
  | .inner => (probe.found row).map (probe.emit row)
  | .left =>
    match probe.found row with
    | [] => [probe.emit row probe.padding]
    | found => found.map (probe.emit row)
  | .semi => if (probe.found row).isEmpty then [] else [probe.emit row []]
  | .anti => if (probe.found row).isEmpty then [probe.emit row []] else []

inductive Op where
  | filter (keeps : Row → Bool)
  | project (projections : List Projection)
  | limit (count : Nat)
  | probe (other : Probe)
  | bloom (op : BloomFilterOp)

-- The rows that can come of one row. Which rows a limit lets through depends
-- on the others, so here it lets every row through.
def Op.apply (hashes : Hashes) : Op → Row → List Row
  | .filter keeps, row => if keeps row then [row] else []
  | .project projections, row => [projections.map (·.apply row)]
  | .limit _, row => [row]
  | .probe other, row => other.apply row
  | .bloom op, row => if op.mayMatch hashes row then [row] else []

def outputs (hashes : Hashes) : List Op → Row → List Row
  | [], row => [row]
  | op :: rest, row => (op.apply hashes row).flatMap (outputs hashes rest)

def Op.isBloom : Op → Bool
  | .bloom _ => true
  | _ => false

variable (scanCols : List String)

def Op.loadsFirst (firstNonBloom : Nat) : Op × Nat → Bool
  | (.bloom op, i) => firstNonBloom < i && op.leftKeys.all (scanCols.contains ·)
  | _ => false

-- Every operator with its place in `ops`.
def frontLoadBlooms (ops : List Op) : List (Op × Nat) :=
  if ops.length < 3 || scanCols.isEmpty then ops.zipIdx
  else match ops.findIdx? (!·.isBloom) with
    | none => ops.zipIdx
    | some firstNonBloom =>
      ops.zipIdx.filter (Op.loadsFirst scanCols firstNonBloom) ++
        ops.zipIdx.filter (!Op.loadsFirst scanCols firstNonBloom ·)

end Chain

structure RowGroup where
  stats : RowGroupStats
  rows : List Row

-- The probe side of a join: a scan of a table's `columns` that reads
-- `required`, the operators up to the join, the join, and what comes after it.
structure JoinPlan where
  columns : List String
  required : List String
  required_subset : required ⊆ columns
  before : List Op
  join : HashJoin
  probe : Probe
  after : List Op

namespace JoinPlan

def ops (hashes : Hashes) (plan : JoinPlan) : List Op :=
  plan.before ++ (plan.join.bloomPushdownOp hashes).toList.map .bloom ++ [.probe plan.probe] ++ plan.after

-- What runs before the join's filter, and from there to its probe.
def upstream (hashes : Hashes) (plan : JoinPlan) : List Op :=
  ((frontLoadBlooms plan.required (plan.ops hashes)).takeWhile
    (·.2 ≠ plan.before.length)).map Prod.fst

def downstream (hashes : Hashes) (plan : JoinPlan) : List Op :=
  (((frontLoadBlooms plan.required (plan.ops hashes)).dropWhile
    (·.2 ≠ plan.before.length)).tail.takeWhile (·.2 ≠ plan.before.length + 1)).map Prod.fst

def scan (plan : JoinPlan) (row : Row) : Row := row.filter fun cell => plan.required.contains cell.1.name

def prunes (hashes : Hashes) (plan : JoinPlan) (stats : RowGroupStats) : Bool :=
  canRangePruneRowGroup plan.join.buildKeyRange stats ||
    ((plan.join.bloomPushdownOp hashes).bind BloomFilterOp.bloomScanFilter).any
      (canBloomPruneRowGroup hashes · stats)

end JoinPlan

end Wadjet.Physical.JoinPruning
