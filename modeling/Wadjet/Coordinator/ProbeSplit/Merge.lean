import Wadjet.Coordinator.ProbeSplit.Plan

namespace Wadjet.Coordinator.ProbeSplit

open Wadjet.Data

structure Stage where
  isScan : Bool
  scanAlias : String
  scanFiles : List String
  estimatedBytes : Nat

def probeSplitMinBytes : Nat := 64 * 1024 * 1024

-- The largest scan, the first of equals; no scan with bytes leaves the alias empty.
def largestScan (stages : List Stage) : String × List String × Nat :=
  stages.foldl (fun best s =>
    if s.isScan && best.2.2 < s.estimatedBytes then (s.scanAlias, s.scanFiles, s.estimatedBytes) else best)
    ("", [], 0)

def canProbeSplit (stages : List Stage) (workerCount : Nat) : Option (String × List String) :=
  if workerCount ≤ 1 then none
  else
    let (bestAlias, bestFiles, bestBytes) := largestScan stages
    let minFiles := if 2 ^ 30 < bestBytes then workerCount else workerCount * 2
    if bestAlias = "" || bestFiles.length < minFiles || bestBytes < probeSplitMinBytes then none
    else some (bestAlias, bestFiles)

-- `limit` is absent when the statement bounds nothing.
structure MergeInfo where
  groupBy : List String
  aggExprs : List AggExpr
  orderBy : List OrderExpr
  limit : Option Nat
  offset : Nat
  hasAggregate : Bool
  hasDistinct : Bool

-- The new name of a column under one projection level; the last renaming of a
-- column wins.
def rename (projections : List Projection) (name : String) : String :=
  match projections.reverse.find? fun p => p.src = name ∧ p.src ≠ p.dst with
  | some p => p.dst
  | none => name

namespace MergeInfo

def applyProjectionRenames (mi : MergeInfo) (projections : List Projection) : MergeInfo :=
  { mi with
    groupBy := mi.groupBy.map (rename projections)
    aggExprs := mi.aggExprs.map fun ae => { ae with outputCol := rename projections ae.outputCol } }

end MergeInfo

namespace Plan

def belowLimit : Plan → Plan
  | limit _ _ child => child
  | plan => plan

def belowSort : Plan → Plan
  | sort _ child => child
  | plan => plan

def stripTopSortLimit (plan : Plan) : Plan := plan.belowLimit.belowSort

def topLimit : Plan → Option Nat × Nat
  | limit limitVal offsetVal _ => (limitVal, offsetVal)
  | _ => (none, 0)

def topSort : Plan → List OrderExpr
  | sort orderBy _ => orderBy
  | _ => []

-- What a chain of projections over an aggregate or a DISTINCT makes of the
-- merge, the renames composed from the innermost outward.
def shape (orderBy : List OrderExpr) (bound : Option Nat × Nat) : Plan → MergeInfo
  | project projections child => (child.shape orderBy bound).applyProjectionRenames projections
  | aggregate groupBy aggExprs _ => ⟨groupBy, aggExprs, orderBy, bound.1, bound.2, true, false⟩
  | distinct _ => ⟨[], [], orderBy, bound.1, bound.2, false, true⟩
  | _ => ⟨[], [], orderBy, bound.1, bound.2, false, false⟩

end Plan

def extractMergeInfo (plan : Plan) : MergeInfo :=
  plan.stripTopSortLimit.shape plan.belowLimit.topSort plan.topLimit

-- SubmitSQL's choice; a sampled relation is drawn by one task.
def submitSQL (stages : List Stage) (workerCount : Nat) (hasTablesample : Bool) (plan : Plan) :
    Option (String × List String × MergeInfo) :=
  if hasTablesample then none
  else (canProbeSplit stages workerCount).map fun probe => (probe.1, probe.2, extractMergeInfo plan)

-- What a task answers: the sort and the limit are removed for partial
-- aggregates alone.
def taskPlan (plan : Plan) : Plan :=
  if (extractMergeInfo plan).hasAggregate then plan.stripTopSortLimit else plan

section Merge

variable (columns : List String)

-- A name that stands for several columns means the last of them.
def colIdx (name : String) : Option Nat :=
  (columns.zipIdx.reverse.find? fun entry => entry.1 = name).map Prod.snd

def cellsAt (i : Nat) (rows : List Row) : List Cell := rows.map fun row => row.getD i none

-- A column that is neither a key nor an aggregate keeps the zero of its vector.
def mergedRow (groupIdx : List Nat) (aggCols : List (Nat × AggFunc)) (key : List Cell) (rows : List Row) : Row :=
  (List.range columns.length).map fun i =>
    match aggCols.reverse.find? fun col => col.1 = i with
    | some col => col.2.combine (cellsAt i rows)
    | none =>
      match groupIdx.idxOf? i with
      | some j => key.getD j none
      | none => some 0

def aggCols (aggExprs : List AggExpr) : List (Nat × AggFunc) :=
  aggExprs.filterMap fun ae => (colIdx columns ae.outputCol).map fun i => (i, ae.func)

variable (mi : MergeInfo) (rows : List Row)

-- `none` is the refusal of a GROUP BY column that the partials do not carry.
def reAggregatePartials : Option (List Row) :=
  if mi.aggExprs.isEmpty then some rows
  else
    (mi.groupBy.mapM (colIdx columns)).map fun groupIdx =>
      let aggs := aggCols columns mi.aggExprs
      if aggs.isEmpty then rows
      else (groups eqKey (fun row : Row => groupIdx.map fun i => row.getD i none) rows).map fun group =>
        mergedRow columns groupIdx aggs group.1 group.2

def mergeScalarAggregates : List Row :=
  if mi.aggExprs.isEmpty || rows.length ≤ 1 then rows
  else [columns.map fun name =>
    match mi.aggExprs.reverse.find? fun ae => ae.outputCol = name with
    | some ae => ((colIdx columns name).map fun i => ae.func.combine (cellsAt i rows)).join
    | none => none]

def combinePartials : Option (List Row) :=
  if mi.hasAggregate then
    if rows.isEmpty then some []
    else if mi.groupBy.isEmpty then some (mergeScalarAggregates columns mi rows)
    else reAggregatePartials columns mi rows
  else if mi.hasDistinct then some (distinctBy eqKey rows)
  else some rows

def keepRows : List Row :=
  match mi.limit with
  | none => rows
  | some n => rows.take (n + mi.offset)

-- The results mergeProbePartials may return: the deduplicated rows come in the
-- order of a hash table, and the sort is not stable.
def Merges (partials : List (List Row)) (out : List Row) : Prop :=
  ∃ combined, combinePartials columns mi partials.flatten = some combined ∧
    ∃ rows, (if mi.hasDistinct then rows.Perm combined else rows = combined) ∧
      ∃ sorted, (if mi.orderBy.isEmpty then sorted = rows
        else (rows.length ≤ 1 ∨ ∀ key ∈ mi.orderBy, key.column ∈ columns) ∧
          Arranges (rowLe columns mi.orderBy) rows sorted) ∧
        out = (keepRows mi sorted).drop mi.offset

end Merge

def restrict (db : Database) (scanAlias : String) (slice : List Row) : Database :=
  fun other => if other = scanAlias then ⟨(db scanAlias).columns, slice⟩ else db other

end Wadjet.Coordinator.ProbeSplit
