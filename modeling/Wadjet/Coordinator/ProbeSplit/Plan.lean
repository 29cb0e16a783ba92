import Wadjet.Data.Aggregates
import Wadjet.Data.Join
import Wadjet.Data.Rollup
import Wadjet.Data.TopN

namespace Wadjet.Coordinator.ProbeSplit

open Wadjet.Data

abbrev Cell := Option Int

abbrev Row := List Cell

structure AggExpr where
  func : AggFunc
  inputCol : Option String
  outputCol : String
  distinct : Bool

inductive Source where
  | column (name : String)
  | expr (text : String) (value : Row → Cell)

structure Projection where
  source : Source
  aliasName : String

structure OrderExpr where
  column : String
  desc : Bool
  nullsFirst : Option Bool

-- `limitVal` is absent for an OFFSET alone. HAVING is a filter over an
-- aggregate.
inductive Plan where
  | scan (scanAlias : String)
  | filter (pred : Row → Bool) (child : Plan)
  | project (projections : List Projection) (child : Plan)
  | aggregate (groupBy : List String) (aggExprs : List AggExpr) (child : Plan)
  | sort (orderBy : List OrderExpr) (child : Plan)
  | limit (limitVal : Option Nat) (offsetVal : Nat) (child : Plan)
  | join (kind : JoinKind) (on : Row → Row → Bool) (left right : Plan)
  | distinct (child : Plan)

structure Relation where
  columns : List String
  rows : List Row

abbrev Database := String → Relation

namespace Projection

def src (p : Projection) : String :=
  match p.source with
  | .column name => name
  | .expr text _ => text

def dst (p : Projection) : String := if p.aliasName = "" then p.src else p.aliasName

end Projection

section Rows

variable (columns : List String)

def cell (name : String) (row : Row) : Cell := (columns.idxOf? name).bind fun i => row.getD i none

def projectRow (projections : List Projection) (row : Row) : Row :=
  projections.map fun p =>
    match p.source with
    | .column name => cell columns name row
    | .expr _ value => value row

def aggInput (agg : AggExpr) (rows : List Row) : List Int :=
  match agg.inputCol with
  | none => rows.map fun _ => 1
  | some name => rows.filterMap (cell columns name)

def aggValue (agg : AggExpr) (rows : List Row) : Cell :=
  let present := aggInput columns agg rows
  agg.func.value (if agg.distinct then distinctBy eqKey present else present)

def groupKey (groupBy : List String) (row : Row) : List Cell := groupBy.map fun name => cell columns name row

def aggValues (aggExprs : List AggExpr) (rows : List Row) : List Cell :=
  aggExprs.map fun agg => aggValue columns agg rows

-- Without a GROUP BY there is one group, also over no rows.
def aggregateRows (groupBy : List String) (aggExprs : List AggExpr) (rows : List Row) : List Row :=
  if groupBy.isEmpty then [aggValues columns aggExprs rows]
  else (rollup (groupKey columns groupBy) (aggValues columns aggExprs) rows).map fun entry =>
    entry.1 ++ entry.2

def OrderExpr.nullsLast (key : OrderExpr) : Bool :=
  match key.nullsFirst with
  | some first => !first
  | none => !key.desc

-- NULLs are placed before the direction is looked at.
def compareCells (key : OrderExpr) (a b : Cell) : Ordering :=
  match a, b with
  | none, none => .eq
  | none, some _ => if key.nullsLast then .gt else .lt
  | some _, none => if key.nullsLast then .lt else .gt
  | some x, some y => if key.desc then compare y x else compare x y

def compareRows : List OrderExpr → Row → Row → Ordering
  | [], _, _ => .eq
  | key :: rest, a, b =>
    (compareCells key (cell columns key.column a) (cell columns key.column b)).then (compareRows rest a b)

def rowLe (orderBy : List OrderExpr) (a b : Row) : Bool := (compareRows columns orderBy a b).isLE

end Rows

def joinRow (kind : JoinKind) (leftWidth rightWidth : Nat) (pair : Option Row × Option Row) : Row :=
  let left := pair.1.getD (List.replicate leftWidth none)
  if kind.answersLeft then left else left ++ pair.2.getD (List.replicate rightWidth none)

def limitRows (limitVal : Option Nat) (offsetVal : Nat) (rows : List Row) : List Row :=
  match limitVal with
  | none => rows.drop offsetVal
  | some n => (rows.drop offsetVal).take n

namespace Plan

def columns (db : Database) : Plan → List String
  | scan scanAlias => (db scanAlias).columns
  | filter _ child => child.columns db
  | project projections _ => projections.map Projection.dst
  | aggregate groupBy aggExprs _ => groupBy ++ aggExprs.map AggExpr.outputCol
  | sort _ child => child.columns db
  | limit _ _ child => child.columns db
  | join kind _ left right => if kind.answersLeft then left.columns db else left.columns db ++ right.columns db
  | distinct child => child.columns db

-- The row lists a plan may answer. Filters and projections keep the order of
-- their input; scans, joins, groups and DISTINCT promise none.
def Answer (db : Database) : Plan → List Row → Prop
  | scan scanAlias, out => out.Perm (db scanAlias).rows
  | filter pred child, out => ∃ rows, child.Answer db rows ∧ out = rows.filter pred
  | project projections child, out =>
    ∃ rows, child.Answer db rows ∧ out = rows.map (projectRow (child.columns db) projections)
  | aggregate groupBy aggExprs child, out =>
    ∃ rows, child.Answer db rows ∧ out.Perm (aggregateRows (child.columns db) groupBy aggExprs rows)
  | sort orderBy child, out =>
    ∃ rows, child.Answer db rows ∧ Arranges (rowLe (child.columns db) orderBy) rows out
  | limit limitVal offsetVal child, out =>
    ∃ rows, child.Answer db rows ∧ out = limitRows limitVal offsetVal rows
  | join kind on left right, out =>
    ∃ ls rs, left.Answer db ls ∧ right.Answer db rs ∧ out.Perm ((Data.join on kind ls rs).map
      (joinRow kind (left.columns db).length (right.columns db).length))
  | distinct child, out => ∃ rows, child.Answer db rows ∧ out.Perm (distinctBy eqKey rows)

end Plan

end Wadjet.Coordinator.ProbeSplit
