import Wadjet.Data.Grouping
import Wadjet.Engine.Batch.DecimalAvg
import Wadjet.Engine.Batch.DecimalResult
import Wadjet.Sql.Text

namespace Wadjet.Logical.CountDistinct

open Wadjet.Sql Wadjet.Data Wadjet.Engine

inductive SlotKind where
  | count
  | sum
  | min
  | max
  | avgsum
  | avgcnt
  deriving DecidableEq, Repr

-- A `__tl_` name is reserved, so no column of the query is a slot.
inductive Col where
  | user (name : String)
  | slot (kind : SlotKind) (index : Nat)
  deriving DecidableEq, Repr

inductive AggFunc where
  | count
  | sum
  | min
  | max
  | avg
  | other (name : String)
  deriving DecidableEq, Repr

-- `input` is `none` for COUNT(*). `bare` is false for a computed argument.
structure AggExpr where
  func : AggFunc
  input : Option Col
  output : Col
  distinct : Bool := false
  bare : Bool := true
  deriving DecidableEq, Repr

structure Aggregate where
  groupBy : List Col
  aggs : List AggExpr
  groupingSets : Bool := false
  deriving DecidableEq, Repr

inductive Projection where
  | column (name : Col)
  | quotient (out sum count : Col)
  deriving DecidableEq, Repr

inductive Plan where
  | one (n : Aggregate)
  | two (inner outer : Aggregate)
  | averaged (inner outer : Aggregate) (projs : List Projection)
  deriving DecidableEq, Repr

def Col.lower (U : Unicode) : Col → Option String
  | .user name => some (U.lower name)
  | .slot _ _ => none

def Col.equalFold (U : Unicode) : Col → Col → Bool
  | .user a, .user b => U.equalFold a b
  | a, b => a = b

section Rewrite

variable (U : Unicode)

def partials (i : Nat) (a : AggExpr) : List AggExpr :=
  match a.func with
  | .avg =>
    [{ a with func := .sum, output := .slot .avgsum i }, { a with func := .count, output := .slot .avgcnt i }]
  | .count => [{ a with output := .slot .count i }]
  | .sum => [{ a with output := .slot .sum i }]
  | .min => [{ a with output := .slot .min i }]
  | .max => [{ a with output := .slot .max i }]
  | .other _ => []

def combined (i : Nat) (a : AggExpr) : List AggExpr :=
  match a.func with
  | .avg =>
    [{ func := .sum, input := some (.slot .avgsum i), output := .slot .avgsum i },
      { func := .sum, input := some (.slot .avgcnt i), output := .slot .avgcnt i }]
  | .count => [{ func := .sum, input := some (.slot .count i), output := a.output }]
  | .sum => [{ func := .sum, input := some (.slot .sum i), output := a.output }]
  | .min => [{ func := .min, input := some (.slot .min i), output := a.output }]
  | .max => [{ func := .max, input := some (.slot .max i), output := a.output }]
  | .other _ => []

def innerAggs (n : Aggregate) : List AggExpr :=
  n.aggs.zipIdx.flatMap fun (a, i) => if a.distinct then [] else partials i a

def outerAggs (n : Aggregate) : List AggExpr :=
  n.aggs.zipIdx.flatMap fun (a, i) =>
    if a.distinct then [{ func := .count, input := a.input, output := a.output }] else combined i a

def projections (n : Aggregate) : List Projection :=
  n.groupBy.map .column ++ n.aggs.zipIdx.map fun (a, i) =>
    if a.func = .avg then .quotient a.output (.slot .avgsum i) (.slot .avgcnt i) else .column a.output

def decomposable : AggFunc → Bool
  | .other _ => false
  | _ => true

-- The gate on typed group keys: integers only, and no aggregate beside.
def groupGate (intCols : Option (List String)) (n : Aggregate) (x : Col) : Bool :=
  n.groupBy.isEmpty ||
    match intCols with
    | none => false
    | some cols =>
      (x :: n.groupBy).all (fun c => (c.lower U).any cols.contains) && decide (n.aggs.length ≤ 1)

-- `intCols` is what `scanIntCols` finds below the aggregate.
def rewriteCountDistinctTwoLevel (intCols : Option (List String)) (n : Aggregate) : Plan :=
  if n.groupingSets then .one n
  else
    match n.aggs.filter (·.distinct) with
    | [d] =>
      match d.func, d.input with
      | .count, some x =>
        if d.bare && n.aggs.all (fun a => a.distinct || decomposable a.func) && groupGate U intCols n x &&
            !n.groupBy.any (Col.equalFold U · x) then
          let inner : Aggregate := { groupBy := n.groupBy ++ [x], aggs := innerAggs n }
          let outer : Aggregate := { groupBy := n.groupBy, aggs := outerAggs n }
          if n.aggs.any (·.func = .avg) then .averaged inner outer (projections n) else .two inner outer
        else .one n
      | _, _ => .one n
    | _ => .one n

end Rewrite

inductive Value where
  | num (unscaled : Int)
  | text (s : String)
  deriving DecidableEq, Repr

def Value.num? : Value → Option Int
  | .num v => some v
  | .text _ => none

inductive ColType where
  | int32
  | int64
  | decimal (precision scale : Nat)
  | text
  deriving DecidableEq, Repr

def ColType.scale : ColType → Nat
  | .decimal _ s => s
  | _ => 0

def ColType.decimalPS : ColType → Nat × Nat
  | .decimal p s => (p, s)
  | .int32 => (10, 0)
  | _ => (19, 0)

abbrev Row := Col → Option Value

structure Relation where
  type : Col → ColType
  rows : List Row

-- `IntegerAccOutputType`, and a DECIMAL at the carrier's full precision.
def sumType : ColType → ColType
  | .int32 => .int64
  | .int64 => .decimal maxDecimalPrecision 0
  | .decimal _ s => .decimal maxDecimalPrecision s
  | .text => .text

def avgType : ColType → ColType
  | .int32 | .int64 => .decimal maxDecimalPrecision (avgScale 0)
  | .decimal _ s => .decimal maxDecimalPrecision (avgScale s)
  | .text => .text

-- The accumulator of a SUM: 64 bits for the int32 class, else 128.
def sumFits : ColType → Int → Bool
  | .int32 => fitsInt64
  | _ => fitsInt128

-- A running total that leaves its accumulator is an error at the end.
def runningSum (fits : Int → Bool) (vs : List Int) : Option Int :=
  vs.foldl (fun acc v => acc.bind fun t => if fits (t + v) then some (t + v) else none) (some 0)

def nums (g : List Row) (c : Col) : List Int := g.filterMap fun row => (row c).bind Value.num?

def present (g : List Row) (c : Col) : List Value := g.filterMap (· c)

-- The outer `none` is a query error, the inner one NULL.
def sumOf (fits : Int → Bool) (vs : List Int) : Option (Option Value) :=
  if vs.isEmpty then some none else (runningSum fits vs).map fun t => some (.num t)

def avgOf (t : ColType) (vs : List Int) : Option (Option Value) :=
  if vs.isEmpty then some none
  else
    ((runningSum fitsInt128 vs).bind Wide.narrow).bind fun total =>
      (Batch.decimalAvg total vs.length ((avgType t).scale - t.scale : Nat)).map fun q =>
        some (.num q.signed)

def evalAgg (type : Col → ColType) (a : AggExpr) (g : List Row) : Option (Option Value) :=
  match a.func, a.input with
  | .count, none => some (some (.num g.length))
  | .count, some c =>
    if a.distinct then some (some (.num (distinctBy eqKey (present g c)).length))
    else some (some (.num (present g c).length))
  | .sum, some c => sumOf (sumFits (type c)) (nums g c)
  | .min, some c => some ((nums g c).min?.map .num)
  | .max, some c => some ((nums g c).max?.map .num)
  | .avg, some c => avgOf (type c) (nums g c)
  | _, _ => none

def aggType (type : Col → ColType) (a : AggExpr) : ColType :=
  match a.func, a.input with
  | .sum, some c => sumType (type c)
  | .avg, some c => avgType (type c)
  | .min, some c | .max, some c => type c
  | _, _ => .int64

-- Without keys there is one group, also of no rows.
def groupsOf (groupBy : List Col) (rows : List Row) : List (List Row) :=
  if groupBy.isEmpty then [rows]
  else (groups eqKey (fun row => groupBy.map row) rows).map (·.2)

variable (n : Aggregate)

def outType (type : Col → ColType) (c : Col) : ColType :=
  match n.aggs.find? (·.output = c) with
  | some a => aggType type a
  | none => type c

def outRow (type : Col → ColType) (g : List Row) : Row := fun c =>
  match n.aggs.find? (·.output = c) with
  | some a => (evalAgg type a g).join
  | none => if n.groupBy.contains c then g.head?.bind (· c) else none

def evalAggregate (r : Relation) : Option Relation :=
  if (groupsOf n.groupBy r.rows).all fun g => n.aggs.all fun a => (evalAgg r.type a g).isSome then
    some ⟨outType n r.type, (groupsOf n.groupBy r.rows).map (outRow n r.type)⟩
  else none

def quotientType (type : Col → ColType) (sum count : Col) : Nat × Nat :=
  decimalResultType .div (type sum).decimalPS.1 (type sum).decimalPS.2 (type count).decimalPS.1
    (type count).decimalPS.2

def evalQuotient (type : Col → ColType) (sum count : Col) (row : Row) : Option (Option Value) :=
  match (row sum).bind Value.num?, (row count).bind Value.num? with
  | some a, some b => do
    let (q, status) := Batch.decimalApplyAt .div (← Wide.narrow a) (type sum).decimalPS.2
      (← Wide.narrow b) (type count).decimalPS.2 (quotientType type sum count).1
      (quotientType type sum count).2
    if status = .ok then some (some (.num q.signed)) else none
  | _, _ => some none

def Projection.out : Projection → Col
  | .column name => name
  | .quotient out _ _ => out

def Projection.eval (type : Col → ColType) (row : Row) : Projection → Option (Option Value)
  | .column name => some (row name)
  | .quotient _ sum count => evalQuotient type sum count row

def Projection.type (type : Col → ColType) : Projection → ColType
  | .column name => type name
  | .quotient _ sum count =>
    .decimal (quotientType type sum count).1 (quotientType type sum count).2

def projRow (projs : List Projection) (type : Col → ColType) (row : Row) : Row := fun c =>
  (projs.find? (·.out = c)).bind fun p => (p.eval type row).join

def evalProject (projs : List Projection) (r : Relation) : Option Relation :=
  if r.rows.all fun row => projs.all fun p => (p.eval r.type row).isSome then
    some ⟨fun c => ((projs.find? (·.out = c)).map (·.type r.type)).getD (r.type c),
      r.rows.map (projRow projs r.type)⟩
  else none

def Plan.eval (r : Relation) : Plan → Option Relation
  | .one n => evalAggregate n r
  | .two inner outer => (evalAggregate inner r).bind (evalAggregate outer)
  | .averaged inner outer projs =>
    (evalAggregate inner r).bind fun r' => (evalAggregate outer r').bind (evalProject projs)

def Relation.table (cols : List Col) (r : Relation) : List (List (Option (Value × Nat))) :=
  r.rows.map fun row => cols.map fun c => (row c).map fun v => (v, (r.type c).scale)

def Aggregate.columns : List Col := n.groupBy ++ n.aggs.map (·.output)

end Wadjet.Logical.CountDistinct
