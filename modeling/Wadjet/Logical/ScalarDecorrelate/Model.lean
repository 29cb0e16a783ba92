import Mathlib.Algebra.Ring.Nat
import Wadjet.Data.Grouping
import Wadjet.Data.Join
import Wadjet.Logical.Predicate
import Wadjet.Sql.Rewrite

namespace Wadjet.Logical.ScalarDecorrelate

open Wadjet.Sql Wadjet.Data

-- The names of the enclosing query's relations and columns and of the body's
-- one relation, lower-cased. `nestedOuter` says of a subquery inside the body
-- whether it reads the enclosing query.
structure Scope where
  outerTables : List String
  outerCols : List String
  innerTables : List String
  innerCols : List String
  nestedOuter : String → Bool := fun _ => false

structure SelectInfo where
  column : Node
  whereExpr : Node
  groupByExprs : List Node := []
  havingExpr : Option Node := none
  limit : Option Nat := none
  offset : Option Nat := none

-- One conjunct of the join condition, in the outer query's spelling and by the
-- bare inner column the aggregate groups by.
structure DecorrelatedKey where
  outerQualifier : String
  outerColumn : String
  innerCol : String
  deriving DecidableEq, Repr

inductive AggFunc where
  | count
  | sum
  | min
  | max
  | avg
  deriving DecidableEq, Repr

structure AggExpr where
  func : AggFunc
  -- none for COUNT(*)
  input : Option Node
  distinct : Bool

structure Decorrelated where
  keys : List DecorrelatedKey
  innerFilter : List Node
  agg : AggExpr
  slot : String
  pred : Node

def flattenASTNodes : Node → List Node
  | .and l r => flattenASTNodes l ++ flattenASTNodes r
  | n => [n]

def unwrapSubquery : Node → Option String
  | .subquery sql array => if array then none else some sql
  | .paren inner => unwrapSubquery inner
  | _ => none

-- The subquery a comparison holds, the right operand asked first.
def findScalarSubqueryComparison : Node → Option String
  | .cmp left _ right => (unwrapSubquery right).or (unwrapSubquery left)
  | .paren inner => findScalarSubqueryComparison inner
  | _ => none

-- `replaceSubqueryInExpr` at the subquery found: parentheses around it go.
def replaceSubqueryInExpr (replacement : Node) : Node → Node
  | .cmp left op right =>
    if (unwrapSubquery right).isSome then .cmp left op replacement else .cmp replacement op right
  | .paren inner => .paren (replaceSubqueryInExpr replacement inner)
  | n => n

def bareRef : Node → Option Node
  | .colRef _ column => some (.colRef "" column)
  | _ => none

def stripInto : Node → Bool
  | .cmp .. | .and .. | .binaryOp .. | .paren .. | .not .. | .funcCall .. => true
  | _ => false

def stripTableQualifiers : Node → Node := Node.rewrite bareRef stripInto

section Names

variable (U : Unicode) (S : Scope)

-- `bodyOuterColumns`: the enclosing names the body cannot supply.
def Scope.bodyOuter : List String := S.outerCols.filter (!S.innerCols.contains ·)

-- `getColRefInfo` and the ColRef arm of `nodeTableRefs`.
def Scope.isOuter (table column : String) : Bool :=
  if table = "" then S.bodyOuter.contains (U.lower column)
  else S.outerTables.contains (U.lower table) && !S.innerTables.contains (U.lower table)

def namesEnclosingQuery (n : Node) : Bool :=
  (n.walk
    (fun m => match m with
      | .colRef table column => [S.isOuter U table column]
      | .subquery sql _ | .exists _ sql => [S.nestedOuter sql]
      | _ => [])
    (fun m => match m with
      | .arrayLit _ => false
      | _ => true)).any id

def provablyOuterOnly (n : Node) : Bool :=
  match n.columnRefs with
  | some (r :: rs) => (r :: rs).all fun r => S.isOuter U r.1 r.2
  | _ => false

def refsOuterColumn (outerRefCols : List String) (n : Node) : Bool :=
  (n.walk
    (fun m => match m with
      | .colRef _ column => [outerRefCols.contains (U.lower column)]
      | _ => [])
    (fun m => match m with
      | .cmp .. | .and .. | .or .. | .binaryOp .. | .funcCall .. | .paren .. | .not .. => true
      | _ => false)).any id

def outerRefCols (whereExpr : Node) : List String :=
  (whereExpr.refs.filter fun r => S.isOuter U r.1 r.2).map fun r => U.lower r.2

-- Which side of a correlated equality is the outer one: the qualifiers and the
-- body's names say so, else the left column's name does.
def correlationKey (outerRefCols : List String) : Node → Option DecorrelatedKey
  | .cmp (.colRef lt lc) .eq (.colRef rt rc) =>
    if lc = "" ∨ rc = "" then none
    else
      let leftIsOuter := S.isOuter U lt lc
      let rightIsOuter := S.isOuter U rt rc
      if leftIsOuter && !rightIsOuter then some ⟨lt, lc, rc⟩
      else if rightIsOuter && !leftIsOuter then some ⟨rt, rc, lc⟩
      else if outerRefCols.contains (U.lower lc) then some ⟨lt, lc, rc⟩
      else some ⟨rt, rc, lc⟩
  | _ => none

-- The loop over the WHERE conjuncts: join keys and inner-only conditions, or
-- nothing when one of them declines the rewrite.
def classify (outerRefCols : List String) : List Node → Option (List DecorrelatedKey × List Node)
  | [] => some ([], [])
  | n :: ns =>
    if provablyOuterOnly U S n then none
    else if refsOuterColumn U outerRefCols n then
      match correlationKey U S outerRefCols n, classify outerRefCols ns with
      | some key, some (keys, inner) => some (key :: keys, inner)
      | _, _ => none
    else
      match classify outerRefCols ns with
      | some (keys, inner) => some (keys, n :: inner)
      | none => none

end Names

section Aggregates

variable (U : Unicode)

def aggFunc (name : String) : Option AggFunc :=
  [("count", AggFunc.count), ("sum", .sum), ("min", .min), ("max", .max), ("avg", .avg)].lookup
    (U.lower name)

def aggOf : Node → Option AggExpr
  | .funcCall name args distinct _ _ => (aggFunc U name).map fun func => ⟨func, args.head?, distinct⟩
  | _ => none

def isAggregate (n : Node) : Bool := (aggOf U n).isSome

def aggregateLeaf (n : Node) : List Node := if isAggregate U n then [n] else []

def aggInto : Node → Bool
  | .window .. => false
  | _ => true

-- `FindAllAggregates`, whose first is `FindNestedAggregate`.
def findAllAggregates (n : Node) : List Node :=
  n.walk (aggregateLeaf U) fun m => !isAggregate U m && aggInto m

def AggExpr.strip (a : AggExpr) : AggExpr := { a with input := a.input.map stripTableQualifiers }

def slotInto : Node → Bool
  | .funcCall .. | .binaryOp .. | .unaryOp .. | .paren .. | .cast .. => true
  | _ => false

-- Every aggregate below arithmetic, casts and function calls becomes the one slot.
def replaceAggregate (slot : String) : Node → Node :=
  Node.rewrite (fun m => if isAggregate U m then some (.colRef "" slot) else none) slotInto

def slotName (idx : Nat) : String := "__scalar_" ++ toString idx

def blocked (S : Scope) (info : SelectInfo) : Bool :=
  (info.havingExpr.toList ++ (info.groupByExprs ++ [info.column])).any (namesEnclosingQuery U S)

def tryDecorrelateScalarSubquery (S : Scope) (bodies : String → Option SelectInfo) (pred : Node)
    (idx : Nat) : Option Decorrelated := do
  let sql ← findScalarSubqueryComparison pred
  let info ← bodies sql
  if blocked U S info then none
  else
    let (keys, innerOnly) ← classify U S (outerRefCols U S info.whereExpr) (flattenASTNodes info.whereExpr)
    if keys = [] then none
    else
      let call ← (findAllAggregates U info.column).head?
      let agg ← aggOf U call
      let slot := slotName idx
      some {
        keys := keys
        innerFilter := innerOnly.map stripTableQualifiers
        agg := agg.strip
        slot := slot
        pred := replaceSubqueryInExpr (replaceAggregate U slot info.column) pred }

end Aggregates

abbrev Tuple (V : Type) := String → Option V

structure Aggregates (V : Type) where
  ofNat : Nat → V
  reduce : AggFunc → List V → Option V
  reduce_nil : ∀ func, reduce func [] = none
  dedup : List V → List V
  dedup_nil : dedup [] = []

variable {V : Type} (U : Unicode) (I : Interp V) (A : Aggregates V)

def Aggregates.value (a : AggExpr) (rows : List (Row V)) : Option V :=
  match a.func, a.input with
  | .count, none => some (A.ofNat rows.length)
  | func, input =>
    let vs := rows.filterMap fun r => (input.map (Node.eval I r)).join
    let vs := if a.distinct then A.dedup vs else vs
    if func = .count then some (A.ofNat vs.length) else A.reduce func vs

-- GROUP BY takes NULL keys together.
def sameKey : Option V → Option V → Bool
  | none, none => true
  | some a, some b => I.same a b
  | _, _ => false

def innerRow (t : Tuple V) : Row V := fun _ column => t column

def bodyRow (S : Scope) (ρ : Row V) (t : Tuple V) : Row V := fun table column =>
  if S.isOuter U table column then ρ table column else t column

def aggTable : String := "__agg"

def replaceAllAggregates : Node → Node :=
  Node.rewrite (fun m => if isAggregate U m then some (.colRef aggTable (m.text U)) else none) fun _ => true

def groupRow (n : Node) (rows : List (Row V)) : Row V := fun table column =>
  if table = aggTable then
    (((findAllAggregates U n).find? (·.text U = column)).bind (aggOf U)).bind (A.value I · rows)
  else rows.headD (nullRow V) table column

def overGroup (n : Node) (rows : List (Row V)) : Option V :=
  (replaceAllAggregates U n).eval I (groupRow U I A n rows)

def bodyRows (S : Scope) (info : SelectInfo) (inner : List (Tuple V)) (ρ : Row V) : List (Option V) :=
  let rows := (inner.map (bodyRow U S ρ)).filter fun r => info.whereExpr.truth I r = .true
  let grouped := if info.groupByExprs.isEmpty then [rows]
    else (groups (fun r s => info.groupByExprs.all fun e => sameKey I (e.eval I r) (e.eval I s)) id rows).map (·.2)
  let kept := grouped.filter fun g =>
    info.havingExpr.all fun having => I.truth (overGroup U I A having g) = .true
  let out := (kept.map (overGroup U I A info.column)).drop (info.offset.getD 0)
  match info.limit with
  | some limit => out.take limit
  | none => out

def answering (sql : String) (rows : Row V → List (Option V)) : Interp V :=
  { I with subqueryRows := fun ρ s => if s = sql then rows ρ else I.subqueryRows ρ s }

def slotted (slot : String) (ρ : Row V) (v : Option V) : Row V := fun table column =>
  if table = "" ∧ column = slot then v else ρ table column

namespace Decorrelated

variable (d : Decorrelated) (S : Scope)

def filtered (inner : List (Tuple V)) : List (Tuple V) :=
  inner.filter fun t => d.innerFilter.all fun n => n.truth I (innerRow t) = .true

def sameGroup (s t : Tuple V) : Bool := d.keys.all fun k => sameKey I (s k.innerCol) (t k.innerCol)

-- The probe's key: by its qualifier where the outer plan has it, else bare.
def outerKey (ρ : Row V) (k : DecorrelatedKey) : Option V :=
  if S.outerTables.contains (U.lower k.outerQualifier) then ρ k.outerQualifier k.outerColumn
  else ρ "" k.outerColumn

def onKeys (ρ : Row V) (t : Tuple V) : Bool :=
  d.keys.all fun k => I.cmpNull .eq (outerKey U S ρ k) (t k.innerCol) = .true

def aggregated (inner : List (Tuple V)) : List (Tuple V × Option V) :=
  (groups (d.sameGroup I) id (d.filtered I inner)).map fun g =>
    (g.1, A.value I d.agg (g.2.map innerRow))

def rows (J : Interp V) (outer : List (Row V)) (inner : List (Tuple V)) : List (Row V) :=
  ((join (fun ρ g => d.onKeys U I S ρ g.1) .left outer (d.aggregated I A inner)).filter fun
    | (some ρ, g) => d.pred.truth J (slotted d.slot ρ (g.bind (·.2))) = .true
    | (none, _) => false).filterMap (·.1)

end Decorrelated

end Wadjet.Logical.ScalarDecorrelate
