import Wadjet.Data.Join
import Wadjet.Logical.RejectsNulls

namespace Wadjet.Logical.JoinPushdown

open Wadjet.Sql Wadjet.Data

-- A scan answers to `names`; `cond` holds the terms of the ON text.
inductive Plan where
  | scan (names columns : List String)
  | filter (preds : List Node) (child : Plan)
  | join (kind : JoinKind) (cond : List Node) (left right : Plan)
  deriving Repr

namespace Plan

def tables : Plan → List String
  | .scan names _ => names
  | .filter _ child => child.tables
  | .join _ _ left right => left.tables ++ right.tables

def columns : Plan → List String
  | .scan _ columns => columns
  | .filter _ child => child.columns
  | .join _ _ left right => left.columns ++ right.columns

-- The owner of a bare column; a scan met later takes a name over.
def colToTable (U : Unicode) : Plan → List (String × String)
  | .scan names columns => columns.map fun column => (U.lower column, names.headD "")
  | .filter _ child => child.colToTable U
  | .join _ _ left right => right.colToTable U ++ left.colToTable U

end Plan

def collectInto : Node → Bool
  | .anyAll .. | .arrayLit _ | .tuple _ | .window .. => false
  | _ => true

variable (U : Unicode) (colToTable : List (String × String))

def collectLeaf : Node → List (Option String)
  | .colRef table column => [if table ≠ "" then some table else colToTable.lookup (U.lower column)]
  | .subquery _ _ | .exists _ _ => [none]
  | _ => []

def collectColTableRefs (expr : Node) : List (Option String) :=
  expr.walk (collectLeaf U colToTable) collectInto

-- `none` when a reference stays unresolved.
def predicateTableRefs (pred : Node) : Option (List String) :=
  let refs := collectColTableRefs U colToTable pred
  if refs.all Option.isSome then some refs.reduceOption else none

def nullSupplyingSides : JoinKind → Bool × Bool
  | .left => (false, true)
  | .right => (true, false)
  | .full => (true, true)
  | _ => (false, false)

def demoteJoinKind : JoinKind → Bool → Bool → JoinKind
  | .left, _, true => .inner
  | .right, true, _ => .inner
  | .full, true, true => .inner
  | .full, true, false => .left
  | .full, false, true => .right
  | kind, _, _ => kind

def isBareColRef : Node → Bool
  | .paren inner => isBareColRef inner
  | .colRef _ _ => true
  | _ => false

def isJoinKeyEquality : Node → Bool
  | .paren inner => isJoinKeyEquality inner
  | .cmp left .eq right => isBareColRef left && isBareColRef right
  | _ => false

inductive Placement where
  | left
  | right
  | above
  deriving DecidableEq, Repr

-- Where one WHERE term goes. A semi or anti join's build side takes none.
def placement (kind : JoinKind) (left right : Plan) (pred : Node) : Placement :=
  let colMap := if kind.answersLeft then left.colToTable U else right.colToTable U ++ left.colToTable U
  match predicateTableRefs U colMap pred with
  | none | some [] => .above
  | some (table :: tables) =>
    if (table :: tables).all left.tables.contains then
      if !(nullSupplyingSides kind).1 || exprRejectsNulls pred then .left else .above
    else if (table :: tables).all right.tables.contains && !kind.answersLeft then
      if !(nullSupplyingSides kind).2 || exprRejectsNulls pred then .right else .above
    else .above

def flattenANDPredicates (preds : List Node) : List Node := preds.flatMap flattenANDNodes

def splitJoinConjuncts (cond : List Node) : List Node := cond.flatMap flattenANDNodes

def takeJoinCondResiduals (kind : JoinKind) (cond : List Node) : JoinKind × List Node × List Node :=
  match kind with
  | .inner | .cross =>
    let parts := splitJoinConjuncts cond
    let keys := parts.filter isJoinKeyEquality
    let residuals := parts.filter fun part => !isJoinKeyEquality part
    if residuals.isEmpty then (kind, cond, [])
    else if keys.isEmpty then (.cross, [], residuals)
    else (kind, keys, residuals)
  | _ => (kind, cond, [])

section Push

-- `rec` is `pushdownPredicates`, for the filters wrapped around the inputs.
variable (U : Unicode) (rec : Plan → Option Plan)

variable (preds : List Node)

def wrapChild (child : Plan) : Option Plan :=
  if preds.isEmpty then some child else rec (.filter preds child)

structure Split where
  left : List Node
  right : List Node
  above : List Node
  kind : JoinKind
  cond : List Node
  deriving Repr

variable (kind : JoinKind) (cond : List Node) (left right : Plan)

def splitFilter : Split :=
  let side := placement U kind left right
  let flat := flattenANDPredicates preds
  let leftPreds := flat.filter (side · = .left)
  let rightPreds := flat.filter (side · = .right)
  let remaining := flat.filter (side · = .above)
  -- on a padded side only a predicate that rejects NULLs was placed
  let demoteLeft := (nullSupplyingSides kind).1 && !leftPreds.isEmpty
  let demoteRight := (nullSupplyingSides kind).2 && !rightPreds.isEmpty
  let taken :=
    if demoteLeft || demoteRight then
      takeJoinCondResiduals (demoteJoinKind kind demoteLeft demoteRight) cond
    else (kind, cond, [])
  ⟨leftPreds, rightPreds, remaining ++ taken.2.2, taken.1, taken.2.1⟩

def pushFilterThroughJoin : Option Plan :=
  if (flattenANDPredicates preds).isEmpty then some (.filter preds (.join kind cond left right))
  else
    let split := splitFilter U preds kind cond left right
    (wrapChild rec split.left left).bind fun left' =>
      (wrapChild rec split.right right).bind fun right' =>
        let joined := Plan.join split.kind split.cond left' right'
        some (if split.above.isEmpty then joined else .filter split.above joined)

-- The sides whose own ON terms may move into the input.
def condSides : JoinKind → Bool × Bool
  | .inner | .cross => (true, true)
  | .left => (false, true)
  | .right => (true, false)
  | _ => (false, false)

def condPlacement (part : Node) : Placement :=
  match predicateTableRefs U (right.colToTable U ++ left.colToTable U) part with
  | none | some [] => .above
  | some (table :: tables) =>
    if (table :: tables).all left.tables.contains && (condSides kind).1 then .left
    else if (table :: tables).all right.tables.contains && (condSides kind).2 then .right
    else .above

def extractJoinCondPredicates : Option Plan :=
  let parts := splitJoinConjuncts cond
  let side := condPlacement U kind left right
  let leftParts := parts.filter (side · = .left)
  let rightParts := parts.filter (side · = .right)
  if parts.length < 2 || (leftParts.isEmpty && rightParts.isEmpty) then
    some (.join kind cond left right)
  else
    (wrapChild rec leftParts left).bind fun left' =>
      (wrapChild rec rightParts right).bind fun right' =>
        -- an ON with nothing left is written `1 = 1`
        some (.join kind (parts.filter (side · = .above)) left' right')

end Push

-- Out of fuel is `none`.
def pushdownPredicates (U : Unicode) : Nat → Plan → Option Plan
  | 0, _ => none
  | _ + 1, .scan names columns => some (.scan names columns)
  | fuel + 1, .filter preds child =>
    (pushdownPredicates U fuel child).bind fun child' =>
      match child' with
      | .join kind cond left right =>
        pushFilterThroughJoin U (pushdownPredicates U fuel) preds kind cond left right
      | _ => some (.filter preds child')
  | fuel + 1, .join kind cond left right =>
    (pushdownPredicates U fuel left).bind fun left' =>
      (pushdownPredicates U fuel right).bind fun right' =>
        extractJoinCondPredicates U (pushdownPredicates U fuel) kind cond left' right'

variable {V : Type} (I : Interp V)

def holds (ns : List Node) (ρ : Row V) : Bool := ns.all fun n => n.truth I ρ = .true

-- `ResolveColumnRef` over the columns of a join: a qualifier that no input answers to is
-- dropped, and the left input's column of that name comes first.
def Plan.toLeft (left right : Plan) (table column : String) : Bool :=
  left.tables.contains table || (!right.tables.contains table && left.columns.contains column)

-- The row of a join; a column of an absent side is NULL.
def merge (toLeft : String → String → Bool) (r : Option (Row V) × Option (Row V)) : Row V := fun table column =>
  if toLeft table column then r.1.bind fun ρ => ρ table column
  else r.2.bind fun ρ => ρ table column

-- `db` answers the stored rows of a scan, which reads its own column under any qualifier.
def Plan.rows (db : List String → List (String → Option V)) : Plan → List (Row V)
  | .scan names columns =>
    (db names).map fun stored _ column => if columns.contains column then stored column else none
  | .filter preds child => (child.rows db).filter (holds I preds)
  | .join kind cond left right =>
    (Data.join (fun ρ ρ' => holds I cond (merge (left.toLeft right) (some ρ, some ρ'))) kind (left.rows db)
      (right.rows db)).map (merge (left.toLeft right))

end Wadjet.Logical.JoinPushdown
