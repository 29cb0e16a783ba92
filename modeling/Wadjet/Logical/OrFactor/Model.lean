import Wadjet.Data.KeyedSets
import Wadjet.Logical.Predicate

namespace Wadjet.Logical.OrFactor

open Wadjet.Sql Wadjet.Data

def unwrapParenOr : Node → Option (Node × Node)
  | .or l r => some (l, r)
  | .paren inner => unwrapParenOr inner
  | _ => none

def extractColAndLit (left right : Node) : Option (Node × Node) :=
  match left, right with
  | .colRef .., .lit .. => some (left, right)
  | .lit .., .colRef .. => some (right, left)
  | _, _ => none

def equality : Node → Option (Node × Node)
  | .cmp left .eq right => extractColAndLit left right
  | _ => none

variable (U : Unicode)

-- The text by which two terms count as one: `strings.ToLower(t.String())`.
def termKey (t : Node) : String := U.lower (t.text U)

-- The keys of the first branch, minus at each later branch those it lacks.
def commonKeys : List (List Node) → List String
  | [] => []
  | first :: rest =>
    rest.foldl (fun common terms => common.filter ((terms.map (termKey U)).contains ·))
      (first.map (termKey U))

variable (branches : List (List Node))

def isCommon (t : Node) : Bool :=
  (commonKeys U branches).contains (termKey U t)

def commonTerms (terms : List Node) : List Node :=
  terms.filter (isCommon U branches)

def remaining (terms : List Node) : List Node :=
  terms.filter (!isCommon U branches ·)

def remainingTerms : List (List Node) :=
  if commonKeys U branches = [] then branches
  else (branches.map (remaining U branches)).filter (· ≠ [])

-- The value set of each column `extractColumnValueSetsFromOR` answers for.
-- Go ranges over the map in no fixed order; the order here is insertion order.
def columnValueSets : List (Entry Node Node) :=
  if branches.length < 2 then []
  else
    let colValues := collect (termKey U) (Node.text U) (branches.map (·.filterMap equality))
    if colValues.length = 1 && branches.all (·.length = 1) then []
    else (colValues.map (·.2)).filter fun entry => 2 ≤ entry.values.length

def inPredicate (entry : Entry Node Node) : Node := .inExpr entry.item false entry.values

def extractColumnValueSetsFromOR : List Predicate :=
  (columnValueSets U branches).map fun entry => .ofNode U (inPredicate entry)

def andBranch : List Node → Option Node
  | [] => none
  | t :: ts => some (buildANDTree t ts)

-- The disjunction of what the branches keep; none when no branch keeps a term.
def simplifiedOR : List Predicate :=
  match (branches.map (remaining U branches)).filterMap andBranch with
  | [] => []
  | b :: bs => [.ofNode U (buildORTree b bs)]

def extractCommonFromORPred (pred : Predicate) : List Predicate :=
  match pred.ast.bind unwrapParenOr with
  | none => [pred]
  | some (l, r) =>
    let branches := (flattenORNodes (.or l r)).map flattenANDNodes
    if branches.length < 2 then [pred]
    else
      let result :=
        if commonKeys U branches = [] then [pred]
        else (commonTerms U branches (branches.headD [])).map (.ofNode U) ++ simplifiedOR U branches
      result ++ extractColumnValueSetsFromOR U (remainingTerms U branches)

end Wadjet.Logical.OrFactor
