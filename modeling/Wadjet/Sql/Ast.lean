import Mathlib.Data.List.Basic

namespace Wadjet.Sql

inductive LiteralKind where
  | string
  | number
  | bool
  | null
  deriving DecidableEq, Repr

inductive BinOp where
  | add
  | sub
  | mul
  | div
  | mod
  | concat
  deriving DecidableEq, Repr

inductive UnOp where
  | neg
  | pos
  deriving DecidableEq, Repr

-- `CmpExpr.Op`. The last two are what `parseIsPostfix` builds for
-- `IS [NOT] DISTINCT FROM`.
inductive CmpOp where
  | eq
  | ne
  | lt
  | le
  | gt
  | ge
  | isDistinctFrom
  | isNotDistinctFrom
  deriving DecidableEq, Repr

inductive IsCheck where
  | null
  | true
  | false
  deriving DecidableEq, Repr

inductive Quantifier where
  | any
  | all
  | some
  deriving DecidableEq, Repr

-- The expression nodes of `ast.go`. What is provenance and not text
-- (`ColRef.Slot`, `ColRef.Bound`, the `Answer` marks, a memoized subquery
-- body) is left out.
inductive Node where
  | colRef (table column : String)
  | lit (value : String) (kind : LiteralKind)
  | literalPlaceholder (name : String)
  | deferredError (state message : String)
  | star (table : String)
  | binaryOp (left : Node) (op : BinOp) (right : Node)
  | unaryOp (op : UnOp) (inner : Node)
  | cmp (left : Node) (op : CmpOp) (right : Node)
  | inExpr (left : Node) (negated : Bool) (values : List Node)
  | between (left : Node) (negated : Bool) (low high : Node)
  | like (left : Node) (negated : Bool) (pattern : Node)
  | is (left : Node) (negated : Bool) (check : IsCheck)
  | and (left right : Node)
  | or (left right : Node)
  | not (inner : Node)
  | paren (inner : Node)
  | funcCall (name : String) (args : List Node) (distinct starred : Bool) (outputLabel : String)
  | caseWhen (subject : Option Node) (whens : List (Node × Node)) (els : Option Node)
  | cast (inner : Node) (typeName : String) (column : Bool)
  | arrayLit (elements : List Node)
  | interval (value : Int) (unit : String)
  | tuple (elements : List Node)
  | anyAll (left : Node) (op : CmpOp) (modifier : Quantifier) (values : List Node)
  | subquery (sql : String) (array : Bool)
  | exists (negated : Bool) (sql : String)
  | window (func : Node) (partitionBy orderBy : List Node)
  deriving Repr

end Wadjet.Sql
