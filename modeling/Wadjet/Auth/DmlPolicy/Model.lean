import Wadjet.Logical.MaskSubstitution
import Wadjet.Logical.PlanPolicy.Visible

namespace Wadjet.Auth.DmlPolicy

open Wadjet.Sql Wadjet.Logical
open Wadjet.Logical.PlanPolicy (World Record Database)

structure SetClause where
  column : String
  value : Node

-- The statements the door reads, each with its target and the name the
-- statement gives it. An expression is its tree; a missing WHERE is `none`.
inductive Statement where
  | delete (table asName : String) (condition : Option Node)
  | update (table asName : String) (sets : List SetClause) (condition : Option Node)
  | insert (table : String) (columns : List String)
  | merge (target asName : String)

structure Refusal where
  state : String
  message : String
  deriving DecidableEq, Repr

inductive Action where
  | read
  | write
  deriving DecidableEq, Repr

structure Provider where
  enabled : Bool
  bindError : Option String
  hasIdentity : Bool
  hasEvaluator : Bool
  tableAccess : String → Action → Option Refusal
  columnPolicies : String → Except Refusal (List ColumnPolicy)
  resolveTableName : String → String

def dmlTarget : Statement → String × String
  | .delete table asName _ => (table, asName)
  | .update table asName _ _ => (table, asName)
  | .insert table _ => (table, "")
  | .merge target asName => (target, asName)

def readsColumns (n : Node) : Bool :=
  match n.columnRefs with
  | none => true
  | some refs => !refs.isEmpty

def dmlReadsTarget : Statement → Bool
  | .delete _ _ condition => condition.any readsColumns
  | .update _ _ sets condition => condition.any readsColumns || sets.any fun s => readsColumns s.value
  | .insert _ _ => false
  | .merge _ _ => true

section Enforce

variable (U : Unicode) (parse : String → Option Node)

def isDenied (policies : List ColumnPolicy) (name : String) : Bool :=
  policies.any fun p => p.denied && U.lower p.column == U.lower name

def cannotRewrite (table : String) : Refusal :=
  ⟨"0A000", "a security policy applies to \"" ++ table ++
    "\" and this expression cannot be rewritten to honour it"⟩

def rewriteExpr (table relation : String) (policies : List ColumnPolicy) (n : Node) :
    Except Refusal Node :=
  match n.columnRefs with
  | none => .error (cannotRewrite table)
  | some refs =>
    match refs.find? fun r => isDenied U policies r.2 with
    | some r => .error ⟨"42703", "column \"" ++ r.2 ++ "\" does not exist"⟩
    | none =>
      match substituteMaskedColumns U parse n relation policies with
      | none => .error (cannotRewrite table)
      | some out => .ok out

def rewriteCondition (table relation : String) (policies : List ColumnPolicy) :
    Option Node → Except Refusal (Option Node)
  | none => .ok none
  | some n => (rewriteExpr U parse table relation policies n).map some

def checkTarget (table : String) (policies : List ColumnPolicy) (name : String) :
    Except Refusal Unit :=
  if isDenied U policies name then
    .error ⟨"42703", "column \"" ++ name ++ "\" of relation \"" ++ table ++ "\" does not exist"⟩
  else .ok ()

def rewriteSets (table relation : String) (policies : List ColumnPolicy) :
    List SetClause → Except Refusal (List SetClause)
  | [] => .ok []
  | s :: rest => do
    checkTarget U table policies s.column
    let value ← rewriteExpr U parse table relation policies s.value
    let rest ← rewriteSets table relation policies rest
    return ⟨s.column, value⟩ :: rest

def rewriteStatement (table relation : String) (policies : List ColumnPolicy) :
    Statement → Except Refusal Statement
  | .delete t a condition => do
    let condition ← rewriteCondition U parse table relation policies condition
    return .delete t a condition
  | .update t a sets condition => do
    let condition ← rewriteCondition U parse table relation policies condition
    let sets ← rewriteSets U parse table relation policies sets
    return .update t a sets condition
  | .insert t columns =>
    match columns.find? (isDenied U policies) with
    | some c =>
      .error ⟨"42703", "column \"" ++ c ++ "\" of relation \"" ++ table ++ "\" does not exist"⟩
    | none => .ok (.insert t columns)
  | .merge _ _ =>
    .error ⟨"0A000", "MERGE is not available on \"" ++ table ++
      "\" for this identity: a column security policy applies " ++
      "and the statement's clauses are not rewritten to honour it"⟩

def relationName (table asName : String) : String := if asName = "" then table else asName

def enforceDMLPolicies (A : Provider) (stmt : Statement) : Except Refusal Statement :=
  if !A.enabled then .ok stmt
  else match A.bindError with
  | some message => .error ⟨"42501", message⟩
  | none =>
    if !A.hasIdentity then .error ⟨"42501", "permission denied: authentication required"⟩
    else if (dmlTarget stmt).1 = "" then .ok stmt
    else
      let table := A.resolveTableName (dmlTarget stmt).1
      match A.tableAccess table .write, A.tableAccess table .read with
      | some refusal, _ => .error refusal
      | none, some refusal => if dmlReadsTarget stmt then .error refusal else .ok stmt
      | none, none =>
        if !A.hasEvaluator then .ok stmt
        else match A.columnPolicies table with
        | .error refusal => .error refusal
        | .ok [] => .ok stmt
        | .ok policies =>
          rewriteStatement U parse table (relationName table (dmlTarget stmt).2) policies stmt

end Enforce

variable {V : Type} (W : World V) (db : Database V)

def Statement.selects (r : Record V) : Statement → Bool
  | .delete _ _ condition | .update _ _ _ condition =>
    condition.all fun n => n.truth (W.engine db) (W.row r) = .true
  | _ => false

def Statement.assigned (r : Record V) : Statement → List (String × Option V)
  | .update _ _ sets _ => sets.map fun s => (s.column, s.value.eval (W.engine db) (W.row r))
  | _ => []

def Statement.touched (stmt : Statement) (rows : List (Record V)) : List (Record V) :=
  rows.filter fun r => stmt.selects W db r

end Wadjet.Auth.DmlPolicy
