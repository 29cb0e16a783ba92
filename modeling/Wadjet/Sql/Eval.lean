import Wadjet.Truth
import Wadjet.Sql.Ast

namespace Wadjet.Sql

open List

-- A row as an expression sees it: the value of a reference by its qualifier
-- (empty when unqualified) and its column; `none` is NULL.
abbrev Row (V : Type) := String → String → Option V

def nullRow (V : Type) : Row V := fun _ _ => none

-- What the engine knows about values of type `V`, none of them NULL. The
-- expression nodes decide the NULL rules themselves, on top of this.
structure Interp (V : Type) where
  truthy : V → Bool
  ofBool : Bool → V
  truthy_ofBool : ∀ b, truthy (ofBool b) = b
  literal : String → LiteralKind → Option V
  literal_null : ∀ text, literal text .null = none
  interval : Int → String → Option V
  arith : BinOp → V → V → Option V
  unary : UnOp → V → Option V
  -- `compareNull`: two stored values can also be incomparable.
  compare : CmpOp → V → V → Truth
  compare_eq_comm : ∀ a b, compare .eq a b = .true → compare .eq b a = .true
  matchLike : V → V → Bool
  cast : String → Bool → V → Option V
  -- A function sees its arguments, NULLs included, and may do anything.
  func : String → Bool → Bool → List (Option V) → Option V
  array : List (Option V) → V
  toSlice : V → Option (List (Option V))
  -- The rows of a one-column subquery, which may read the enclosing row.
  subqueryRows : Row V → String → List (Option V)

namespace Interp

variable {V : Type} (I : Interp V)

-- `evalBoolNull` on a boxed value.
def truth : Option V → Truth
  | none => .unknown
  | some v => .ofBool (I.truthy v)

def box : Truth → Option V
  | .unknown => none
  | .true => some (I.ofBool true)
  | .false => some (I.ofBool false)

@[simp] theorem truth_box (t : Truth) : I.truth (I.box t) = t := by
  cases t <;> simp [truth, box, I.truthy_ofBool, Truth.ofBool]

@[simp] theorem truth_none : I.truth none = .unknown := rfl

@[simp] theorem box_eq_none (t : Truth) : I.box t = none ↔ t = .unknown := by
  cases t <;> simp [box]

def cmpNull (op : CmpOp) : Option V → Option V → Truth
  | some a, some b => I.compare op a b
  | _, _ => .unknown

@[simp] theorem cmpNull_none_left (op : CmpOp) (b : Option V) : I.cmpNull op none b = .unknown := rfl

@[simp] theorem cmpNull_none_right (op : CmpOp) (a : Option V) :
    I.cmpNull op a none = .unknown := by
  cases a <;> rfl

def same (a b : V) : Bool := I.compare .eq a b = .true

def distinct : Option V → Option V → Bool
  | none, none => false
  | some a, some b => !I.same a b
  | _, _ => true

def compareOp (op : CmpOp) (a b : Option V) : Truth :=
  match op with
  | .isDistinctFrom => .ofBool (I.distinct a b)
  | .isNotDistinctFrom => .ofBool (!I.distinct a b)
  | op => I.cmpNull op a b

def equals (a : V) : Option V → Truth
  | none => .unknown
  | some b => .ofBool (I.same a b)

-- `In.EvalBoolNull` before its `NOT`: the probe's NULL is asked about first.
def member (v : Option V) (candidates : List (Option V)) : Truth :=
  match v with
  | none => .unknown
  | some a => .any (candidates.map (I.equals a))

-- `InSubquery.EvalBoolNull`: an empty set answers before the probe's NULL does.
def memberSet (v : Option V) (rows : List (Option V)) : Truth :=
  if rows.isEmpty then .false else I.member v rows

inductive Candidates (V : Type) where
  | set (rows : List (Option V))
  | list (values : List (Option V))
  | array (value : Option V)

def memberOf (v : Option V) : Candidates V → Truth
  | .set rows => I.memberSet v rows
  | .list values => I.member v values
  | .array value => I.member v [value]

def bound (op : CmpOp) (a : V) : Option V → Truth
  | none => .unknown
  | some b => .ofBool (I.compare op a b = .true)

def inRange (v low high : Option V) : Truth :=
  match v with
  | none => .unknown
  | some a => (I.bound .ge a low).and (I.bound .le a high)

def likeMatch : Option V → Option V → Truth
  | some v, some p => .ofBool (I.matchLike v p)
  | _, _ => .unknown

def isTest (check : IsCheck) (v : Option V) : Bool :=
  match check with
  | .null => v.isNone
  | .true => I.truth v = .true
  | .false => I.truth v = .false

-- `RowCmp` for the ordering operators: the first pair that differs decides.
def rowOrder (op : CmpOp) : List (Option V) → List (Option V) → Truth
  | a :: as, b :: bs =>
    match I.cmpNull .eq a b with
    | .unknown => .unknown
    | .true => rowOrder op as bs
    | .false => I.cmpNull op a b
  | _, _ => .ofBool (op = .le || op = .ge)

variable (op : CmpOp)

-- `compileRowCmp` and `RowCmp.EvalBoolNull`. Rows of unequal width, and an
-- operator with no row form, are refused by the compiler: no value.
def rowCompare (as bs : List (Option V)) : Truth :=
  if as.length ≠ bs.length then .unknown
  else match op with
  | .eq => .all (zipWith (I.cmpNull .eq) as bs)
  | .ne => (Truth.all (zipWith (I.cmpNull .eq) as bs)).not
  | .isDistinctFrom | .isNotDistinctFrom => .unknown
  | op => I.rowOrder op as bs

variable (modifier : Quantifier) (left : Option V)

def quantified (candidates : List (Option V)) : Truth :=
  if modifier = .all then .all (candidates.map (I.cmpNull op left))
  else .any (candidates.map (I.cmpNull op left))

-- `ArrayQuantified`: one candidate that is an array-valued expression.
def arrayQuantified : Option V → Truth
  | none => .unknown
  | some a =>
    match I.toSlice a with
    | none => I.cmpNull op left (some a)
    | some elements => I.quantified op modifier left elements

-- `compileQuantified`. Over a subquery only the two spellings that are
-- membership tests compile.
def anyAll : Candidates V → Option V
  | .set rows =>
    match op, modifier with
    | .eq, .any | .eq, .some => I.box (I.memberSet left rows)
    | .ne, .all => I.box (I.memberSet left rows).not
    | _, _ => none
  | .list values => I.box (I.quantified op modifier left values)
  | .array value => I.box (I.arrayQuantified op modifier left value)

variable (rows : Row V → String → List (Option V))

-- The same engine with other answers to its subqueries.
abbrev withRows : Interp V := { I with subqueryRows := rows }

def Alike (I I' : Interp V) : Prop := ∃ rows, I' = I.withRows rows

theorem Alike.refl : I.Alike I := ⟨I.subqueryRows, rfl⟩

@[simp] theorem withRows_truth : (I.withRows rows).truth = I.truth := rfl

@[simp] theorem withRows_box : (I.withRows rows).box = I.box := rfl

@[simp] theorem withRows_cmpNull : (I.withRows rows).cmpNull = I.cmpNull := rfl

@[simp] theorem withRows_compareOp : (I.withRows rows).compareOp = I.compareOp := rfl

@[simp] theorem withRows_memberOf : (I.withRows rows).memberOf = I.memberOf := rfl

@[simp] theorem withRows_inRange : (I.withRows rows).inRange = I.inRange := rfl

@[simp] theorem withRows_likeMatch : (I.withRows rows).likeMatch = I.likeMatch := rfl

@[simp] theorem withRows_isTest : (I.withRows rows).isTest = I.isTest := rfl

@[simp] theorem withRows_rowOrder : (I.withRows rows).rowOrder op = I.rowOrder op := by
  funext as bs
  induction as generalizing bs with
  | nil => rfl
  | cons a as ih =>
    cases bs with
    | nil => rfl
    | cons b bs => rw [rowOrder, rowOrder, ih, withRows_cmpNull]

@[simp] theorem withRows_rowCompare : (I.withRows rows).rowCompare = I.rowCompare := by
  funext op as bs
  simp only [rowCompare, withRows_cmpNull, withRows_rowOrder]

@[simp] theorem withRows_anyAll : (I.withRows rows).anyAll = I.anyAll := rfl

end Interp

-- A scalar subquery answers its row; more than one row is an error.
def scalarRow {V : Type} : List (Option V) → Option V
  | [v] => v
  | _ => none

section Eval

variable {V : Type} (I : Interp V) (ρ : Row V)

mutual

-- `compileWithCtx` followed by `Eval` on one row. A node the compiler refuses
-- (a row value outside a comparison, a window call, an unsubstituted
-- placeholder) has no value.
def Node.eval : Node → Option V
  | .colRef table column => ρ table column
  | .lit value kind => I.literal value kind
  | .literalPlaceholder _ => none
  | .deferredError _ _ => none
  | .star _ => I.literal "*" .string
  | .binaryOp left op right => left.eval.bind fun a => right.eval.bind fun b => I.arith op a b
  | .unaryOp op inner => inner.eval.bind (I.unary op)
  | .cmp left op right =>
    match left.evalTuple, right.evalTuple with
    | some as, some bs => I.box (I.rowCompare op as bs)
    | none, none => I.box (I.compareOp op left.eval right.eval)
    | _, _ => none
  | .inExpr left negated values =>
    match left.evalTuple with
    | some as => I.box (.notIf negated (.any (Node.evalRows as values)))
    | none => I.box (.notIf negated (I.memberOf left.eval (Node.members values)))
  | .between left negated low high =>
    I.box (.notIf negated (I.inRange left.eval low.eval high.eval))
  | .like left negated pattern => I.box (.notIf negated (I.likeMatch left.eval pattern.eval))
  | .is left negated check => I.box (.ofBool (I.isTest check left.eval != negated))
  | .and left right => I.box ((I.truth left.eval).and (I.truth right.eval))
  | .or left right => I.box ((I.truth left.eval).or (I.truth right.eval))
  | .not inner => I.box (I.truth inner.eval).not
  | .paren inner => inner.eval
  | .funcCall name args distinct starred _ => I.func name distinct starred (Node.evals args)
  | .caseWhen subject whens els =>
    match Node.evalWhens (Node.evalOpt subject) whens with
    | some v => v
    | none => (Node.evalOpt els).join
  | .cast inner typeName column => inner.eval.bind (I.cast typeName column)
  | .arrayLit elements => some (I.array (Node.evals elements))
  | .interval value unit => I.interval value unit
  | .tuple _ => none
  | .anyAll left op modifier values => I.anyAll op modifier left.eval (Node.candidates values)
  | .subquery sql array =>
    if array then some (I.array (I.subqueryRows ρ sql)) else scalarRow (I.subqueryRows ρ sql)
  | .exists negated sql => I.box (.ofBool (!(I.subqueryRows ρ sql).isEmpty != negated))
  | .window _ _ _ => none

def Node.evals : List Node → List (Option V)
  | [] => []
  | n :: ns => n.eval :: Node.evals ns

def Node.members : List Node → Interp.Candidates V
  | [.subquery sql _] => .set (I.subqueryRows ρ sql)
  | [] => .list []
  | v :: values => .list (v.eval :: Node.evals values)

def Node.candidates : List Node → Interp.Candidates V
  | [.subquery sql _] => .set (I.subqueryRows ρ sql)
  | [.arrayLit elements] => .list (Node.evals elements)
  | [value] => .array value.eval
  | [] => .list []
  | v :: w :: values => .list (v.eval :: w.eval :: Node.evals values)

-- The row values of an IN list, compared one by one with a row probe.
def Node.evalRows (probe : List (Option V)) : List Node → List Truth
  | [] => []
  | n :: ns =>
    (match n.evalTuple with
      | some bs => I.rowCompare .eq probe bs
      | none => .unknown) :: Node.evalRows probe ns

-- The fields of a row value of two fields or more, parentheses looked through.
def Node.evalTuple : Node → Option (List (Option V))
  | .tuple elements => if 2 ≤ elements.length then some (Node.evals elements) else none
  | .paren inner => inner.evalTuple
  | _ => none

-- The result of the first WHEN that is taken. A simple CASE compares its
-- subject; a searched one (no subject) asks whether the condition is TRUE.
def Node.evalWhens (subject : Option (Option V)) : List (Node × Node) → Option (Option V)
  | [] => none
  | (cond, result) :: ws =>
    let taken := match subject with
      | some v => I.cmpNull .eq v cond.eval
      | none => I.truth cond.eval
    if taken = .true then some result.eval else Node.evalWhens subject ws

def Node.evalOpt : Option Node → Option (Option V)
  | none => none
  | some n => some n.eval

end

def Node.truth (n : Node) : Truth := I.truth (n.eval I ρ)

namespace Node

@[simp] theorem truth_and (l r : Node) : (Node.and l r).truth I ρ = (l.truth I ρ).and (r.truth I ρ) :=
  I.truth_box _

@[simp] theorem truth_or (l r : Node) : (Node.or l r).truth I ρ = (l.truth I ρ).or (r.truth I ρ) :=
  I.truth_box _

@[simp] theorem truth_not (n : Node) : (Node.not n).truth I ρ = (n.truth I ρ).not :=
  I.truth_box _

@[simp] theorem truth_paren (n : Node) : (Node.paren n).truth I ρ = n.truth I ρ := rfl

theorem evals_eq_map (ns : List Node) : Node.evals I ρ ns = ns.map (Node.eval I ρ) := by
  induction ns with
  | nil => rfl
  | cons n ns ih => rw [Node.evals, ih, map_cons]

theorem eval_of_evalTuple (n : Node) (h : n.evalTuple I ρ ≠ none) : n.eval I ρ = none := by
  cases n with
  | tuple elements => rfl
  | paren inner => exact eval_of_evalTuple inner h
  | _ => exact absurd rfl h

variable (values : List Node)

theorem members_of_length (h : 2 ≤ values.length) :
    Node.members I ρ values = .list (values.map (Node.eval I ρ)) := by
  match values, h with
  | v :: w :: vs, _ => rw [Node.members, Node.evals, evals_eq_map, map_cons, map_cons]; simp

theorem members_cases : (∃ sql array, values = [.subquery sql array] ∧
      Node.members I ρ values = .set (I.subqueryRows ρ sql)) ∨
    (∀ sql array, values ≠ [.subquery sql array]) ∧ ∃ vs, Node.members I ρ values = .list vs := by
  unfold Node.members
  split
  next sql array => exact Or.inl ⟨sql, array, rfl, rfl⟩
  next => exact Or.inr ⟨by simp, _, rfl⟩
  next v vs hnot =>
    refine Or.inr ⟨fun sql array h => ?_, _, rfl⟩
    obtain ⟨rfl, rfl⟩ := cons.inj h
    exact hnot sql array rfl rfl

theorem candidates_of_length (h : 2 ≤ values.length) :
    Node.candidates I ρ values = .list (values.map (Node.eval I ρ)) := by
  match values, h with
  | v :: w :: vs, _ => rw [Node.candidates, evals_eq_map, map_cons, map_cons]

theorem truth_inExpr_colRef (table column : String) (values : List Node) (h : 2 ≤ values.length) :
    (Node.inExpr (.colRef table column) false values).truth I ρ =
      I.member (ρ table column) (values.map (Node.eval I ρ)) := by
  rw [Node.truth, Node.eval, Node.evalTuple, members_of_length I ρ values h]
  · simp [Node.eval, Interp.memberOf, Truth.notIf]
  all_goals simp

theorem truth_eq_colRef_lit (table column value : String) (kind : LiteralKind) :
    (Node.cmp (.colRef table column) .eq (.lit value kind)).truth I ρ =
      I.cmpNull .eq (ρ table column) (I.literal value kind) := by
  simp [Node.truth, Node.eval, Node.evalTuple, Interp.compareOp]

theorem truth_eq_lit_colRef (table column value : String) (kind : LiteralKind) :
    (Node.cmp (.lit value kind) .eq (.colRef table column)).truth I ρ =
      I.cmpNull .eq (I.literal value kind) (ρ table column) := by
  simp [Node.truth, Node.eval, Node.evalTuple, Interp.compareOp]

end Node

end Eval

namespace Interp

variable {V : Type} (I : Interp V)

theorem cmpNull_eq_comm (a b : Option V) (h : I.cmpNull .eq a b = .true) :
    I.cmpNull .eq b a = .true := by
  match a, b, h with
  | some a, some b, h => exact I.compare_eq_comm a b h

theorem member_eq_true (v : Option V) (candidates : List (Option V)) :
    I.member v candidates = .true ↔ ∃ c ∈ candidates, I.cmpNull .eq v c = .true := by
  cases v with
  | none => simp [member]
  | some a =>
    simp only [member, Truth.any_eq_true, mem_map]
    refine exists_congr fun c => and_congr_right fun _ => ?_
    cases c with
    | none => simp [equals]
    | some b => simp [equals, cmpNull, same]

end Interp

-- Values with a decidable order, no arrays, no casts and no functions: enough
-- to run the planner's rewrites on plain columns.
def Interp.plain {V : Type} [DecidableEq V] [LT V] [DecidableLT V] (yes no : V) (h : no ≠ yes)
    (literal : String → V) (arith : BinOp → V → V → Option V) : Interp V where
  truthy v := v = yes
  ofBool b := if b then yes else no
  truthy_ofBool b := by cases b <;> simp [h]
  literal value kind := if kind = .null then none else some (literal value)
  literal_null _ := rfl
  interval _ _ := none
  arith := arith
  unary _ _ := none
  compare op a b := .ofBool (match op with
    | .ne => a ≠ b
    | .lt => a < b
    | .le => ¬ b < a
    | .gt => b < a
    | .ge => ¬ a < b
    | _ => a = b)
  compare_eq_comm a b h := by
    simp only [Truth.ofBool_eq_true, decide_eq_true_eq] at h ⊢
    exact h.symm
  matchLike a b := a = b
  cast _ _ v := some v
  func _ _ _ _ := none
  array _ := no
  toSlice _ := none
  subqueryRows _ _ := []

-- Text columns, compared byte by byte.
def Interp.text : Interp String := .plain "true" "false" (by decide) id fun _ _ _ => none

def Interp.nat : Interp Nat :=
  .plain 1 0 (by decide) (fun text => text.toList.foldl (fun n c => 10 * n + (c.toNat - 48)) 0)
    fun op a b => match op with
      | .add => some (a + b)
      | .sub => some (a - b)
      | .mul => some (a * b)
      | _ => none

end Wadjet.Sql
