import Wadjet.Logical.Predicate
import Wadjet.Sql.Refs

namespace Wadjet.Logical

open Wadjet.Sql

def isStrictNull : Node → Bool
  | .colRef _ _ => true
  | .paren inner => isStrictNull inner
  | .unaryOp _ inner => isStrictNull inner
  | .binaryOp left _ right => isStrictNull left || isStrictNull right
  | .cast inner _ _ => isStrictNull inner
  | _ => false

def exprRejectsNulls : Node → Bool
  | .paren inner => exprRejectsNulls inner
  | .and left right => exprRejectsNulls left || exprRejectsNulls right
  | .or left right => exprRejectsNulls left && exprRejectsNulls right
  | .not inner => isStrictNull inner
  | .cmp left _ right => isStrictNull left || isStrictNull right
  | .like left _ pattern => isStrictNull left || isStrictNull pattern
  | .between left _ low high => isStrictNull left || isStrictNull low || isStrictNull high
  | .inExpr left _ _ => isStrictNull left
  | .is left negated check =>
    isStrictNull left &&
      match check with
      | .null => negated
      | .true | .false => !negated
  | _ => false

-- A predicate kept only as text is parsed first.
def rejectsNulls (tryParseExpr : String → Option Node) (pred : Predicate) : Bool :=
  match pred.ast.or (tryParseExpr pred.raw) with
  | some expr => exprRejectsNulls expr
  | none => false

section Padded

variable {V : Type} (I : Interp V) (ρ : Row V)

def NullOn (e : Node) : Prop := ∀ r ∈ e.refs, ρ r.1 r.2 = none

variable {I ρ}

theorem NullOn.child {e c : Node} (h : NullOn ρ e) (hc : c ∈ e.children) : NullOn ρ c :=
  fun r hr => h r (Node.mem_walk_of_child hc hr)

theorem eval_of_isStrictNull (e : Node) (hs : isStrictNull e) (hn : NullOn ρ e) :
    e.eval I ρ = none := by
  fun_induction isStrictNull e with
  | case1 table column => exact hn (table, column) (by simp [Node.refs, Node.walk, Node.refLeaf])
  | case2 inner ih => exact ih hs (hn.child (by simp))
  | case3 op inner ih =>
    rw [Node.eval, ih hs (hn.child (by simp)), Option.bind_none]
  | case4 left op right ihl ihr =>
    rw [Bool.or_eq_true] at hs
    rcases hs with hs | hs
    · rw [Node.eval, ihl hs (hn.child (by simp)), Option.bind_none]
    · rw [Node.eval, ihr hs (hn.child (by simp))]
      simp
  | case5 inner typeName column ih =>
    rw [Node.eval, ih hs (hn.child (by simp)), Option.bind_none]
  | case6 => cases hs

theorem evalTuple_of_isStrictNull (e : Node) (hs : isStrictNull e) : e.evalTuple I ρ = none := by
  fun_induction isStrictNull e with
  | case2 inner ih => exact ih hs
  | case6 => cases hs
  | case1 | case3 | case4 | case5 => rfl

variable (I ρ)

-- What keeps a predicate that `exprRejectsNulls` accepts from holding on the
-- padded row. IS [NOT] DISTINCT FROM, NOT BETWEEN and NOT IN over a subquery
-- can hold there; the other atoms cannot.
def Harmless : Node → Prop
  | .paren inner => Harmless inner
  | .and left right =>
    (if exprRejectsNulls left then Harmless left else left.truth I ρ ≠ .true) ∨
      (if exprRejectsNulls right then Harmless right else right.truth I ρ ≠ .true)
  | .or left right => Harmless left ∧ Harmless right
  | .cmp left .isDistinctFrom right => left.eval I ρ = none ∧ right.eval I ρ = none
  | .cmp left .isNotDistinctFrom right =>
    -- a row value beside a scalar does not compile
    left.evalTuple I ρ ≠ none ∨ right.evalTuple I ρ ≠ none ∨
      left.eval I ρ ≠ none ∨ right.eval I ρ ≠ none
  | .between left negated low high =>
    negated → ∀ a, left.eval I ρ = some a →
      I.bound .ge a (low.eval I ρ) ≠ .false ∧ I.bound .le a (high.eval I ρ) ≠ .false
  | .inExpr _ negated values =>
    negated → ∀ sql array, values = [.subquery sql array] → I.subqueryRows ρ sql ≠ []
  | _ => True

variable {I ρ}

private theorem truth_cmp_iff (left right : Node) (op : CmpOp)
    (hs : isStrictNull left || isStrictNull right) (hn : NullOn ρ (.cmp left op right)) :
    (Node.cmp left op right).truth I ρ ≠ .true ↔ Harmless I ρ (.cmp left op right) := by
  -- the strict side is a NULL scalar
  have hside : (left.eval I ρ = none ∧ left.evalTuple I ρ = none) ∨
      (right.eval I ρ = none ∧ right.evalTuple I ρ = none) := by
    rw [Bool.or_eq_true] at hs
    rcases hs with hs | hs
    · exact Or.inl ⟨eval_of_isStrictNull left hs (hn.child (by simp)),
        evalTuple_of_isStrictNull left hs⟩
    · exact Or.inr ⟨eval_of_isStrictNull right hs (hn.child (by simp)),
        evalTuple_of_isStrictNull right hs⟩
  have hl := Node.eval_of_evalTuple I ρ left
  have hr := Node.eval_of_evalTuple I ρ right
  simp only [Node.truth, Node.eval]
  rcases hside with ⟨hv, ht⟩ | ⟨hv, ht⟩ <;> rw [hv, ht]
  · rcases hrt : right.evalTuple I ρ with _ | bs
    · cases hrv : right.eval I ρ <;>
        cases op <;> simp [Harmless, Interp.compareOp, Interp.distinct, hv, ht, hrt, hrv]
    · have hrv := hr (by simp [hrt])
      cases op <;> simp [Harmless, hv, ht, hrt, hrv]
  · rcases hlt : left.evalTuple I ρ with _ | as
    · cases hlv : left.eval I ρ <;>
        cases op <;> simp [Harmless, Interp.compareOp, Interp.distinct, hv, ht, hlt, hlv]
    · have hlv := hl (by simp [hlt])
      cases op <;> simp [Harmless, hv, ht, hlt, hlv]

private theorem truth_between_iff (left low high : Node) (negated : Bool)
    (hs : isStrictNull left || isStrictNull low || isStrictNull high)
    (hn : NullOn ρ (.between left negated low high)) :
    (Node.between left negated low high).truth I ρ ≠ .true ↔
      Harmless I ρ (.between left negated low high) := by
  simp only [Node.truth, Node.eval, Harmless]
  cases hv : left.eval I ρ with
  | none => simp [Interp.inRange]
  | some a =>
    have hbound : low.eval I ρ = none ∨ high.eval I ρ = none := by
      simp only [Bool.or_eq_true] at hs
      rcases hs with (hs | hs) | hs
      · rw [eval_of_isStrictNull left hs (hn.child (by simp))] at hv
        cases hv
      · exact Or.inl (eval_of_isStrictNull low hs (hn.child (by simp)))
      · exact Or.inr (eval_of_isStrictNull high hs (hn.child (by simp)))
    cases negated with
    | false => rcases hbound with h | h <;> simp [h, Interp.inRange, Interp.bound, Truth.notIf]
    | true => simp [Interp.inRange, Truth.notIf, not_or]

private theorem truth_in_iff (left : Node) (negated : Bool) (values : List Node)
    (hs : isStrictNull left) (hn : NullOn ρ (.inExpr left negated values)) :
    (Node.inExpr left negated values).truth I ρ ≠ .true ↔
      Harmless I ρ (.inExpr left negated values) := by
  have hleft := eval_of_isStrictNull (I := I) left hs (hn.child (by simp))
  simp only [Node.truth, Node.eval, evalTuple_of_isStrictNull left hs, hleft, Harmless, Interp.truth_box]
  rcases Node.members_cases I ρ values with ⟨sql, array, rfl, hset⟩ | ⟨hnot, vs, hlist⟩
  · rw [hset]
    cases negated <;> cases hrows : I.subqueryRows ρ sql <;>
      simp [Interp.memberOf, Interp.memberSet, Interp.member, Truth.notIf, hrows]
  · rw [hlist]
    simp only [Interp.memberOf, Interp.member, Truth.notIf_unknown, ne_eq, reduceCtorEq,
      not_false_eq_true, true_iff]
    intro _ sql array hvalues
    exact absurd hvalues (hnot sql array)

theorem truth_ne_true_iff_harmless (e : Node) (hr : exprRejectsNulls e) (hn : NullOn ρ e) :
    e.truth I ρ ≠ .true ↔ Harmless I ρ e := by
  fun_induction exprRejectsNulls e with
  | case1 inner ih =>
    exact ih hr (hn.child (by simp))
  | case2 left right ihl ihr =>
    have hl : left.truth I ρ ≠ .true ↔
        if exprRejectsNulls left then Harmless I ρ left else left.truth I ρ ≠ .true := by
      split
      · exact ihl ‹_› (hn.child (by simp))
      · exact Iff.rfl
    have hr : right.truth I ρ ≠ .true ↔
        if exprRejectsNulls right then Harmless I ρ right else right.truth I ρ ≠ .true := by
      split
      · exact ihr ‹_› (hn.child (by simp))
      · exact Iff.rfl
    rw [Harmless, ← hl, ← hr, Node.truth_and, Ne, Truth.and_eq_true]
    exact not_and_or
  | case3 left right ihl ihr =>
    rw [Bool.and_eq_true] at hr
    rw [Harmless, ← ihl hr.1 (hn.child (by simp)),
      ← ihr hr.2 (hn.child (by simp)), Node.truth_or, Ne, Truth.or_eq_true]
    exact not_or
  | case4 inner =>
    have hnone : inner.truth I ρ = .unknown := by
      rw [Node.truth, eval_of_isStrictNull inner hr (hn.child (by simp))]
      rfl
    simp [Harmless, hnone]
  | case5 left op right => exact truth_cmp_iff left right op hr hn
  | case6 left negated pattern =>
    rw [Bool.or_eq_true] at hr
    have hnone : I.likeMatch (left.eval I ρ) (pattern.eval I ρ) = .unknown := by
      rcases hr with hr | hr
      · rw [eval_of_isStrictNull left hr (hn.child (by simp))]
        rfl
      · rw [eval_of_isStrictNull pattern hr (hn.child (by simp))]
        cases left.eval I ρ <;> rfl
    simp [Harmless, Node.truth, Node.eval, hnone]
  | case7 left negated low high => exact truth_between_iff left low high negated hr hn
  | case8 left negated values => exact truth_in_iff left negated values hr hn
  | case9 left negated check =>
    rw [Bool.and_eq_true] at hr
    have hnone := eval_of_isStrictNull (I := I) left hr.1 (hn.child (by simp))
    cases check <;> simp_all [Harmless, Node.truth, Node.eval, Interp.isTest]
  | case10 => cases hr

-- The trees on which the operators that can hold on a padded row do not decide.
def Plain : Node → Bool
  | .paren inner => Plain inner
  | .and left right =>
    (exprRejectsNulls left && Plain left) || (exprRejectsNulls right && Plain right)
  | .or left right => Plain left && Plain right
  | .cmp _ op _ => op ≠ .isDistinctFrom ∧ op ≠ .isNotDistinctFrom
  | .between left negated _low _high => !negated || isStrictNull left
  | .inExpr _ negated values =>
    !negated || match values with
      | [.subquery _ _] => false
      | _ => true
  | _ => true

theorem harmless_of_plain (e : Node) (hp : Plain e) (hn : NullOn ρ e) : Harmless I ρ e := by
  fun_induction Plain e with
  | case1 inner ih => exact ih hp (hn.child (by simp))
  | case2 left right ihl ihr =>
    simp only [Bool.or_eq_true, Bool.and_eq_true] at hp
    rcases hp with ⟨hr, hp⟩ | ⟨hr, hp⟩
    · exact Or.inl (by rw [if_pos hr]; exact ihl hp (hn.child (by simp)))
    · exact Or.inr (by rw [if_pos hr]; exact ihr hp (hn.child (by simp)))
  | case3 left right ihl ihr =>
    rw [Bool.and_eq_true] at hp
    exact ⟨ihl hp.1 (hn.child (by simp)),
      ihr hp.2 (hn.child (by simp))⟩
  | case4 left op right =>
    cases op <;> simp_all [Harmless]
  | case5 left negated low high =>
    intro hneg a ha
    simp only [hneg] at hp
    rw [eval_of_isStrictNull left hp (hn.child (by simp))] at ha
    cases ha
  | case6 left negated values => 
    rintro rfl sql array rfl
    simp at hp
  | case7 e h₁ h₂ h₃ h₄ h₅ h₆ =>
    cases e
    case between left negated low high => exact absurd rfl (h₅ left negated low high)
    all_goals first | trivial | simp_all

-- Strictness is sound. Rejection is sound exactly where the atoms that decide
-- it are harmless, so on every plain tree.
theorem rejectsNulls_on_padded_row (tryParseExpr : String → Option Node) (e : Node) (raw : String)
    (fromPolicy : Bool) (hn : NullOn ρ e) :
    (isStrictNull e → e.eval I ρ = none) ∧
    (rejectsNulls tryParseExpr ⟨some e, raw, fromPolicy⟩ →
      (e.truth I ρ ≠ .true ↔ Harmless I ρ e) ∧ (Plain e → e.truth I ρ ≠ .true)) := by
  refine ⟨fun hs => eval_of_isStrictNull e hs hn, fun hr => ?_⟩
  have hiff := truth_ne_true_iff_harmless (I := I) e hr hn
  exact ⟨hiff, fun hp => hiff.mpr (harmless_of_plain e hp hn)⟩

end Padded

theorem rejectsNulls_on_padded_row_eq :
    (Node.cmp (.colRef "r" "a") .eq (.lit "x" .string)).truth Interp.text (nullRow String) ≠ .true :=
  ((rejectsNulls_on_padded_row (fun _ => none) (.cmp (.colRef "r" "a") .eq (.lit "x" .string)) "" false
    fun _ _ => rfl).2 (by decide)).2 (by decide)

-- `r.a IS DISTINCT FROM 'x'`, `r.a IS NOT DISTINCT FROM r.b` and
-- `'x' NOT BETWEEN r.a AND 'b'`.
def heldWhenPadded : List Node :=
  [.cmp (.colRef "r" "a") .isDistinctFrom (.lit "x" .string),
    .cmp (.colRef "r" "a") .isNotDistinctFrom (.colRef "r" "b"),
    .between (.lit "x" .string) true (.colRef "r" "a") (.lit "b" .string)]

theorem rejectsNulls_accepts_heldWhenPadded :
    heldWhenPadded ≠ [] ∧ ∀ e ∈ heldWhenPadded, rejectsNulls (fun _ => none) ⟨some e, e.text Unicode.ascii, false⟩ ∧
      e.truth Interp.text (nullRow String) = .true := by
  refine ⟨List.cons_ne_nil _ _, ?_⟩
  decide

end Wadjet.Logical
