import Mathlib.Algebra.Order.Ring.Int
import Mathlib.Tactic.Ring

namespace Wadjet.Engine

def maxDecimalPrecision : Nat := 38

def maxDecimalScale : Nat := 38

def avgScaleIncrement : Nat := 4

def avgScale (inScale : Nat) : Nat :=
  if inScale + avgScaleIncrement > maxDecimalScale then maxDecimalScale else inScale + avgScaleIncrement

inductive DecimalOp where
  | add
  | sub
  | mul
  | div
  | mod
  deriving DecidableEq, Repr

-- Scales are never negative here, so only a precision below the scale or below
-- one is repaired.
def normalizeDecimalPS (p s : Nat) : Nat × Nat :=
  let p := if p < s then s else p
  (if p < 1 then 1 else p, s)

def adjustDecimalPrecisionScale (p s : Nat) : Nat × Nat :=
  let (p, s) := normalizeDecimalPS p s
  if p ≤ maxDecimalPrecision then (p, s)
  else
    let intDigits := p - s
    let floor := min s 6
    let ns := maxDecimalPrecision - intDigits
    let ns := if ns < floor then floor else ns
    let ns := if ns > maxDecimalScale then maxDecimalScale else ns
    (maxDecimalPrecision, ns)

def decimalResultType (op : DecimalOp) (p1 s1 p2 s2 : Nat) : Nat × Nat :=
  let (p1, s1) := normalizeDecimalPS p1 s1
  let (p2, s2) := normalizeDecimalPS p2 s2
  let (p, s, exactScale) := match op with
    | .add | .sub => (max s1 s2 + max (p1 - s1) (p2 - s2) + 1, max s1 s2, true)
    | .mul => (p1 + p2 + 1, s1 + s2, true)
    | .div => (p1 - s1 + s2 + max 6 (s1 + p2 + 1), max 6 (s1 + p2 + 1), false)
    | .mod => (min (p1 - s1) (p2 - s2) + max s1 s2, max s1 s2, true)
  if exactScale && decide (p > maxDecimalPrecision) && decide (s ≤ maxDecimalScale) then
    (maxDecimalPrecision, s)
  else adjustDecimalPrecisionScale p s

def fitsInt64 (v : Int) : Bool := decide (-2 ^ 63 ≤ v) && decide (v < 2 ^ 63)

def fitsInt128 (v : Int) : Bool := decide (-2 ^ 127 ≤ v) && decide (v < 2 ^ 127)

def decimalFitsPrecision (v : Int) (p : Nat) : Bool :=
  p = 0 || p > maxDecimalPrecision || v.natAbs < 10 ^ p

-- `bigDivRound`: truncated division, then half away from zero from the
-- remainder. The fast paths of the callers compute the same quotient.
def divRound (num den : Int) : Int :=
  if den.natAbs ≤ 2 * (num.tmod den).natAbs then
    if (num < 0) ≠ (den < 0) then num.tdiv den - 1 else num.tdiv den + 1
  else num.tdiv den

-- The quotient of two sums at the widest precision keeps at least six digits
-- and never fewer than the dividend.
theorem decimalResultType_div (s : Nat) (hs : s ≤ 38) :
    decimalResultType .div 38 s 38 0 = (38, max s 6) := by
  have hall : ∀ s : Fin 39, decimalResultType .div 38 s 38 0 = (38, max s.val 6) := by decide
  exact hall ⟨s, by omega⟩

theorem avgScale_eq_divScale (s : Nat) (hs : s ≤ 38) : avgScale s = max s 6 ↔ s = 2 ∨ s = 38 := by
  unfold avgScale avgScaleIncrement maxDecimalScale
  split <;> omega

theorem natAbs_divRound_le (num den : Int) (hden : 0 < den) : (divRound num den).natAbs ≤ num.natAbs := by
  have hmod : (num.tmod den).natAbs = num.natAbs % den.natAbs := Int.natAbs_tmod num den
  have hdiv : (num.tdiv den).natAbs = num.natAbs / den.natAbs := Int.natAbs_tdiv num den
  have hsplit : den.natAbs * (num.natAbs / den.natAbs) + num.natAbs % den.natAbs = num.natAbs :=
    Nat.div_add_mod num.natAbs den.natAbs
  have hpos : 1 ≤ den.natAbs := by omega
  have hle : num.natAbs / den.natAbs ≤ den.natAbs * (num.natAbs / den.natAbs) :=
    Nat.le_mul_of_pos_left _ hpos
  unfold divRound
  split
  next hround =>
    -- rounding up needs a remainder, which is then at least one
    split <;> omega
  next => omega

end Wadjet.Engine
