import Mathlib.Data.Sign.Basic
import Wadjet.Engine.Batch.DecimalExact

namespace Wadjet.Engine.Batch

open Wadjet.Data Wide

inductive DecimalScalarOp where
  | abs
  | sign
  | ceil
  | floor
  | round
  | trunc
deriving DecidableEq

structure DecimalType where
  precision : Nat
  scale : Nat
deriving DecidableEq

def roundCarry (digits : Int) (inScale : Nat) : Nat :=
  if inScale ≤ digits then 0 else 1

-- The fraction digits asked for yield to the integer digits.
def decScalarType (intDigits s : Nat) : DecimalType :=
  let intDigits := if intDigits < 1 then 1 else intDigits
  let intDigits := if maxDecimalPrecision < intDigits then maxDecimalPrecision else intDigits
  let room := maxDecimalPrecision - intDigits
  let s := if room < s then room else s
  let s := if maxDecimalScale < s then maxDecimalScale else s
  { precision := intDigits + s, scale := s }

def decimalScalarType (op : DecimalScalarOp) (type : DecimalType) (digits : Int) :
    Option DecimalType :=
  if type.precision = 0 then none
  else
    let (p, s) := normalizeDecimalPS type.precision type.scale
    let intDigits := p - s
    match op with
    | .abs => some { precision := p, scale := s }
    | .sign => some { precision := 1, scale := 0 }
    | .ceil | .floor => some (decScalarType (intDigits + 1) 0)
    | .round => some (decScalarType (intDigits + roundCarry digits s) (max digits 0).toNat)
    | .trunc => some (decScalarType intDigits (max digits 0).toNat)

def decimalAtPrecision (r : Int128 × DecimalStatus) (p : Nat) : Int128 × DecimalStatus :=
  if r.2 ≠ .ok then (int128From 0, r.2)
  else if decimalFitsPrecision r.1.signed p then (r.1, .ok)
  else (int128From 0, .overflow)

def decTruncate (v : Int128) (drop : Int) : Option Int128 :=
  if drop ≤ 0 then some v
  else if (maxDecimalPrecision : Int) < drop then some (int128From 0)
  else (quoRem v (pow10Int128 drop.toNat)).map Prod.fst

-- Truncation moved away from the next integer on one side only.
def ceilFloorStep (r : Int128) (up : Bool) : Int128 :=
  if r.isZero then int128From 0
  else if up ∧ r.isNegative = false then int128From 1
  else if up = false ∧ r.isNegative then int128From (-1)
  else int128From 0

def decCeilFloor (v : Int128) (inScale outScale : Int) (up : Bool) : Option Int128 :=
  if inScale = 0 then rescale v 0 outScale
  else if inScale < 0 ∨ (maxDecimalPrecision : Int) < inScale then
    if v.isZero then some (int128From 0)
    else if up ∧ v.isNegative = false then rescale (int128From 1) 0 outScale
    else if up = false ∧ v.isNegative then rescale (int128From (-1)) 0 outScale
    else some (int128From 0)
  else do
    let (q, r) ← quoRem v (pow10Int128 inScale.toNat)
    let q ← (if (ceilFloorStep r up).isZero then some q else q.addChecked (ceilFloorStep r up))
    rescale q 0 outScale

def decRoundTrunc (v : Int128) (inScale digits outScale : Int) (round : Bool) : Option Int128 :=
  if digits < 0 then
    let wide := wrap64 (inScale - digits)
    -- No magnitude reaches half of the power of ten being rounded to.
    if (maxDecimalPrecision : Int) < wide then some (int128From 0)
    else do
      let kept ← (if round then rescale v wide 0 else decTruncate v wide)
      let shifted ← mulPow10 kept (wrap64 (-digits))
      rescale shifted 0 outScale
  else if inScale ≤ digits then rescale v inScale outScale
  else do
    let kept ← (if round then rescale v inScale digits else decTruncate v (inScale - digits))
    rescale kept digits outScale

def decimalScalar (op : DecimalScalarOp) (v : Int128) (inScale digits : Int) (p : Nat)
    (s : Int) : Int128 × DecimalStatus :=
  if inScale < 0 ∨ s < 0 then (int128From 0, .invalidScale)
  else
    match op with
    | .abs =>
      match absInt128 v with
      | none => (int128From 0, .overflow)
      | some mag => decimalAtPrecision (decStatus (rescale mag inScale s)) p
    | .sign =>
      let sign := if v.isNegative then int128From (-1)
        else if v.isZero then int128From 0
        else int128From 1
      decimalAtPrecision (decStatus (rescale sign 0 s)) p
    | .ceil => decimalAtPrecision (decStatus (decCeilFloor v inScale s true)) p
    | .floor => decimalAtPrecision (decStatus (decCeilFloor v inScale s false)) p
    | .round => decimalAtPrecision (decStatus (decRoundTrunc v inScale digits s true)) p
    | .trunc => decimalAtPrecision (decStatus (decRoundTrunc v inScale digits s false)) p

end Wadjet.Engine.Batch
