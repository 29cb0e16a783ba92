import Wadjet.Engine.Batch.Int128
import Wadjet.Engine.Decimal

namespace Wadjet.Engine.Batch

open Wadjet.Data Wide

inductive DecimalStatus where
  | ok
  | overflow
  | divByZero
  | invalidScale
deriving DecidableEq

def roundStep (neg : Bool) : Int128 :=
  if neg then (int128From 1).neg else int128From 1

def rescale (v : Int128) (fromScale toScale : Int) : Option Int128 :=
  if fromScale < 0 ∨ toScale < 0 then none
  else if toScale = fromScale then some v
  else if fromScale < toScale then mulPow10 v (toScale - fromScale)
  else
    let drop := fromScale - toScale
    -- Half of 10^39 is above every magnitude.
    if (maxDecimalPrecision : Int) < drop then some (int128From 0)
    else
      let div := pow10Int128 drop.toNat
      match quoRem v div with
      | none => none
      | some (q, r) =>
        if r.isZero then some q
        else
          match absInt128 r with
          | none => none
          | some mag =>
            if 0 ≤ cmp mag (div.sub mag) then q.addChecked (roundStep v.isNegative)
            else some q

def bigPow10 (n : Int) : Int :=
  10 ^ n.toNat

def bigDivRound (num den : Int) : Option Int128 :=
  if den = 0 then none else narrow (divRound num den)

def bigRescale (n : Int) (fromScale toScale : Int) : Option Int128 :=
  if fromScale ≤ toScale then narrow (n * bigPow10 (toScale - fromScale))
  else bigDivRound n (bigPow10 (fromScale - toScale))

def decStatus : Option Int128 → Int128 × DecimalStatus
  | none => (int128From 0, .overflow)
  | some v => (v, .ok)

variable (a : Int128) (aScale : Int) (b : Int128) (bScale outScale : Int)

def decAddSub (sub : Bool) : Int128 × DecimalStatus :=
  if aScale < 0 ∨ bScale < 0 ∨ outScale < 0 then (int128From 0, .invalidScale)
  else
    let common := max aScale bScale
    let sum := do
      let x ← rescale a aScale common
      let y ← rescale b bScale common
      if sub then x.subChecked y else x.addChecked y
    match sum with
    | some sum => decStatus (rescale sum common outScale)
    | none =>
      -- The answer may still fit at a narrower scale.
      let n := a.signed * bigPow10 (common - aScale)
      let m := b.signed * bigPow10 (common - bScale)
      decStatus (bigRescale (if sub then n - m else n + m) common outScale)

def decimalAdd : Int128 × DecimalStatus :=
  decAddSub a aScale b bScale outScale false

def decimalSub : Int128 × DecimalStatus :=
  decAddSub a aScale b bScale outScale true

def roundWords (neg : Bool) (d q0 q1 q2 q3 rem : Nat) : Option Int128 :=
  if q0 ≠ 0 ∨ q1 ≠ 0 then none
  else if d - rem ≤ rem then
    let lo := add64 q3 1 0
    let hi := add64 q2 0 lo.2
    if hi.2 ≠ 0 then none else fromMagnitude neg hi.1 lo.1
  else fromMagnitude neg q2 q3

def mulRescale256 (a b : Int128) (drop : Nat) : Option Int128 :=
  let neg := decide (a.isNegative ≠ b.isNegative)
  let d := pow10u64 drop
  let q := divWords (mulMag256 a.magnitude b.magnitude) d (Nat.pow_pos (by decide))
  roundWords neg d q.1 q.2.1 q.2.2.1 q.2.2.2.1 q.2.2.2.2

def decimalMul : Int128 × DecimalStatus :=
  if aScale < 0 ∨ bScale < 0 ∨ outScale < 0 then (int128From 0, .invalidScale)
  else
    match mul a b with
    | some p => decStatus (rescale p (wrap64 (aScale + bScale)) outScale)
    | none =>
      let drop := wrap64 (wrap64 (aScale + bScale) - outScale)
      if 1 ≤ drop ∧ drop ≤ 19 then decStatus (mulRescale256 a b drop.toNat)
      else decStatus (bigRescale (a.signed * b.signed) (wrap64 (aScale + bScale)) outScale)

def divFast (num den : Int128) : Option (Int128 × DecimalStatus) :=
  if den = int128Min then none
  else do
    let (q, r) ← quoRem num den
    if r.isZero then some (q, .ok)
    else do
      let magR ← absInt128 r
      let magD ← absInt128 den
      if 0 ≤ cmp magR (magD.sub magR) then
        some (decStatus (q.addChecked (roundStep (decide (num.isNegative ≠ den.isNegative)))))
      else some (q, .ok)

def decimalDiv : Int128 × DecimalStatus :=
  if aScale < 0 ∨ bScale < 0 ∨ outScale < 0 then (int128From 0, .invalidScale)
  else if b.isZero then (int128From 0, .divByZero)
  else
    let e := wrap64 (wrap64 (outScale + bScale) - aScale)
    let fast :=
      if 0 ≤ e then (mulPow10 a e).bind fun num => divFast num b
      else (mulPow10 b (wrap64 (-e))).bind fun den => divFast a den
    match fast with
    | some out => out
    | none =>
      if 0 ≤ e then decStatus (bigDivRound (a.signed * bigPow10 e) b.signed)
      else decStatus (bigDivRound a.signed (b.signed * bigPow10 (wrap64 (-e))))

def decimalMod : Int128 × DecimalStatus :=
  if aScale < 0 ∨ bScale < 0 ∨ outScale < 0 then (int128From 0, .invalidScale)
  else if b.isZero then (int128From 0, .divByZero)
  else
    let common := max aScale bScale
    let rem := do
      let x ← rescale a aScale common
      let y ← rescale b bScale common
      let (_, r) ← if y.isZero then none else quoRem x y
      pure r
    match rem with
    | some r => decStatus (rescale r common outScale)
    | none =>
      let n := a.signed * bigPow10 (common - aScale)
      let m := b.signed * bigPow10 (common - bScale)
      if m = 0 then (int128From 0, .divByZero)
      else decStatus (bigRescale (n.tmod m) common outScale)

def decimalApply : DecimalOp → Int128 → Int → Int128 → Int → Int → Int128 × DecimalStatus
  | .add => decimalAdd
  | .sub => decimalSub
  | .mul => decimalMul
  | .div => decimalDiv
  | .mod => decimalMod

end Wadjet.Engine.Batch
