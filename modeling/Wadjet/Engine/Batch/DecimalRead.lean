import Wadjet.Data.DigitValue
import Wadjet.Engine.Batch.DecimalExact
import Wadjet.Engine.Batch.DecimalText

namespace Wadjet.Engine.Batch

open Wadjet.Data Wide

structure ScaledDecimal where
  unscaled : Int128
  residual : Int
  sat : Int
deriving DecidableEq

namespace ScaledDecimal

def order (s : ScaledDecimal) (cell : Int128) : Int :=
  if s.sat ≠ 0 then -s.sat
  else if cmp cell s.unscaled ≠ 0 then cmp cell s.unscaled
  else -s.residual

end ScaledDecimal

def maxInt128Digits : Nat :=
  39

def int128Max : Int128 :=
  ofWords (2 ^ 63 - 1) (2 ^ 64 - 1)

def saturatedDecimal (neg : Bool) : ScaledDecimal :=
  if neg then { unscaled := int128Min, residual := 0, sat := -1 }
  else { unscaled := int128Max, residual := 0, sat := 1 }

-- Nineteen digits have one word; more go through a big integer.
def int128FromDigits (digits : List UInt8) (neg : Bool) : Option Int128 :=
  if digits.length ≤ 19 then
    if digits = [] then none
    else
      let v := ofWords 0 (ofDigits digits)
      some (if neg then v.neg else v)
  else narrow (if neg then -(ofDigits digits : Int) else ofDigits digits)

def raisedDecimal (neg : Bool) (digits : List UInt8) (shift : Int) : ScaledDecimal :=
  if (maxInt128Digits : Int) < digits.length + shift then saturatedDecimal neg
  else
    match (int128FromDigits digits neg).bind (mulPow10 · shift) with
    | none => saturatedDecimal neg
    | some v => { unscaled := v, residual := 0, sat := 0 }

def loweredDecimal (neg : Bool) (digits : List UInt8) (drop : Nat) : ScaledDecimal :=
  let sign := if neg then -1 else 1
  if digits.length ≤ drop then { unscaled := int128From 0, residual := sign, sat := 0 }
  else
    let kept := digits.take (digits.length - drop)
    let rest := digits.drop (digits.length - drop)
    let residual := if (rest.dropWhile (· == 48)).rdropWhile (· == 48) = [] then 0 else sign
    if maxInt128Digits < kept.length then saturatedDecimal neg
    else
      match int128FromDigits kept neg with
      | none => saturatedDecimal neg
      | some v => { unscaled := v, residual := residual, sat := 0 }

variable (text : List UInt8)

def decimalTextAt (scale : Int) : Option ScaledDecimal :=
  (decimalTextParts text).map fun (neg, digits, exp) =>
    let digits := digits.dropWhile (· == 48)
    if digits = [] then { unscaled := int128From 0, residual := 0, sat := 0 }
    else if 0 ≤ exp + scale then raisedDecimal neg digits (exp + scale)
    else loweredDecimal neg digits (-(exp + scale)).toNat

def incrementReversed : List UInt8 → List UInt8
  | [] => [49]
  | b :: rest => if b < 57 then (b + 1) :: rest else 48 :: incrementReversed rest

def incrementDigits (d : List UInt8) : List UInt8 :=
  (incrementReversed d.reverse).reverse

def decimalTextRoundedAt (scale : Int) : Option (Int128 × Bool) :=
  if scale < 0 then none
  else
    (decimalTextParts text).map fun (neg, digits, exp) =>
      let digits := digits.dropWhile (· == 48)
      if digits = [] then (int128From 0, false)
      else
        let shift := exp + scale
        if 0 ≤ shift ∧ (maxInt128Digits : Int) < digits.length + shift then (int128From 0, true)
        else
          let digits :=
            if 0 ≤ shift then digits ++ List.replicate shift.toNat 48
            else
              let drop := (-shift).toNat
              let up := decide (drop ≤ digits.length) &&
                decide (53 ≤ digits.getD (digits.length - drop) 48)
              let kept := if drop ≤ digits.length then digits.take (digits.length - drop) else []
              if up then incrementDigits kept else kept
          if digits = [] then (int128From 0, false)
          else if maxInt128Digits < digits.length then (int128From 0, true)
          else
            match int128FromDigits digits neg with
            | none => (int128From 0, true)
            | some out => (out, false)

def trimDecimalDigits (digits : List UInt8) (exp : Int) : List UInt8 × Int :=
  let digits := digits.dropWhile (· == 48)
  let kept := digits.rdropWhile (· == 48)
  (kept, exp + (digits.length - kept.length : Nat))

def compareDigits : Nat → List UInt8 → List UInt8 → Int
  | 0, _, _ => 0
  | n + 1, a, b =>
    let x := a.headD 48
    let y := b.headD 48
    if x ≠ y then if x < y then -1 else 1
    else compareDigits n a.tail b.tail

def compareDecimalMagnitudes (aDigits : List UInt8) (aExp : Int) (bDigits : List UInt8)
    (bExp : Int) : Int :=
  let ah := aDigits.length + aExp
  let bh := bDigits.length + bExp
  if ah ≠ bh then if ah < bh then -1 else 1
  else compareDigits (max aDigits.length bDigits.length) aDigits bDigits

inductive DecimalSpecialKind where
  | negInf
  | finite
  | posInf
  | nan
deriving DecidableEq

def DecimalSpecialKind.rank : DecimalSpecialKind → Int
  | .negInf => -1
  | .finite => 0
  | .posInf => 1
  | .nan => 2

def isSpecialMark (c : UInt8) : Bool :=
  c ∈ ([110, 78, 105, 73] : List UInt8)

def mayBeDecimalSpecial : Bool :=
  (unsigned (text.dropWhile isDecimalSpace)).head?.any isSpecialMark

def lowerByte (c : UInt8) : UInt8 :=
  if 65 ≤ c ∧ c ≤ 90 then c + 32 else c

def decimalSpecialText : DecimalSpecialKind :=
  if mayBeDecimalSpecial text = false then .finite
  else
    let s := (text.dropWhile isDecimalSpace).rdropWhile isDecimalSpace
    let isSigned := s.head? = some 43 ∨ s.head? = some 45
    let neg := s.head? = some 45
    let word := (unsigned s).map lowerByte
    if word = [110, 97, 110] then if isSigned then .finite else .nan
    else if word = [105, 110, 102, 105, 110, 105, 116, 121] ∨ word = [105, 110, 102] then
      if neg then .negInf else .posInf
    else .finite

def cmpDecimalRank (a b : Int) : Int :=
  if a < b then -1 else if b < a then 1 else 0

def compareDecimalTexts (a b : List UInt8) : Option Int :=
  let ka := decimalSpecialText a
  let kb := decimalSpecialText b
  if ka ≠ .finite ∧ kb ≠ .finite then some (cmpDecimalRank ka.rank kb.rank)
  else if ka ≠ .finite then (decimalTextParts b).map fun _ => cmpDecimalRank ka.rank 0
  else if kb ≠ .finite then (decimalTextParts a).map fun _ => cmpDecimalRank 0 kb.rank
  else
    match decimalTextParts a, decimalTextParts b with
    | some (aNeg, aDigits, aExp), some (bNeg, bDigits, bExp) =>
      let (aDigits, aExp) := trimDecimalDigits aDigits aExp
      let (bDigits, bExp) := trimDecimalDigits bDigits bExp
      some (
        if aDigits = [] ∧ bDigits = [] then 0
        else if aDigits = [] then if bNeg then 1 else -1
        else if bDigits = [] then if aNeg then -1 else 1
        else if aNeg ≠ bNeg then if aNeg then -1 else 1
        else
          let c := compareDecimalMagnitudes aDigits aExp bDigits bExp
          if aNeg then -c else c)
    | _, _ => none

end Wadjet.Engine.Batch
