import Wadjet.Engine.Batch.DecimalTextOrder

namespace Wadjet.Storage.Parquet

open Wadjet.Data Wide Wadjet.Engine.Batch List

inductive DecimalValueError where
  | special
  | notNumeric
  | overflow (precision scale : Int)
deriving DecidableEq

def maxDecimalDigits : Nat :=
  38

def maxDecimal128Digits : Nat :=
  39

def decimalEffectivePrecision (precision : Int) : Nat :=
  if precision ≤ 0 ∨ maxDecimalDigits < precision then maxDecimalDigits else precision.toNat

-- The digit string that two runs make, without joining them.
def digitAt (ip fp : List UInt8) (i : Nat) : UInt8 :=
  if i < ip.length then ip.getD i 0 else fp.getD (i - ip.length) 0

def skipZeros (ip fp : List UInt8) : Nat → Nat → Nat
  | 0, lead => lead
  | left + 1, lead => if digitAt ip fp lead = 48 then skipZeros ip fp left (lead + 1) else lead

-- Two words times ten and one digit, while they keep to 127 bits.
def magnitudeStep (words : Nat × Nat) (d : UInt8) : Option (Nat × Nat) :=
  let low := mul64 words.2 10
  let high := mul64 words.1 10
  if high.1 ≠ 0 then none
  else
    let sum := add64 high.2 low.1 0
    if sum.2 ≠ 0 then none
    else
      let lo := add64 low.2 (d.toNat - 48) 0
      let hi := add64 sum.1 0 lo.2
      if hi.2 ≠ 0 ∨ 2 ^ 63 - 1 < hi.1 then none else some (hi.1, lo.1)

variable (ip fp : List UInt8)

def decimalMagnitudeOf (lead keep zeros : Nat) : Option (Nat × Nat) :=
  if maxDecimal128Digits < keep + zeros then none
  else (range (keep + zeros)).foldlM
    (fun words i => magnitudeStep words (if i < keep then digitAt ip fp (lead + i) else 48)) (0, 0)

def decimalPow10 (precision : Nat) : Nat × Nat :=
  (10 ^ precision / 2 ^ 64, 10 ^ precision % 2 ^ 64)

def decimalMagFitsPrecision (words : Nat × Nat) (precision : Nat) : Bool :=
  let lim := decimalPow10 (if precision = 0 ∨ maxDecimalDigits < precision then maxDecimalDigits else precision)
  if words.1 ≠ lim.1 then words.1 < lim.1 else words.2 < lim.2

def decimalSigned (words : Nat × Nat) (neg : Bool) : Wide :=
  if neg = false then ofWords words.1 words.2
  else
    let lo := sub64 0 words.2 0
    ofWords (sub64 0 words.1 lo.2).1 lo.1

def roundUpWords (words : Nat × Nat) : Option (Nat × Nat) :=
  let lo := add64 words.2 1 0
  let hi := add64 words.1 0 lo.2
  if hi.2 ≠ 0 ∨ 2 ^ 63 - 1 < hi.1 then none else some (hi.1, lo.1)

def decimalValueOf (s : List UInt8) (precision scale : Int) : Except DecimalValueError Wide :=
  match decimalTextSplit s with
  | none => .error .notNumeric
  | some (neg, ip, fp, exp) =>
    let p := decimalEffectivePrecision precision
    let total := ip.length + fp.length
    let lead := skipZeros ip fp total 0
    let n := total - lead
    let shift := exp + scale
    if n = 0 then .ok (ofWords 0 0)
    else if 0 ≤ shift ∧ (maxDecimal128Digits : Int) < n + shift then .error (.overflow p scale)
    -- Below half a unit, however the digits read.
    else if shift < 0 ∧ n + shift < 0 then .ok (ofWords 0 0)
    else
      let keep := if 0 ≤ shift then n else (n + shift).toNat
      let zeros := if 0 ≤ shift then shift.toNat else 0
      let roundUp := if 0 ≤ shift then false else decide (53 ≤ digitAt ip fp (lead + keep))
      match (decimalMagnitudeOf ip fp lead keep zeros).bind
        fun words => if roundUp then roundUpWords words else some words with
      | none => .error (.overflow p scale)
      | some words =>
        if decimalMagFitsPrecision words p then .ok (decimalSigned words neg)
        else .error (.overflow p scale)

def decimalValueFromText (s : List UInt8) (precision scale : Int) :
    Except DecimalValueError Wide :=
  if decimalSpecialText s ≠ .finite then .error .special else decimalValueOf s precision scale

def words (n : Nat) : Nat × Nat :=
  (n / 2 ^ 64, n % 2 ^ 64)

theorem magnitudeStep_words (v : Nat) (d : UInt8) :
    magnitudeStep (words v) d =
      if v * 10 + (d.toNat - 48) < 2 ^ 127 then some (words (v * 10 + (d.toNat - 48))) else none := by
  have hhi : (words v).1 * 2 ^ 64 + (words v).2 = v := Nat.div_add_mod' v (2 ^ 64)
  have hlo : (words v).2 < 2 ^ 64 := Nat.mod_lt _ (by decide)
  generalize words v = w at hhi hlo ⊢
  unfold magnitudeStep
  dsimp only
  have hlow := mul64_eq w.2 10
  have hlowlt : (mul64 w.2 10).2 < 2 ^ 64 := Nat.mod_lt _ (by decide)
  have hhigh := mul64_eq w.1 10
  have hhighlt : (mul64 w.1 10).2 < 2 ^ 64 := Nat.mod_lt _ (by decide)
  generalize mul64 w.2 10 = low at *
  generalize mul64 w.1 10 = high at *
  have hsum := add64_eq high.2 low.1 0
  have hsumlt := add64_fst_lt high.2 low.1 0
  generalize add64 high.2 low.1 0 = sum at *
  have hlast := add64_eq low.2 (d.toNat - 48) 0
  have hlastlt := add64_fst_lt low.2 (d.toNat - 48) 0
  generalize add64 low.2 (d.toNat - 48) 0 = last at *
  have htop := add64_eq sum.1 0 last.2
  have htoplt := add64_fst_lt sum.1 0 last.2
  generalize add64 sum.1 0 last.2 = top at *
  by_cases hcarry : high.1 ≠ 0
  · rw [if_pos hcarry, if_neg (by omega)]
  rw [if_neg hcarry]
  by_cases hover : sum.2 ≠ 0
  · rw [if_pos hover, if_neg (by omega)]
  · rw [if_neg hover]
    by_cases hwide : top.2 ≠ 0 ∨ 2 ^ 63 - 1 < top.1
    · rw [if_pos hwide, if_neg (by omega)]
    · rw [if_neg hwide, if_pos (by omega), words]
      congr 2 <;> omega

theorem magnitude_foldlM (l : List UInt8) {v : Nat} (hv : v < 2 ^ 127) :
    l.foldlM magnitudeStep (words v) =
      if v * 10 ^ l.length + ofDigits l < 2 ^ 127 then some (words (v * 10 ^ l.length + ofDigits l))
      else none := by
  induction l generalizing v with
  | nil =>
    have hvalue : v * 10 ^ ([] : List UInt8).length + ofDigits [] = v := by simp [ofDigits]
    rw [hvalue, if_pos hv]
    rfl
  | cons d l ih =>
    have hstep : v * 10 ^ (d :: l).length + ofDigits (d :: l) =
        (v * 10 + (d.toNat - 48)) * 10 ^ l.length + ofDigits l := by
      rw [ofDigits_cons, length_cons, pow_succ]
      ring
    rw [foldlM_cons, magnitudeStep_words v d, hstep]
    by_cases hfits : v * 10 + (d.toNat - 48) < 2 ^ 127
    · rw [if_pos hfits]
      exact ih hfits
    · rw [if_neg hfits, if_neg]
      · rfl
      · have hone := Nat.mul_le_mul_left (v * 10 + (d.toNat - 48))
          (Nat.one_le_pow l.length 10 (by decide))
        omega

theorem roundUpWords_words (v : Nat) :
    roundUpWords (words v) = if v + 1 < 2 ^ 127 then some (words (v + 1)) else none := by
  have hhi : (words v).1 * 2 ^ 64 + (words v).2 = v := Nat.div_add_mod' v (2 ^ 64)
  generalize words v = w at hhi ⊢
  unfold roundUpWords
  dsimp only
  have hlow := add64_eq w.2 1 0
  have hlowlt := add64_fst_lt w.2 1 0
  generalize add64 w.2 1 0 = low at *
  have htop := add64_eq w.1 0 low.2
  have htoplt := add64_fst_lt w.1 0 low.2
  generalize add64 w.1 0 low.2 = top at *
  by_cases hwide : top.2 ≠ 0 ∨ 2 ^ 63 - 1 < top.1
  · rw [if_pos hwide, if_neg (by omega)]
  · rw [if_neg hwide, if_pos (by omega), words]
    congr 2 <;> omega

theorem decimalMagFitsPrecision_words (v : Nat) :
    decimalMagFitsPrecision (words v) 38 = decide (v < 10 ^ 38) := by
  have hlim : decimalPow10 (if 38 = 0 ∨ maxDecimalDigits < 38 then maxDecimalDigits else 38) =
      (10 ^ 38 / 2 ^ 64, 10 ^ 38 % 2 ^ 64) := rfl
  unfold decimalMagFitsPrecision
  rw [hlim, words]
  dsimp only
  by_cases hhi : v / 2 ^ 64 ≠ 10 ^ 38 / 2 ^ 64
  · rw [if_pos hhi, decide_eq_decide]
    omega
  · rw [if_neg hhi, decide_eq_decide]
    omega

theorem signed_decimalSigned {v : Nat} (hv : v < 2 ^ 127) (neg : Bool) :
    (decimalSigned (words v) neg).signed = withNeg neg v := by
  have hplain := @value_ofWords (v / 2 ^ 64) (v % 2 ^ 64) (by omega) (by omega)
  cases neg with
  | false =>
    rw [decimalSigned, if_pos rfl, words, signed_eq, hplain, if_neg (by omega)]
    change _ = (v : Int)
    omega
  | true =>
    have hvalue : (decimalSigned (words v) true).value = (2 ^ 128 - v) % 2 ^ 128 := by
      rw [decimalSigned, if_neg (by decide), words]
      dsimp only
      rw [value_ofWords (by unfold sub64; omega) (by unfold sub64; omega)]
      simp only [sub64]
      split_ifs <;> omega
    rw [signed_eq, hvalue]
    change _ = -(v : Int)
    split_ifs <;> omega

theorem digitAt_eq (i : Nat) : digitAt ip fp i = (ip ++ fp).getD i 0 := by
  unfold digitAt
  split_ifs with hlt
  · rw [getD_append _ _ _ _ hlt]
  · rw [getD_append_right _ _ _ _ (not_lt.mp hlt)]

theorem skipZeros_eq (left lead : Nat) (h : lead + left = (ip ++ fp).length) :
    skipZeros ip fp left lead =
      lead + (((ip ++ fp).drop lead).takeWhile (· == 48)).length := by
  induction left generalizing lead with
  | zero =>
    rw [skipZeros, drop_eq_nil_of_le (by omega)]
    rfl
  | succ left ih =>
    have hlt : lead < (ip ++ fp).length := by omega
    have hdigit : digitAt ip fp lead = (ip ++ fp)[lead] := by
      rw [digitAt_eq, getD_eq_getElem _ _ hlt]
    rw [skipZeros, drop_eq_getElem_cons hlt, hdigit]
    by_cases hzero : (ip ++ fp)[lead] = 48
    · rw [if_pos hzero, ih (lead + 1) (by omega), takeWhile_cons_of_pos (by simpa using hzero),
        length_cons]
      omega
    · rw [if_neg hzero, takeWhile_cons_of_neg (by simpa using hzero)]
      rfl

theorem drop_skipZeros : (ip ++ fp).drop (skipZeros ip fp (ip.length + fp.length) 0) =
      (ip ++ fp).dropWhile (· == 48) := by
  rw [skipZeros_eq ip fp _ 0 (by rw [length_append, Nat.zero_add]), Nat.zero_add, drop_zero]
  calc (ip ++ fp).drop ((ip ++ fp).takeWhile (· == 48)).length
      = ((ip ++ fp).takeWhile (· == 48) ++ (ip ++ fp).dropWhile (· == 48)).drop
          ((ip ++ fp).takeWhile (· == 48)).length := by rw [takeWhile_append_dropWhile]
    _ = (ip ++ fp).dropWhile (· == 48) := drop_left

theorem digitAt_drop {ip fp D : List UInt8} {lead i : Nat} (hD : (ip ++ fp).drop lead = D)
    (hi : i < D.length) : digitAt ip fp (lead + i) = D[i] := by
  subst hD
  rw [length_drop] at hi
  rw [digitAt_eq, getElem_drop, getD_eq_getElem _ _ (by omega)]

theorem decimalMagnitudeOf_eq {ip fp D : List UInt8} {lead keep zeros : Nat}
    (hD : (ip ++ fp).drop lead = D) (hkeep : keep ≤ D.length)
    (hshort : keep + zeros ≤ maxDecimal128Digits) :
    decimalMagnitudeOf ip fp lead keep zeros =
      if ofDigits (D.take keep) * 10 ^ zeros < 2 ^ 127 then
        some (words (ofDigits (D.take keep) * 10 ^ zeros))
      else none := by
  have hdigits : (range (keep + zeros)).map
      (fun i => if i < keep then digitAt ip fp (lead + i) else 48) =
      D.take keep ++ replicate zeros 48 := by
    apply ext_getElem
    · rw [length_map, length_range, length_append, length_take,
        length_replicate, Nat.min_eq_left hkeep]
    · intro i hi hi'
      rw [getElem_map, getElem_range]
      by_cases hlt : i < keep
      · have hlen : i < (D.take keep).length := by rw [length_take]; omega
        rw [if_pos hlt, getElem_append_left hlen, getElem_take, digitAt_drop hD (by omega)]
      · have hlen : (D.take keep).length ≤ i := by rw [length_take]; omega
        rw [if_neg hlt, getElem_append_right hlen, getElem_replicate]
  have hfold := magnitude_foldlM (D.take keep ++ replicate zeros 48)
    (show 0 < 2 ^ 127 by decide)
  rw [Nat.zero_mul, Nat.zero_add, ofDigits_append, length_replicate, ofDigits_zeros,
    Nat.add_zero, ← hdigits, foldlM_map] at hfold
  rw [decimalMagnitudeOf, if_neg (not_lt.mpr hshort)]
  exact hfold

end Wadjet.Storage.Parquet
