import Mathlib.Tactic.Positivity
import Wadjet.Engine.Batch.DecimalArith

namespace Wadjet.Engine.Batch

open Wadjet.Data Wide Option

-- The integer an operation rounds to when an exact integer at one scale is
-- asked for at another.
def rescaled (n : Int) (fromScale toScale : Int) : Int :=
  if fromScale ≤ toScale then n * 10 ^ (toScale - fromScale).toNat
  else divRound n (10 ^ (fromScale - toScale).toNat)

theorem signed_sub_of_le {w other : Wide} (hnonneg : 0 ≤ other.signed)
    (hle : other.signed ≤ w.signed) : (w.sub other).signed = w.signed - other.signed := by
  have hw := w.value_lt
  have hother := other.value_lt
  rw [signed_eq] at hnonneg hle
  rw [signed_eq] at hle
  rw [signed_eq, signed_eq, signed_eq, sub, value_add, value_neg]
  split_ifs at * <;> omega

theorem signed_roundStep (neg : Bool) : (roundStep neg).signed = if neg then -1 else 1 := by
  cases neg <;> decide

theorem signed_zero : (int128From 0).signed = 0 := by
  decide

variable {num den q r : Int128}

section

variable (h : quoRem num den = some (q, r)) (hden : den.signed ≠ 0)

include h hden

theorem round_quoRem {magR magD : Int128} (hR : magR.signed = r.signed.natAbs)
    (hD : magD.signed = den.signed.natAbs) : (if 0 ≤ cmp magR (magD.sub magR) then
        q.addChecked (roundStep (decide (num.isNegative ≠ den.isNegative)))
      else some q) = narrow (divRound num.signed den.signed) := by
  obtain ⟨hq, hr⟩ := quoRem_some h
  have hrest : (num.signed.tmod den.signed).natAbs < den.signed.natAbs := by
    rw [Int.natAbs_tmod]
    exact Nat.mod_lt _ (by omega)
  have hsub : (magD.sub magR).signed = magD.signed - magR.signed :=
    signed_sub_of_le (by omega) (by rw [hR, hD, hr]; omega)
  have hsigns : (decide (num.isNegative ≠ den.isNegative)) ↔
      ((num.signed < 0) ≠ (den.signed < 0)) := by
    rw [decide_eq_true_iff, Ne, Ne, ← isNegative_iff_signed, ← isNegative_iff_signed, eq_iff_iff,
      Bool.eq_iff_iff]
  simp only [cmp_nonneg_iff]
  unfold divRound
  by_cases hround : den.signed.natAbs ≤ 2 * (num.signed.tmod den.signed).natAbs
  · rw [if_pos (by omega), addChecked_eq, signed_roundStep, hq]
    simp only [hsigns]
    split_ifs <;> rfl
  · rw [if_neg (by omega), if_neg hround, ← hq, narrow_signed]

theorem round_quoRem_zero (hzero : r.isZero) :
    narrow (divRound num.signed den.signed) = some q := by
  obtain ⟨hq, hr⟩ := quoRem_some h
  rw [isZero_iff, hr] at hzero
  rw [divRound, if_neg (by omega), ← hq, narrow_signed]

theorem quoRem_rest_ne_min : r.signed ≠ -2 ^ 127 := by
  obtain ⟨-, hr⟩ := quoRem_some h
  have hbounds := den.signed_bounds
  have hrest : (num.signed.tmod den.signed).natAbs < den.signed.natAbs := by
    rw [Int.natAbs_tmod]
    exact Nat.mod_lt _ (by omega)
  omega

end

theorem divRound_small {n d : Int} (h : 2 * n.natAbs < d.natAbs) : divRound n d = 0 := by
  have hdiv : (n.tdiv d).natAbs = 0 := by
    rw [Int.natAbs_tdiv]
    exact Nat.div_eq_of_lt (by omega)
  have hmod : (n.tmod d).natAbs = n.natAbs := by
    rw [Int.natAbs_tmod, Nat.mod_eq_of_lt (by omega)]
  rw [divRound]
  omega

theorem rescale_eq (v : Int128) {fromScale toScale : Int} (hfrom : 0 ≤ fromScale)
    (hto : 0 ≤ toScale) :
    rescale v fromScale toScale = narrow (rescaled v.signed fromScale toScale) := by
  have hbounds := v.signed_bounds
  simp only [rescale, rescaled]
  rw [if_neg (by omega)]
  by_cases hsame : toScale = fromScale
  · subst hsame
    simp [narrow_signed]
  rw [if_neg hsame]
  by_cases hrise : fromScale < toScale
  · rw [if_pos hrise, if_pos hrise.le, mulPow10_eq v (by omega)]
  rw [if_neg hrise, if_neg (show ¬ fromScale ≤ toScale by omega)]
  by_cases hwide : (maxDecimalPrecision : Int) < fromScale - toScale
  · have hpow : (10 : Nat) ^ 39 ≤ 10 ^ (fromScale - toScale).toNat :=
      Nat.pow_le_pow_right (by decide) (by unfold maxDecimalPrecision at hwide; omega)
    have hdiv : ((10 : Int) ^ (fromScale - toScale).toNat).natAbs =
        10 ^ (fromScale - toScale).toNat := by
      rfl
    rw [if_pos hwide, divRound_small (by omega)]
    exact (narrow_of_signed signed_zero).symm
  · have hdiv := @pow10Int128_signed (fromScale - toScale).toNat
      (by unfold maxDecimalPrecision at hwide; omega)
    have hpos : (0 : Int) < 10 ^ (fromScale - toScale).toNat := by positivity
    rw [if_neg hwide, ← hdiv]
    generalize pow10Int128 (fromScale - toScale).toNat = div at *
    cases hqr : quoRem v div with
    | none =>
      obtain hzero | ⟨-, hneg⟩ := quoRem_none hqr <;> omega
    | some qr =>
      obtain ⟨q, r⟩ := qr
      dsimp only
      by_cases hzero : r.isZero
      · rw [if_pos hzero, round_quoRem_zero hqr (by omega) hzero]
      obtain ⟨mag, hmag, hmagnitude⟩ := absInt128_eq (quoRem_rest_ne_min hqr (by omega))
      have hsign : div.isNegative = false := by
        rw [← Bool.not_eq_true, isNegative_iff_signed]
        omega
      have hround := round_quoRem hqr (by omega) hmagnitude
        (show div.signed = div.signed.natAbs by omega)
      simp only [hsign, Bool.not_eq_false, Bool.decide_eq_true] at hround
      rw [if_neg hzero, hmag]
      exact hround

theorem bigDivRound_eq (num : Int) {den : Int} (hden : den ≠ 0) :
    bigDivRound num den = narrow (divRound num den) :=
  if_neg hden

theorem bigRescale_eq (n fromScale toScale : Int) :
    bigRescale n fromScale toScale = narrow (rescaled n fromScale toScale) := by
  have hpow : bigPow10 (fromScale - toScale) ≠ 0 := by
    unfold bigPow10
    positivity
  unfold bigRescale rescaled
  split_ifs
  · rfl
  · exact bigDivRound_eq n hpow

theorem rescale_up (v : Int128) {scale common : Int} (hscale : 0 ≤ scale) (hle : scale ≤ common) :
    rescale v scale common = narrow (v.signed * 10 ^ (common - scale).toNat) := by
  rw [rescale_eq v hscale (hscale.trans hle), rescaled, if_pos hle]

theorem narrow_mul_bind (n : Int) {m : Int} (hm : 0 < m) :
    ((narrow n).bind fun w => narrow (w.signed * m)) = narrow (n * m) := by
  cases hn : narrow n with
  | some w => rw [bind_some, narrow_eq_some_iff.mp hn]
  | none =>
    rw [eq_comm]
    refine narrow_eq_none fun hbounds => ?_
    have hrange : ¬ (-2 ^ 127 ≤ n ∧ n < 2 ^ 127) := by
      intro h
      rw [narrow, if_pos h] at hn
      cases hn
    by_cases hneg : n < 0
    · have : n * m ≤ n * 1 := mul_le_mul_of_nonpos_left (by omega) hneg.le
      omega
    · have : n * 1 ≤ n * m := mul_le_mul_of_nonneg_left (by omega) (by omega)
      omega

def atCommon (v : Int128) (scale other : Int) : Int :=
  v.signed * 10 ^ (max scale other - scale).toNat

variable {aScale bScale outScale : Int} (a b : Int128)

theorem decAddSub_eq (sub : Bool) (ha : 0 ≤ aScale) (hb : 0 ≤ bScale) (hout : 0 ≤ outScale) :
    decAddSub a aScale b bScale outScale sub = decStatus (narrow (rescaled
      (if sub then atCommon a aScale bScale - atCommon b bScale aScale
        else atCommon a aScale bScale + atCommon b bScale aScale)
      (max aScale bScale) outScale)) := by
  simp only [decAddSub, atCommon, bigRescale_eq, bigPow10, max_comm bScale aScale]
  rw [if_neg (by omega), rescale_up a ha (le_max_left aScale bScale),
    rescale_up b hb (le_max_right aScale bScale)]
  generalize a.signed * 10 ^ (max aScale bScale - aScale).toNat = n
  generalize b.signed * 10 ^ (max aScale bScale - bScale).toNat = m
  cases hx : narrow n with
  | none => rfl
  | some x =>
    cases hy : narrow m with
    | none => rfl
    | some y =>
      have hsum : (if sub then x.subChecked y else x.addChecked y) =
          narrow (if sub then n - m else n + m) := by
        rw [subChecked_eq, addChecked_eq, narrow_eq_some_iff.mp hx, narrow_eq_some_iff.mp hy]
        split_ifs <;> rfl
      simp only [bind_eq_bind, bind_some, hsum]
      cases hs : narrow (if sub then n - m else n + m) with
      | none => rfl
      | some sum =>
        dsimp only
        rw [rescale_eq sum (ha.trans (le_max_left aScale bScale)) hout,
          narrow_eq_some_iff.mp hs]

theorem divRound_signs (m d : Nat) (neg : Bool) (hd : 0 < d) :
    divRound (if neg then -(m : Int) else m) d =
      if neg then -(((if d ≤ 2 * (m % d) then m / d + 1 else m / d : Nat)) : Int)
      else ((if d ≤ 2 * (m % d) then m / d + 1 else m / d : Nat) : Int) := by
  obtain ⟨hdiv, hmod⟩ := tdiv_tmod_signs m d neg false
  simp only [Bool.false_eq_true, if_false, Bool.not_eq_false, Bool.decide_eq_true]
    at hdiv hmod
  have hnat : ((if neg then -((m % d : Nat) : Int) else ((m % d : Nat) : Int))).natAbs = m % d := by
    split_ifs <;> omega
  have hle := Nat.mod_le m d
  rw [divRound, hdiv, hmod, hnat]
  have hdn : ¬ ((d : Int) < 0) := by omega
  simp only [Int.natAbs_natCast, hdn]
  cases neg with
  | false =>
    split_ifs <;> simp_all
  | true =>
    by_cases hround : d ≤ 2 * (m % d)
    · have hmn : (-(m : Int) < 0) := by omega
      simp only [if_true, if_pos hround, hmn]
      simp
      ring
    · simp only [if_neg hround]

theorem roundWords_eq {neg : Bool} {d q0 q1 q2 q3 rem : Nat} (hq2 : q2 < 2 ^ 64)
    (hq3 : q3 < 2 ^ 64) (hrem : rem < d) {q : Nat}
    (hq : q = ((q0 * 2 ^ 64 + q1) * 2 ^ 64 + q2) * 2 ^ 64 + q3) :
    roundWords neg d q0 q1 q2 q3 rem = narrow (if neg then
        -((if d ≤ 2 * rem then q + 1 else q : Nat) : Int)
      else ((if d ≤ 2 * rem then q + 1 else q : Nat) : Int)) := by
  unfold roundWords
  by_cases hwide : q0 ≠ 0 ∨ q1 ≠ 0
  · rw [if_pos hwide]
    symm
    apply narrow_eq_none
    split_ifs <;> omega
  · rw [if_neg hwide]
    obtain ⟨rfl, rfl⟩ : q0 = 0 ∧ q1 = 0 := by omega
    have hvalue : q = q2 * 2 ^ 64 + q3 := by
      rw [hq]
      ring
    by_cases hround : d ≤ 2 * rem
    · rw [if_pos (by omega), if_pos hround]
      have hlo := add64_eq q3 1 0
      have hlolt := add64_fst_lt q3 1 0
      have hhi := add64_eq q2 0 (add64 q3 1 0).2
      have hhilt := add64_fst_lt q2 0 (add64 q3 1 0).2
      dsimp only
      generalize add64 q2 0 (add64 q3 1 0).2 = hi at *
      generalize add64 q3 1 0 = lo at *
      by_cases hcarry : hi.2 ≠ 0
      · rw [if_pos hcarry]
        symm
        apply narrow_eq_none
        split_ifs <;> omega
      · have hhigh : hi.1 = q2 + lo.2 := by omega
        have hsum : hi.1 * 2 ^ 64 + lo.1 = q + 1 := by
          rw [hhigh, hvalue]
          linear_combination hlo
        rw [if_neg hcarry, fromMagnitude_eq hhilt hlolt, hsum]
    · rw [if_neg (by omega), if_neg hround, fromMagnitude_eq hq2 hq3, hvalue]

theorem mulRescale256_eq (drop : Nat) :
    mulRescale256 a b drop = narrow (divRound (a.signed * b.signed) (10 ^ drop)) := by
  obtain ⟨r3, r2, r1, r0, hwords, -, -, hr1, hr0, hproduct⟩ :=
    mulMag256_eq a.magnitude b.magnitude
  have hd : 0 < pow10u64 drop := Nat.pow_pos (by decide)
  obtain ⟨q0, q1, q2, q3, rem, hdivision, hq2, hq3, hrem, hquotient, hrest⟩ :=
    @divWords_eq r3 r2 r1 r0 (pow10u64 drop) hd hr1 hr0
  have hcast : (10 : Int) ^ drop = ((pow10u64 drop : Nat) : Int) := by
    simp [pow10u64]
  rw [hcast, signed_mul, divRound_signs _ _ _ hd, ← hproduct, hrest]
  simp only [mulRescale256, hwords, hdivision]
  exact roundWords_eq hq2 hq3 hrem hquotient

theorem decimalMul_eq (ha : 0 ≤ aScale)
    (hb : 0 ≤ bScale) (hout : 0 ≤ outScale) (hsum : aScale + bScale < 2 ^ 63)
    (hrange : outScale < 2 ^ 63) : decimalMul a aScale b bScale outScale =
      decStatus (narrow (rescaled (a.signed * b.signed) (aScale + bScale) outScale)) := by
  have hscale : wrap64 (aScale + bScale) = aScale + bScale := wrap64_eq (by omega) hsum
  have hdrop : wrap64 (aScale + bScale - outScale) = aScale + bScale - outScale :=
    wrap64_eq (by omega) (by omega)
  simp only [decimalMul, hscale, hdrop, bigRescale_eq, mulRescale256_eq]
  rw [if_neg (by omega), mul_eq]
  cases hp : narrow (a.signed * b.signed) with
  | some p =>
    dsimp only
    rw [rescale_eq p (by omega) hout, narrow_eq_some_iff.mp hp]
  | none =>
    by_cases hwords : 1 ≤ aScale + bScale - outScale ∧ aScale + bScale - outScale ≤ 19
    · rw [if_pos hwords, rescaled, if_neg (by omega)]
    · rw [if_neg hwords]

theorem divFast_cases (num : Int128) (hden : den.signed ≠ 0) : divFast num den = none ∨
      divFast num den = some (decStatus (narrow (divRound num.signed den.signed))) := by
  unfold divFast
  by_cases hmin : den = int128Min
  · exact .inl (if_pos hmin)
  rw [if_neg hmin]
  cases hqr : quoRem num den with
  | none => exact .inl rfl
  | some qr =>
    obtain ⟨q, r⟩ := qr
    right
    simp only [bind_eq_bind, bind_some]
    by_cases hzero : r.isZero
    · rw [if_pos hzero, round_quoRem_zero hqr hden hzero]
      rfl
    have hdenmin : den.signed ≠ -2 ^ 127 := fun h =>
      hmin (signed_injective (h.trans int128Min_signed.symm))
    obtain ⟨magR, hmagR, hR⟩ := absInt128_eq (quoRem_rest_ne_min hqr hden)
    obtain ⟨magD, hmagD, hD⟩ := absInt128_eq hdenmin
    rw [hmagR, hmagD, ← round_quoRem hqr hden hR hD]
    simp only [bind_some]
    split_ifs <;> rfl

def quotientAt (a : Int) (aScale : Int) (b : Int) (bScale outScale : Int) : Int :=
  if aScale ≤ outScale + bScale then divRound (a * 10 ^ (outScale + bScale - aScale).toNat) b
  else divRound a (b * 10 ^ (aScale - (outScale + bScale)).toNat)

variable {b : Int128}

theorem decimalDiv_eq (a : Int128) (ha : 0 ≤ aScale)
    (hb : 0 ≤ bScale) (hout : 0 ≤ outScale) (hsum : outScale + bScale < 2 ^ 63)
    (hrange : aScale < 2 ^ 63) (hne : b.signed ≠ 0) : decimalDiv a aScale b bScale outScale =
      decStatus (narrow (quotientAt a.signed aScale b.signed bScale outScale)) := by
  have hscale : wrap64 (outScale + bScale) = outScale + bScale := wrap64_eq (by omega) hsum
  have hexp : wrap64 (outScale + bScale - aScale) = outScale + bScale - aScale :=
    wrap64_eq (by omega) (by omega)
  have hneg : wrap64 (-(outScale + bScale - aScale)) = aScale - (outScale + bScale) := by
    rw [wrap64_eq (by omega) (by omega)]
    omega
  have hzero : ¬ b.isZero := fun h => hne ((isZero_iff b).mp h)
  simp only [decimalDiv, hscale, hexp, hneg, bigPow10, quotientAt]
  rw [if_neg (by omega), if_neg hzero]
  by_cases hrise : aScale ≤ outScale + bScale
  · have hle : 0 ≤ outScale + bScale - aScale := by omega
    simp only [if_pos hle, if_pos hrise, mulPow10_eq a hle, bigDivRound_eq _ hne]
    cases hnum : narrow (a.signed * 10 ^ (outScale + bScale - aScale).toNat) with
    | none => rfl
    | some num =>
      rw [← narrow_eq_some_iff.mp hnum, bind_some]
      obtain hfast | hfast := divFast_cases num hne <;> rw [hfast]
  · have hlt : ¬ 0 ≤ outScale + bScale - aScale := by omega
    have hpow : b.signed * 10 ^ (aScale - (outScale + bScale)).toNat ≠ 0 :=
      mul_ne_zero hne (by positivity)
    simp only [if_neg hlt, if_neg hrise, bigDivRound_eq _ hpow]
    rw [mulPow10_eq b (by omega)]
    cases hden : narrow (b.signed * 10 ^ (aScale - (outScale + bScale)).toNat) with
    | none => rfl
    | some den =>
      rw [← narrow_eq_some_iff.mp hden] at hpow ⊢
      rw [bind_some]
      obtain hfast | hfast := divFast_cases a hpow <;> rw [hfast]

theorem decimalMod_eq (a : Int128) (ha : 0 ≤ aScale)
    (hb : 0 ≤ bScale) (hout : 0 ≤ outScale) (hne : b.signed ≠ 0) :
    decimalMod a aScale b bScale outScale = decStatus (narrow (rescaled
      ((atCommon a aScale bScale).tmod (atCommon b bScale aScale))
      (max aScale bScale) outScale)) := by
  have hzero : ¬ b.isZero := fun h => hne ((isZero_iff b).mp h)
  have hm : b.signed * 10 ^ (max aScale bScale - bScale).toNat ≠ 0 :=
    mul_ne_zero hne (by positivity)
  simp only [decimalMod, atCommon, bigRescale_eq, bigPow10, max_comm bScale aScale]
  rw [if_neg (by omega), if_neg hzero, rescale_up a ha (le_max_left aScale bScale),
    rescale_up b hb (le_max_right aScale bScale)]
  generalize a.signed * 10 ^ (max aScale bScale - aScale).toNat = n
  generalize b.signed * 10 ^ (max aScale bScale - bScale).toNat = m at *
  rw [if_neg hm]
  cases hx : narrow n with
  | none => rfl
  | some x =>
    cases hy : narrow m with
    | none => rfl
    | some y =>
      have hxn := narrow_eq_some_iff.mp hx
      have hym := narrow_eq_some_iff.mp hy
      have hyz : ¬ y.isZero := fun h => hm (hym ▸ (isZero_iff y).mp h)
      simp only [bind_eq_bind, bind_some, if_neg hyz]
      cases hqr : quoRem x y with
      | none => rfl
      | some qr =>
        have hr := (quoRem_some hqr).2
        simp only [bind_some, pure_def]
        rw [rescale_eq qr.2 (ha.trans (le_max_left aScale bScale)) hout, hr, hxn, hym]

end Wadjet.Engine.Batch
