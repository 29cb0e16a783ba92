import Wadjet.Storage.Parquet.DecimalValue

namespace Wadjet.Storage.Parquet

open Wadjet.Data Wide Wadjet.Engine.Batch List Option

def storedAt (neg : Bool) (R : Nat) (scale : Int) : Except DecimalValueError Wide :=
  if R < 10 ^ 38 then .ok (decimalSigned (words R) neg) else .error (.overflow 38 scale)

theorem storedAt_zero (neg : Bool) (scale : Int) : storedAt neg 0 scale = .ok (ofWords 0 0) := by
  cases neg <;> rfl

theorem storedAt_words (neg : Bool) (kept : Nat) (roundUp : Bool) (scale : Int) :
    (match (if kept < 2 ^ 127 then some (words kept) else none).bind
        fun words => if roundUp then roundUpWords words else some words with
      | none => .error (.overflow (38 : Nat) scale)
      | some words =>
        if decimalMagFitsPrecision words 38 then .ok (decimalSigned words neg)
        else .error (.overflow (38 : Nat) scale)) =
      storedAt neg (if roundUp then kept + 1 else kept) scale := by
  unfold storedAt
  by_cases hkept : kept < 2 ^ 127
  · rw [if_pos hkept, bind_some]
    cases roundUp with
    | true =>
      rw [if_pos rfl, if_pos rfl, roundUpWords_words]
      by_cases hnext : kept + 1 < 2 ^ 127
      · rw [if_pos hnext]
        simp only [decimalMagFitsPrecision_words, decide_eq_true_eq]
        rfl
      · rw [if_neg hnext, if_neg (by omega)]
        rfl
    | false =>
      simp only [Bool.false_eq_true, if_false, decimalMagFitsPrecision_words, decide_eq_true_eq]
      rfl
  · have hlarge : ¬ (if roundUp then kept + 1 else kept) < 10 ^ 38 := by
      split_ifs <;> omega
    rw [if_neg hkept, if_neg hlarge]
    rfl

theorem storedAt_large {R : Nat} (h : 10 ^ 38 ≤ R) (neg : Bool) (scale : Int) :
    storedAt neg R scale = .error (.overflow 38 scale) :=
  if_neg (not_lt.mpr h)

theorem large_of_long {D : List UInt8} (hlead : Leading D) (hnil : D ≠ []) {zeros : Nat}
    (hlong : maxDecimal128Digits < D.length + zeros) : 10 ^ 38 ≤ ofDigits D * 10 ^ zeros := by
  have hpos : 0 < D.length := length_pos_of_ne_nil hnil
  refine le_trans ?_ (Nat.mul_le_mul_right _ (hlead hnil))
  rw [← pow_add]
  exact Nat.pow_le_pow_right (by decide) (by unfold maxDecimal128Digits at hlong; omega)

-- Too many digits are refused before they are folded; the value they spell is too large.
theorem storedAt_kept {ip fp D : List UInt8} {lead keep zeros : Nat}
    (hdrop : (ip ++ fp).drop lead = D) (hkeep : keep ≤ D.length)
    (hwide : maxDecimal128Digits < keep + zeros → 10 ^ 38 ≤ ofDigits (D.take keep) * 10 ^ zeros)
    (neg roundUp : Bool) (scale : Int) :
    (match (decimalMagnitudeOf ip fp lead keep zeros).bind
        fun words => if roundUp then roundUpWords words else some words with
      | none => .error (.overflow (38 : Nat) scale)
      | some words =>
        if decimalMagFitsPrecision words 38 then .ok (decimalSigned words neg)
        else .error (.overflow (38 : Nat) scale)) =
      storedAt neg (if roundUp then ofDigits (D.take keep) * 10 ^ zeros + 1
        else ofDigits (D.take keep) * 10 ^ zeros) scale := by
  by_cases hshort : keep + zeros ≤ maxDecimal128Digits
  · rw [decimalMagnitudeOf_eq hdrop hkeep hshort]
    exact storedAt_words neg _ roundUp scale
  · have hlarge := hwide (not_le.mp hshort)
    rw [decimalMagnitudeOf, if_pos (not_le.mp hshort), storedAt_large (by split_ifs <;> omega)]
    rfl

variable {neg : Bool} {exp : Int}

theorem decimalValueOf_eq {s ip fp : List UInt8}
    (hsplit : decimalTextSplit s = some (neg, ip, fp, exp)) (hdigits : IsDigits (ip ++ fp))
    (scale : Int) :
    decimalValueOf s 38 scale =
      storedAt neg (roundedWorth (ofDigits (ip ++ fp)) (exp + scale)) scale := by
  have hD : IsDigits ((ip ++ fp).dropWhile (· == 48)) :=
    hdigits.subset (dropWhile_sublist _).subset
  have hlead := leading_dropWhile hdigits
  have hdrop := drop_skipZeros ip fp
  have hp : decimalEffectivePrecision 38 = 38 := rfl
  have hn : ip.length + fp.length - skipZeros ip fp (ip.length + fp.length) 0 =
      ((ip ++ fp).dropWhile (· == 48)).length := by
    rw [← hdrop, length_drop, length_append]
  have hvalue := ofDigits_dropWhile (ip ++ fp)
  simp only [decimalValueOf, hsplit, hn, hp]
  rw [← hvalue]
  generalize skipZeros ip fp (ip.length + fp.length) 0 = lead at hdrop ⊢
  generalize (ip ++ fp).dropWhile (· == 48) = D at *
  generalize exp + scale = shift
  by_cases hnil : D = []
  · subst hnil
    rw [if_pos length_nil, show ofDigits [] = 0 from rfl, roundedWorth_zero, storedAt_zero]
  have hpos : 0 < D.length := length_pos_of_ne_nil hnil
  rw [if_neg (by omega)]
  by_cases hshift : 0 ≤ shift
  · have hrounded : roundedWorth (ofDigits D) shift = ofDigits D * 10 ^ shift.toNat := if_pos hshift
    have hlarge := @large_of_long D hlead hnil shift.toNat
    rw [hrounded]
    by_cases hlong : (maxDecimal128Digits : Int) < D.length + shift
    · rw [if_pos ⟨hshift, hlong⟩, storedAt_large (hlarge (by omega))]
      rfl
    · have htail := storedAt_kept hdrop le_rfl (by rwa [take_length]) neg false scale
      rw [if_neg (by tauto), if_neg (by omega)]
      simp only [if_pos hshift]
      rwa [take_length] at htail
  · rw [if_neg (by tauto)]
    by_cases hshort : D.length + shift < 0
    · rw [if_pos ⟨not_le.mp hshift, hshort⟩, roundedWorth_short hD hshort, storedAt_zero]
    · have hle : (-shift).toNat ≤ D.length := by omega
      have hkeep : (D.length + shift).toNat = D.length - (-shift).toNat := by omega
      have hbound : D.length - (-shift).toNat < D.length := by omega
      have hlarge (hwide : maxDecimal128Digits < D.length - (-shift).toNat + 0) :
          10 ^ 38 ≤ ofDigits (D.take (D.length - (-shift).toNat)) * 10 ^ 0 := by
        have hlength : (D.take (D.length - (-shift).toNat)).length =
            D.length - (-shift).toNat := length_take_of_le (Nat.sub_le _ _)
        exact large_of_long (leading_take hD hlead hle) (length_pos_iff.mp (by omega)) (by omega)
      have htail := storedAt_kept hdrop (Nat.sub_le _ _) hlarge neg
        (decide (53 ≤ D.getD (D.length - (-shift).toNat) 48)) scale
      rw [if_neg (by tauto), roundedWorth_kept hD (not_le.mp hshift) hle]
      simp only [if_neg hshift, hkeep, digitAt_drop hdrop hbound]
      simp only [decide_eq_true_eq, pow_zero, Nat.mul_one, getD_eq_getElem _ _ hbound] at htail ⊢
      exact htail

theorem split_of_parts {s digits : List UInt8} (h : decimalTextParts s = some (neg, digits, exp)) :
    ∃ ip fp, decimalTextSplit s = some (neg, ip, fp, exp) ∧ digits = ip ++ fp := by
  obtain ⟨⟨neg', ip, fp, exp'⟩, hsplit, hparts⟩ := map_eq_some_iff.mp h
  obtain ⟨rfl, rfl, rfl⟩ := hparts
  exact ⟨ip, fp, hsplit, rfl⟩

theorem named_shift {s digits : List UInt8}
    (h : named s = if neg then -worth digits exp else worth digits exp) (scale : Int) :
    named s * 10 ^ scale =
      if neg then -worth digits (exp + scale) else worth digits (exp + scale) := by
  have hten : (10 : ℚ) ≠ 0 := by norm_num
  have hshift : worth digits (exp + scale) = worth digits exp * 10 ^ scale := by
    rw [worth, worth, zpow_add₀ hten, mul_assoc]
  rw [h, hshift]
  split_ifs
  · rw [neg_mul]
  · rfl

-- Every reader of a numeric text agrees on the number it names.
theorem decimalTexts_agree {text other : List UInt8} (h : (decimalTextParts text).isSome)
    (h' : (decimalTextParts other).isSome)
    (hexp : (writtenExponent text).natAbs ≤ 2 ^ 30) (hexp' : (writtenExponent other).natAbs ≤ 2 ^ 30)
    {scale : Int} (hscale : 0 ≤ scale) :
    (∃ r, decimalTextAt text scale = some r ∧ ∀ cell : Int128,
      r.order cell = (SignType.sign ((cell.signed : ℚ) - named text * 10 ^ scale) : ℤ)) ∧
    compareDecimalTexts text other = some (SignType.sign (named text - named other) : ℤ) ∧
    ((roundHalfAway (named text * 10 ^ scale)).natAbs < 10 ^ 38 → ∃ v : Int128,
      v.signed = roundHalfAway (named text * 10 ^ scale) ∧
      decimalTextRoundedAt text scale = some (v, false) ∧
      decimalValueFromText text 38 scale = .ok v) ∧
    (10 ^ 38 ≤ (roundHalfAway (named text * 10 ^ scale)).natAbs →
      decimalValueFromText text 38 scale = .error (.overflow 38 scale)) ∧
    (∀ v : Int128, v.signed = roundHalfAway (named text * 10 ^ scale) →
      decimalTextRoundedAt text scale = some (v, false)) ∧
    ((∀ v : Int128, v.signed ≠ roundHalfAway (named text * 10 ^ scale)) →
      decimalTextRoundedAt text scale = some (int128From 0, true)) := by
  obtain ⟨⟨neg, digits, exp⟩, hparts⟩ := isSome_iff_exists.mp h
  obtain ⟨⟨neg', digits', exp'⟩, hparts'⟩ := isSome_iff_exists.mp h'
  obtain ⟨hdigits, hnamed⟩ := named_of_parts hparts hexp
  obtain ⟨hdigits', hnamed'⟩ := named_of_parts hparts' hexp'
  obtain ⟨ip, fp, hsplit, rfl⟩ := split_of_parts hparts
  have hspecial := decimalSpecialText_of_parts hparts
  have hrounded := decimalTextRoundedAt_eq hparts hdigits hscale
  have hstored : decimalValueFromText text 38 scale =
      storedAt neg (roundedWorth (ofDigits (ip ++ fp)) (exp + scale)) scale := by
    rw [decimalValueFromText, if_neg (by simp [hspecial]), decimalValueOf_eq hsplit hdigits]
  rw [named_shift hnamed scale, roundHalfAway_worth]
  generalize roundedWorth (ofDigits (ip ++ fp)) (exp + scale) = R at *
  have hmag : (withNeg neg R).natAbs = R := by
    unfold withNeg
    split_ifs <;> omega
  have hreport : ∀ v : Int128, v.signed = withNeg neg R →
      decimalTextRoundedAt text scale = some (v, false) := by
    intro v hv
    rw [hrounded, reported, narrow_of_signed hv]
  refine ⟨decimalTextAt_resolves hparts hdigits scale, ?_, ?_, ?_, hreport, ?_⟩
  · rw [compareDecimalTexts_eq hparts hparts' hdigits hdigits' hspecial
      (decimalSpecialText_of_parts hparts'), hnamed, hnamed']
  · intro hlt
    rw [hmag] at hlt
    have hv := @signed_decimalSigned R (by omega) neg
    refine ⟨_, hv, hreport _ hv, ?_⟩
    rw [hstored, storedAt, if_pos hlt]
  · intro hle
    rw [hmag] at hle
    rw [hstored, storedAt, if_neg (not_lt.mpr hle)]
  · intro hnone
    have hnarrow : narrow (withNeg neg R) = none := by
      cases hn : narrow (withNeg neg R) with
      | none => rfl
      | some v => exact absurd (narrow_eq_some_iff.mp hn) (hnone v)
    rw [hrounded, reported, hnarrow]

theorem decimalTexts_agree_quarter :
    (∃ r, decimalTextAt [49, 46, 50, 53] 1 = some r ∧ ∀ cell : Int128, r.order cell =
      (SignType.sign ((cell.signed : ℚ) - named [49, 46, 50, 53] * 10 ^ (1 : Int)) : ℤ)) ∧
    compareDecimalTexts [49, 46, 50, 53] [45, 51, 101, 50] =
      some (SignType.sign (named [49, 46, 50, 53] - named [45, 51, 101, 50]) : ℤ) :=
  have hagree := @decimalTexts_agree [49, 46, 50, 53] [45, 51, 101, 50] (by decide) (by decide)
    (by decide) (by decide) 1 (by decide)
  ⟨hagree.1, hagree.2.1⟩

end Wadjet.Storage.Parquet
