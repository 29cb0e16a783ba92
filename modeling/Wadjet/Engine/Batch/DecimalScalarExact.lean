import Wadjet.Data.Truncated
import Wadjet.Engine.Batch.DecimalScalar

namespace Wadjet.Engine.Batch

open Wadjet.Data Wide Option

def scalarResult (op : DecimalScalarOp) (x : ℚ) (digits : ℤ) : ℚ :=
  match op with
  | .abs => |x|
  | .sign => (SignType.sign x : ℤ)
  | .ceil => ⌈x⌉
  | .floor => ⌊x⌋
  | .round => roundHalfAway (x * 10 ^ digits) / 10 ^ digits
  | .trunc => truncated (x * 10 ^ digits) / 10 ^ digits

variable (v : Int128)

theorem quoRem_pow10 {s : Nat} (hs : s ≤ 38) : ∃ q r, quoRem v (pow10Int128 s) = some (q, r) ∧
    q.signed = v.signed.tdiv (10 ^ s : Nat) ∧ r.signed = v.signed.tmod (10 ^ s : Nat) := by
  have hdiv := pow10Int128_signed hs
  have hten : (0 : Int) < 10 ^ s := by positivity
  cases hqr : quoRem v (pow10Int128 s) with
  | none => obtain hz | ⟨-, hz⟩ := quoRem_none hqr <;> omega
  | some qr =>
    obtain ⟨hq, hr⟩ := quoRem_some hqr
    rw [hdiv] at hq hr
    exact ⟨_, _, rfl, by exact_mod_cast hq, by exact_mod_cast hr⟩

def keptDigits (round : Bool) (x : ℚ) : ℤ :=
  if round then roundHalfAway x else truncated x

variable (round : Bool)

variable {s digits : Int}

theorem keptDigits_small {x : ℚ} (h : |x| < 1 / 2) : keptDigits round x = 0 := by
  obtain ⟨hlow, hhigh⟩ := abs_lt.mp h
  unfold keptDigits roundHalfAway truncated
  split_ifs
  · rw [neg_eq_zero, Int.floor_eq_iff]
    constructor <;> push_cast <;> linarith
  · rw [Int.floor_eq_iff]
    constructor <;> push_cast <;> linarith
  · rw [Int.ceil_eq_iff]
    constructor <;> push_cast <;> linarith
  · rw [Int.floor_eq_iff]
    constructor <;> push_cast <;> linarith

theorem reading_shift (s digits : Int) :
    reading v s * 10 ^ digits = v.signed / 10 ^ (s - digits) := by
  have hten : (10 : ℚ) ≠ 0 := by norm_num
  rw [reading, zpow_sub₀ hten, ← div_mul]

theorem keptDigits_wide (h : 38 < s - digits) :
    keptDigits round (reading v s * 10 ^ digits) = 0 := by
  refine keptDigits_small round ?_
  have hbounds := v.signed_bounds
  have hmag : |(v.signed : ℚ)| ≤ 2 ^ 127 := by
    rw [abs_le]
    constructor
    · exact_mod_cast hbounds.1
    · exact_mod_cast hbounds.2.le
  have hpow : (10 : ℚ) ^ (39 : Int) ≤ 10 ^ (s - digits) :=
    zpow_le_zpow_right₀ (by norm_num) (by omega)
  have hpos : (0 : ℚ) < 10 ^ (s - digits) := by positivity
  rw [reading_shift, abs_div, abs_of_pos hpos, div_lt_div_iff₀ hpos (by norm_num)]
  linarith

theorem decTruncate_eq {drop : Int} (hdrop : 0 ≤ drop) :
    decTruncate v drop = narrow (truncated (v.signed / 10 ^ drop)) := by
  have hpos : 0 < 10 ^ drop.toNat := Nat.pow_pos (by decide)
  have hcast : (10 : ℚ) ^ drop = ((10 ^ drop.toNat : Nat) : ℚ) := by
    push_cast
    rw [← zpow_natCast, Int.toNat_of_nonneg hdrop]
  rw [hcast, truncated_div _ hpos, decTruncate]
  by_cases hzero : drop ≤ 0
  · obtain rfl : drop = 0 := le_antisymm hzero hdrop
    simp [narrow_signed]
  rw [if_neg hzero]
  by_cases hwide : (maxDecimalPrecision : Int) < drop
  · have hsmall := @keptDigits_wide v false drop 0 (by unfold maxDecimalPrecision at hwide; omega)
    rw [reading_shift, sub_zero, hcast] at hsmall
    rw [if_pos hwide, ← truncated_div _ hpos]
    exact (narrow_of_signed (signed_zero.trans hsmall.symm)).symm
  · obtain ⟨q, r, hqr, hq, -⟩ := @quoRem_pow10 v drop.toNat (by unfold maxDecimalPrecision at hwide; omega)
    rw [if_neg hwide, hqr, map_some, ← hq, narrow_signed]

theorem kept_eq {fromScale toScale : Int} (hfrom : 0 ≤ fromScale)
    (hto : 0 ≤ toScale) (hle : toScale ≤ fromScale) :
    (if round then rescale v fromScale toScale else decTruncate v (fromScale - toScale)) =
      narrow (keptDigits round (v.signed / 10 ^ fromScale * 10 ^ toScale)) := by
  have hten : (10 : ℚ) ≠ 0 := by norm_num
  cases round with
  | true =>
    rw [if_pos rfl, rescale_eq v hfrom hto, rescaled_eq, keptDigits, if_pos rfl]
  | false =>
    rw [if_neg (by decide), decTruncate_eq v (by omega), keptDigits, if_neg (by decide),
      zpow_sub₀ hten, ← div_mul]

theorem signed_one : (int128From 1).signed = 1 := by
  decide

theorem signed_minus_one : (int128From (-1)).signed = -1 := by
  decide

theorem signed_ceilFloorStep (r : Int128) (up : Bool) : (ceilFloorStep r up).signed =
    if up ∧ 0 < r.signed then 1 else if up = false ∧ r.signed < 0 then -1 else 0 := by
  have hzero := isZero_iff r
  have hneg := isNegative_iff_signed r
  simp only [ceilFloorStep]
  cases up <;> split_ifs <;> simp_all [signed_zero, signed_one, signed_minus_one] <;> omega

theorem ceil_div (n : Int) {d : Nat} (hd : 0 < d) :
    ⌈(n : ℚ) / d⌉ = if 0 < n.tmod d then n.tdiv d + 1 else n.tdiv d := by
  rw [Rat.ceil_intCast_div_natCast]
  have hsplit := Int.mul_tdiv_add_tmod n d
  have hrest : (n.tmod d).natAbs < d := by
    rw [Int.natAbs_tmod]
    exact Nat.mod_lt _ hd
  have hlow : -(d : Int) < n.tmod d := by omega
  have hhigh : n.tmod d < d := by omega
  have hup : (-n) / d = if 0 < n.tmod d then -(n.tdiv d + 1) else -n.tdiv d := by
    rw [Int.ediv_eq_iff_of_pos (by omega)]
    split_ifs with hpos
    · constructor <;> nlinarith
    · constructor <;> nlinarith
  rw [hup]
  split_ifs <;> ring

theorem floor_div (n : Int) {d : Nat} (hd : 0 < d) :
    ⌊(n : ℚ) / d⌋ = if n.tmod d < 0 then n.tdiv d - 1 else n.tdiv d := by
  have hceil := ceil_div (-n) hd
  rw [Int.cast_neg, neg_div, Int.ceil_neg, Int.neg_tmod, Int.neg_tdiv] at hceil
  split_ifs at hceil ⊢ <;> omega

theorem isZero_step_bind (q w : Int128) :
    (if w.isZero then some q else q.addChecked w) = narrow (q.signed + w.signed) := by
  by_cases hzero : w.isZero = true
  · rw [if_pos hzero, (isZero_iff w).mp hzero, add_zero, narrow_signed]
  · rw [if_neg hzero, addChecked_eq]

theorem rescale_same : rescale v 0 0 = some v := by
  rw [rescale, if_neg (by decide), if_pos rfl]

theorem decCeilFloor_eq {s : Nat} (hs : s ≤ 38) (up : Bool) :
    decCeilFloor v s 0 up =
      narrow (if up then ⌈reading v s⌉ else ⌊reading v s⌋) := by
  have hpos : 0 < 10 ^ s := Nat.pow_pos (by decide)
  have hread : reading v s = (v.signed : ℚ) / ((10 ^ s : Nat) : ℚ) := by
    push_cast
    rfl
  rw [hread]
  unfold decCeilFloor
  by_cases hzero : (s : Int) = 0
  · obtain rfl : s = 0 := by omega
    rw [rescale_same]
    simp [narrow_signed]
  obtain ⟨q, r, hqr, hq, hr⟩ := quoRem_pow10 v hs
  rw [if_neg hzero, if_neg (by unfold maxDecimalPrecision; omega), Int.toNat_natCast, hqr]
  simp only [rescale_same, isZero_step_bind, ceil_div _ hpos, floor_div _ hpos, ← hq, ← hr,
    signed_ceilFloorStep]
  cases up <;> simp <;> split_ifs <;> simp [sub_eq_add_neg]

variable {s digits : Int}

theorem decRoundTrunc_fraction (hdigits : 0 ≤ digits)
    (hlt : digits < s) :
    decRoundTrunc v s digits digits round = narrow (keptDigits round (reading v s * 10 ^ digits)) := by
  have hsame : ∀ w : Int128, rescale w digits digits = some w := fun w => by
    rw [rescale, if_neg (by omega), if_pos rfl]
  have hkept := kept_eq v round (by omega) hdigits hlt.le
  simp only [decRoundTrunc, if_neg (not_lt.mpr hdigits), if_neg (not_le.mpr hlt),
    bind_eq_bind, hsame, bind_fun_some, hkept]
  rfl

theorem decRoundTrunc_negative (hs : 0 ≤ s)
    (hneg : digits < 0) (hrange : s - digits < 2 ^ 63) :
    decRoundTrunc v s digits 0 round =
      narrow (keptDigits round (reading v s * 10 ^ digits) * 10 ^ (-digits).toNat) := by
  have hwide : wrap64 (s - digits) = s - digits := wrap64_eq (by omega) hrange
  have hback : wrap64 (-digits) = -digits := wrap64_eq (by omega) (by omega)
  simp only [decRoundTrunc, if_pos hneg, hwide, hback, rescale_same, bind_eq_bind,
    bind_fun_some]
  by_cases hbig : (maxDecimalPrecision : Int) < s - digits
  · rw [if_pos hbig, keptDigits_wide v round hbig, zero_mul]
    exact (narrow_of_signed signed_zero).symm
  have hkept := @kept_eq v round (s - digits) 0 (by omega) le_rfl (by omega)
  simp only [sub_zero, zpow_zero, mul_one] at hkept
  have hshift : ∀ w : Int128, mulPow10 w (-digits) = narrow (w.signed * 10 ^ (-digits).toNat) :=
    fun w => mulPow10_eq w (by omega)
  simp only [if_neg hbig, hkept, hshift, reading_shift]
  exact narrow_mul_bind _ (by positivity)

theorem wrap64_wide (hs : 0 ≤ s) (hs' : s ≤ 38) (hlow : -2 ^ 63 ≤ digits)
    (h : 2 ^ 63 ≤ s - digits) : wrap64 (s - digits) < 0 := by
  unfold wrap64 Int.bmod
  dsimp only
  split_ifs <;> omega

theorem decRoundTrunc_wraps (hs : 0 ≤ s) (hs' : s ≤ 38)
    (hlow : -2 ^ 63 ≤ digits) (h : 2 ^ 63 ≤ s - digits) :
    decRoundTrunc v s digits 0 true = none := by
  have hwide := wrap64_wide hs hs' hlow h
  have hnone : rescale v (wrap64 (s - digits)) 0 = none := if_pos (.inl hwide)
  simp only [decRoundTrunc, hnone]
  rw [if_pos (by omega), if_neg (by unfold maxDecimalPrecision; omega)]
  rfl

theorem decRoundTrunc_wraps_cut (hs : 0 ≤ s) (hs' : s ≤ 38)
    (hlow : -2 ^ 63 ≤ digits) (h : 2 ^ 63 ≤ s - digits) :
    decRoundTrunc v s digits 0 false =
      if v.signed = 0 ∧ digits ≠ -2 ^ 63 then some (int128From 0) else none := by
  have hwide := wrap64_wide hs hs' hlow h
  have hcut : decTruncate v (wrap64 (s - digits)) = some v := if_pos hwide.le
  simp only [decRoundTrunc, hcut, Bool.false_eq_true, if_false, bind_eq_bind,
    bind_some, rescale_same, bind_fun_some]
  rw [if_pos (by omega), if_neg (by unfold maxDecimalPrecision; omega)]
  by_cases hmin : digits = -2 ^ 63
  · rw [if_neg (by tauto), hmin]
    exact if_pos (by decide)
  have hback : wrap64 (-digits) = -digits := wrap64_eq (by omega) (by omega)
  rw [hback, mulPow10_eq v (by omega)]
  by_cases hv : v.signed = 0
  · rw [if_pos ⟨hv, hmin⟩, hv, zero_mul]
    exact narrow_of_signed signed_zero
  rw [if_neg (by tauto)]
  refine narrow_eq_none ?_
  have hpow : (2 : Int) ^ 127 < 10 ^ (-digits).toNat :=
    lt_of_lt_of_le (by norm_num : (2 : Int) ^ 127 < 10 ^ 39)
      (pow_le_pow_right₀ (by norm_num) (by omega))
  intro hb
  obtain hlt | hgt := lt_or_gt_of_ne hv <;> nlinarith

theorem decimalAtPrecision_narrow (n : Int) {p : Nat} (hp : 1 ≤ p) (hp' : p ≤ 38) :
    (n.natAbs < 10 ^ p → ∃ w : Int128, w.signed = n ∧
      decimalAtPrecision (decStatus (narrow n)) p = (w, .ok)) ∧
    (10 ^ p ≤ n.natAbs →
      decimalAtPrecision (decStatus (narrow n)) p = (int128From 0, .overflow)) := by
  have hpow : (10 : Nat) ^ p ≤ 10 ^ 38 := Nat.pow_le_pow_right (by decide) hp'
  have hfits : decimalFitsPrecision n p = decide (n.natAbs < 10 ^ p) := by
    have hzero : decide (p = 0) = false := decide_eq_false (by omega)
    have hmax : decide (p > maxDecimalPrecision) = false :=
      decide_eq_false (by unfold maxDecimalPrecision; omega)
    rw [decimalFitsPrecision, hzero, hmax, Bool.false_or, Bool.false_or]
  constructor
  · intro hlt
    cases hn : narrow n with
    | none =>
      rw [narrow, if_pos (by omega)] at hn
      cases hn
    | some w =>
      have hw := narrow_eq_some_iff.mp hn
      simp [decStatus, decimalAtPrecision, hw, hfits, hlt]
  · intro hle
    cases hn : narrow n with
    | none => simp [decStatus, decimalAtPrecision]
    | some w =>
      have hw := narrow_eq_some_iff.mp hn
      simp [decStatus, decimalAtPrecision, hw, hfits, hle]

theorem decScalarType_scale (intDigits s : Nat) :
    (decScalarType intDigits s).scale = min s (38 - max intDigits 1) := by
  simp only [decScalarType, maxDecimalPrecision, maxDecimalScale]
  split_ifs <;> omega

theorem decScalarType_precision (intDigits s : Nat) :
    (decScalarType intDigits s).precision =
      min (max intDigits 1) 38 + (decScalarType intDigits s).scale := by
  simp only [decScalarType, maxDecimalPrecision]
  split_ifs <;> omega

variable (op : DecimalScalarOp)

def resultType (p s : Nat) (digits : Int) : DecimalType :=
  match op with
  | .abs => { precision := p, scale := s }
  | .sign => { precision := 1, scale := 0 }
  | .ceil | .floor => decScalarType (p - s + 1) 0
  | .round => decScalarType (p - s + roundCarry digits s) (max digits 0).toNat
  | .trunc => decScalarType (p - s) (max digits 0).toNat

theorem decimalScalarType_eq {p s : Nat} (digits : Int) (hp : 1 ≤ p)
    (hs : s ≤ p) : decimalScalarType op ⟨p, s⟩ digits = some (resultType op p s digits) := by
  simp only [decimalScalarType, normalizeDecimalPS, if_neg (show ¬ p = 0 by omega),
    if_neg (show ¬ p < s by omega), if_neg (show ¬ p < 1 by omega)]
  cases op <;> rfl

theorem resultType_bounds {p s : Nat} (digits : Int) (hp : 1 ≤ p) (hp' : p ≤ 38) (hs : s ≤ p) :
    1 ≤ (resultType op p s digits).precision ∧ (resultType op p s digits).precision ≤ 38 ∧
      (resultType op p s digits).scale ≤ (resultType op p s digits).precision := by
  cases op <;> simp only [resultType, decScalarType_precision, decScalarType_scale] <;> omega

structure ScalarExact (op : DecimalScalarOp) (v : Int128) (s : Nat) (digits : Int)
    (t : DecimalType) : Prop where
  value : (decimalScalar op v s digits t.precision t.scale).2 = .ok →
    reading (decimalScalar op v s digits t.precision t.scale).1 t.scale =
      scalarResult op (reading v s) digits
  overflow : (decimalScalar op v s digits t.precision t.scale).2 = .overflow →
    (10 : ℚ) ^ (t.precision - t.scale) ≤ |scalarResult op (reading v s) digits|
  cuts : op = .trunc → (decimalScalar op v s digits t.precision t.scale).2 = .ok →
    |reading (decimalScalar op v s digits t.precision t.scale).1 t.scale| ≤ |reading v s|
  keeps : op = .round ∨ op = .trunc → s ≤ digits →
    (decimalScalar op v s digits t.precision t.scale).2 = .ok ∧
      reading (decimalScalar op v s digits t.precision t.scale).1 t.scale = reading v s

-- One integer digit is always declared, so thirty-eight fraction digits never are.
def ScaleYields (v : Int128) (p s : Nat) (digits : Int) : Prop :=
  (op = .round ∨ op = .trunc) ∧ p = 38 ∧ s = 38 ∧ 38 ≤ digits ∧ ¬ (10 : Int) ∣ v.signed

-- The exponent of the unit has no machine integer.
def UnitWraps (v : Int128) (s : Nat) (digits : Int) : Prop :=
  2 ^ 63 ≤ s - digits ∧ (op = .round ∨ op = .trunc ∧ (v.signed ≠ 0 ∨ digits = -2 ^ 63))

theorem scalarResult_round (x : ℚ) (digits : Int) (round : Bool)
    (h : op = if round then .round else .trunc) :
    scalarResult op x digits = keptDigits round (x * 10 ^ digits) / 10 ^ digits := by
  cases round <;> subst h <;> rfl

theorem keptDigits_intCast (n : ℤ) : keptDigits round n = n := by
  unfold keptDigits
  split_ifs
  · exact roundHalfAway_intCast n
  · exact truncated_intCast n

theorem keptDigits_all {s : Nat} {digits : Int} (h : s ≤ digits) :
    (keptDigits round (reading v s * 10 ^ digits) : ℚ) / 10 ^ digits = reading v s := by
  have hint : reading v s * 10 ^ digits = ((v.signed * 10 ^ (digits - s).toNat : Int) : ℚ) := by
    have hback : (10 : ℚ) ^ (s - digits) = (10 ^ (digits - s).toNat)⁻¹ := by
      rw [← zpow_natCast, Int.toNat_of_nonneg (by omega), ← zpow_neg, neg_sub]
    rw [reading_shift, hback]
    push_cast
    rw [div_inv_eq_mul]
  rw [hint, keptDigits_intCast, ← hint]
  field_simp

variable {op : DecimalScalarOp} {round : Bool}

theorem decimalScalar_round
    (h : op = if round then .round else .trunc) (v : Int128) (s : Nat) (digits : Int)
    (t : DecimalType) : decimalScalar op v s digits t.precision t.scale =
      decimalAtPrecision (decStatus (decRoundTrunc v s digits t.scale round)) t.precision := by
  have hscales : ¬ ((s : Int) < 0 ∨ (t.scale : Int) < 0) := by omega
  cases round <;> subst h <;> simp only [decimalScalar, if_neg hscales] <;> rfl

theorem rescale_exact {s scale : Nat} {n : Int}
    (h : (n : ℚ) = reading v s * 10 ^ (scale : Int)) : rescale v s scale = narrow n := by
  rw [rescale_eq v (by omega) (by omega), rescaled_eq, ← reading, ← h, roundHalfAway_intCast]

theorem exists_integer_reading {s scale : Nat}
    (h : s ≤ scale ∨ s = 38 ∧ scale = 37 ∧ (10 : Int) ∣ v.signed) :
    ∃ n : Int, (n : ℚ) = reading v s * 10 ^ (scale : Int) := by
  obtain hle | ⟨rfl, rfl, n, hn⟩ := h
  · refine ⟨v.signed * 10 ^ (scale - s), ?_⟩
    have hten : (10 : ℚ) ^ s ≠ 0 := by positivity
    rw [reading]
    push_cast
    rw [zpow_natCast, zpow_natCast, eq_comm, div_mul_eq_mul_div, div_eq_iff hten, mul_assoc,
      ← pow_add, Nat.sub_add_cancel hle]
  · refine ⟨n, ?_⟩
    rw [reading, hn]
    push_cast
    ring

theorem decRoundTrunc_integer
    (hop : op = if round then .round else .trunc) {v : Int128} {p s : Nat} {digits : Int}
    (hp' : p ≤ 38) (hs : s ≤ p) (hyields : ¬ ScaleYields op v p s digits)
    (hlow : -2 ^ 63 ≤ digits) (hwraps : ¬ UnitWraps op v s digits) {t : DecimalType}
    (ht : resultType op p s digits = t) :
    ∃ n : Int, decRoundTrunc v s digits t.scale round = narrow n ∧
      (n : ℚ) = scalarResult op (reading v s) digits * 10 ^ (t.scale : Int) := by
  have hscale : t.scale =
      min (max digits 0).toNat (38 - max (p - s + if round then roundCarry digits s else 0) 1) := by
    cases round <;> subst hop ht <;> exact decScalarType_scale _ _
  have hkind : op = .round ∨ op = .trunc := by
    cases round <;> simp [hop]
  rw [scalarResult_round op _ digits round hop]
  by_cases hneg : digits < 0
  · have hzero : t.scale = 0 := by omega
    by_cases hrange : 2 ^ 63 ≤ s - digits
    · have hcut : round = false ∧ v.signed = 0 ∧ digits ≠ -2 ^ 63 := by
        cases round <;> subst hop <;> simp_all [UnitWraps]
      refine ⟨0, ?_, ?_⟩
      · rw [hzero, hcut.1, Nat.cast_zero, decRoundTrunc_wraps_cut v (by omega) (by omega) hlow hrange,
          if_pos hcut.2]
        exact (narrow_of_signed signed_zero).symm
      · rw [keptDigits_wide v round (by omega)]
        simp
    refine ⟨keptDigits round (reading v s * 10 ^ digits) * 10 ^ (-digits).toNat, ?_, ?_⟩
    · rw [hzero]
      exact decRoundTrunc_negative v round (by omega) hneg (not_le.mp hrange)
    · have hback : (10 : ℚ) ^ digits = (10 ^ (-digits).toNat)⁻¹ := by
        rw [← zpow_natCast, Int.toNat_of_nonneg (by omega), ← zpow_neg, neg_neg]
      push_cast
      rw [hzero, Nat.cast_zero, zpow_zero, mul_one, hback, div_inv_eq_mul]
  · by_cases hkeep : s ≤ digits
    · have hfits : s ≤ t.scale ∨ s = 38 ∧ t.scale = 37 ∧ (10 : Int) ∣ v.signed := by
        by_cases hfull : p = 38 ∧ s = 38
        · refine .inr ⟨hfull.2, ?_, ?_⟩
          · rw [hscale, roundCarry]
            split_ifs <;> omega
          · by_contra hdvd
            exact hyields ⟨hkind, hfull.1, hfull.2, by omega, hdvd⟩
        · rw [hscale, roundCarry]
          split_ifs <;> omega
      obtain ⟨n, hn⟩ := exists_integer_reading v hfits
      refine ⟨n, ?_, ?_⟩
      · rw [decRoundTrunc, if_neg hneg, if_pos hkeep]
        exact rescale_exact v hn
      · rw [keptDigits_all v round hkeep, hn]
    · have hdigits : (t.scale : Int) = digits := by
        rw [hscale, roundCarry]
        split_ifs <;> omega
      refine ⟨keptDigits round (reading v s * 10 ^ digits), ?_, ?_⟩
      · rw [hdigits]
        exact decRoundTrunc_fraction v round (by omega) (by omega)
      · rw [hdigits, div_mul_cancel₀ _ (zpow_ne_zero _ (by norm_num))]

theorem sign_reading (s : Nat) :
    (SignType.sign (reading v s) : ℤ) = Int.sign v.signed := by
  have hpos : (0 : ℚ) < 10 ^ (s : Int) := zpow_pos (by norm_num) _
  rw [reading, div_eq_mul_inv, sign_mul, sign_pos (inv_pos.mpr hpos)]
  obtain hneg | hzero | hgt := lt_trichotomy v.signed 0
  · rw [sign_neg (by exact_mod_cast hneg), Int.sign_eq_neg_one_of_neg hneg]
    rfl
  · rw [hzero]
    simp
  · rw [sign_pos (by exact_mod_cast hgt), Int.sign_eq_one_of_pos hgt]
    rfl

def Integral (op : DecimalScalarOp) (v : Int128) (s : Nat) (digits : Int) (t : DecimalType)
    (n : Int) : Prop :=
  decimalScalar op v s digits t.precision t.scale =
    decimalAtPrecision (decStatus (narrow n)) t.precision ∧
  (n : ℚ) = scalarResult op (reading v s) digits * 10 ^ (t.scale : Int)

theorem decimalScalar_integer (op : DecimalScalarOp) {v : Int128} {p s : Nat} {digits : Int}
    (hp' : p ≤ 38) (hs : s ≤ p) (hv : v.signed.natAbs < 10 ^ p)
    (hlow : -2 ^ 63 ≤ digits) (hyields : ¬ ScaleYields op v p s digits)
    (hwraps : ¬ UnitWraps op v s digits) :
    ∃ n, Integral op v s digits (resultType op p s digits) n := by
  have hscales : ∀ t : DecimalType, ¬ ((s : Int) < 0 ∨ (t.scale : Int) < 0) := fun t => by omega
  have hpow : (10 : Nat) ^ p ≤ 10 ^ 38 := Nat.pow_le_pow_right (by decide) hp'
  have hinteger : ∀ k, (decScalarType k 0).scale = 0 := fun k => by
    rw [decScalarType_scale]
    omega
  have hround : ∀ round : Bool, (op = if round then .round else .trunc) →
      ∃ n, Integral op v s digits (resultType op p s digits) n := by
    intro round hop
    obtain ⟨n, hn, hvalue⟩ := decRoundTrunc_integer hop hp' hs hyields hlow hwraps rfl
    exact ⟨n, by rw [decimalScalar_round hop, hn], hvalue⟩
  cases op with
  | abs =>
    obtain ⟨mag, habs, hmag⟩ := @absInt128_eq v (by omega)
    refine ⟨mag.signed, ?_, ?_⟩
    · simp only [decimalScalar, if_neg (hscales _), habs, narrow_signed]
      rw [resultType, rescale, if_neg (by omega), if_pos rfl]
    · have hten : (0 : ℚ) < 10 ^ (s : Int) := zpow_pos (by norm_num) _
      rw [hmag, scalarResult, resultType, reading, abs_div, abs_of_pos hten,
        div_mul_cancel₀ _ hten.ne']
      push_cast
      rfl
  | sign =>
    refine ⟨v.signed.sign, ?_, ?_⟩
    · simp only [decimalScalar, if_neg (hscales _)]
      congr 2
      simp only [resultType, Nat.cast_zero, rescale_same]
      rw [eq_comm, narrow_eq_some_iff]
      simp only [isNegative_iff_signed, isZero_iff]
      split_ifs with hneg hzero
      · rw [signed_minus_one, Int.sign_eq_neg_one_of_neg hneg]
      · rw [signed_zero, hzero, Int.sign_zero]
      · rw [signed_one, Int.sign_eq_one_of_pos (by omega)]
    · rw [scalarResult, sign_reading]
      simp [resultType]
  | ceil | floor =>
    apply Exists.intro
    constructor
    · simp only [decimalScalar]
      simp only [resultType, hinteger, Nat.cast_zero]
      rw [decCeilFloor_eq v (by omega)]
      rfl
    · simp [scalarResult, resultType, hinteger]
  | round => exact hround true rfl
  | trunc => exact hround false rfl

section

variable {op : DecimalScalarOp} {v : Int128} {p s : Nat} {digits : Int}

theorem scalarResult_kept (hop : op = .round ∨ op = .trunc) (hkeep : s ≤ digits) :
    scalarResult op (reading v s) digits = reading v s := by
  obtain rfl | rfl := hop
  · exact keptDigits_all v true hkeep
  · exact keptDigits_all v false hkeep

theorem abs_scalarResult_trunc_le (x : ℚ) (digits : Int) :
    |scalarResult .trunc x digits| ≤ |x| := by
  have hten : (0 : ℚ) < 10 ^ digits := zpow_pos (by norm_num) _
  rw [scalarResult, abs_div, abs_of_pos hten, div_le_iff₀ hten]
  calc |(truncated (x * 10 ^ digits) : ℚ)| ≤ |x * 10 ^ digits| := abs_truncated_le _
    _ = |x| * 10 ^ digits := by rw [abs_mul, abs_of_pos hten]

theorem kept_fits (hp : 1 ≤ p) (hp' : p ≤ 38) (hs : s ≤ p) (hv : v.signed.natAbs < 10 ^ p)
    (hop : op = .round ∨ op = .trunc) {n : Int} {t : DecimalType} (ht : resultType op p s digits = t)
    (hn : (n : ℚ) = reading v s * 10 ^ (t.scale : Int)) : n.natAbs < 10 ^ t.precision := by
  have hprecision : p - s + t.scale ≤ t.precision := by
    obtain rfl | rfl := hop <;> subst ht <;> simp only [resultType, decScalarType_precision] <;> omega
  have hten : (0 : ℚ) < 10 ^ s := by positivity
  have hscale : (0 : ℚ) < 10 ^ t.scale := by positivity
  have hmag : (n.natAbs : ℚ) * 10 ^ s = v.signed.natAbs * 10 ^ t.scale := by
    rw [Nat.cast_natAbs, Nat.cast_natAbs, Int.cast_abs, Int.cast_abs, hn, reading, zpow_natCast,
      zpow_natCast, abs_mul, abs_div, abs_of_pos hten, abs_of_pos hscale]
    field_simp
  have hnat : n.natAbs * 10 ^ s = v.signed.natAbs * 10 ^ t.scale := by
    exact_mod_cast hmag
  have hlt : n.natAbs * 10 ^ s < 10 ^ (p - s + t.scale) * 10 ^ s := by
    rw [hnat, ← pow_add, show p - s + t.scale + s = p + t.scale by omega, pow_add]
    exact Nat.mul_lt_mul_of_pos_right hv (by positivity)
  exact lt_of_lt_of_le (Nat.lt_of_mul_lt_mul_right hlt) (Nat.pow_le_pow_right (by decide) hprecision)

theorem scalarExact_of_integer (hp : 1 ≤ p) (hp' : p ≤ 38) (hs : s ≤ p)
    (hv : v.signed.natAbs < 10 ^ p) {n : Int} {t : DecimalType} (ht : resultType op p s digits = t)
    (h : Integral op v s digits t n) : ScalarExact op v s digits t := by
  obtain ⟨hcall, hn⟩ := h
  obtain ⟨hpos, hmax, hscale⟩ := ht ▸ @resultType_bounds op p s digits hp hp' hs
  obtain ⟨hin, hout⟩ := decimalAtPrecision_narrow n hpos hmax
  have hten : (0 : ℚ) < 10 ^ (t.scale : Int) := zpow_pos (by norm_num) _
  have hresult : scalarResult op (reading v s) digits = n / 10 ^ (t.scale : Int) := by
    rw [hn, mul_div_cancel_right₀ _ hten.ne']
  by_cases hfits : n.natAbs < 10 ^ t.precision
  · obtain ⟨w, hw, hok⟩ := hin hfits
    have hvalue : reading w t.scale = scalarResult op (reading v s) digits := by
      rw [reading, hw, hresult]
    constructor <;> rw [hcall, hok]
    · exact fun _ => hvalue
    · intro h
      cases h
    · rintro rfl -
      rw [hvalue]
      exact abs_scalarResult_trunc_le _ _
    · exact fun hop hkeep => ⟨rfl, hvalue.trans (scalarResult_kept hop hkeep)⟩
  · have hover := hout (not_lt.mp hfits)
    constructor <;> rw [hcall, hover]
    · intro h
      cases h
    · intro _
      have hcast : ((10 ^ t.precision : Nat) : ℚ) ≤ n.natAbs := by
        exact_mod_cast not_lt.mp hfits
      rw [hresult, abs_div, abs_of_pos hten, le_div_iff₀ hten, zpow_natCast, ← pow_add,
        Nat.sub_add_cancel hscale]
      rw [Nat.cast_natAbs] at hcast
      push_cast at hcast
      exact hcast
    · intro _ h
      cases h
    · intro hop hkeep
      rw [scalarResult_kept hop hkeep] at hn
      exact absurd (kept_fits hp hp' hs hv hop ht hn) hfits

theorem not_scalarExact_of_yields (h : ScaleYields op v p s digits) (hv : v.signed.natAbs < 10 ^ p) :
    ¬ ScalarExact op v s digits (resultType op p s digits) := by
  obtain ⟨hop, rfl, rfl, hdigits, hdvd⟩ := h
  intro hexact
  obtain ⟨round, hround⟩ : ∃ round : Bool, op = if round then .round else .trunc := by
    obtain rfl | rfl := hop
    · exact ⟨true, rfl⟩
    · exact ⟨false, rfl⟩
  have htype : resultType op 38 38 digits = ⟨38, 37⟩ := by
    have hcarry : roundCarry digits 38 = 0 := if_pos (by omega)
    have hscale := decScalarType_scale 0 (max digits 0).toNat
    have hprecision := decScalarType_precision 0 (max digits 0).toNat
    have hdeclared : decScalarType 0 (max digits 0).toNat = ⟨38, 37⟩ := by
      generalize decScalarType 0 (max digits 0).toNat = t at *
      obtain ⟨precision, scale⟩ := t
      dsimp only at hscale hprecision
      rw [DecimalType.mk.injEq]
      omega
    obtain rfl | rfl := hop <;> simpa only [resultType, hcarry] using hdeclared
  obtain ⟨hok, hkept⟩ := hexact.keeps hop (by omega)
  have hcall := decimalScalar_round hround v 38 digits ⟨38, 37⟩
  simp only [htype] at hok hkept
  have hneg : ¬ digits < 0 := by omega
  have hkeep : ((38 : Nat) : Int) ≤ digits := by omega
  rw [decRoundTrunc, if_neg hneg, if_pos hkeep, rescale_eq v (by omega) (by omega)] at hcall
  simp only [hcall] at hok hkept
  obtain ⟨hin, hout⟩ := decimalAtPrecision_narrow (rescaled v.signed (38 : Nat) (37 : Nat))
    (show 1 ≤ 38 by decide) le_rfl
  by_cases hfits : (rescaled v.signed (38 : Nat) (37 : Nat)).natAbs < 10 ^ 38
  · obtain ⟨w, hw, hanswer⟩ := hin hfits
    rw [hanswer, reading, hw, reading] at hkept
    have hsplit : (v.signed : ℚ) = rescaled v.signed (38 : Nat) (37 : Nat) * 10 := by
      rw [zpow_natCast, zpow_natCast] at hkept
      field_simp at hkept
      linarith
    exact hdvd ⟨_, by rw [mul_comm]; exact_mod_cast hsplit⟩
  · rw [hout (not_lt.mp hfits)] at hok
    cases hok

theorem not_scalarExact_of_wraps (h : UnitWraps op v s digits) (hp : 1 ≤ p) (hp' : p ≤ 38)
    (hs : s ≤ p) (hlow : -2 ^ 63 ≤ digits) :
    ¬ ScalarExact op v s digits (resultType op p s digits) := by
  obtain ⟨hrange, hcases⟩ := h
  intro hexact
  have hzero : (resultType op p s digits).scale = 0 := by
    obtain rfl | ⟨rfl, -⟩ := hcases <;> simp only [resultType, decScalarType_scale] <;> omega
  obtain ⟨round, hround, hnone⟩ : ∃ round : Bool, (op = if round then .round else .trunc) ∧
      decRoundTrunc v s digits 0 round = none := by
    obtain rfl | ⟨rfl, hcut⟩ := hcases
    · exact ⟨true, rfl, decRoundTrunc_wraps v (by omega) (by omega) hlow hrange⟩
    · refine ⟨false, rfl, ?_⟩
      rw [decRoundTrunc_wraps_cut v (by omega) (by omega) hlow hrange, if_neg (by tauto)]
  have hover := hexact.overflow
  rw [decimalScalar_round hround, hzero, Nat.cast_zero, hnone,
    scalarResult_round op _ digits round hround, keptDigits_wide v round (by omega)] at hover
  have hle := hover rfl
  rw [Int.cast_zero, zero_div] at hle
  exact absurd hle (not_le.mpr (by positivity))

end

-- The scalar functions answer exactly what their declared type asks, unless the
-- type gives up a digit the value has or the unit's exponent wraps.
theorem decimalScalar_exact_iff (op : DecimalScalarOp) {p s : Nat} {v : Int128} {digits : Int}
    (hp : 1 ≤ p) (hp' : p ≤ 38) (hs : s ≤ p) (hv : v.signed.natAbs < 10 ^ p)
    (hlow : -2 ^ 63 ≤ digits) :
    (∃ t, decimalScalarType op ⟨p, s⟩ digits = some t ∧ ScalarExact op v s digits t) ↔
      ¬ ScaleYields op v p s digits ∧ ¬ UnitWraps op v s digits := by
  rw [decimalScalarType_eq op digits hp hs]
  constructor
  · rintro ⟨t, ht, hexact⟩
    cases ht
    exact ⟨fun h => not_scalarExact_of_yields h hv hexact,
      fun h => not_scalarExact_of_wraps h hp hp' hs hlow hexact⟩
  · rintro ⟨hyields, hwraps⟩
    obtain ⟨n, hn⟩ := decimalScalar_integer op hp' hs hv hlow hyields hwraps
    exact ⟨_, rfl, scalarExact_of_integer hp hp' hs hv rfl hn⟩

theorem decimalScalar_exact_iff_carry :
    ∃ t, decimalScalarType .round ⟨3, 2⟩ 1 = some t ∧
      ScalarExact .round (int128From 995) 2 1 t :=
  (decimalScalar_exact_iff .round (s := 2) (v := int128From 995) (by decide) (by decide)
    (by decide) (by decide) (by decide)).mpr
    ⟨fun h => absurd h.2.1 (by decide), fun h => absurd h.1 (by decide)⟩

-- Cutting 0.00…05 to its own thirty-eight digits gives 0.00…1.
theorem trunc_grows :
    decimalScalarType .trunc ⟨38, 38⟩ 38 = some ⟨38, 37⟩ ∧
      decimalScalar .trunc (int128From 5) 38 38 38 37 = (int128From 1, .ok) ∧
      ¬ ScalarExact .trunc (int128From 5) 38 38 ⟨38, 37⟩ := by
  have hfive : (int128From 5).signed = 5 := by decide
  have hrescale : rescale (int128From 5) 38 37 = some (int128From 1) := by
    rw [rescale_eq _ (by decide) (by decide)]
    decide
  have hcall : decimalScalar .trunc (int128From 5) 38 38 38 37 = (int128From 1, .ok) := by
    change decimalAtPrecision (decStatus (rescale (int128From 5) 38 37)) 38 = _
    rw [hrescale]
    decide
  refine ⟨by decide, hcall, fun h => ?_⟩
  have hle := h.cuts rfl
  simp only [Nat.cast_ofNat, hcall] at hle
  have hgrown := hle trivial
  rw [reading, reading, signed_one, hfive] at hgrown
  norm_num [abs_of_pos] at hgrown

end Wadjet.Engine.Batch
