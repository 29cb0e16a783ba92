import Mathlib.Data.Rat.Floor
import Wadjet.Engine.Batch.DecimalRound

namespace Wadjet.Engine.Batch

open Wadjet.Data Wide

def roundHalfAway (x : ℚ) : ℤ :=
  if x < 0 then -⌊-x + 1 / 2⌋ else ⌊x + 1 / 2⌋

theorem roundHalfAway_small {x : ℚ} (hnonneg : 0 ≤ x) (hlt : x < 1 / 2) : roundHalfAway x = 0 := by
  rw [roundHalfAway, if_neg (not_lt.mpr hnonneg), Int.floor_eq_iff]
  constructor <;> push_cast <;> linarith

theorem roundHalfAway_neg (x : ℚ) : roundHalfAway (-x) = -roundHalfAway x := by
  unfold roundHalfAway
  obtain hneg | rfl | hpos := lt_trichotomy x 0
  · rw [if_neg (by linarith), if_pos hneg, neg_neg]
  · norm_num
  · rw [if_pos (by linarith), if_neg (by linarith), neg_neg]

variable {d : Nat}

theorem roundHalfAway_natDiv (m : Nat) (hd : 0 < d) :
    roundHalfAway ((m : ℚ) / d) = ((if d ≤ 2 * (m % d) then m / d + 1 else m / d : Nat) : ℤ) := by
  have hdpos : (0 : ℚ) < d := by exact_mod_cast hd
  have hrest := Nat.mod_lt m hd
  have hm := Nat.div_add_mod' m d
  generalize m / d = q at *
  generalize m % d = r at *
  have hsplit : (m : ℚ) / d = q + r / d := by
    rw [← hm]
    push_cast
    field_simp
  have hnonneg : (0 : ℚ) ≤ r / d := by positivity
  have hbelow : (r : ℚ) / d < 1 := (div_lt_one hdpos).mpr (by exact_mod_cast hrest)
  rw [roundHalfAway, if_neg (not_lt.mpr (by positivity)), Int.floor_eq_iff]
  by_cases hround : d ≤ 2 * r
  · have hhalf : (1 : ℚ) / 2 ≤ r / d := by
      rw [div_le_div_iff₀ (by norm_num) hdpos]
      have hcast : (d : ℚ) ≤ 2 * r := by exact_mod_cast hround
      linarith
    rw [if_pos hround]
    push_cast
    constructor <;> linarith
  · have hhalf : (r : ℚ) / d < 1 / 2 := by
      rw [div_lt_div_iff₀ hdpos (by norm_num)]
      have hcast : (2 * r : ℚ) < d := by exact_mod_cast not_le.mp hround
      linarith
    rw [if_neg hround]
    push_cast
    constructor <;> linarith

theorem divRound_neg_neg {num den : Int} (hden : den ≠ 0) :
    divRound (-num) (-den) = divRound num den := by
  have hdiv : (-num).tdiv (-den) = num.tdiv den := Int.neg_tdiv_neg num den
  have hmod : (-num).tmod (-den) = -num.tmod den := by rw [Int.tmod_neg, Int.neg_tmod]
  unfold divRound
  rw [hdiv, hmod, Int.natAbs_neg, Int.natAbs_neg]
  by_cases hround : den.natAbs ≤ 2 * (num.tmod den).natAbs
  · have hnum : num ≠ 0 := by
      rintro rfl
      rw [Int.zero_tmod] at hround
      omega
    have hsigns : ((-num < 0) ≠ (-den < 0)) ↔ ((num < 0) ≠ (den < 0)) := by
      rw [Ne, Ne, eq_iff_iff, eq_iff_iff]
      omega
    simp only [hsigns]
  · rw [if_neg hround, if_neg hround]

theorem divRound_pos (num : Int) (hd : 0 < d) : divRound num d = roundHalfAway ((num : ℚ) / d) := by
  obtain ⟨m, rfl | rfl⟩ := Int.eq_nat_or_neg num
  · have hround := divRound_signs m d false hd
    simp only [Bool.false_eq_true, if_false] at hround
    rw [hround, Int.cast_natCast, roundHalfAway_natDiv m hd]
  · have hround := divRound_signs m d true hd
    simp only [if_true] at hround
    rw [hround, Int.cast_neg, Int.cast_natCast, neg_div, roundHalfAway_neg,
      roundHalfAway_natDiv m hd]

theorem divRound_eq (num : Int) {den : Int} (hden : den ≠ 0) :
    divRound num den = roundHalfAway ((num : ℚ) / den) := by
  obtain ⟨d, rfl | rfl⟩ := Int.eq_nat_or_neg den
  · exact divRound_pos num (by omega)
  · rw [← divRound_neg_neg hden, neg_neg, divRound_pos (-num) (by omega)]
    push_cast
    rw [neg_div, div_neg]

theorem roundHalfAway_intCast (n : ℤ) : roundHalfAway n = n := by
  have h := divRound_eq n one_ne_zero
  rw [Int.cast_one, div_one] at h
  rw [← h, divRound]
  simp

def IsScale (s : Int) : Prop :=
  0 ≤ s ∧ s < 2 ^ 63

instance (s : Int) : Decidable (IsScale s) :=
  inferInstanceAs (Decidable (0 ≤ s ∧ s < 2 ^ 63))

def reading (v : Int128) (scale : Int) : ℚ :=
  v.signed / 10 ^ scale

def exactResult (op : DecimalOp) (a : Int128) (aScale : Int) (b : Int128) (bScale : Int) : ℚ :=
  match op with
  | .add => reading a aScale + reading b bScale
  | .sub => reading a aScale - reading b bScale
  | .mul => reading a aScale * reading b bScale
  | .div => reading a aScale / reading b bScale
  -- The remainder has the dividend's sign.
  | .mod => ((atCommon a aScale bScale).tmod (atCommon b bScale aScale) : Int) /
      10 ^ max aScale bScale

theorem rescaled_eq (n : Int) {fromScale toScale : Int} :
    rescaled n fromScale toScale = roundHalfAway ((n : ℚ) / 10 ^ fromScale * 10 ^ toScale) := by
  have hshift : (n : ℚ) / 10 ^ fromScale * 10 ^ toScale = n * 10 ^ (toScale - fromScale) := by
    rw [zpow_sub₀ (by norm_num)]
    field_simp
  unfold rescaled
  rw [hshift]
  by_cases hrise : fromScale ≤ toScale
  · rw [if_pos hrise, ← roundHalfAway_intCast (n * 10 ^ (toScale - fromScale).toNat)]
    push_cast
    rw [← zpow_natCast, Int.toNat_of_nonneg (by omega)]
  · rw [if_neg hrise, divRound_eq n (by positivity)]
    push_cast
    rw [← zpow_natCast, Int.toNat_of_nonneg (by omega), ← neg_sub, zpow_neg, div_eq_mul_inv,
      inv_inv]

theorem reading_common (v : Int128) (scale other : Int) :
    reading v scale = (atCommon v scale other : ℚ) / 10 ^ max scale other := by
  have hle : 0 ≤ max scale other - scale := by omega
  unfold reading atCommon
  push_cast
  rw [← zpow_natCast, Int.toNat_of_nonneg hle, zpow_sub₀ (by norm_num)]
  field_simp

variable {b : Int128}

theorem quotientAt_eq (a : Int128) (aScale : Int) (bScale outScale : Int)
    (hne : b.signed ≠ 0) : quotientAt a.signed aScale b.signed bScale outScale =
      roundHalfAway (reading a aScale / reading b bScale * 10 ^ outScale) := by
  have hten : (10 : ℚ) ≠ 0 := by norm_num
  unfold quotientAt reading
  by_cases hrise : aScale ≤ outScale + bScale
  · rw [if_pos hrise, divRound_eq _ hne]
    push_cast
    rw [← zpow_natCast, Int.toNat_of_nonneg (by omega), zpow_sub₀ hten, zpow_add₀ hten]
    field_simp
  · rw [if_neg hrise, divRound_eq _ (mul_ne_zero hne (by positivity))]
    push_cast
    rw [← zpow_natCast, Int.toNat_of_nonneg (by omega), zpow_sub₀ hten, zpow_add₀ hten]
    field_simp

def DividesByZero (op : DecimalOp) (b : Int128) : Prop :=
  (op = .div ∨ op = .mod) ∧ b.signed = 0

variable {op : DecimalOp} {a : Int128} {aScale bScale outScale : Int}

theorem decimalApply_zero
    (ha : 0 ≤ aScale) (hb : 0 ≤ bScale) (hout : 0 ≤ outScale) (h : DividesByZero op b) :
    (decimalApply op a aScale b bScale outScale).2 = .divByZero := by
  obtain ⟨hop, hzero⟩ := h
  rw [← isZero_iff] at hzero
  obtain rfl | rfl := hop
  · simp only [decimalApply, decimalDiv]
    rw [if_neg (by omega), if_pos hzero]
  · simp only [decimalApply, decimalMod]
    rw [if_neg (by omega), if_pos hzero]

theorem decimalApply_eq (ha : IsScale aScale) (hb : IsScale bScale) (hout : IsScale outScale)
    (hmul : op = .mul → aScale + bScale < 2 ^ 63) (hdiv : op = .div → outScale + bScale < 2 ^ 63)
    (hne : ¬ DividesByZero op b) : decimalApply op a aScale b bScale outScale =
      decStatus (narrow (roundHalfAway (exactResult op a aScale b bScale * 10 ^ outScale))) := by
  obtain ⟨ha0, ha63⟩ := ha
  obtain ⟨hb0, -⟩ := hb
  obtain ⟨hout0, hout63⟩ := hout
  have hten : (10 : ℚ) ≠ 0 := by norm_num
  cases op with
  | add =>
    have hsum := decAddSub_eq a b false ha0 hb0 hout0
    rw [rescaled_eq] at hsum
    rw [decimalApply, decimalAdd, hsum, exactResult, reading_common a aScale bScale,
      reading_common b bScale aScale, max_comm bScale aScale, ← add_div]
    simp
  | sub =>
    have hdiff := decAddSub_eq a b true ha0 hb0 hout0
    rw [rescaled_eq] at hdiff
    rw [decimalApply, decimalSub, hdiff, exactResult, reading_common a aScale bScale,
      reading_common b bScale aScale, max_comm bScale aScale, ← sub_div]
    simp
  | mul =>
    have hproduct := decimalMul_eq a b ha0 hb0 hout0 (hmul rfl) hout63
    rw [rescaled_eq] at hproduct
    rw [decimalApply, hproduct, exactResult, reading, reading, div_mul_div_comm,
      ← zpow_add₀ hten]
    push_cast
    rfl
  | div =>
    have hb : b.signed ≠ 0 := fun h => hne ⟨.inl rfl, h⟩
    rw [decimalApply, decimalDiv_eq a ha0 hb0 hout0 (hdiv rfl) ha63 hb,
      quotientAt_eq a aScale bScale outScale hb, exactResult]
  | mod =>
    have hb : b.signed ≠ 0 := fun h => hne ⟨.inr rfl, h⟩
    rw [decimalApply, decimalMod_eq a ha0 hb0 hout0 hb, rescaled_eq, exactResult]

theorem decStatus_narrow (v : Int) :
    ((decStatus (narrow v)).2 = .ok ↔ -2 ^ 127 ≤ v ∧ v ≤ 2 ^ 127 - 1) ∧
      ((decStatus (narrow v)).2 = .ok → (decStatus (narrow v)).1.signed = v) ∧
      ((decStatus (narrow v)).2 ≠ .ok → (decStatus (narrow v)).2 = .overflow) := by
  cases hv : narrow v with
  | none =>
    have hrange : ¬ (-2 ^ 127 ≤ v ∧ v < 2 ^ 127) := by
      intro hrange
      rw [narrow, if_pos hrange] at hv
      cases hv
    have hne : (decStatus none).2 ≠ .ok := by decide
    exact ⟨⟨fun h => absurd h hne, fun h => absurd ⟨h.1, by omega⟩ hrange⟩, fun h => absurd h hne,
      fun _ => rfl⟩
  | some w =>
    have hsigned := narrow_eq_some_iff.mp hv
    have hbounds := w.signed_bounds
    exact ⟨⟨fun _ => by omega, fun _ => rfl⟩, fun _ => hsigned, fun h => absurd rfl h⟩

-- Every operation answers as exact rational arithmetic rounded once does,
-- whichever of its paths computed the answer.
theorem decimal_arith_exact (op : DecimalOp) (a b : Int128) (aScale bScale outScale : Int)
    (ha : IsScale aScale) (hb : IsScale bScale) (hout : IsScale outScale)
    (hmul : op = .mul → aScale + bScale < 2 ^ 63) (hdiv : op = .div → outScale + bScale < 2 ^ 63) :
    let out := decimalApply op a aScale b bScale outScale
    let v := roundHalfAway (exactResult op a aScale b bScale * 10 ^ outScale)
    (out.2 = .divByZero ↔ (op = .div ∨ op = .mod) ∧ b.signed = 0) ∧
      (¬ ((op = .div ∨ op = .mod) ∧ b.signed = 0) →
        (out.2 = .ok ↔ -2 ^ 127 ≤ v ∧ v ≤ 2 ^ 127 - 1) ∧
        (out.2 = .ok → out.1.signed = v) ∧
        (out.2 ≠ .ok → out.2 = .overflow)) := by
  intro out v
  by_cases hzero : DividesByZero op b
  · have hstatus : out.2 = .divByZero := decimalApply_zero ha.1 hb.1 hout.1 hzero
    exact ⟨iff_of_true hstatus hzero, fun hne => absurd hzero hne⟩
  have heq : out = decStatus (narrow v) := decimalApply_eq ha hb hout hmul hdiv hzero
  obtain ⟨hok, hvalue, hover⟩ := decStatus_narrow v
  rw [heq]
  refine ⟨iff_of_false (fun hstatus => ?_) hzero, fun _ => ⟨hok, hvalue, hover⟩⟩
  have := hover (by rw [hstatus]; nofun)
  rw [hstatus] at this
  cases this

theorem decimal_arith_exact_third :
    let out := decimalApply .div (int128From 1) 0 (int128From 3) 0 38
    let v := roundHalfAway (exactResult .div (int128From 1) 0 (int128From 3) 0 * 10 ^ (38 : Int))
    (out.2 = .divByZero ↔
        ((DecimalOp.div = .div ∨ DecimalOp.div = .mod) ∧ (int128From 3).signed = 0)) ∧
      (¬ ((DecimalOp.div = .div ∨ DecimalOp.div = .mod) ∧ (int128From 3).signed = 0) →
        (out.2 = .ok ↔ -2 ^ 127 ≤ v ∧ v ≤ 2 ^ 127 - 1) ∧
        (out.2 = .ok → out.1.signed = v) ∧
        (out.2 ≠ .ok → out.2 = .overflow)) :=
  decimal_arith_exact .div (int128From 1) (int128From 3) 0 0 38 (by decide) (by decide) (by decide)
    nofun (fun _ => by decide)

-- The sum of two scales of 2^62 wraps to a negative scale, and a product that
-- rounds to zero is reported as an overflow.
theorem decimalMul_scales_wrap :
    (decimalApply .mul (int128From 1) (2 ^ 62) (int128From 1) (2 ^ 62) 0).2 = .overflow ∧
      roundHalfAway (exactResult .mul (int128From 1) (2 ^ 62) (int128From 1) (2 ^ 62) *
        10 ^ (0 : Int)) = 0 := by
  have hsmall : ∀ s : Int, 1 ≤ s → ((1 : ℤ) : ℚ) / 10 ^ s * (((1 : ℤ) : ℚ) / 10 ^ s) < 1 / 2 := by
    intro s hs
    have hten : (10 : ℚ) ^ (1 : Int) ≤ 10 ^ s := zpow_le_zpow_right₀ (by norm_num) hs
    have hpos : (0 : ℚ) < 10 ^ s := by linarith
    have hle : ((1 : ℤ) : ℚ) / 10 ^ s ≤ 1 / 10 := by
      exact one_div_le_one_div_of_le (by norm_num) hten
    have hnonneg : (0 : ℚ) ≤ ((1 : ℤ) : ℚ) / 10 ^ s := by
      exact (one_div_pos.mpr hpos).le
    nlinarith
  refine ⟨by decide, ?_⟩
  have hone : (int128From 1).signed = 1 := by decide
  rw [exactResult, reading, zpow_zero, mul_one]
  exact roundHalfAway_small (mul_self_nonneg _) (hsmall (2 ^ 62) (by decide))

end Wadjet.Engine.Batch
