import Wadjet.Engine.Batch.DecimalScalarExact

namespace Wadjet.Engine.Batch

open Wadjet.Data Wide

-- `DecimalAddAt` and its siblings: the operation at the declared type.
def decimalApplyAt (op : DecimalOp) (a : Int128) (aScale : Nat) (b : Int128) (bScale p s : Nat) :
    Int128 × DecimalStatus :=
  decimalAtPrecision (decimalApply op a aScale b bScale s) p

def uncappedType : DecimalOp → Nat → Nat → Nat → Nat → DecimalType
  | .add, p1, s1, p2, s2 | .sub, p1, s1, p2, s2 =>
    ⟨max s1 s2 + max (p1 - s1) (p2 - s2) + 1, max s1 s2⟩
  | .mul, p1, s1, p2, s2 => ⟨p1 + p2 + 1, s1 + s2⟩
  | .div, p1, s1, p2, s2 => ⟨p1 - s1 + s2 + max 6 (s1 + p2 + 1), max 6 (s1 + p2 + 1)⟩
  | .mod, p1, s1, p2, s2 => ⟨min (p1 - s1) (p2 - s2) + max s1 s2, max s1 s2⟩

theorem normalizeDecimalPS_eq {p s : Nat} (hp : 1 ≤ p) (hs : s ≤ p) :
    normalizeDecimalPS p s = (p, s) := by
  unfold normalizeDecimalPS
  dsimp only
  rw [if_neg (Nat.not_lt.mpr hs), if_neg (Nat.not_lt.mpr hp)]

theorem adjustDecimalPrecisionScale_bounds (p s : Nat) :
    1 ≤ (adjustDecimalPrecisionScale p s).1 ∧ (adjustDecimalPrecisionScale p s).1 ≤ 38 ∧
      (adjustDecimalPrecisionScale p s).2 ≤ (adjustDecimalPrecisionScale p s).1 := by
  simp only [adjustDecimalPrecisionScale, normalizeDecimalPS, maxDecimalPrecision, maxDecimalScale]
  split_ifs <;> simp only <;> omega

theorem natAbs_atCommon_lt {v : Int128} {p s : Nat} (other : Nat) (hs : s ≤ p)
    (hv : v.signed.natAbs < 10 ^ p) : (atCommon v s other).natAbs < 10 ^ (p - s + max s other) := by
  have hpow : ((max s other : Int) - s).toNat + p = p - s + max s other := by omega
  rw [atCommon, Int.natAbs_mul, Int.natAbs_pow, ← hpow, pow_add, mul_comm]
  exact Nat.mul_lt_mul_of_pos_left hv (by positivity)

section Operands

variable {op : DecimalOp} {p1 s1 p2 s2 : Nat} (hp1 : 1 ≤ p1) (hs1 : s1 ≤ p1) (hp2 : 1 ≤ p2)
  (hs2 : s2 ≤ p2)

include hp1 hs1 hp2 hs2

theorem decimalResultType_eq :
    decimalResultType op p1 s1 p2 s2 =
      if op ≠ .div ∧ 38 < (uncappedType op p1 s1 p2 s2).precision ∧
          (uncappedType op p1 s1 p2 s2).scale ≤ 38 then (38, (uncappedType op p1 s1 p2 s2).scale)
      else adjustDecimalPrecisionScale (uncappedType op p1 s1 p2 s2).precision
        (uncappedType op p1 s1 p2 s2).scale := by
  unfold decimalResultType
  rw [normalizeDecimalPS_eq hp1 hs1, normalizeDecimalPS_eq hp2 hs2]
  cases op <;> simp only [uncappedType, Bool.and_eq_true, decide_eq_true_eq] <;>
    simp [maxDecimalPrecision, maxDecimalScale]

theorem decimalResultType_uncapped (hop : op ≠ .div)
    (hcap : (uncappedType op p1 s1 p2 s2).precision ≤ 38) : decimalResultType op p1 s1 p2 s2 =
      ((uncappedType op p1 s1 p2 s2).precision, (uncappedType op p1 s1 p2 s2).scale) := by
  rw [decimalResultType_eq hp1 hs1 hp2 hs2, if_neg (by omega), adjustDecimalPrecisionScale,
    normalizeDecimalPS_eq]
  · exact if_pos hcap
  all_goals cases op <;> simp only [uncappedType] at hcap ⊢ <;> omega

theorem decimalResultType_bounds : 1 ≤ (decimalResultType op p1 s1 p2 s2).1 ∧
    (decimalResultType op p1 s1 p2 s2).1 ≤ 38 ∧
      (decimalResultType op p1 s1 p2 s2).2 ≤ (decimalResultType op p1 s1 p2 s2).1 := by
  rw [decimalResultType_eq hp1 hs1 hp2 hs2]
  split_ifs with hcap
  · exact ⟨Nat.one_le_ofNat, le_rfl, hcap.2.2⟩
  · exact adjustDecimalPrecisionScale_bounds _ _

omit hp1 hp2 in
theorem exactResult_digits {a b : Int128} (hop : op ≠ .div) (ha : a.signed.natAbs < 10 ^ p1)
    (hb : b.signed.natAbs < 10 ^ p2) (hzero : ¬ DividesByZero op b) :
    ∃ n : Int, n.natAbs < 10 ^ (uncappedType op p1 s1 p2 s2).precision ∧
      exactResult op a s1 b s2 = n / 10 ^ ((uncappedType op p1 s1 p2 s2).scale : Int) := by
  have hx := natAbs_atCommon_lt s2 hs1 ha
  have hy := natAbs_atCommon_lt s1 hs2 hb
  rw [max_comm] at hy
  have hsum : 10 ^ (p1 - s1 + max s1 s2) + 10 ^ (p2 - s2 + max s1 s2) ≤
      10 ^ (max s1 s2 + max (p1 - s1) (p2 - s2) + 1) := by
    have hleft : 10 ^ (p1 - s1 + max s1 s2) ≤ 10 ^ (max s1 s2 + max (p1 - s1) (p2 - s2)) :=
      Nat.pow_le_pow_right (by decide) (by omega)
    have hright : 10 ^ (p2 - s2 + max s1 s2) ≤ 10 ^ (max s1 s2 + max (p1 - s1) (p2 - s2)) :=
      Nat.pow_le_pow_right (by decide) (by omega)
    rw [pow_succ]
    omega
  cases op with
  | add =>
    refine ⟨atCommon a s1 s2 + atCommon b s2 s1, ?_, ?_⟩
    · simp only [uncappedType]
      omega
    · rw [exactResult, reading_common a s1 s2, reading_common b s2 s1, max_comm (s2 : Int), ← add_div]
      simp [uncappedType]
  | sub =>
    refine ⟨atCommon a s1 s2 - atCommon b s2 s1, ?_, ?_⟩
    · simp only [uncappedType]
      omega
    · rw [exactResult, reading_common a s1 s2, reading_common b s2 s1, max_comm (s2 : Int), ← sub_div]
      simp [uncappedType]
  | mul =>
    refine ⟨a.signed * b.signed, ?_, ?_⟩
    · rw [Int.natAbs_mul, uncappedType, pow_succ, pow_add]
      have := Nat.mul_lt_mul'' ha hb
      omega
    · rw [exactResult, reading, reading, div_mul_div_comm, ← zpow_add₀ (by norm_num)]
      push_cast [uncappedType]
      rfl
  | div => exact absurd rfl hop
  | mod =>
    have hne : b.signed ≠ 0 := fun h => hzero ⟨.inr rfl, h⟩
    refine ⟨(atCommon a s1 s2).tmod (atCommon b s2 s1), ?_, ?_⟩
    · have hpos : 0 < (atCommon b s2 s1).natAbs :=
        Int.natAbs_pos.mpr (mul_ne_zero hne (by positivity))
      have hlt := Nat.mod_lt (atCommon a s1 s2).natAbs hpos
      have hle := Nat.mod_le (atCommon a s1 s2).natAbs (atCommon b s2 s1).natAbs
      rw [Int.natAbs_tmod]
      obtain h | h := le_total (p1 - s1) (p2 - s2)
      · simp only [uncappedType, min_eq_left h]
        omega
      · simp only [uncappedType, min_eq_right h]
        omega
    · simp [exactResult, uncappedType]

end Operands

theorem natAbs_lt_of_atPrecision {r : Int128 × DecimalStatus} {p : Nat} (hp : 1 ≤ p) (hp' : p ≤ 38)
    (h : (decimalAtPrecision r p).2 = .ok) :
    (decimalAtPrecision r p).1.signed.natAbs < 10 ^ p := by
  unfold decimalAtPrecision at h ⊢
  split_ifs at h ⊢ with hstatus hfits
  · exact absurd h hstatus
  · simp only [decimalFitsPrecision, Bool.or_eq_true, decide_eq_true_eq] at hfits
    exact hfits.resolve_left (by unfold maxDecimalPrecision; omega)

theorem decimalApplyAt_exact {op : DecimalOp} {a b : Int128} {s1 s2 p s : Nat} {n : Int}
    (hs1 : s1 ≤ 38) (hs2 : s2 ≤ 38) (hp : 1 ≤ p) (hp' : p ≤ 38) (hs : s ≤ p) (hop : op ≠ .div)
    (hzero : ¬ DividesByZero op b) (hn : n.natAbs < 10 ^ p)
    (hexact : exactResult op a s1 b s2 = n / 10 ^ (s : Int)) :
    (decimalApplyAt op a s1 b s2 p s).2 = .ok ∧
      reading (decimalApplyAt op a s1 b s2 p s).1 s = exactResult op a s1 b s2 := by
  have hpow : (10 : ℚ) ^ (s : Int) ≠ 0 := zpow_ne_zero _ (by norm_num)
  obtain ⟨w, hw, hout⟩ := (decimalAtPrecision_narrow n hp hp').1 hn
  have happly : decimalApplyAt op a s1 b s2 p s = (w, .ok) := by
    rw [decimalApplyAt, decimalApply_eq ⟨by omega, by omega⟩ ⟨by omega, by omega⟩
      ⟨by omega, by omega⟩ (fun _ => by omega) (fun h => absurd h hop) hzero, hexact,
      div_mul_cancel₀ _ hpow, roundHalfAway_intCast, hout]
  rw [happly]
  exact ⟨rfl, by rw [hexact, reading, hw]⟩

-- At the type of the result the operators other than division lose no digit where that type
-- needs no more than 38 of them, and whatever is answered fits the type.
theorem decimalResultType_sound (op : DecimalOp) (p1 s1 p2 s2 : Nat) (hp1 : 1 ≤ p1 ∧ p1 ≤ 38)
    (hs1 : s1 ≤ p1) (hp2 : 1 ≤ p2 ∧ p2 ≤ 38) (hs2 : s2 ≤ p2) (a b : Int128)
    (ha : a.signed.natAbs < 10 ^ p1) (hb : b.signed.natAbs < 10 ^ p2) :
    let t := decimalResultType op p1 s1 p2 s2
    let out := decimalApplyAt op a s1 b s2 t.1 t.2
    (op ≠ .div → (uncappedType op p1 s1 p2 s2).precision ≤ 38 → ¬ DividesByZero op b →
      out.2 = .ok ∧ reading out.1 t.2 = exactResult op a s1 b s2) ∧
    (∀ p s, 1 ≤ (adjustDecimalPrecisionScale p s).1 ∧ (adjustDecimalPrecisionScale p s).1 ≤ 38 ∧
      (adjustDecimalPrecisionScale p s).2 ≤ (adjustDecimalPrecisionScale p s).1) ∧
    (1 ≤ t.1 ∧ t.1 ≤ 38 ∧ t.2 ≤ t.1) ∧ (out.2 = .ok → out.1.signed.natAbs < 10 ^ t.1) := by
  intro t out
  have hbounds : 1 ≤ t.1 ∧ t.1 ≤ 38 ∧ t.2 ≤ t.1 := decimalResultType_bounds hp1.1 hs1 hp2.1 hs2
  refine ⟨fun hop hcap hzero => ?_, adjustDecimalPrecisionScale_bounds, hbounds,
    natAbs_lt_of_atPrecision hbounds.1 hbounds.2.1⟩
  have ht : t = _ := decimalResultType_uncapped hp1.1 hs1 hp2.1 hs2 hop hcap
  obtain ⟨n, hn, hexact⟩ := exactResult_digits hs1 hs2 hop ha hb hzero
  exact decimalApplyAt_exact (by omega) (by omega) hbounds.1 hbounds.2.1 hbounds.2.2 hop hzero
    (by rw [ht]; exact hn) (by rw [ht]; exact hexact)

theorem decimalResultType_sound_sum :
    let out := decimalApplyAt .add (int128From 999) 2 (int128From 5) 1 4 2
    out.2 = .ok ∧ reading out.1 2 = exactResult .add (int128From 999) 2 (int128From 5) 1 :=
  (decimalResultType_sound .add 3 2 1 1 (by decide) (by decide) (by decide) (by decide)
    (int128From 999) (int128From 5) (by decide) (by decide)).1 nofun (by decide)
    fun h => absurd h.1 (by decide)

end Wadjet.Engine.Batch
