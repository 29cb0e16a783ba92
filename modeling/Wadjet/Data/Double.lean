import Mathlib.Algebra.Order.Field.Power
import Mathlib.Tactic.Linarith
import Mathlib.Tactic.Positivity
import Mathlib.Tactic.Ring
import Wadjet.Data.Binary64

namespace Wadjet.Data

def IsDouble (x : ℚ) : Prop :=
  ∃ m e : ℤ, |m| < 2 ^ 53 ∧ -1074 ≤ e ∧ e ≤ 971 ∧ x = m * 2 ^ e

variable {x : ℚ}

theorem IsDouble.neg (h : IsDouble x) : IsDouble (-x) := by
  obtain ⟨m, e, hm, hlow, hhigh, rfl⟩ := h
  exact ⟨-m, e, by rwa [abs_neg], hlow, hhigh, by push_cast; ring⟩

theorem IsDouble.multiple (h : IsDouble x) {k : Nat} (hx : (2 : ℚ) ^ (k + 52) ≤ |x|) :
    ∃ z : ℤ, x = z * 2 ^ k := by
  obtain ⟨m, e, hm, -, -, rfl⟩ := h
  have htwo : (2 : ℚ) ≠ 0 := two_ne_zero
  have hpos : (0 : ℚ) < 2 ^ e := zpow_pos two_pos e
  have hcast : |(m : ℚ)| < 2 ^ 53 := by
    exact_mod_cast hm
  have hlt : (2 : ℚ) ^ ((k + 52 : Nat) : ℤ) < 2 ^ (e + (53 : Nat)) := by
    rw [zpow_add₀ htwo, mul_comm]
    rw [abs_mul, abs_of_pos hpos] at hx
    exact hx.trans_lt (mul_lt_mul_of_pos_right hcast hpos)
  have hexp := (zpow_lt_zpow_iff_right₀ one_lt_two).mp hlt
  refine ⟨m * 2 ^ (e - k).toNat, ?_⟩
  rw [Int.cast_mul, Int.cast_pow, Int.cast_ofNat, mul_assoc, ← zpow_natCast, ← zpow_natCast,
    ← zpow_add₀ htwo, Int.toNat_of_nonneg (by omega), sub_add_cancel]

theorem add_one_le_of_lt {q : Nat} {z : ℤ} (h : (q : ℚ) < z) : ((q + 1 : Nat) : ℚ) ≤ z := by
  have hlt : (q : ℤ) < z := by
    exact Int.cast_lt.mp h
  have hle : ((q + 1 : Nat) : ℤ) ≤ z := by omega
  exact Int.cast_le.mpr hle

variable {n : Nat}

theorem roundNat_cases (h : 2 ^ 53 ≤ n) :
    2 ^ (n.log2 - 52 + 52) ≤ n ∧ n / 2 ^ (n.log2 - 52) < 2 ^ 53 ∧
      (roundNat n = n / 2 ^ (n.log2 - 52) * 2 ^ (n.log2 - 52) ∨
        roundNat n = (n / 2 ^ (n.log2 - 52) + 1) * 2 ^ (n.log2 - 52) ∧
          n % 2 ^ (n.log2 - 52) ≠ 0) := by
  have hne : n ≠ 0 := by omega
  have hlog : 53 ≤ n.log2 := (Nat.le_log2 hne).mpr h
  have hlow : 2 ^ n.log2 ≤ n := Nat.log2_self_le hne
  have hhigh : n < 2 ^ (n.log2 + 1) := Nat.lt_log2_self
  refine ⟨by rwa [Nat.sub_add_cancel (by omega)], ?_, ?_⟩
  · rw [Nat.div_lt_iff_lt_mul (Nat.pow_pos (by decide)), ← pow_add]
    exact hhigh.trans_le (Nat.pow_le_pow_right (by decide) (by omega))
  · unfold roundNat
    rw [if_neg (by omega)]
    dsimp only
    split_ifs with hup
    · exact .inr ⟨rfl, by omega⟩
    · exact .inl rfl

theorem roundNat_le_of_le (hx : IsDouble x) (h : (n : ℚ) ≤ x) : (roundNat n : ℚ) ≤ x := by
  by_cases hsmall : n < 2 ^ 53
  · rw [roundNat_of_le (by omega)]
    exact h
  obtain ⟨hlarge, -, hround⟩ := roundNat_cases (not_lt.mp hsmall)
  have hsplit := Nat.div_add_mod' n (2 ^ (n.log2 - 52))
  obtain hdown | ⟨hup, hrest⟩ := hround
  · rw [hdown]
    exact le_trans (by exact_mod_cast Nat.div_mul_le_self n _) h
  have hnonneg : (0 : ℚ) ≤ x := le_trans (by positivity) h
  obtain ⟨z, rfl⟩ := @IsDouble.multiple x hx (n.log2 - 52)
    (by rw [abs_of_nonneg hnonneg]; exact le_trans (by exact_mod_cast hlarge) h)
  have hstep : n / 2 ^ (n.log2 - 52) * 2 ^ (n.log2 - 52) < n := by omega
  have hcast : ((n / 2 ^ (n.log2 - 52) : Nat) : ℚ) * 2 ^ (n.log2 - 52) <
      z * 2 ^ (n.log2 - 52) := lt_of_lt_of_le (by exact_mod_cast hstep) h
  have hlt := add_one_le_of_lt (lt_of_mul_lt_mul_right hcast (by positivity))
  rw [hup, Nat.cast_mul, Nat.cast_pow]
  exact mul_le_mul_of_nonneg_right hlt (by positivity)

theorem le_roundNat_of_le (hx : IsDouble x) (h : x ≤ n) : x ≤ roundNat n := by
  by_cases hsmall : n < 2 ^ 53
  · rw [roundNat_of_le (by omega)]
    exact h
  obtain ⟨hlarge, -, hround⟩ := roundNat_cases (not_lt.mp hsmall)
  have hsplit := Nat.div_add_mod' n (2 ^ (n.log2 - 52))
  have hnext : n < (n / 2 ^ (n.log2 - 52) + 1) * 2 ^ (n.log2 - 52) := by
    rw [add_mul]
    omega
  obtain hdown | ⟨hup, -⟩ := hround
  · rw [hdown, Nat.cast_mul, Nat.cast_pow]
    by_contra hgt
    have habove := not_le.mp hgt
    have hfloor : 2 ^ (n.log2 - 52 + 52) ≤ n / 2 ^ (n.log2 - 52) * 2 ^ (n.log2 - 52) := by
      rw [pow_add, mul_comm]
      refine Nat.mul_le_mul_right _ ?_
      rw [Nat.le_div_iff_mul_le (Nat.pow_pos (by decide)), mul_comm, ← pow_add]
      exact hlarge
    have hbig : (2 : ℚ) ^ (n.log2 - 52 + 52) ≤ x :=
      le_trans (by exact_mod_cast hfloor) habove.le
    obtain ⟨z, rfl⟩ := @IsDouble.multiple x hx (n.log2 - 52)
      (hbig.trans (le_abs_self x))
    have hlt := add_one_le_of_lt (lt_of_mul_lt_mul_right habove (by positivity))
    have hge : (((n / 2 ^ (n.log2 - 52) + 1) * 2 ^ (n.log2 - 52) : Nat) : ℚ) ≤
        z * 2 ^ (n.log2 - 52) := by
      rw [Nat.cast_mul, Nat.cast_pow]
      exact mul_le_mul_of_nonneg_right hlt (by positivity)
    have hcast : (n : ℚ) < (((n / 2 ^ (n.log2 - 52) + 1) * 2 ^ (n.log2 - 52) : Nat) : ℚ) := by
      exact_mod_cast hnext
    linarith
  · rw [hup]
    exact h.trans (by exact_mod_cast hnext.le)

theorem roundInt_le_of_le (hx : IsDouble x) {i : Int} (h : (i : ℚ) ≤ x) : (roundInt i : ℚ) ≤ x := by
  unfold roundInt
  by_cases hneg : i < 0
  · have hflip : -x ≤ (i.natAbs : ℚ) := by
      have hcast : (i : ℚ) = -(i.natAbs : ℚ) := by
        have habs : -(i.natAbs : Int) = i := by omega
        rw [← Int.cast_natCast, ← Int.cast_neg, habs]
      linarith
    have hround := le_roundNat_of_le hx.neg hflip
    rw [if_pos hneg]
    push_cast
    linarith
  · have hcast : (i.natAbs : ℚ) = i := by
      have habs : (i.natAbs : Int) = i := by omega
      rw [← Int.cast_natCast, habs]
    rw [if_neg hneg]
    exact roundNat_le_of_le hx (hcast.trans_le h)

theorem roundInt_neg (i : Int) : roundInt (-i) = -roundInt i := by
  unfold roundInt
  rw [Int.natAbs_neg]
  split_ifs
  · omega
  · rfl
  · rw [neg_neg]
  · obtain rfl : i = 0 := by omega
    rfl

theorem le_roundInt_of_le (hx : IsDouble x) {i : Int} (h : x ≤ i) : x ≤ roundInt i := by
  have hneg := roundInt_le_of_le hx.neg (i := -i) (by push_cast; linarith)
  rw [roundInt_neg] at hneg
  push_cast at hneg
  linarith

theorem roundInt_of_isDouble {i : Int} (h : IsDouble (i : ℚ)) : roundInt i = i := by
  have hle : (roundInt i : ℚ) ≤ i := roundInt_le_of_le h le_rfl
  have hge : (i : ℚ) ≤ roundInt i := le_roundInt_of_le h le_rfl
  exact_mod_cast le_antisymm hle hge

theorem isDouble_roundNat (h : n ≤ 2 ^ 63) : IsDouble (roundNat n : ℚ) := by
  by_cases hsmall : n < 2 ^ 53
  · rw [roundNat_of_le (by omega)]
    refine ⟨n, 0, ?_, by omega, by omega, by simp⟩
    exact_mod_cast hsmall
  have hne : n ≠ 0 := by omega
  have hlog : n.log2 ≤ 63 := by
    by_contra hgt
    have := Nat.log2_self_le hne
    have := Nat.pow_le_pow_right (by decide : 0 < 2) (show 64 ≤ n.log2 by omega)
    omega
  obtain ⟨-, hquot, hround⟩ := roundNat_cases (not_lt.mp hsmall)
  generalize n / 2 ^ (n.log2 - 52) = q at hquot hround
  obtain hdown | ⟨hup, -⟩ := hround
  · refine ⟨q, (n.log2 - 52 : Nat), ?_, by omega, by omega, ?_⟩
    · exact_mod_cast hquot
    · rw [hdown]
      push_cast
      rfl
  · by_cases hfull : q + 1 < 2 ^ 53
    · refine ⟨(q + 1 : Nat), (n.log2 - 52 : Nat), ?_, by omega, by omega, ?_⟩
      · exact_mod_cast hfull
      · rw [hup]
        push_cast
        rfl
    · obtain hq : q + 1 = 2 ^ 53 := by omega
      refine ⟨1, (n.log2 - 52 + 53 : Nat), by decide, by omega, by omega, ?_⟩
      rw [hup, hq, zpow_natCast]
      push_cast
      ring

theorem isDouble_roundInt {i : Int} (h : i.natAbs ≤ 2 ^ 63) : IsDouble (roundInt i : ℚ) := by
  have hround := isDouble_roundNat h
  unfold roundInt
  split_ifs
  · exact hround.neg
  · exact_mod_cast hround

end Wadjet.Data
