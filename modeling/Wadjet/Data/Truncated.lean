import Mathlib.Data.Rat.Floor

namespace Wadjet.Data

def truncated (x : ℚ) : ℤ :=
  if x < 0 then ⌈x⌉ else ⌊x⌋

theorem truncated_div (n : Int) {d : Nat} (hd : 0 < d) :
    truncated ((n : ℚ) / d) = n.tdiv d := by
  have hdpos : (0 : ℚ) < d := by exact_mod_cast hd
  unfold truncated
  by_cases hn : n < 0
  · have hneg : (n : ℚ) / d < 0 := div_neg_of_neg_of_pos (by exact_mod_cast hn) hdpos
    rw [if_pos hneg, Rat.ceil_intCast_div_natCast, ← Int.tdiv_eq_ediv_of_nonneg (by omega),
      Int.neg_tdiv, neg_neg]
  · have hneg : ¬ (n : ℚ) / d < 0 := not_lt.mpr
      (div_nonneg (by exact_mod_cast not_lt.mp hn) hdpos.le)
    rw [if_neg hneg, Rat.floor_intCast_div_natCast, Int.tdiv_eq_ediv_of_nonneg (by omega)]

theorem truncated_intCast (n : ℤ) : truncated n = n := by
  unfold truncated
  split_ifs
  · exact Int.ceil_intCast n
  · exact Int.floor_intCast n

theorem abs_truncated_le (x : ℚ) : |(truncated x : ℚ)| ≤ |x| := by
  unfold truncated
  by_cases hx : x < 0
  · have hceil : (⌈x⌉ : ℚ) ≤ 0 := by exact_mod_cast Int.ceil_le.mpr (by simpa using hx.le)
    rw [if_pos hx, abs_of_nonpos hceil, abs_of_neg hx]
    linarith [Int.le_ceil x]
  · have hfloor : (0 : ℚ) ≤ ⌊x⌋ := by exact_mod_cast Int.floor_nonneg.mpr (not_lt.mp hx)
    rw [if_neg hx, abs_of_nonneg hfloor, abs_of_nonneg (not_lt.mp hx)]
    exact Int.floor_le x

theorem truncated_near (x : ℚ) : |x - truncated x| < 1 := by
  have hfloor := Int.floor_le x
  have hnext := Int.lt_floor_add_one x
  have hceil := Int.le_ceil x
  have hprev := Int.ceil_lt_add_one x
  rw [abs_lt]
  unfold truncated
  split_ifs <;> constructor <;> linarith

end Wadjet.Data
