import Mathlib.Algebra.Group.Fin.Basic
import Mathlib.Algebra.Ring.Nat

namespace Wadjet.Data

variable {n : Nat}

-- How many steps b lies after a on a ring of n slots.
def gap (a b : Fin n) : Nat :=
  (b - a).val

theorem gap_eq (a b : Fin n) :
    gap a b = if a.val ≤ b.val then b.val - a.val else b.val + n - a.val := by
  rw [gap, Fin.val_sub]
  split_ifs with hle
  · rw [show n - a.val + b.val = (b.val - a.val) + n by omega, Nat.add_mod_right,
      Nat.mod_eq_of_lt (by omega)]
  · rw [Nat.mod_eq_of_lt (by omega)]
    omega

theorem gap_lt (a b : Fin n) : gap a b < n :=
  (b - a).isLt

theorem gap_self (a : Fin n) : gap a a = 0 := by
  rw [gap_eq, if_pos le_rfl, Nat.sub_self]

theorem eq_of_gap_eq {a b c : Fin n} (h : gap a b = gap a c) : b = c := by
  rw [gap_eq, gap_eq] at h
  split_ifs at h <;> omega

theorem gap_add {a b c : Fin n} (h : gap a b ≤ gap a c) : gap a b + gap b c = gap a c := by
  rw [gap_eq, gap_eq] at h
  rw [gap_eq, gap_eq, gap_eq]
  split_ifs at * <;> omega

theorem gap_add_of_le {a b c : Fin n} (h : gap b c ≤ gap a c) :
    gap a b + gap b c = gap a c := by
  rw [gap_eq, gap_eq] at h
  rw [gap_eq, gap_eq, gap_eq]
  split_ifs at * <;> omega

theorem gap_add_of_lt {a b c : Fin n} (h : gap a b + gap b c < n) :
    gap a b + gap b c = gap a c := by
  rw [gap_eq, gap_eq] at h
  rw [gap_eq, gap_eq, gap_eq]
  split_ifs at * <;> omega

variable [NeZero n]

theorem val_succ (a : Fin n) : (a + 1).val = if a.val + 1 = n then 0 else a.val + 1 := by
  rw [Fin.val_add, Fin.val_one', Nat.add_mod_mod]
  split_ifs with hlast
  · rw [hlast, Nat.mod_self]
  · exact Nat.mod_eq_of_lt (by omega)

theorem gap_succ {a b : Fin n} (h : b + 1 ≠ a) : gap a (b + 1) = gap a b + 1 := by
  have hval := val_succ b
  rw [gap_eq, gap_eq]
  split_ifs at * <;> omega

theorem gap_from_succ {a b : Fin n} (h : b ≠ a) : gap a b = gap (a + 1) b + 1 := by
  have hval := val_succ a
  rw [gap_eq, gap_eq]
  split_ifs at * <;> omega

end Wadjet.Data
