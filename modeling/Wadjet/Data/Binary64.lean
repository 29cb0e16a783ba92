import Mathlib.Algebra.Ring.Nat
import Mathlib.Data.Nat.Log

-- Integers carried by a binary float with a significand of 53 bits.
namespace Wadjet.Data

-- Round to nearest, ties to even.
def roundNat (n : Nat) : Nat :=
  if n < 2 ^ 53 then n
  else
    let unit := 2 ^ (n.log2 - 52)
    if unit < 2 * (n % unit) ∨ unit = 2 * (n % unit) ∧ n / unit % 2 = 1 then (n / unit + 1) * unit
    else n / unit * unit

def roundInt (x : Int) : Int := if x < 0 then -(roundNat x.natAbs : Int) else roundNat x.natAbs

theorem roundNat_of_le {n : Nat} (h : n ≤ 2 ^ 53) : roundNat n = n := by
  rcases Nat.lt_or_eq_of_le h with hlt | rfl
  · exact if_pos hlt
  · decide

theorem roundInt_of_le {x : Int} (h : x.natAbs ≤ 2 ^ 53) : roundInt x = x := by
  unfold roundInt
  rw [roundNat_of_le h]
  split <;> omega

def floatTotal (start : Int) (values : List Int) : Int :=
  values.foldl (fun acc v => roundInt (acc + roundInt v)) start

end Wadjet.Data
