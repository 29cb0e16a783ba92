import Wadjet.Data.Codes

-- Numbers of a fixed width, one after the other from the lowest bit up, and the bytes
-- that hold them.
namespace Wadjet.Data

open List

def packed (w : Nat) : List Nat → Nat
  | [] => 0
  | v :: vs => v + 2 ^ w * packed w vs

def packBits (w : Nat) (vs : List Nat) : List UInt8 :=
  littleEndian ((vs.length * w + 7) / 8) (packed w vs)

theorem length_packBits (w : Nat) (vs : List Nat) : (packBits w vs).length = (vs.length * w + 7) / 8 :=
  length_littleEndian _ _

variable {w : Nat} {vs : List Nat} (h : ∀ v ∈ vs, v < 2 ^ w)

include h

theorem packed_lt : packed w vs < 2 ^ (vs.length * w) := by
  induction vs with
  | nil =>
    rw [length_nil, Nat.zero_mul]
    exact Nat.one_pos
  | cons v vs ih =>
    obtain ⟨hv, hvs⟩ := forall_mem_cons.mp h
    have hrest : packed w vs + 1 ≤ 2 ^ (vs.length * w) := ih hvs
    calc
      packed w (v :: vs) < 2 ^ w + 2 ^ w * packed w vs := Nat.add_lt_add_right hv _
      _ = 2 ^ w * (packed w vs + 1) := by ring
      _ ≤ 2 ^ w * 2 ^ (vs.length * w) := Nat.mul_le_mul_left _ hrest
      _ = 2 ^ ((v :: vs).length * w) := by rw [← pow_add, length_cons, Nat.succ_mul, Nat.add_comm]

theorem ofLittleEndian_packBits : ofLittleEndian (packBits w vs) = packed w vs := by
  rw [packBits, ofLittleEndian_littleEndian]
  refine Nat.mod_eq_of_lt (Nat.lt_of_lt_of_le (packed_lt h) ?_)
  have hpow : 256 ^ ((vs.length * w + 7) / 8) = 2 ^ (8 * ((vs.length * w + 7) / 8)) := by
    rw [pow_mul]
    rfl
  rw [hpow]
  exact Nat.pow_le_pow_right (by decide) (by omega)

theorem packed_div (i : Nat) : packed w vs / 2 ^ (i * w) = packed w (vs.drop i) := by
  induction i generalizing vs with
  | zero => rw [Nat.zero_mul, pow_zero, Nat.div_one, drop_zero]
  | succ i ih =>
    cases vs with
    | nil => exact Nat.zero_div _
    | cons v vs =>
      obtain ⟨hv, hvs⟩ := forall_mem_cons.mp h
      rw [Nat.succ_mul, Nat.add_comm, pow_add, ← Nat.div_div_eq_div_mul, packed,
        Nat.add_mul_div_left _ _ (Nat.two_pow_pos w), Nat.div_eq_of_lt hv, Nat.zero_add, ih hvs,
        drop_succ_cons]

theorem packed_mod : packed w vs % 2 ^ w = vs.headD 0 := by
  cases vs with
  | nil => exact Nat.zero_mod _
  | cons v vs =>
    rw [packed, Nat.add_mul_mod_self_left, Nat.mod_eq_of_lt (h v mem_cons_self)]
    rfl

theorem packed_div_mod (i : Nat) {k : Nat} (hk : k ≤ w) :
    packed w vs / 2 ^ (i * w) % 2 ^ k = vs.getD i 0 % 2 ^ k := by
  have hdrop : ∀ v ∈ vs.drop i, v < 2 ^ w := fun v hv => h v (mem_of_mem_drop hv)
  rw [packed_div h, ← Nat.mod_mod_of_dvd _ (pow_dvd_pow 2 hk), packed_mod hdrop, headD_eq_head?_getD,
    head?_drop, getD_eq_getElem?_getD]

end Wadjet.Data
