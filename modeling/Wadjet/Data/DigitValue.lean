import Mathlib.Data.List.DropRight
import Wadjet.Data.Digits

namespace Wadjet.Data

open List

def IsDigits (l : List UInt8) : Prop :=
  ∀ b ∈ l, 48 ≤ b.toNat ∧ b.toNat ≤ 57

theorem ofDigits_foldl (l : List UInt8) (n : Nat) :
    l.foldl (fun x b => x * 10 + (b.toNat - 48)) n = n * 10 ^ l.length + ofDigits l := by
  induction l generalizing n with
  | nil => simp [ofDigits]
  | cons b l ih =>
    rw [ofDigits, foldl_cons, foldl_cons, ih, ih, length_cons]
    ring

theorem ofDigits_append (a b : List UInt8) :
    ofDigits (a ++ b) = ofDigits a * 10 ^ b.length + ofDigits b := by
  rw [ofDigits, foldl_append, ofDigits_foldl b]
  rfl

theorem ofDigits_cons (b : UInt8) (l : List UInt8) :
    ofDigits (b :: l) = (b.toNat - 48) * 10 ^ l.length + ofDigits l := by
  rw [ofDigits, foldl_cons, ofDigits_foldl, Nat.zero_add]

theorem ofDigits_zeros (n : Nat) : ofDigits (replicate n 48) = 0 := by
  induction n with
  | zero => rfl
  | succ n ih =>
    rw [replicate_succ, ofDigits_cons, ih]
    exact Nat.zero_mul _

namespace IsDigits

variable {a b l : List UInt8}

theorem append (ha : IsDigits a) (hb : IsDigits b) : IsDigits (a ++ b) := by
  intro x hx
  obtain hx | hx := mem_append.mp hx
  · exact ha x hx
  · exact hb x hx

theorem subset (h : IsDigits l) (hsub : a ⊆ l) : IsDigits a :=
  fun x hx => h x (hsub hx)

theorem tail (h : IsDigits l) : IsDigits l.tail :=
  h.subset (tail_sublist l).subset

theorem value_lt (h : IsDigits l) : ofDigits l < 10 ^ l.length := by
  induction l with
  | nil => exact Nat.one_pos
  | cons b l ih =>
    have hb := h b mem_cons_self
    have hl := ih (h.subset (subset_cons_self b l))
    rw [ofDigits_cons, length_cons]
    have hle : (b.toNat - 48) * 10 ^ l.length ≤ 9 * 10 ^ l.length :=
      Nat.mul_le_mul_right _ (by omega)
    omega

end IsDigits

def Leading (l : List UInt8) : Prop :=
  l ≠ [] → 10 ^ (l.length - 1) ≤ ofDigits l

theorem leading_cons {b : UInt8} {l : List UInt8} (hb : 49 ≤ b.toNat) : Leading (b :: l) := by
  intro _
  rw [ofDigits_cons, length_cons, Nat.add_sub_cancel]
  have hle : 1 * 10 ^ l.length ≤ (b.toNat - 48) * 10 ^ l.length :=
    Nat.mul_le_mul_right _ (by omega)
  omega

theorem leading_dropWhile {l : List UInt8} (h : IsDigits l) :
    Leading (l.dropWhile (· == 48)) := by
  cases hl : l.dropWhile (· == 48) with
  | nil => exact fun hnil => absurd rfl hnil
  | cons b rest =>
    have hb := h b ((dropWhile_sublist _).subset (hl ▸ mem_cons_self))
    have hne : ¬ (b == 48) := by
      have hhead := head?_dropWhile_not (· == 48) l
      rw [hl] at hhead
      simpa using hhead
    refine leading_cons ?_
    have hval : b.toNat ≠ 48 := fun hv => hne (by rw [beq_iff_eq, ← UInt8.toNat_inj]; exact hv)
    omega

theorem ofDigits_dropWhile (l : List UInt8) : ofDigits (l.dropWhile (· == 48)) = ofDigits l := by
  induction l with
  | nil => rfl
  | cons b l ih =>
    by_cases hb : (b == 48)
    · rw [dropWhile_cons_of_pos (p := (· == 48)) hb, ih, ofDigits_cons, beq_iff_eq.mp hb]
      simp
    · rw [dropWhile_cons_of_neg (p := (· == 48)) hb]

theorem ofDigits_rdropWhile (l : List UInt8) :
    ofDigits (l.rdropWhile (· == 48)) * 10 ^ (l.length - (l.rdropWhile (· == 48)).length) =
      ofDigits l := by
  induction l using reverseRecOn with
  | nil => rfl
  | append_singleton l b ih =>
    by_cases hb : (b == 48)
    · have hle := ( rdropWhile_prefix (· == 48) l).length_le
      rw [rdropWhile_concat_pos (· == 48) _ _ hb, ofDigits_append, length_append,
        length_singleton, beq_iff_eq.mp hb, ← ih, Nat.sub_add_comm hle]
      change _ = _ + 0
      ring
    · rw [rdropWhile_concat_neg (· == 48) _ _ hb]
      simp

theorem IsDigits.take_drop {l : List UInt8} (h : IsDigits l) {k : Nat} (hk : k ≤ l.length) :
    ofDigits (l.take (l.length - k)) = ofDigits l / 10 ^ k ∧
      ofDigits (l.drop (l.length - k)) = ofDigits l % 10 ^ k := by
  have hlast := (h.subset (drop_sublist (l.length - k) l).subset).value_lt
  have hsplit := ofDigits_append (l.take (l.length - k)) (l.drop (l.length - k))
  rw [length_drop, Nat.sub_sub_self hk] at hlast hsplit
  rw [take_append_drop] at hsplit
  rw [hsplit, Nat.mul_comm, Nat.mul_add_div (Nat.pow_pos (by decide)), Nat.div_eq_of_lt hlast,
    Nat.mul_add_mod, Nat.mod_eq_of_lt hlast]
  exact ⟨rfl, rfl⟩

theorem IsDigits.value_eq_zero_iff {l : List UInt8} (h : IsDigits l) :
    ofDigits l = 0 ↔ l.dropWhile (· == 48) = [] := by
  constructor
  · intro hzero
    by_contra hne
    have hlead := leading_dropWhile h hne
    rw [ofDigits_dropWhile, hzero] at hlead
    exact absurd hlead (not_le.mpr (Nat.pow_pos (by decide)))
  · intro hnil
    rw [← ofDigits_dropWhile, hnil]
    rfl

end Wadjet.Data
