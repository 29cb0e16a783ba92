import Wadjet.Data.Aggregates
import Wadjet.Logical.CountDistinct.Model

namespace Wadjet.Logical.CountDistinct

open Wadjet.Data Wadjet.Engine List

section Sums

def magnitude (vs : List Int) : Nat := (vs.map Int.natAbs).sum

@[simp] theorem magnitude_cons (v : Int) (vs : List Int) :
    magnitude (v :: vs) = v.natAbs + magnitude vs := by
  simp [magnitude]

@[simp] theorem magnitude_append (vs ws : List Int) :
    magnitude (vs ++ ws) = magnitude vs + magnitude ws := by
  simp [magnitude]

theorem natAbs_sum_le (vs : List Int) : vs.sum.natAbs ≤ magnitude vs := by
  induction vs with
  | nil => simp [magnitude]
  | cons v vs ih =>
    rw [sum_cons, magnitude_cons]
    omega

theorem magnitude_perm {vs ws : List Int} (h : vs.Perm ws) : magnitude vs = magnitude ws :=
  (h.map Int.natAbs).sum_eq

theorem runningSum_eq {fits : Int → Bool} {bound : Nat} (hfits : ∀ v : Int, v.natAbs < bound → fits v)
    (vs : List Int) (h : magnitude vs < bound) : runningSum fits vs = some vs.sum := by
  suffices hacc : ∀ (vs : List Int) (t : Int), t.natAbs + magnitude vs < bound →
      vs.foldl (fun acc v => acc.bind fun t => if fits (t + v) then some (t + v) else none) (some t) =
        some (t + vs.sum) by
    have hzero := hacc vs 0 (by simpa using h)
    rwa [Int.zero_add] at hzero
  intro vs
  induction vs with
  | nil => simp
  | cons v vs ih =>
    intro t ht
    rw [magnitude_cons] at ht
    rw [foldl_cons, Option.bind_some, if_pos (hfits _ (by omega)), ih (t + v) (by omega),
      sum_cons, Int.add_assoc]

variable {v : Int}

theorem fitsInt64_of_lt (h : v.natAbs < 2 ^ 63) : fitsInt64 v := by
  rw [fitsInt64, Bool.and_eq_true, decide_eq_true_eq, decide_eq_true_eq]
  omega

theorem fitsInt128_of_lt (h : v.natAbs < 2 ^ 127) : fitsInt128 v := by
  rw [fitsInt128, Bool.and_eq_true, decide_eq_true_eq, decide_eq_true_eq]
  omega

def sumBound : ColType → Nat
  | .int32 => 2 ^ 63
  | _ => 2 ^ 127

theorem sumFits_of_lt (t : ColType) (h : v.natAbs < sumBound t) : sumFits t v := by
  cases t with
  | int32 => exact fitsInt64_of_lt h
  | int64 | decimal _ _ | text => exact fitsInt128_of_lt h

def total (vs : List Int) : Option Value := if vs.isEmpty then none else some (.num vs.sum)

theorem sumOf_eq (t : ColType) (vs : List Int) (h : magnitude vs < sumBound t) :
    sumOf (sumFits t) vs = some (total vs) := by
  unfold sumOf total
  split
  · rfl
  · rw [runningSum_eq (fun v hv => sumFits_of_lt t hv) vs h]
    rfl

end Sums

def totals {α : Type} (gs : List (List α)) (f : List α → List Int) : List Int :=
  gs.filterMap fun g => (total (f g)).bind Value.num?

variable {α : Type}

theorem totals_cons (g : List α) (gs : List (List α)) (f : List α → List Int) :
    totals (g :: gs) f = if (f g).isEmpty then totals gs f else (f g).sum :: totals gs f := by
  cases hf : f g <;> simp [totals, total, hf, Value.num?]

variable (gs : List (List α)) (f : List α → List Int)

theorem sum_totals : (totals gs f).sum = (gs.flatMap f).sum := by
  induction gs with
  | nil => rfl
  | cons g gs ih =>
    rw [totals_cons, flatMap_cons, sum_append, ← ih]
    cases hf : f g <;> simp

theorem isEmpty_totals : (totals gs f).isEmpty = (gs.flatMap f).isEmpty := by
  induction gs with
  | nil => rfl
  | cons g gs ih =>
    rw [totals_cons, flatMap_cons]
    cases hf : f g with
    | nil => simpa using ih
    | cons v vs => simp

theorem total_totals : total (totals gs f) = total (gs.flatMap f) := by
  rw [total, total, isEmpty_totals, sum_totals]

theorem magnitude_totals_le : magnitude (totals gs f) ≤ magnitude (gs.flatMap f) := by
  induction gs with
  | nil => exact Nat.le_refl _
  | cons g gs ih =>
    have hle := natAbs_sum_le (f g)
    rw [totals_cons, flatMap_cons, magnitude_append]
    split
    · omega
    · rw [magnitude_cons]
      omega

end Wadjet.Logical.CountDistinct
