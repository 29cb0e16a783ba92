import Mathlib.Data.List.Perm.Basic

-- The pairs of two lists, in the order of the first and then of the second.
namespace Wadjet.Data

open List

variable {α β : Type}

def joinOn (on : α → β → Bool) (xs : List α) (ys : List β) : List (α × β) :=
  xs.flatMap fun x => (ys.filter (on x)).map (Prod.mk x)

variable {on : α → β → Bool} {xs : List α} {ys ys' : List β}

theorem joinOn_cons (x : α) :
    joinOn on (x :: xs) ys = (ys.filter (on x)).map (Prod.mk x) ++ joinOn on xs ys :=
  flatMap_cons

theorem joinOn_nil_right : joinOn on xs [] = [] :=
  flatMap_eq_nil_iff.mpr fun _ _ => rfl

theorem joinOn_cons_of_alone {x : α} (h : ∀ y ∈ ys, on x y = false) :
    joinOn on (x :: xs) ys = joinOn on xs ys := by
  rw [joinOn_cons, filter_eq_nil_iff.mpr fun y hy => by simp [h y hy]]
  rfl

theorem joinOn_append_of_alone (h : ∀ x ∈ xs, ∀ y ∈ ys, on x y = false) :
    joinOn on xs (ys ++ ys') = joinOn on xs ys' := by
  induction xs with
  | nil => rfl
  | cons x xs ih =>
    rw [joinOn_cons, joinOn_cons, ih fun z hz => h z (mem_cons_of_mem x hz), filter_append,
      filter_eq_nil_iff.mpr fun y hy => by simp [h x mem_cons_self y hy], nil_append]

theorem joinOn_cons_of_group {x : α} (h : ∀ y ∈ ys, on x y = true) (h' : ∀ y ∈ ys', on x y = false) :
    joinOn on (x :: xs) (ys ++ ys') = ys.map (Prod.mk x) ++ joinOn on xs (ys ++ ys') := by
  rw [joinOn_cons, filter_append, filter_eq_self.mpr h,
    filter_eq_nil_iff.mpr fun y hy => by simp [h' y hy], append_nil]

theorem joinOn_filter (p : α → Bool) (q : β → Bool) (xs : List α) (ys : List β) :
    joinOn on (xs.filter p) (ys.filter q) = joinOn (fun x y => p x && q y && on x y) xs ys := by
  induction xs with
  | nil => rfl
  | cons x xs ih =>
    cases hx : p x with
    | true =>
      rw [filter_cons_of_pos hx, joinOn_cons, joinOn_cons, ih, filter_filter]
      simp [hx, Bool.and_comm]
    | false =>
      rw [filter_cons_of_neg (by rw [hx]; exact Bool.false_ne_true), ih]
      exact (joinOn_cons_of_alone fun y _ => by rw [hx, Bool.false_and, Bool.false_and]).symm

theorem joinOn_perm {xs' : List α} (hx : xs.Perm xs') (hy : ys.Perm ys') :
    (joinOn on xs ys).Perm (joinOn on xs' ys') := by
  refine (hx.flatMap_right _).trans ?_
  exact List.Perm.flatMap_left _ fun x _ => (hy.filter (on x)).map _

end Wadjet.Data
