import Mathlib.Data.List.Perm.Basic

-- Joins of two row lists, row order disregarded.
namespace Wadjet.Data

open List

inductive JoinKind where
  | inner
  | cross
  | left
  | right
  | full
  | semi
  | anti
  deriving DecidableEq, Repr

namespace JoinKind

def padsLeft : JoinKind → Bool
  | .right | .full => true
  | _ => false

def padsRight : JoinKind → Bool
  | .left | .full => true
  | _ => false

-- The kind that remains once every row without a left (right) part is gone.
def keepLeft : JoinKind → JoinKind
  | .right => .inner
  | .full => .left
  | kind => kind

def keepRight : JoinKind → JoinKind
  | .left => .inner
  | .full => .right
  | kind => kind

def answersLeft : JoinKind → Bool
  | .semi | .anti => true
  | _ => false

end JoinKind

variable {α β : Type} (on : α → β → Bool) (xs : List α) (ys : List β)

def matched : List (Option α × Option β) :=
  xs.flatMap fun x => (ys.filter (on x)).map fun y => (some x, some y)

def leftOnly : List (Option α × Option β) :=
  (xs.filter fun x => !ys.any (on x)).map fun x => (some x, none)

def rightOnly : List (Option α × Option β) :=
  (ys.filter fun y => !xs.any (on · y)).map fun y => (none, some y)

variable (kind : JoinKind)

-- A side that found no partner is absent from its row. Semi and anti joins
-- answer left rows only.
def join (xs : List α) (ys : List β) : List (Option α × Option β) :=
  match kind with
  | .inner | .cross => matched on xs ys
  | .left => matched on xs ys ++ leftOnly on xs ys
  | .right => matched on xs ys ++ rightOnly on xs ys
  | .full => matched on xs ys ++ (leftOnly on xs ys ++ rightOnly on xs ys)
  | .semi => (xs.filter fun x => ys.any (on x)).map fun x => (some x, none)
  | .anti => leftOnly on xs ys

def leftRow (x : α) : List (Option α × Option β) :=
  if ys.any (on x) then (ys.filter (on x)).map fun y => (some x, some y) else [(some x, none)]

theorem join_left_perm : (join on .left xs ys).Perm (xs.flatMap (leftRow on ys)) := by
  induction xs with
  | nil => exact List.Perm.refl _
  | cons x xs ih =>
    have hhead : matched on [x] ys ++ leftOnly on [x] ys = leftRow on ys x := by
      simp only [matched, leftOnly, leftRow]
      by_cases h : ys.any (on x)
      · simp [h]
      · have hnil : ys.filter (on x) = [] := by
          refine filter_eq_nil_iff.mpr fun y hy ht => h (any_eq_true.mpr ⟨y, hy, ht⟩)
        simp [h, hnil]
    have hm : matched on (x :: xs) ys = matched on [x] ys ++ matched on xs ys := by simp [matched]
    have hl : leftOnly on (x :: xs) ys = leftOnly on [x] ys ++ leftOnly on xs ys := by
      simp [leftOnly, ← map_append, ← filter_append]
    rw [flatMap_cons, ← hhead]
    simp only [join] at ih ⊢
    rw [hm, hl, append_assoc, append_assoc]
    refine List.Perm.append_left _ ?_
    calc matched on xs ys ++ (leftOnly on [x] ys ++ leftOnly on xs ys)
        = (matched on xs ys ++ leftOnly on [x] ys) ++ leftOnly on xs ys := by rw [append_assoc]
      _ |>.Perm ((leftOnly on [x] ys ++ matched on xs ys) ++ leftOnly on xs ys) :=
          List.Perm.append_right _ perm_append_comm
      _ |>.Perm (leftOnly on [x] ys ++ xs.flatMap (leftRow on ys)) := by
          rw [append_assoc]
          exact List.Perm.append_left _ ih

theorem padsLeft_of_mem (xs : List α) (ys : List β) (o : Option β)
    (h : (none, o) ∈ join on kind xs ys) : kind.padsLeft := by
  cases kind <;> simp_all [join, matched, leftOnly, rightOnly, JoinKind.padsLeft]

theorem padsRight_of_mem (hkind : kind.answersLeft = false) (xs : List α) (ys : List β)
    (o : Option α) (h : (o, none) ∈ join on kind xs ys) : kind.padsRight := by
  cases kind <;> simp_all [join, matched, leftOnly, rightOnly, JoinKind.padsRight, JoinKind.answersLeft]

-- Two filters of one list answer the same images exactly when they agree, the
-- second deciding by the image alone.
theorem map_filter_perm_iff {γ δ : Type} (image : γ → δ) (p : γ → Bool) (q : δ → Bool) (zs : List γ) :
    ((zs.filter p).map image).Perm ((zs.map image).filter q) ↔ ∀ z ∈ zs, p z = q (image z) := by
  classical
  rw [filter_map]
  constructor
  · intro h z hz
    have hcount := (h.filter fun w => decide (w = image z)).length_eq
    rw [filter_map, filter_map, length_map, length_map,
      filter_comm _ p, filter_comm _ (q ∘ image)] at hcount
    generalize hfiber : zs.filter ((fun w => decide (w = image z)) ∘ image) = fiber at hcount
    have hmem : z ∈ fiber := by simp [← hfiber, hz]
    have hconst : ∀ w ∈ fiber, (q ∘ image) w = q (image z) := by
      intro w hw
      rw [← hfiber, mem_filter] at hw
      rw [Function.comp_apply, of_decide_eq_true hw.2]
    rw [filter_congr hconst] at hcount
    cases hq : q (image z) with
    | true =>
      rw [hq, filter_true] at hcount
      exact length_filter_eq_length_iff.mp hcount z hmem
    | false =>
      rw [hq, filter_false, length_nil, length_eq_zero_iff, filter_eq_nil_iff] at hcount
      exact Bool.eq_false_iff.mpr (hcount z hmem)
  · intro h
    exact List.Perm.of_eq (by rw [filter_congr h]; rfl)

variable {on} {on' : α → β → Bool}

theorem matched_congr {xs : List α} {ys : List β}
    (h : ∀ x ∈ xs, ∀ y ∈ ys, on x y = on' x y) : matched on xs ys = matched on' xs ys := by
  refine flatMap_congr fun x hx => ?_
  rw [filter_congr fun y hy => h x hx y hy]

variable (on) (p : α → Bool)

theorem matched_and_left (xs : List α) (ys : List β) :
    matched (fun x y => on x y && p x) xs ys = matched on (xs.filter p) ys := by
  induction xs with
  | nil => rfl
  | cons x xs ih =>
    rw [matched, flatMap_cons, ← matched, ih]
    cases hx : p x
    · simp [hx]
    · simp [hx, matched]

variable (q : β → Bool) (xs : List α) (ys : List β)

theorem matched_and_right :
    matched (fun x y => on x y && q y) xs ys = matched on xs (ys.filter q) := by
  refine flatMap_congr fun x _ => ?_
  rw [filter_filter]

theorem filter_matched (r : Option α × Option β → Bool) (xs : List α) (ys : List β) :
    (matched on xs ys).filter r = matched (fun x y => on x y && r (some x, some y)) xs ys := by
  rw [matched, filter_flatMap]
  refine flatMap_congr fun x _ => ?_
  rw [filter_map, filter_filter]
  congr 1
  exact filter_congr fun y _ => Bool.and_comm _ _

theorem filter_leftOnly :
    leftOnly on (xs.filter p) ys = (leftOnly on xs ys).filter fun r => r.1.any p := by
  rw [leftOnly, leftOnly, filter_map, filter_comm]
  rfl

theorem filter_rightOnly :
    rightOnly on xs (ys.filter q) = (rightOnly on xs ys).filter fun r => r.2.any q := by
  rw [rightOnly, rightOnly, filter_map, filter_comm]
  rfl

theorem leftOnly_and_right :
    leftOnly (fun x y => on x y && q y) xs ys = leftOnly on xs (ys.filter q) := by
  simp only [leftOnly, any_filter, Bool.and_comm]

theorem rightOnly_and_left :
    rightOnly (fun x y => on x y && p x) xs ys = rightOnly on (xs.filter p) ys := by
  simp only [rightOnly, any_filter, Bool.and_comm]

variable (kind : JoinKind)

-- Filtering an input and dropping the rows without it is filtering the join,
-- the predicate failing on an absent part.
theorem join_keepLeft (p : α → Bool) (xs : List α) (ys : List β) :
    join on kind.keepLeft (xs.filter p) ys = (join on kind xs ys).filter fun r => r.1.any p := by
  have hmatched : matched on (xs.filter p) ys = (matched on xs ys).filter fun r => r.1.any p := by
    rw [filter_matched, ← matched_and_left]
    rfl
  have hright : ((rightOnly on xs ys).filter fun r => r.1.any p) = [] := by
    simp [rightOnly, filter_map]
  cases kind with
  | inner | cross => exact hmatched
  | left => simp only [JoinKind.keepLeft, join, filter_append, hmatched, filter_leftOnly]
  | right => simp only [JoinKind.keepLeft, join, filter_append, hmatched, hright, append_nil]
  | full =>
    simp [JoinKind.keepLeft, join, hmatched, hright, filter_leftOnly]
  | semi =>
    simp only [join, filter_map]
    rw [filter_comm]
    rfl
  | anti => exact filter_leftOnly on p xs ys

theorem join_keepRight (hkind : kind.answersLeft = false) (q : β → Bool) (xs : List α)
    (ys : List β) :
    join on kind.keepRight xs (ys.filter q) = (join on kind xs ys).filter fun r => r.2.any q := by
  have hmatched : matched on xs (ys.filter q) = (matched on xs ys).filter fun r => r.2.any q := by
    rw [filter_matched, ← matched_and_right]
    rfl
  have hleft : ((leftOnly on xs ys).filter fun r => r.2.any q) = [] := by
    simp [leftOnly, filter_map]
  cases kind with
  | inner | cross => exact hmatched
  | left => simp only [JoinKind.keepRight, join, filter_append, hmatched, hleft, append_nil]
  | right => simp only [JoinKind.keepRight, join, filter_append, hmatched, filter_rightOnly]
  | full =>
    simp [JoinKind.keepRight, join, hmatched, hleft, filter_rightOnly]
  | semi | anti => cases hkind

-- A condition on one side alone may restrict that side's input instead, unless
-- the side's unmatched rows are answered.
theorem join_and_left (hkind : kind.padsRight = false ∧ kind.answersLeft = false)
    (p : α → Bool) (xs : List α) (ys : List β) :
    join (fun x y => on x y && p x) kind xs ys = join on kind (xs.filter p) ys := by
  obtain ⟨hpads, hanswers⟩ := hkind
  cases kind with
  | inner | cross => exact matched_and_left on p xs ys
  | right => rw [join, join, matched_and_left, rightOnly_and_left]
  | left | full => cases hpads
  | semi | anti => cases hanswers

theorem join_and_right (hkind : kind.padsLeft = false ∧ kind.answersLeft = false)
    (q : β → Bool) (xs : List α) (ys : List β) :
    join (fun x y => on x y && q y) kind xs ys = join on kind xs (ys.filter q) := by
  obtain ⟨hpads, hanswers⟩ := hkind
  cases kind with
  | inner | cross => exact matched_and_right on q xs ys
  | left => rw [join, join, matched_and_right, leftOnly_and_right]
  | right | full => cases hpads
  | semi | anti => cases hanswers

theorem join_perm {xs xs' : List α} {ys ys' : List β} (hx : xs.Perm xs')
    (hy : ys.Perm ys') : (join on kind xs ys).Perm (join on kind xs' ys') := by
  have hany : ∀ x, ys.any (on x) = ys'.any (on x) := fun x => hy.any_eq
  have hany' : ∀ y, xs.any (on · y) = xs'.any (on · y) := fun y => hx.any_eq
  have hmatched : (matched on xs ys).Perm (matched on xs' ys') :=
    (hx.flatMap_right _).trans (List.Perm.flatMap_left _ fun x _ => (hy.filter _).map _)
  have hleft : (leftOnly on xs ys).Perm (leftOnly on xs' ys') := by
    simp only [leftOnly, hany]
    exact (hx.filter _).map _
  have hright : (rightOnly on xs ys).Perm (rightOnly on xs' ys') := by
    simp only [rightOnly, hany']
    exact (hy.filter _).map _
  cases kind with
  | inner | cross => exact hmatched
  | left => exact hmatched.append hleft
  | right => exact hmatched.append hright
  | full => exact hmatched.append (hleft.append hright)
  | semi =>
    simp only [join, hany]
    exact (hx.filter _).map _
  | anti => exact hleft

private theorem any_congr_of_mem {γ : Type} {zs : List γ} {p q : γ → Bool} (h : ∀ z ∈ zs, p z = q z) :
    zs.any p = zs.any q := by
  rw [Bool.eq_iff_iff, any_eq_true, any_eq_true]
  exact exists_congr fun z => and_congr_right fun hz => by rw [h z hz]

theorem join_congr {xs : List α} {ys : List β}
    (h : ∀ x ∈ xs, ∀ y ∈ ys, on x y = on' x y) : join on kind xs ys = join on' kind xs ys := by
  have hany : ∀ x ∈ xs, ys.any (on x) = ys.any (on' x) := fun x hx =>
    any_congr_of_mem (h x hx)
  have hleft : leftOnly on xs ys = leftOnly on' xs ys := by
    rw [leftOnly, leftOnly, filter_congr fun x hx => by rw [hany x hx]]
  have hright : rightOnly on xs ys = rightOnly on' xs ys := by
    rw [rightOnly, rightOnly, filter_congr fun y hy => ?_]
    rw [any_congr_of_mem fun x hx => h x hx y hy]
  cases kind with
  | inner | cross => exact matched_congr h
  | left => rw [join, join, matched_congr h, hleft]
  | right => rw [join, join, matched_congr h, hright]
  | full => rw [join, join, matched_congr h, hleft, hright]
  | semi => rw [join, join, filter_congr fun x hx => hany x hx]
  | anti => exact hleft

end Wadjet.Data
