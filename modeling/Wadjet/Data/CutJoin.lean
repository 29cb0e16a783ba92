import Wadjet.Data.Join

-- Joins of a side that is cut into parts, the other side whole.
namespace Wadjet.Data

open List

namespace JoinKind

def cutsLeft : JoinKind → Bool
  | .inner | .cross | .left | .semi | .anti => true
  | .right | .full => false

def cutsRight : JoinKind → Bool
  | .inner | .cross | .right => true
  | .left | .full | .semi | .anti => false

end JoinKind

variable {α β : Type} {on : α → β → Bool} {kind : JoinKind}

section Left

variable (xs xs' : List α) (ys : List β)

theorem matched_append_left : matched on (xs ++ xs') ys = matched on xs ys ++ matched on xs' ys :=
  flatMap_append

theorem leftOnly_append_left : leftOnly on (xs ++ xs') ys = leftOnly on xs ys ++ leftOnly on xs' ys := by
  rw [leftOnly, filter_append, map_append]
  rfl

theorem join_append_left (hkind : kind.cutsLeft) :
    (join on kind (xs ++ xs') ys).Perm (join on kind xs ys ++ join on kind xs' ys) := by
  cases kind with
  | inner | cross =>
    simp only [join]
    rw [matched_append_left]
  | left =>
    simp only [join]
    rw [matched_append_left, leftOnly_append_left]
    calc List.Perm _ (matched on xs ys ++ (matched on xs' ys ++ leftOnly on xs ys) ++ leftOnly on xs' ys) := by
          simp only [append_assoc]
          exact List.Perm.refl _
      List.Perm _ (matched on xs ys ++ (leftOnly on xs ys ++ matched on xs' ys) ++ leftOnly on xs' ys) :=
          (perm_append_comm.append_left _).append_right _
      List.Perm _ (matched on xs ys ++ leftOnly on xs ys ++ (matched on xs' ys ++ leftOnly on xs' ys)) := by
          simp only [append_assoc]
          exact List.Perm.refl _
  | semi =>
    simp only [join]
    rw [filter_append, map_append]
  | anti =>
    simp only [join]
    rw [leftOnly_append_left]
  | right | full => cases hkind

end Left

section Right

variable (xs : List α) (ys ys' : List β)

theorem matched_append_right :
    (matched on xs (ys ++ ys')).Perm (matched on xs ys ++ matched on xs ys') := by
  simp only [matched, filter_append, map_append]
  exact (flatMap_append_perm xs _ _).symm

theorem rightOnly_append_right : rightOnly on xs (ys ++ ys') = rightOnly on xs ys ++ rightOnly on xs ys' := by
  rw [rightOnly, filter_append, map_append]
  rfl

theorem join_append_right (hkind : kind.cutsRight) :
    (join on kind xs (ys ++ ys')).Perm (join on kind xs ys ++ join on kind xs ys') := by
  cases kind with
  | inner | cross => exact matched_append_right xs ys ys'
  | right =>
    simp only [join]
    rw [rightOnly_append_right]
    calc List.Perm _ (matched on xs ys ++ matched on xs ys' ++ (rightOnly on xs ys ++ rightOnly on xs ys')) :=
          (matched_append_right xs ys ys').append_right _
      List.Perm _ (matched on xs ys ++ (matched on xs ys' ++ rightOnly on xs ys) ++ rightOnly on xs ys') := by
          simp only [append_assoc]
          exact List.Perm.refl _
      List.Perm _ (matched on xs ys ++ (rightOnly on xs ys ++ matched on xs ys') ++ rightOnly on xs ys') :=
          (perm_append_comm.append_left _).append_right _
      List.Perm _ (matched on xs ys ++ rightOnly on xs ys ++ (matched on xs ys' ++ rightOnly on xs ys')) := by
          simp only [append_assoc]
          exact List.Perm.refl _
  | left | full | semi | anti => cases hkind

end Right

theorem join_flatten_left (hkind : kind.cutsLeft) (parts : List (List α)) (ys : List β) :
    (join on kind parts.flatten ys).Perm (parts.flatMap fun part => join on kind part ys) := by
  induction parts with
  | nil =>
    cases kind with
    | inner | cross | left | semi | anti => exact List.Perm.refl _
    | right | full => cases hkind
  | cons part rest ih =>
    exact (join_append_left part rest.flatten ys hkind).trans (ih.append_left _)

theorem join_flatten_right (hkind : kind.cutsRight) (xs : List α) (parts : List (List β)) :
    (join on kind xs parts.flatten).Perm (parts.flatMap fun part => join on kind xs part) := by
  induction parts with
  | nil =>
    cases kind with
    | inner | cross | right => simp [join, matched, rightOnly]
    | left | full | semi | anti => cases hkind
  | cons part rest ih =>
    exact (join_append_right xs part rest.flatten hkind).trans (ih.append_left _)

end Wadjet.Data
