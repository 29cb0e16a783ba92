import Wadjet.Data.BackShift
import Wadjet.Engine.Exec.IntHash

namespace Wadjet.Engine.Exec

open Wadjet.Data List Function

namespace IntSlots

def view {n : Nat} (entries : Fin n → IntHashEntry) : Fin n → Option (BitVec 64 × Int) :=
  fun i => if (entries i).key = intHashEmpty then none
    else some ((entries i).key, (entries i).val)

section View

variable {n : Nat} {entries : Fin n → IntHashEntry} {i : Fin n} {key : BitVec 64} {val : Int}

theorem view_eq_none : view entries i = none ↔ (entries i).key = intHashEmpty := by
  unfold view
  split_ifs with h <;> simp [h]

theorem view_of_ne (h : (entries i).key ≠ intHashEmpty) :
    view entries i = some ((entries i).key, (entries i).val) :=
  if_neg h

theorem key_ne_of_view (h : view entries i = some (key, val)) : key ≠ intHashEmpty := by
  unfold view at h
  split_ifs at h with hkey
  simp only [Option.some.injEq, Prod.mk.injEq] at h
  exact h.1 ▸ hkey

variable (e : IntHashEntry)

theorem view_update (h : e.key ≠ intHashEmpty) :
    view (update entries i e) = update (view entries) i (some (e.key, e.val)) := by
  funext j
  by_cases hj : j = i
  · subst hj
    rw [view, update_self, update_self, if_neg h]
  · rw [view, update_of_ne hj, update_of_ne hj, view]

theorem view_update_empty (h : e.key = intHashEmpty) :
    view (update entries i e) = update (view entries) i none := by
  funext j
  by_cases hj : j = i
  · subst hj
    rw [view, update_self, update_self, if_pos h]
  · rw [view, update_of_ne hj, update_of_ne hj, view]

variable [NeZero n] (fuel : Nat)

theorem findSlot_eq_probe (i : Fin n) :
    findSlot entries key fuel i = probe (view entries) key fuel i := by
  induction fuel generalizing i with
  | zero => rfl
  | succ fuel ih =>
    unfold findSlot probe
    by_cases hempty : (entries i).key = intHashEmpty
    · rw [if_pos hempty, view_eq_none.mpr hempty]
    · rw [if_neg hempty, view_of_ne hempty]
      rw [ih]

theorem findSlot_reserved {fuel : Nat} {start : Fin n}
    (h : findSlot entries intHashEmpty fuel start = some i) :
    (entries i).key = intHashEmpty := by
  induction fuel generalizing start with
  | zero => cases h
  | succ fuel ih =>
    unfold findSlot at h
    split_ifs at h with hempty
    · cases h
      exact hempty
    · exact ih h

theorem firstFree_eq_probe (i : Fin n) :
    firstFree entries fuel i = probe (view entries) intHashEmpty fuel i := by
  rw [← findSlot_eq_probe]
  induction fuel generalizing i with
  | zero => rfl
  | succ fuel ih =>
    unfold firstFree findSlot
    by_cases hempty : (entries i).key = intHashEmpty
    · rw [if_pos hempty, if_pos hempty]
    · rw [if_neg hempty, if_neg hempty, if_neg hempty, ih]

end View

variable {slotHash : BitVec 64 → BitVec 64} {bits : Nat} {entries : Fin (2 ^ bits) → IntHashEntry}

theorem view_shiftBack (fuel : Nat) (hole j : Fin (2 ^ bits)) :
    view (shiftBack slotHash bits entries fuel hole j) =
      backShift (slotFor slotHash bits) (view entries) fuel hole j := by
  induction fuel generalizing entries hole j with
  | zero => exact view_update_empty _ rfl
  | succ fuel ih =>
    unfold shiftBack backShift
    by_cases hempty : (entries (j + 1)).key = intHashEmpty
    · rw [if_pos hempty, view_eq_none.mpr hempty]
      exact view_update_empty _ rfl
    rw [if_neg hempty, view_of_ne hempty]
    dsimp only
    by_cases hafter : gap (slotFor slotHash bits (entries (j + 1)).key) (j + 1) <
        gap hole (j + 1)
    · rw [if_pos hafter, if_pos hafter, ih]
    · rw [if_neg hafter, if_neg hafter, ih, view_update _ hempty]

theorem liveEntries_ne {t : IntSlots} {e : IntHashEntry} (h : e ∈ t.liveEntries) :
    e.key ≠ intHashEmpty := by
  simpa [liveEntries] using (mem_filter.mp h).2

theorem forEach_eq (t : IntSlots) : t.forEach = pairs (view t.entries) := by
  unfold forEach liveEntries pairs
  induction finRange (2 ^ t.bits) with
  | nil => rfl
  | cons i l ih =>
    by_cases hempty : (t.entries i).key = intHashEmpty
    · rw [map_cons, filter_cons_of_neg (by simpa using hempty), ih,
        filterMap_cons_none (view_eq_none.mpr hempty)]
    · rw [map_cons, filter_cons_of_pos (by simpa using hempty), map_cons, ih,
        filterMap_cons_some (view_of_ne hempty)]

theorem view_empty (bits : Nat) : view (emptyEntries bits) = fun _ => none := by
  funext i
  exact if_pos rfl

end IntSlots

end Wadjet.Engine.Exec
