import Mathlib.Data.List.Induction
import Wadjet.Engine.Exec.SortMergeJoin.Model

namespace Wadjet.Engine.Exec.SortMergeJoin

open Wadjet.Data Wadjet.Engine.Exec.Sort List

variable {L B R V : Type}

section Cursor

variable {side : SortConfig R V}

def StreamOf (side : SortConfig R V) (s : Stream R) (rows : List R) : Prop :=
  ∃ runs out, HeapOf side s.heap runs ∧ Merges (keysLe side.keys) runs out ∧ rows = s.cur ++ out ∧
    (s.cur = [] → out = [])

variable {s : Stream R} {rows : List R}

theorem StreamOf.cur_eq_nil_iff (h : StreamOf side s rows) : s.cur = [] ↔ rows = [] := by
  obtain ⟨runs, out, -, -, rfl, hout⟩ := h
  rw [append_eq_nil_iff]
  exact ⟨fun hcur => ⟨hcur, hout hcur⟩, fun h => h.1⟩

theorem StreamOf.head {x : R} (h : StreamOf side s (x :: rows)) : ∃ rest, s.cur = x :: rest := by
  have hne : s.cur ≠ [] := fun hnil => cons_ne_nil x rows (h.cur_eq_nil_iff.mp hnil)
  obtain ⟨runs, out, -, -, hrows, -⟩ := h
  obtain ⟨y, rest, hcur⟩ := exists_cons_of_ne_nil hne
  rw [hcur, cons_append, cons.injEq] at hrows
  exact ⟨rest, by rw [hcur, hrows.1]⟩

variable {h : List (RunCursor R)} {runs : List (List R)}

theorem sum_length_represents (hrep : HeapHolds RunCursor.run RunCursor.ord h runs) :
    (h.map fun c => c.cur.length + c.later.flatten.length).sum = runs.flatten.length := by
  have hperm := (hrep.map Prod.fst).flatten
  have hlive : ((runs.zipIdx.filter fun p => p.1 ≠ []).map Prod.fst).flatten = runs.flatten := by
    have hfilter : (runs.zipIdx.map Prod.fst).filter (fun r => decide (r ≠ [])) =
        (runs.zipIdx.filter fun p => p.1 ≠ []).map Prod.fst := filter_map
    rw [← hfilter, zipIdx_map_fst]
    exact flatten_filter_ne_nil
  rw [hlive, map_map] at hperm
  rw [← hperm.length_eq, length_flatten, map_map]
  congr 1
  refine map_congr_left fun c _ => ?_
  exact length_append.symm

theorem StreamOf.left_eq (h : StreamOf side s rows) : s.left = rows.length := by
  obtain ⟨runs, out, hheap, hout, rfl, -⟩ := h
  rw [Stream.left, sum_length_represents hheap.represents, length_append, hout.perm.length_eq]

variable (hkeys : ∀ key ∈ side.keys, IsKernel key.kernel)

include hkeys

theorem streamOf_loadBatch {out : List R} (hh : HeapOf side h runs)
    (hout : Merges (keysLe side.keys) runs out) : StreamOf side (loadBatch side h) out := by
  obtain ⟨runs', hheap, hmerges, hshort, -⟩ := pullRows_spec hkeys side.batchSize hh
  obtain ⟨out', hout'⟩ := exists_merges hkeys hheap
  refine ⟨runs', out', hheap, hout', hout.unique (hmerges out' hout'), fun hnil => ?_⟩
  have hlength : (pullRows side side.batchSize h).1.length < side.batchSize := by
    have hcur : (pullRows side side.batchSize h).1 = [] := hnil
    rw [hcur]
    exact side.batchSize_pos
  exact hout'.unique (hheap.done (hshort hlength))

theorem StreamOf.advance {x : R}
    (h : StreamOf side s (x :: rows)) : StreamOf side (s.advance side) rows := by
  obtain ⟨tail, hcur⟩ := h.head
  obtain ⟨runs, out, hheap, hout, hrows, -⟩ := h
  rw [hcur, cons_append, cons.injEq] at hrows
  unfold Stream.advance
  rw [hcur]
  cases tail with
  | nil =>
    rw [hrows.2]
    exact streamOf_loadBatch hkeys hheap hout
  | cons y tail => exact ⟨runs, out, hheap, hout, hrows.2, nofun⟩

theorem streamOf_openStream (hlimit : side.limit = none) {s : SortState R} (h : Holds side s rows) :
    StreamOf side (openStream side s) (rows.mergeSort (keysLe side.keys)) := by
  have hle := isOrder_keysLe hkeys
  obtain ⟨runs, hopen, hruns⟩ := holds_remainder hkeys h
  have hheap := heapOf_newRunMerger hkeys runs
  obtain ⟨out, hout⟩ := exists_merges hkeys hheap
  have hstable := hout.stable hle fun run hrun => by
    obtain ⟨r, hr, rfl⟩ := mem_map.mp hrun
    exact hruns.sorted r hr
  have hreduces := hruns.reduces
  rw [hlimit] at hreduces
  have hsorted : out = rows.mergeSort (keysLe side.keys) :=
    hle.stable_iff.mp ⟨hstable.ordered, fun c => (hstable.kept c).trans (hreduces c)⟩
  rw [← hsorted, openStream, hopen]
  exact streamOf_loadBatch hkeys hheap hout

end Cursor

variable {side : SortConfig R V}

theorem filterMap_range (rows : List R) : (range rows.length).filterMap (rows[·]?) = rows := by
  induction rows using reverseRecOn with
  | nil => rfl
  | append_singleton rows r ih =>
    have hfront : ∀ i ∈ range rows.length, (rows ++ [r])[i]? = rows[i]? := fun i hi =>
      getElem?_append_left (mem_range.mp hi)
    rw [length_append, length_singleton, range_succ, filterMap_append,
      filterMap_congr hfront, ih]
    simp

variable {b : Batch R}

theorem active_of_sel {sel : List Nat} (h : nonNullKeySel side b = some sel) :
    ({ b with sel := some sel } : Batch R).active = b.active.filter (keysNonNull side) := by
  have hrow : ∀ idx : List Nat, (idx.filter (rowOK side b)).filterMap (b.rows[·]?) =
      (idx.filterMap (b.rows[·]?)).filter (keysNonNull side) := by
    intro idx
    induction idx with
    | nil => rfl
    | cons i idx ih =>
      cases hi : b.rows[i]? with
      | none => simp [rowOK, hi, ih]
      | some r => cases hr : keysNonNull side r <;> simp [rowOK, hi, hr, ih]
  unfold nonNullKeySel at h
  split at h
  · cases h
  · cases h
    unfold Batch.active
    dsimp only
    rw [hrow]
    cases hsel : b.sel with
    | some idx => rfl
    | none =>
      rw [Option.getD_none]
      rw [filterMap_range]

theorem active_of_noNulls (h : nonNullKeySel side b = none) :
    b.active.filter (keysNonNull side) = b.active := by
  unfold nonNullKeySel at h
  split at h
  case isTrue hall =>
    rw [filter_eq_self]
    intro r hr
    exact all_eq_true.mp hall r (Batch.mem_rows hr)
  case isFalse => cases h

variable (hkeys : ∀ key ∈ side.keys, IsKernel key.kernel) {s : SortState R} {rows : List R}

include hkeys

theorem holds_consumeSide
    (h : Holds side s (rows.filter (keysNonNull side))) (b : Batch R) (heavy : Bool) :
    Holds side (consumeSide side s b heavy) ((rows ++ b.active).filter (keysNonNull side)) := by
  rw [filter_append]
  unfold consumeSide
  split
  case h_1 hsel =>
    rw [active_of_noNulls hsel]
    exact holds_consume hkeys h b heavy
  case h_2 hsel =>
    rw [← active_of_sel hsel]
    change Holds side s (_ ++ [])
    rwa [append_nil]
  case h_3 sel _ hsel =>
    rw [← active_of_sel hsel]
    exact holds_consume hkeys h _ heavy

theorem holds_sideEvents (events : List (SortEvent R))
    (h : Holds side s (rows.filter (keysNonNull side))) :
    Holds side (events.foldl (applySide side) s) ((rows ++ arrivals events).filter (keysNonNull side)) := by
  induction events generalizing s rows with
  | nil => rwa [arrivals, append_nil]
  | cons event rest ih =>
    cases event with
    | consume b heavy =>
      rw [arrivals, ← append_assoc]
      exact ih (holds_consumeSide hkeys h b heavy)
    | spill => exact ih (holds_flushSpill hkeys h)

theorem streamOf_side (hlimit : side.limit = none) (events : List (SortEvent R)) :
    StreamOf side (openStream side (events.foldl (applySide side) .initial))
      (((arrivals events).filter (keysNonNull side)).mergeSort (keysLe side.keys)) := by
  refine streamOf_openStream hkeys hlimit ?_
  have hinitial : Holds side .initial (([] : List R).filter (keysNonNull side)) :=
    ⟨.refl _, fun _ hrun => absurd hrun not_mem_nil⟩
  exact holds_sideEvents hkeys events hinitial

end Wadjet.Engine.Exec.SortMergeJoin
