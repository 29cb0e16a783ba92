import Wadjet.Coordinator.PartialMerge.Keys
import Wadjet.Data.CoarseKeys

namespace Wadjet.Coordinator.PartialMerge

open Wadjet.Data Wadjet.Engine List

def foldCells (col : AggCol) : List (Option Int) → Int
  | [] => 0
  | cell :: rest => rest.foldl col.merge (col.load cell)

theorem foldCells_append (col : AggCol) {cells : List (Option Int)} (h : cells ≠ []) (cell : Option Int) :
    foldCells col (cells ++ [cell]) = col.merge (foldCells col cells) cell := by
  cases cells with
  | nil => exact absurd rfl h
  | cons first rest => simp [foldCells]

def mergedCells (cols : List AggCol) (group : List PartialRow) : List (Option Int) :=
  cols.zipIdx.map fun entry => some (entry.1.store (foldCells entry.1 (group.map (cellAt entry.2))))

def firstKey (cidrOrderKey : Bytes → Bytes) : List PartialRow → List (Option KeyValue)
  | [] => []
  | row :: _ => keyOf cidrOrderKey row.keys

section Fold

variable {cols : List AggCol}

theorem foldGroup_nextMerged (first : PartialRow × Nat) (rest : List (PartialRow × Nat)) :
    foldGroup (nextMerged cols) (first :: rest) = some ⟨first.1, cols.zipIdx.map fun entry =>
      foldCells entry.1 ((first :: rest).map fun x => cellAt entry.2 x.1), first.2⟩ := by
  induction rest using reverseRecOn with
  | nil => rfl
  | append_singleton rest last ih =>
    rw [← cons_append, foldGroup_append, ih, nextMerged]
    congr 2
    apply ext_getElem?
    intro j
    simp only [getElem?_map, getElem?_zipIdx]
    cases hcol : cols[j]? with
    | none => rfl
    | some col =>
      simp only [Option.map_some, map_append, map_cons, map_nil]
      rw [foldCells_append _ (cons_ne_nil _ _)]
      simp [hcol]

theorem shown_resultRow (cidrOrderKey : Bytes → Bytes) (first : PartialRow × Nat) (rest : List (PartialRow × Nat)) :
    (foldGroup (nextMerged cols) (first :: rest)).map (fun merged => shown cidrOrderKey (resultRow cols merged)) =
      some (firstKey cidrOrderKey ((first :: rest).map Prod.fst),
          mergedCells cols ((first :: rest).map Prod.fst)) := by
  rw [foldGroup_nextMerged]
  refine congrArg some (Prod.ext rfl ?_)
  apply ext_getElem?
  intro j
  simp only [shown, resultRow, mergedCells, getElem?_map, getElem?_zipIdx]
  cases hcol : cols[j]? with
  | none => rfl
  | some col => simp [getD, hcol, Function.comp_def]

end Fold

section Passes

variable {cidrOrderKey : Bytes → Bytes} {types : List KeyType} {cols : List AggCol}

theorem accumulate_perm (rows : List PartialRow) :
    ((accumulate cidrOrderKey types cols (fun _ => true) rows).map fun merged =>
        shown cidrOrderKey (resultRow cols merged)).Perm
      ((groups eqKey (rowKey cidrOrderKey types) rows).map fun group =>
        (firstKey cidrOrderKey group.2, mergedCells cols group.2)) := by
  let key : PartialRow × Nat → Bytes := fun entry => rowKey cidrOrderKey types entry.1
  have hrows : rows = rows.zipIdx.map Prod.fst := (zipIdx_map_fst 0 rows).symm
  have hgroups : groups eqKey (rowKey cidrOrderKey types) rows =
      (groups eqKey key rows.zipIdx).map fun group => (group.1, group.2.map Prod.fst) := by
    conv_lhs => rw [hrows]
    exact groups_map Prod.fst key rows.zipIdx fun _ _ => rfl
  have hloop : accumulate cidrOrderKey types cols (fun _ => true) rows =
      (groupLoop (nextMerged cols) key rows.zipIdx).map Prod.snd := by
    rw [accumulate, filter_true]
  have hperm := (@groupLoop_perm _ _ _ _ (nextMerged cols) key rows.zipIdx).filterMap fun entry =>
    entry.2.map fun merged => shown cidrOrderKey (resultRow cols merged)
  rw [hloop, hgroups, map_map, map_map]
  rw [filterMap_map, filterMap_map] at hperm
  refine (List.Perm.of_eq ?_).trans (hperm.trans (List.Perm.of_eq ?_))
  · rw [← filterMap_eq_map]
    rfl
  · rw [← filterMap_eq_map]
    refine filterMap_congr fun group hgroup => ?_
    obtain ⟨first, rest, hcons⟩ := exists_cons_of_ne_nil
      ((parts_groups key rows.zipIdx).nonempty group.2 (mem_map_of_mem hgroup))
    simp [hcons, shown_resultRow]

theorem mergedRows_perm (shards : Nat) (rows : List PartialRow) :
    (mergedRows cidrOrderKey types cols shards rows).Perm
        (accumulate cidrOrderKey types cols (fun _ => true) rows) := by
  unfold mergedRows
  by_cases hone : shards ≤ 1
  · rw [if_pos hone]
  rw [if_neg hone]
  have hshards := (@groupLoop_shards _ _ _ _ (nextMerged cols) (fun entry => rowKey cidrOrderKey types entry.1)
    (fun key => mergeShardOf key shards) shards (fun _ => Nat.mod_lt _ (by omega)) rows.zipIdx).map Prod.snd
  refine (mergeSort_perm _ _).trans ?_
  rw [map_flatMap] at hshards
  simpa only [accumulate, filter_true] using hshards

theorem reAggregatePartials_perm (procs : Nat) {rows : List PartialRow} (hcols : cols ≠ []) :
    ((reAggregatePartials cidrOrderKey types cols procs rows).map (shown cidrOrderKey)).Perm
      ((groups eqKey (rowKey cidrOrderKey types) rows).map fun group =>
        (firstKey cidrOrderKey group.2, mergedCells cols group.2)) := by
  cases rows with
  | nil => exact List.Perm.nil
  | cons row rest =>
    have hmerges : (isEmpty (row :: rest) || cols.isEmpty) = false := by simp [hcols]
    rw [reAggregatePartials, if_neg (by rw [hmerges]; decide), map_map]
    exact ((mergedRows_perm _ _).map _).trans (accumulate_perm _)

end Passes

variable {cidrOrderKey : Bytes → Bytes} {cols : List AggCol}

theorem inputAt_flatten (entry : AggCol × Nat) (pieces : List (List InputRow)) :
    inputAt entry pieces.flatten = (pieces.map (inputAt entry)).flatten := by
  rw [inputAt, filterMap_flatten]
  rfl

theorem measure_pieces {pieces : List (List InputRow)} (hne : pieces ≠ []) :
    combineValues (cols.map AggCol.func) (pieces.map (measure cols)) = measure cols pieces.flatten := by
  have hfuncs : cols.map AggCol.func = cols.zipIdx.map fun entry => entry.1.func := by
    conv_lhs => rw [← zipIdx_map_fst 0 cols, map_map]
    rfl
  rw [hfuncs]
  exact combineValues_pieces inputAt_flatten hne

theorem combines_measure : Combines (measure cols) (combineValues (cols.map AggCol.func)) where
  perm _ _ h := map_congr_left fun entry _ => entry.1.func.value_perm (h.filterMap _)
  pieces _ hne _ := measure_pieces hne

def combinedCells (cols : List AggCol) (group : List PartialRow) : List (Option Int) :=
  combineValues (cols.map AggCol.func) (group.map PartialRow.aggs)

-- Every batch is the aggregate of its part, in some order.
def Partials (cidrOrderKey : Bytes → Bytes) (cols : List AggCol) (parts : List (List InputRow))
    (batches : List (List PartialRow)) : Prop :=
  List.Forall₂ (fun part batch => (batch.map (shown cidrOrderKey)).Perm (sqlAggregate cidrOrderKey cols part))
    parts batches

variable {parts : List (List InputRow)} {batches : List (List PartialRow)}

theorem shown_perm (h : Partials cidrOrderKey cols parts batches) :
    (batches.flatten.map (shown cidrOrderKey)).Perm (parts.flatMap (sqlAggregate cidrOrderKey cols)) := by
  induction h with
  | nil => exact List.Perm.nil
  | cons hpart _ ih =>
    rw [flatten_cons, map_append]
    exact hpart.append ih

theorem sqlAggregate_perm (h : Partials cidrOrderKey cols parts batches) :
    (sqlAggregate cidrOrderKey cols parts.flatten).Perm
      ((groups eqKey (fun row => keyOf cidrOrderKey row.keys) batches.flatten).map fun group =>
        (group.1, combinedCells cols group.2)) := by
  have hregroup : regroup (combineValues (cols.map AggCol.func)) (batches.flatten.map (shown cidrOrderKey)) =
      (groups eqKey (fun row => keyOf cidrOrderKey row.keys) batches.flatten).map fun group =>
        (group.1, combinedCells cols group.2) := by
    rw [regroup, rollup, groups_map (shown cidrOrderKey) (fun row => keyOf cidrOrderKey row.keys) batches.flatten
      fun _ _ => rfl, map_map]
    refine map_congr_left fun group _ => ?_
    simp only [Function.comp_apply, map_map]
    rfl
  rw [← hregroup]
  refine (regroup_rollup combines_measure parts).symm.trans (rollup_congr (shown_perm h).symm ?_)
  intro entries entries' hperm
  exact map_congr_left fun entry _ => entry.1.combine_perm ((hperm.map _).map _)

end Wadjet.Coordinator.PartialMerge
