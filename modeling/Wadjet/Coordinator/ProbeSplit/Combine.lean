import Mathlib.Data.List.GetD
import Wadjet.Coordinator.ProbeSplit.Partials

namespace Wadjet.Coordinator.ProbeSplit

open Wadjet.Data List

private theorem find?_reverse_of_nodup {α κ : Type} [DecidableEq κ] {f : α → κ} {xs : List α} (h : (xs.map f).Nodup)
    {x : α} (hx : x ∈ xs) : xs.reverse.find? (fun y => f y = f x) = some x := by
  cases hfind : xs.reverse.find? fun y => f y = f x with
  | none => simpa using find?_eq_none.mp hfind x (mem_reverse.mpr hx)
  | some y =>
    have hy := mem_reverse.mp (mem_of_find?_eq_some hfind)
    have hsame : f y = f x := by simpa using find?_some hfind
    rw [inj_on_of_nodup_map h hy hx hsame]

private theorem mapM_some {α β : Type} {f : α → Option β} {g : α → β} {xs : List α}
    (h : ∀ x ∈ xs, f x = some (g x)) : xs.mapM f = some (xs.map g) := by
  induction xs with
  | nil => rfl
  | cons x xs ih =>
    have hrest := ih fun y hy => h y (mem_cons_of_mem _ hy)
    simp [h x mem_cons_self, hrest]

namespace Shows

variable {db : Database} {core child : Plan} {groupBy : List String} {aggExprs : List AggExpr} {mi : MergeInfo}
  {idxs : List Nat}

section

variable (h : Shows db core groupBy aggExprs child mi idxs)

include h

variable {m : Nat}

theorem getElem?_place (hm : m < mi.names.length) : idxs[idxs.idxOf m]? = some m :=
  List.getElem?_idxOf (h.places.mem_iff.mpr (mem_range.mpr hm))

theorem colIdx_eq {name : String}
    (hm : mi.names[m]? = some name) : colIdx (core.columns db) name = some (idxs.idxOf m) := by
  have hplace := h.getElem?_place (List.getElem?_eq_some_iff.mp hm).1
  refine colIdx_of_nodup (h.columns_perm.nodup_iff.mpr h.nodup) ?_
  rw [h.columns, getElem?_map, hplace]
  simp [hm]

theorem idxOf_inj {m' : Nat} (hm : m < mi.names.length)
    (hm' : m' < mi.names.length) (heq : idxs.idxOf m = idxs.idxOf m') : m = m' := by
  have hplace := h.getElem?_place hm
  rw [heq, h.getElem?_place hm'] at hplace
  exact (Option.some.inj hplace).symm

theorem names_length : mi.names.length = groupBy.length + aggExprs.length := by
  have hfuncs := congrArg List.length h.funcs
  simp only [length_map] at hfuncs
  simp [MergeInfo.names, h.length, hfuncs]

def groupPlaces (groupBy : List String) (idxs : List Nat) : List Nat :=
  (range groupBy.length).map (idxs.idxOf ·)

theorem mapM_colIdx :
    mi.groupBy.mapM (colIdx (core.columns db)) = some (groupPlaces groupBy idxs) := by
  have hall : mi.groupBy.mapM (colIdx (core.columns db)) =
      some (mi.groupBy.map fun name => idxs.idxOf (mi.names.idxOf name)) := by
    refine mapM_some fun name hname => h.colIdx_eq ?_
    exact List.getElem?_idxOf (mem_append_left _ hname)
  rw [hall, groupPlaces, ← h.length]
  congr 1
  apply ext_getElem
  · simp
  · intro i hi _
    have hi : i < mi.groupBy.length := by simpa using hi
    have hlt : i < mi.names.length := by
      rw [MergeInfo.names, length_append]
      omega
    have hget : mi.names[i] = mi.groupBy[i] := by simp [MergeInfo.names, getElem_append_left hi]
    simp [← hget, h.nodup.idxOf_getElem]

theorem aggCols_eq : aggCols (core.columns db) mi.aggExprs =
      (aggExprs.map AggExpr.func).zipIdx.map fun entry => (idxs.idxOf (groupBy.length + entry.2), entry.1) := by
  rw [← h.funcs, ← h.length]
  have hsome : ∀ entry ∈ mi.aggExprs.zipIdx, (colIdx (core.columns db) entry.1.outputCol).map
      (fun i => (i, entry.1.func)) = some (idxs.idxOf (mi.groupBy.length + entry.2), entry.1.func) := by
    intro entry hentry
    have hname : mi.names[mi.groupBy.length + entry.2]? = some entry.1.outputCol := by
      simp [MergeInfo.names, getElem?_append_right, mem_zipIdx_iff_getElem?.mp hentry]
    rw [h.colIdx_eq hname]
    rfl
  calc aggCols (core.columns db) mi.aggExprs
      = mi.aggExprs.zipIdx.filterMap fun entry =>
          (colIdx (core.columns db) entry.1.outputCol).map fun i => (i, entry.1.func) := by
        conv_lhs => rw [aggCols, ← zipIdx_map_fst 0 mi.aggExprs, filterMap_map]
        rfl
    _ = mi.aggExprs.zipIdx.filterMap fun entry =>
          some (idxs.idxOf (mi.groupBy.length + entry.2), entry.1.func) := filterMap_congr hsome
    _ = _ := by
        rw [filterMap_eq_map', zipIdx_map, map_map]
        rfl

theorem nodup_idxOf {ms : List Nat} (hms : ms.Nodup)
    (hlt : ∀ m ∈ ms, m < mi.names.length) : (ms.map (idxs.idxOf ·)).Nodup :=
  hms.map_on fun m hm m' hm' heq => h.idxOf_inj (hlt m hm) (hlt m' hm') heq

theorem find?_aggCols {q : Nat} {func : AggFunc}
    (hq : (aggExprs.map AggExpr.func)[q]? = some func) :
    (aggCols (core.columns db) mi.aggExprs).reverse.find?
      (fun col => col.1 = idxs.idxOf (groupBy.length + q)) = some (idxs.idxOf (groupBy.length + q), func) := by
  rw [h.aggCols_eq]
  refine find?_reverse_of_nodup (f := (Prod.fst : Nat × AggFunc → Nat)) (x := (_, func)) ?_
    (mem_map.mpr ⟨(func, q), ?_, rfl⟩)
  · have hplaces : ((aggExprs.map AggExpr.func).zipIdx.map fun entry =>
        (idxs.idxOf (groupBy.length + entry.2), entry.1)).map Prod.fst =
        ((range aggExprs.length).map (groupBy.length + ·)).map (idxs.idxOf ·) := by
      have hlen : aggExprs.length = (aggExprs.map AggExpr.func).length := (length_map _).symm
      rw [hlen, range_eq_range', ← zipIdx_map_snd 0]
      simp only [map_map, Function.comp_def]
    rw [hplaces]
    refine h.nodup_idxOf (nodup_range.map fun _ _ heq => Nat.add_left_cancel heq) fun m hm => ?_
    obtain ⟨i, hi, rfl⟩ := mem_map.mp hm
    rw [h.names_length]
    have := mem_range.mp hi
    omega
  · exact mem_zipIdx_iff_getElem?.mpr hq

theorem find?_aggCols_of_lt (hm : m < groupBy.length) :
    (aggCols (core.columns db) mi.aggExprs).reverse.find? (fun col => col.1 = idxs.idxOf m) = none := by
  rw [h.aggCols_eq, find?_eq_none]
  intro col hcol heq
  obtain ⟨entry, hentry, rfl⟩ := mem_map.mp (mem_reverse.mp hcol)
  have hi := (List.getElem?_eq_some_iff.mp (mem_zipIdx_iff_getElem?.mp hentry)).1
  rw [length_map] at hi
  have hlen := h.names_length
  have := h.idxOf_inj (by omega) (by omega) (of_decide_eq_true heq)
  omega

theorem mergedRow_eq (key : List Cell)
    (hkey : key.length = groupBy.length) (entries : List (List Cell × List Cell))
    (hentries : ∀ entry ∈ entries, entry.1.length = groupBy.length) :
    mergedRow (core.columns db) (groupPlaces groupBy idxs) (aggCols (core.columns db) mi.aggExprs) key
        (entries.map fun entry => picks idxs (entry.1 ++ entry.2)) =
      picks idxs (key ++ combineValues (aggExprs.map AggExpr.func) (entries.map Prod.snd)) := by
  have hlen : (core.columns db).length = idxs.length := by rw [h.columns, length_map]
  rw [mergedRow, picks, hlen]
  apply ext_getElem
  · simp
  intro j hj _
  have hj : j < idxs.length := by simpa using hj
  have hm : idxs[j] < mi.names.length := mem_range.mp (h.places.mem_iff.mp (getElem_mem hj))
  have hnodup : idxs.Nodup := h.places.nodup_iff.mpr nodup_range
  have hplace : idxs.idxOf idxs[j] = j := hnodup.idxOf_getElem j hj
  rw [getElem_map, getElem_map, getElem_range]
  generalize hidx : idxs[j] = m at hm hplace
  have hlen := h.names_length
  by_cases hgroup : m < groupBy.length
  · have hfind := h.find?_aggCols_of_lt hgroup
    have hkeys : (groupPlaces groupBy idxs).idxOf? j = some m := by
      refine idxOf?_of_nodup (h.nodup_idxOf nodup_range fun i hi => ?_) ?_
      · have := mem_range.mp hi
        omega
      · simp [hgroup, hplace]
    rw [hplace] at hfind
    rw [hfind]
    simp only [hkeys]
    rw [getD_append _ _ _ _ (by omega)]
  · obtain ⟨q, rfl⟩ : ∃ q, m = groupBy.length + q := ⟨m - groupBy.length, by omega⟩
    obtain ⟨func, hfunc⟩ : ∃ func, (aggExprs.map AggExpr.func)[q]? = some func :=
      ⟨_, getElem?_eq_getElem (by rw [length_map]; omega)⟩
    have hfind := h.find?_aggCols hfunc
    rw [hplace] at hfind
    rw [hfind, getD_append_right _ _ _ _ (by omega), hkey]
    have hcells : cellsAt j (entries.map fun entry => picks idxs (entry.1 ++ entry.2)) =
        (entries.map Prod.snd).map fun cells => cells.getD q none := by
      simp only [cellsAt, map_map, Function.comp_def]
      refine map_congr_left fun entry hentry => ?_
      have hget : (picks idxs (entry.1 ++ entry.2)).getD j none =
          (entry.1 ++ entry.2).getD (groupBy.length + q) none := by
        simp [picks, getElem?_eq_getElem hj, hidx]
      rw [hget, getD_append_right _ _ _ _ (by rw [hentries entry hentry]; omega), hentries entry hentry,
        Nat.add_sub_cancel_left]
    simp only [hcells, combineValues]
    simp [hfunc]

end

variable {columns : List String} {rows : List Row}

theorem mergedRow_perm {groupIdx : List Nat} {aggs : List (Nat × AggFunc)} (key : List Cell)
    {rows' : List Row} (hperm : rows.Perm rows') :
    mergedRow columns groupIdx aggs key rows = mergedRow columns groupIdx aggs key rows' := by
  refine map_congr_left fun i _ => ?_
  split
  · exact AggFunc.combine_perm _ (hperm.map _)
  · rfl

section

variable (h : Shows db core groupBy aggExprs child mi idxs)

include h

theorem key_picks {key values : List Cell} (hkey : key.length = groupBy.length) :
    (groupPlaces groupBy idxs).map (fun i => (picks idxs (key ++ values)).getD i none) = key := by
  apply ext_getElem
  · simp [groupPlaces, hkey]
  intro m hm hm'
  have hlen := h.names_length
  have hplace := h.getElem?_place (show m < mi.names.length by omega)
  have hget : (groupPlaces groupBy idxs)[m]? = some (idxs.idxOf m) := by
    simp [groupPlaces, show m < groupBy.length by omega]
  have hcell : (picks idxs (key ++ values)).getD (idxs.idxOf m) none = key[m] := by
    simp [picks, hplace, getElem?_append_left hm', getElem?_eq_getElem hm']
  rw [getElem_map, (List.getElem?_eq_some_iff.mp hget).2, hcell]

theorem aggCols_ne_nil (hne : aggExprs ≠ []) :
    (aggCols (core.columns db) mi.aggExprs).isEmpty = false := by
  rw [h.aggCols_eq]
  simpa using hne

theorem isEmpty_aggExprs : mi.aggExprs.isEmpty = aggExprs.isEmpty := by
  have hfuncs := congrArg isEmpty h.funcs
  simpa using hfuncs

theorem reAggregatePartials_perm (hne : aggExprs ≠ [])
    (hgroup : groupBy ≠ []) (hmerge : ∀ agg ∈ aggExprs, agg.Mergeable)
    {tables : List (List Row)}
    (hrows : rows.Perm ((tables.flatMap (aggregateRows columns groupBy aggExprs)).map (picks idxs))) :
    ∃ combined, reAggregatePartials (core.columns db) mi rows = some combined ∧
      combined.Perm ((aggregateRows columns groupBy aggExprs tables.flatten).map (picks idxs)) := by
  let build : List Cell × List Cell → Row := fun entry => picks idxs (entry.1 ++ entry.2)
  let entries := tables.flatMap (rollup (groupKey columns groupBy) (aggValues columns aggExprs))
  have hshown : ∀ input, (aggregateRows columns groupBy aggExprs input).map (picks idxs) =
      (rollup (groupKey columns groupBy) (aggValues columns aggExprs) input).map build := by
    intro input
    rw [aggregateRows, if_neg (by simpa using hgroup), map_map]
    rfl
  have hentries : rows.Perm (entries.map build) := by
    refine hrows.trans (List.Perm.of_eq ?_)
    rw [map_flatMap, map_flatMap]
    exact flatMap_congr fun table _ => hshown table
  have hlength : ∀ entry ∈ entries, entry.1.length = groupBy.length := by
    intro entry hentry
    obtain ⟨table, -, hentry⟩ := mem_flatMap.mp hentry
    exact length_fst_of_mem_rollup hentry
  have hempty : mi.aggExprs.isEmpty = false := by
    rw [h.isEmpty_aggExprs]
    simpa using hne
  rw [reAggregatePartials, hempty, h.mapM_colIdx]
  simp only [h.aggCols_ne_nil hne]
  refine ⟨_, rfl, ?_⟩
  refine (groups_map_congr (mergedRow _ _ _) (fun key _ _ => mergedRow_perm key) hentries).trans ?_
  rw [groups_map build Prod.fst entries fun entry hentry => h.key_picks (hlength entry hentry), map_map, hshown]
  refine List.Perm.trans (List.Perm.of_eq ?_) ((regroup_rollup (combines_aggValues hmerge) tables).map build)
  rw [regroup, rollup, map_map]
  refine map_congr_left fun group hmem => ?_
  obtain ⟨k, hk, rfl⟩ := mem_map.mp hmem
  obtain ⟨entry, hentry, rfl⟩ := mem_map.mp ((mem_distinctBy _ k).mp hk)
  exact h.mergedRow_eq entry.1 (hlength entry hentry) _ fun other hother =>
    hlength other (mem_filter.mp hother).1

theorem cellsAt_picks {m : Nat} (hm : m < mi.names.length) (rows : List Row) :
    cellsAt (idxs.idxOf m) (rows.map (picks idxs)) = rows.map fun row => row.getD m none := by
  have hplace := h.getElem?_place hm
  rw [cellsAt, map_map]
  simp [picks, hplace]

end

theorem mergeScalarAggregates_eq (h : Shows db core [] aggExprs child mi idxs) (hne : aggExprs ≠ [])
    (hmerge : ∀ agg ∈ aggExprs, agg.Mergeable) {tables : List (List Row)}
    (htables : tables ≠ [])
    (hrows : rows.Perm ((tables.map (aggValues columns aggExprs)).map (picks idxs))) :
    mergeScalarAggregates (core.columns db) mi rows = [picks idxs (aggValues columns aggExprs tables.flatten)] := by
  have hempty : mi.aggExprs.isEmpty = false := by
    rw [h.isEmpty_aggExprs]
    simpa using hne
  rw [mergeScalarAggregates, hempty]
  have hlen : rows.length = tables.length := by simpa using hrows.length_eq
  by_cases hone : rows.length ≤ 1
  · obtain ⟨table, rfl⟩ : ∃ table, tables = [table] := by
      refine length_eq_one_iff.mp ?_
      have := length_pos_iff.mpr htables
      omega
    rw [if_pos (by simpa using hone)]
    simpa using hrows
  · rw [if_neg (by simpa using hone), ← combineValues_aggValues hmerge htables]
    refine congrArg (fun row => [row]) ?_
    have hnames : mi.names = mi.aggExprs.map AggExpr.outputCol := by
      have hlength := h.length
      rw [MergeInfo.names, eq_nil_of_length_eq_zero hlength, nil_append]
    have hshown : ∀ value : String → Cell,
        (core.columns db).map value = idxs.map fun m => value (mi.names.getD m "") := by
      intro value
      rw [h.columns, map_map]
      rfl
    refine (hshown _).trans (map_congr_left fun m hm => ?_)
    have hlt : m < mi.names.length := mem_range.mp (h.places.mem_iff.mp hm)
    have hagg : m < mi.aggExprs.length := by simpa [hnames] using hlt
    have hname : mi.names[m]? = some mi.aggExprs[m].outputCol := by simp [hnames, hagg]
    have hfind := find?_reverse_of_nodup (f := AggExpr.outputCol) (hnames ▸ h.nodup) (getElem_mem hagg)
    have hfunc : (aggExprs.map AggExpr.func)[m]? = some mi.aggExprs[m].func := by simp [← h.funcs, hagg]
    have hcells : (cellsAt (idxs.idxOf m) rows).Perm
        ((tables.map (aggValues columns aggExprs)).map fun row => row.getD m none) :=
      (hrows.map _).trans (List.Perm.of_eq (h.cellsAt_picks hlt _))
    simp only [getD, hname, Option.getD_some, hfind, h.colIdx_eq hname, Option.map_some,
        AggFunc.combine_perm _ hcells]
    simp [combineValues, hfunc]

end Shows

end Wadjet.Coordinator.ProbeSplit
